/-
# Prefetch.TraceFile.Format — the bytes of a trace file and the calls that move them

A trace file is `struct prefetch_trace_header`, then, from `data_start` on, an array of records as they
lie in memory. `prefetch_core.h` and `prefetch_types.h` declare both structures alike ("please keep in
sync"), so how they are laid out depends on the machine alone: its byte order and its word.

A read or write call fails with an error code or moves some of the bytes it is asked to move; which of the
two, and how many, is up to a schedule of outcomes.
-/
import Prefetch.Core.Buffer
import Prefetch.Lib.Codec
import Prefetch.Lib.Transfers
import Mathlib.Data.Fin.VecNotation

namespace Prefetch.TraceFile

open Prefetch.Core Codec Transfers

variable {M : Machine} (e : Endian)

/-! ## §1 — the header -/

/-- `struct prefetch_trace_header` -/
structure PrefetchTraceHeader where
  magic : Fin 4 → UInt8
  versionMajor : BitVec 16
  versionMinor : BitVec 16
  dataStart : BitVec 16
  deriving DecidableEq

/-- `trace_file_magic`: the letters PFCH. -/
def traceFileMagic : Fin 4 → UInt8 := ![80, 70, 67, 72]

def PREFETCH_FORMAT_VERSION_MAJOR : BitVec 16 := 1
def PREFETCH_FORMAT_VERSION_MINOR : BitVec 16 := 0

/-- `sizeof(struct prefetch_trace_header)`: no field needs padding. -/
def sizeofHeader : ℕ := 10

/-- The fields of the header, in order. -/
def headerFields :
    (Fin 4 → UInt8) × BitVec 16 × BitVec 16 × BitVec 16 ≃ PrefetchTraceHeader where
  toFun f := ⟨f.1, f.2.1, f.2.2.1, f.2.2.2⟩
  invFun h := (h.magic, h.versionMajor, h.versionMinor, h.dataStart)
  left_inv _ := rfl
  right_inv _ := rfl

/-- The header in memory. -/
def headerCodec : Codec PrefetchTraceHeader :=
  ofEquiv (pair (bytes 4) (pair (word e 2) (pair (word e 2) (word e 2)))) headerFields

/-- The header `prefetch_save_trace_fragment` fills in. -/
def savedHeader : PrefetchTraceHeader where
  magic := traceFileMagic
  versionMajor := PREFETCH_FORMAT_VERSION_MAJOR
  versionMinor := PREFETCH_FORMAT_VERSION_MINOR
  dataStart := BitVec.ofNat 16 sizeofHeader

/-- The header as the readers of a file see it. -/
def headerOf (file : List UInt8) : PrefetchTraceHeader :=
  (headerCodec e).decode (file.take sizeofHeader)

/-- `prefetch_save_trace_fragment`'s header in memory. -/
def headerBytes : List UInt8 := (headerCodec e).encode savedHeader

@[simp] theorem length_headerBytes : (headerBytes e).length = sizeofHeader :=
  (headerCodec e).length_encode savedHeader

/-- The header of a file that begins with it. -/
theorem headerOf_saved (rest : List UInt8) : headerOf e (headerBytes e ++ rest) = savedHeader := by
  unfold headerOf
  rw [List.take_left' (length_headerBytes e)]
  exact (headerCodec e).decode_encode savedHeader

/-- `strncmp` on two character arrays of the length compared. -/
def strncmp : List UInt8 → List UInt8 → ℤ
  | a :: as, b :: bs =>
      if a ≠ b then (a.toNat : ℤ) - b.toNat
      else if a = 0 then 0
      else strncmp as bs
  | _, _ => 0

theorem strncmp_eq_zero_iff {as bs : List UInt8} (hlen : as.length = bs.length) (hbs : 0 ∉ bs) :
    strncmp as bs = 0 ↔ as = bs := by
  induction as generalizing bs with
  | nil =>
      have hnil : bs = [] := List.length_eq_zero_iff.mp hlen.symm
      subst hnil
      simp [strncmp]
  | cons a as ih =>
      cases bs with
      | nil => simp at hlen
      | cons b bs =>
          rw [List.mem_cons, not_or] at hbs
          rw [List.length_cons, List.length_cons, Nat.add_right_cancel_iff] at hlen
          by_cases hab : a = b
          · subst hab
            simp [strncmp, Ne.symm hbs.1, ih hlen hbs.2]
          · have hne : (a.toNat : ℤ) - b.toNat ≠ 0 := by
              intro h
              apply hab
              apply UInt8.toNat_inj.mp
              omega
            simp [strncmp, hab, hne]

/-- What both readers ask of a header. -/
structure PrefetchTraceHeader.Accepted (h : PrefetchTraceHeader) : Prop where
  magic : h.magic = traceFileMagic
  versionMajor : h.versionMajor = PREFETCH_FORMAT_VERSION_MAJOR
  dataStart : sizeofHeader ≤ h.dataStart.toNat

theorem strncmp_magic_iff (h : PrefetchTraceHeader) :
    strncmp (List.ofFn h.magic) (List.ofFn traceFileMagic) = 0 ↔ h.magic = traceFileMagic := by
  rw [strncmp_eq_zero_iff (by simp) (by decide)]
  exact List.ofFn_injective.eq_iff

instance (h : PrefetchTraceHeader) : Decidable h.Accepted :=
  decidable_of_iff (h.magic = traceFileMagic ∧ h.versionMajor = PREFETCH_FORMAT_VERSION_MAJOR ∧
      sizeofHeader ≤ h.dataStart.toNat)
    ⟨fun ⟨magic, major, start⟩ => ⟨magic, major, start⟩,
      fun hacc => ⟨hacc.magic, hacc.versionMajor, hacc.dataStart⟩⟩

/-- The checks, one after the other, as both readers make them. -/
theorem checks_eq {α : Type*} (h : PrefetchTraceHeader) (accept reject : α) :
    (if strncmp (List.ofFn h.magic) (List.ofFn traceFileMagic) ≠ 0 then reject
      else if h.versionMajor ≠ PREFETCH_FORMAT_VERSION_MAJOR then reject
      else if h.dataStart.toNat < sizeofHeader then reject
      else accept) = if h.Accepted then accept else reject := by
  by_cases hmagic : h.magic = traceFileMagic
  swap
  · rw [if_pos fun hcmp => hmagic ((strncmp_magic_iff h).mp hcmp),
      if_neg fun hacc : h.Accepted => hmagic hacc.magic]
  rw [if_neg (not_not.mpr ((strncmp_magic_iff h).mpr hmagic))]
  by_cases hversion : h.versionMajor = PREFETCH_FORMAT_VERSION_MAJOR
  swap
  · rw [if_pos hversion, if_neg fun hacc : h.Accepted => hversion hacc.versionMajor]
  rw [if_neg (not_not.mpr hversion)]
  by_cases hstart : h.dataStart.toNat < sizeofHeader
  · rw [if_pos hstart, if_neg fun hacc : h.Accepted => absurd hacc.dataStart (not_le.mpr hstart)]
  · have hacc : h.Accepted := ⟨hmagic, hversion, not_lt.mp hstart⟩
    rw [if_neg hstart, if_pos hacc]

theorem savedHeader_accepted : savedHeader.Accepted :=
  ⟨rfl, rfl, by decide⟩

/-! ## §2 — the records -/

/-- A word of the machine in memory. -/
def machineWord : (M : Machine) → Codec (BitVec M.bits)
  | .bits32 => word e 4
  | .bits64 => word e 8

/-- Bytes of padding between `device` and `inode_no`. -/
def paddingBytes : Machine → ℕ
  | .bits32 => 0
  | .bits64 => 4

/-- A record as it lies in memory, the padding holding whatever was there. -/
structure RecordImage (M : Machine) where
  record : Record M
  padding : Fin (paddingBytes M) → UInt8
  deriving DecidableEq

/-- The fields of the record, in order. -/
def recordFields :
    BitVec 32 × (Fin (paddingBytes M) → UInt8) × BitVec M.bits × BitVec M.bits × BitVec M.bits ≃
      RecordImage M where
  toFun f := ⟨⟨f.1, f.2.2.1, f.2.2.2.1, f.2.2.2.2⟩, f.2.1⟩
  invFun r := (r.record.device, r.padding, r.record.inodeNo, r.record.rangeStart, r.record.rangeLength)
  left_inv _ := rfl
  right_inv _ := rfl

/-- The record in memory. -/
def recordCodec (M : Machine) : Codec (RecordImage M) :=
  ofEquiv (pair (word e 4) (pair (bytes (paddingBytes M))
    (pair (machineWord e M) (pair (machineWord e M) (machineWord e M))))) recordFields

@[simp] theorem recordCodec_width : (recordCodec e M).width = M.sizeofRecord := by
  cases M <;> rfl

/-- The records in a block of memory. -/
def recordsIn (M : Machine) (block : List UInt8) : List (Record M) :=
  ((recordCodec e M).decodeAll block).map RecordImage.record

/-- The images of some records, `padding i` in the padding of the `i`-th. -/
def recordImages (padding : ℕ → Fin (paddingBytes M) → UInt8) (records : List (Record M)) :
    List (RecordImage M) :=
  records.mapIdx fun i r => ⟨r, padding i⟩

@[simp] theorem length_recordImages (padding : ℕ → Fin (paddingBytes M) → UInt8)
    (records : List (Record M)) : (recordImages padding records).length = records.length :=
  List.length_mapIdx

@[simp] theorem record_recordImages (padding : ℕ → Fin (paddingBytes M) → UInt8)
    (records : List (Record M)) :
    (recordImages padding records).map RecordImage.record = records := by
  apply List.ext_getElem
  · simp
  · intro i hi _
    simp [recordImages]

/-- **A block of records holds them, whatever their padding.** -/
theorem recordsIn_encodeAll (images : List (RecordImage M)) :
    recordsIn e M ((recordCodec e M).encodeAll images) = images.map RecordImage.record := by
  unfold recordsIn
  rw [decodeAll_encodeAll _ (by rw [recordCodec_width]; exact Machine.sizeofRecord_pos)]

/-! ## §3 — the calls -/

/-- An error code as calls return it: a negative number. -/
structure Errno where
  code : ℤ
  negative : code < 0
  deriving DecidableEq

/-- The bytes of a file at an offset. -/
def readAt (file : List UInt8) (offset count : ℕ) : List UInt8 := (file.drop offset).take count

/-- The file after bytes are written at an offset: a gap before them is filled with zeroes, and writing
nothing leaves the file as it is. -/
def writeAt (file : List UInt8) (offset : ℕ) (block : List UInt8) : List UInt8 :=
  if block = [] then file
  else
    file.take offset ++ List.replicate (offset - file.length) 0 ++ block ++
      file.drop (offset + block.length)

/-- Writing at the end of a file. -/
theorem writeAt_length (file block : List UInt8) : writeAt file file.length block = file ++ block := by
  by_cases h : block = [] <;> simp [writeAt, h]

/-- `kernel_read`, and `read` but for the -1 it returns for every error: the result and the bytes read. -/
def kernelRead (file : List UInt8) (outcome : Outcome Errno) (offset count : ℕ) : ℤ × List UInt8 :=
  let there := readAt file offset count
  match outcome with
  | .error err => (err.code, [])
  | .short n => ((min n there.length : ℕ), there.take n)
  | .full => (there.length, there)

/-- `kernel_write`: the result and the file after it. -/
def kernelWrite (file : List UInt8) (outcome : Outcome Errno) (offset : ℕ) (block : List UInt8) :
    ℤ × List UInt8 :=
  match outcome with
  | .error err => (err.code, file)
  | .short n => ((min n block.length : ℕ), writeAt file offset (block.take n))
  | .full => (block.length, writeAt file offset block)

/-- A read that does not fail returns what it moved of the bytes there. -/
theorem kernelRead_of_not_error {outcome : Outcome Errno} (h : outcome.isError = false)
    (file : List UInt8) (offset count : ℕ) :
    kernelRead file outcome offset count =
      (((outcome.moved (readAt file offset count).length : ℕ) : ℤ),
        (readAt file offset count).take (outcome.moved (readAt file offset count).length)) := by
  cases outcome with
  | error err => cases h
  | short n => simp [kernelRead, Outcome.moved, List.take_eq_take_iff]
  | full => simp [kernelRead, Outcome.moved]

/-- A write that does not fail returns what it moved of the block. -/
theorem kernelWrite_of_not_error {outcome : Outcome Errno} (h : outcome.isError = false)
    (file : List UInt8) (offset : ℕ) (block : List UInt8) :
    kernelWrite file outcome offset block =
      (((outcome.moved block.length : ℕ) : ℤ),
        writeAt file offset (block.take (outcome.moved block.length))) := by
  cases outcome with
  | error err => cases h
  | short n =>
      have htake : block.take (min n block.length) = block.take n :=
        List.take_eq_take_iff.mpr (by simp)
      simp [kernelWrite, Outcome.moved, htake]
  | full => simp [kernelWrite, Outcome.moved]

/-- A write that fails returns a negative number and leaves the file as it is. -/
theorem kernelWrite_of_error {outcome : Outcome Errno} (h : outcome.isError = true) :
    ∃ err : ℤ, err < 0 ∧ ∀ file offset block, kernelWrite file outcome offset block = (err, file) := by
  cases outcome with
  | error err => exact ⟨err.code, err.negative, fun _ _ _ => rfl⟩
  | short n => cases h
  | full => cases h

end Prefetch.TraceFile

/-
# Prefetch.TraceFile.KernelFile — saving and loading a trace in the kernel (`prefetch_core.c`)

`prefetch_save_trace_fragment` writes the header with one call and the fragment with a loop of calls;
`prefetch_load_trace_fragment` reads the header with one call and the fragment with a loop. Both loops ask
for what is left, so `Prefetch.Lib.Transfers` says what becomes of them: the writing loop has no other way
to end than an error or the last byte, the reading one also ends at the end of the file.

The calls around the loops are where saving and loading part: a header that is written short is reported
by the number of bytes written, which is not negative, and a header that is read short is an error.
-/
import Prefetch.TraceFile.Format

namespace Prefetch.TraceFile

open Prefetch.Core Codec Transfers

variable {M : Machine} (e : Endian)

/-! ## §1 — the two functions -/

def ETXTBSY : ℤ := 26

/-- The loop of `prefetch_save_trace_fragment` that writes the fragment: `call` writes are done, `written`
bytes of the fragment are in the file and `ret` is what the last call returned. It is still going where
the fuel runs out. -/
def writeFragment (fragment : List UInt8) (dataStart : ℕ) (writes : ℕ → Outcome Errno) :
    ℕ → ℕ → ℕ → ℤ → List UInt8 → Option (ℤ × List UInt8)
  | 0, _, _, _, _ => none
  | fuel + 1, call, written, ret, file =>
      if written < fragment.length then
        let done := kernelWrite file (writes call) (dataStart + written) (fragment.drop written)
        if done.1 < 0 then some done
        else
          writeFragment fragment dataStart writes fuel (call + 1) (written + done.1.toNat) done.1 done.2
      else some (ret, file)

/-- `prefetch_save_trace_fragment`: what it returns and the file it leaves, `old` being what was there
before. `kernel_open` fails or truncates the file. -/
def prefetchSaveTraceFragment (opened : Option Errno) (old fragment : List UInt8)
    (writes : ℕ → Outcome Errno) (fuel : ℕ) : Option (ℤ × List UInt8) :=
  match opened with
  | some err => some (err.code, old)
  | none =>
      let header := kernelWrite [] (writes 0) 0 (headerBytes e)
      if header.1 < 0 ∨ header.1 ≠ sizeofHeader then some header
      else
        writeFragment fragment sizeofHeader (fun call => writes (call + 1)) fuel 0 0 header.1 header.2

/-- The loop of `prefetch_load_trace_fragment`: `data` is read already and `call` reads are done. A call
that reads nothing breaks out of it. -/
def readFragment (file : List UInt8) (dataStart rawDataSize : ℕ) (reads : ℕ → Outcome Errno)
    (call : ℕ) (data : List UInt8) : Except ℤ (List UInt8) :=
  if data.length < rawDataSize then
    let got := kernelRead file (reads call) (dataStart + data.length) (rawDataSize - data.length)
    if got.1 < 0 then .error got.1
    else
      match got.2 with
      | [] => .ok data
      | b :: bs => readFragment file dataStart rawDataSize reads (call + 1) (data ++ b :: bs)
  else .ok data
termination_by rawDataSize - data.length
decreasing_by
  simp only [List.length_append, List.length_cons]
  omega

/-- `prefetch_load_trace_fragment` once the header is checked: the data from `dataStart` on. `memory` says
whether there are pages for it. -/
def loadData (memory : Bool) (file : List UInt8) (reads : ℕ → Outcome Errno)
    (fileSize dataStart : BitVec 32) : Except ℤ (List UInt8) :=
  let rawDataSize := fileSize - dataStart
  if rawDataSize.toInt < 0 then .error (-EINVAL)
  else if rawDataSize = 0 then .error (-EINVAL)
  else if allocTraceBuffer rawDataSize memory = false then .error (-ENOMEM)
  else
    match readFragment file dataStart.toNat rawDataSize.toNat reads 0 [] with
    | .error ret => .error ret
    | .ok data => if data.length = rawDataSize.toNat then .ok data else .error (-ETXTBSY)

/-- `prefetch_load_trace_fragment`: an error code, or the trace data. The size of the file is an int. -/
def prefetchLoadTraceFragment (opened : Option Errno) (memory : Bool) (file : List UInt8)
    (reads : ℕ → Outcome Errno) : Except ℤ (List UInt8) :=
  match opened with
  | some err => .error err.code
  | none =>
      let fileSize := BitVec.ofNat 32 file.length
      let got := kernelRead file (reads 0) 0 sizeofHeader
      if got.1 < 0 ∨ got.1 ≠ sizeofHeader then .error (-EINVAL)
      else
        let header := (headerCodec e).decode got.2
        if strncmp (List.ofFn header.magic) (List.ofFn traceFileMagic) ≠ 0 then .error (-EINVAL)
        else if header.versionMajor ≠ PREFETCH_FORMAT_VERSION_MAJOR then .error (-EINVAL)
        else if header.dataStart.toNat < sizeofHeader then .error (-EINVAL)
        else
          loadData memory file (fun call => reads (call + 1)) fileSize (header.dataStart.setWidth 32)

/-! ## §2 — the loop that writes -/

variable {fragment : List UInt8} {dataStart : ℕ} {writes : ℕ → Outcome Errno}

/-- One more turn of the loop: the next part of the fragment is at the end of the file. -/
theorem writeFragment_turn {fuel call written : ℕ} {ret : ℤ} {start : List UInt8}
    (hstart : start.length = dataStart) (hleft : written < fragment.length)
    (hok : (writes call).isError = false) :
    writeFragment fragment dataStart writes (fuel + 1) call written ret
        (start ++ fragment.take written) =
      writeFragment fragment dataStart writes fuel (call + 1)
        (written + (writes call).moved (fragment.length - written))
        ((writes call).moved (fragment.length - written) : ℕ)
        (start ++ fragment.take (written + (writes call).moved (fragment.length - written))) := by
  have hend : dataStart + written = (start ++ fragment.take written).length := by
    simp only [List.length_append, List.length_take, hstart]
    omega
  have hmoved := kernelWrite_of_not_error hok (start ++ fragment.take written) (dataStart + written)
    (fragment.drop written)
  rw [hend, writeAt_length, ← hend, List.length_drop] at hmoved
  rw [writeFragment, if_pos hleft, hmoved]
  simp only [Int.toNat_natCast]
  rw [if_neg (by omega), List.append_assoc, ← List.take_add]

/-- **Up to any call it comes to, the loop has written what the calls before moved.** -/
theorem writeFragment_reaches {start : List UInt8} (hstart : start.length = dataStart) {ret : ℤ}
    (hret : 0 ≤ ret) {k : ℕ} (hk : Reaches fragment.length writes k) :
    ∃ last : ℤ, 0 ≤ last ∧ ∀ fuel,
      writeFragment fragment dataStart writes (fuel + k) 0 0 ret start =
        writeFragment fragment dataStart writes fuel k (progress fragment.length writes k) last
          (start ++ fragment.take (progress fragment.length writes k)) := by
  induction k with
  | zero =>
      refine ⟨ret, hret, fun fuel => ?_⟩
      simp [progress]
  | succ k ih =>
      obtain ⟨last, hlast, hrun⟩ := ih fun i hi => hk i (Nat.lt_succ_of_lt hi)
      obtain ⟨hok, hleft⟩ := hk k (Nat.lt_succ_self k)
      rw [← progress_lt_iff] at hleft
      refine ⟨((writes k).moved (fragment.length - progress fragment.length writes k) : ℕ),
        Int.natCast_nonneg _, fun fuel => ?_⟩
      rw [show fuel + (k + 1) = fuel + 1 + k by omega, hrun, writeFragment_turn hstart hleft hok]
      rfl

/-- A loop whose calls complete the fragment ends with all of it in the file. -/
theorem writeFragment_completes {start : List UInt8} (hstart : start.length = dataStart) {ret : ℤ}
    (hret : 0 ≤ ret) (h : Completes fragment.length writes) :
    ∃ last : ℤ, 0 ≤ last ∧ ∃ enough, ∀ fuel ≥ enough,
      writeFragment fragment dataStart writes fuel 0 0 ret start = some (last, start ++ fragment) := by
  obtain ⟨k, hk, hdone⟩ := h
  obtain ⟨last, hlast, hrun⟩ := writeFragment_reaches hstart hret hk
  have hall : progress fragment.length writes k = fragment.length := by
    rw [progress_eq]
    exact min_eq_left hdone
  refine ⟨last, hlast, k + 1, fun fuel hfuel => ?_⟩
  obtain ⟨more, rfl⟩ := Nat.exists_eq_add_of_le hfuel
  rw [show k + 1 + more = more + 1 + k by omega, hrun, hall, List.take_length, writeFragment,
    if_neg (lt_irrefl _)]

/-- A loop one of whose calls fails ends with its error. -/
theorem writeFragment_fails {start : List UInt8} (hstart : start.length = dataStart) {ret : ℤ}
    (hret : 0 ≤ ret) (h : Fails fragment.length writes) :
    ∃ (err : ℤ) (file : List UInt8), err < 0 ∧ ∃ enough, ∀ fuel ≥ enough,
      writeFragment fragment dataStart writes fuel 0 0 ret start = some (err, file) := by
  obtain ⟨k, hk, hleft, herr⟩ := h
  obtain ⟨last, -, hrun⟩ := writeFragment_reaches hstart hret hk
  rw [← progress_lt_iff] at hleft
  obtain ⟨err, hneg, herror⟩ := kernelWrite_of_error herr
  refine ⟨err, start ++ fragment.take (progress fragment.length writes k), hneg, k + 1,
    fun fuel hfuel => ?_⟩
  obtain ⟨more, rfl⟩ := Nat.exists_eq_add_of_le hfuel
  rw [show k + 1 + more = more + 1 + k by omega, hrun, writeFragment, if_pos hleft, herror]
  exact if_pos hneg

/-- A loop that neither completes the fragment nor meets an error does not end. -/
theorem writeFragment_stalls {start : List UInt8} (hstart : start.length = dataStart) {ret : ℤ}
    (hret : 0 ≤ ret) (h : Stalls fragment.length writes) (fuel : ℕ) :
    writeFragment fragment dataStart writes fuel 0 0 ret start = none := by
  obtain ⟨last, -, hrun⟩ := writeFragment_reaches hstart hret (h fuel)
  have hzero := hrun 0
  rw [Nat.zero_add] at hzero
  rw [hzero]
  rfl

/-! ## §3 — loading -/

variable {file : List UInt8} {reads : ℕ → Outcome Errno} {memory : Bool}

theorem length_readAt {offset count : ℕ} (h : offset + count ≤ file.length) :
    (readAt file offset count).length = count := by
  simp only [readAt, List.length_take, List.length_drop]
  omega

theorem readAt_add (offset count more : ℕ) :
    readAt file offset (count + more) = readAt file offset count ++ readAt file (offset + count) more := by
  unfold readAt
  rw [List.take_add, List.drop_drop]

/-- A turn of the loop whose call fails. -/
theorem readFragment_error (file : List UInt8) (dataStart : ℕ) {rawDataSize call : ℕ} {data : List UInt8}
    (hmore : data.length < rawDataSize) (herr : (reads call).isError = true) :
    ∃ ret, readFragment file dataStart rawDataSize reads call data = .error ret := by
  cases hread : reads call with
  | error err =>
      refine ⟨err.code, ?_⟩
      rw [readFragment, if_pos hmore, hread]
      exact if_pos err.negative
  | short n => simp [hread, Outcome.isError] at herr
  | full => simp [hread, Outcome.isError] at herr

/-- **A turn of the loop whose call does not fail**, where what is asked for is there: it ends if nothing is
moved, and goes on with what is moved. -/
theorem readFragment_turn {rawDataSize call : ℕ} {data : List UInt8}
    (hfits : dataStart + rawDataSize ≤ file.length) (hmore : data.length < rawDataSize)
    (hok : (reads call).isError = false) {n : ℕ}
    (hn : (reads call).moved (rawDataSize - data.length) = n) :
    readFragment file dataStart rawDataSize reads call data =
      if n = 0 then .ok data
      else
        readFragment file dataStart rawDataSize reads (call + 1)
          (data ++ readAt file (dataStart + data.length) n) := by
  have hle : n ≤ rawDataSize - data.length := by
    rw [← hn]
    exact Outcome.moved_le _ _
  have hthere : (readAt file (dataStart + data.length) (rawDataSize - data.length)).length =
      rawDataSize - data.length := length_readAt (by omega)
  have hgot := kernelRead_of_not_error hok file (dataStart + data.length) (rawDataSize - data.length)
  have htake : (readAt file (dataStart + data.length) (rawDataSize - data.length)).take n =
      readAt file (dataStart + data.length) n := by
    unfold readAt
    rw [List.take_take, min_eq_left hle]
  rw [hthere, hn, htake] at hgot
  have hlength : (readAt file (dataStart + data.length) n).length = n := length_readAt (by omega)
  rw [readFragment, if_pos hmore, hgot]
  simp only
  rw [if_neg (by omega)]
  cases hbytes : readAt file (dataStart + data.length) n with
  | nil =>
      rw [hbytes] at hlength
      exact (if_pos hlength.symm).symm
  | cons b bs =>
      rw [hbytes] at hlength
      have hne : n ≠ 0 := by
        rw [← hlength]
        exact Nat.succ_ne_zero _
      exact (if_neg hne).symm

/-- **Reads that move something read all there is to read**, however short they are. -/
theorem readFragment_eq {rawDataSize : ℕ} (hreads : ∀ i, (reads i).Moves)
    (hfits : dataStart + rawDataSize ≤ file.length) (call : ℕ) (data : List UInt8)
    (hdata : data = readAt file dataStart data.length) (hlen : data.length ≤ rawDataSize) :
    readFragment file dataStart rawDataSize reads call data =
      .ok (readAt file dataStart rawDataSize) := by
  induction hleft : rawDataSize - data.length using Nat.strong_induction_on generalizing call data with
  | _ left ih =>
      by_cases hmore : data.length < rawDataSize
      · have hpos : 0 < (reads call).moved (rawDataSize - data.length) :=
          Outcome.moved_pos (hreads call) (by omega)
        have hle := (reads call).moved_le (rawDataSize - data.length)
        rw [readFragment_turn hfits hmore (Outcome.not_isError_of_moves (hreads call)) rfl,
          if_neg hpos.ne']
        generalize (reads call).moved (rawDataSize - data.length) = n at hpos hle ⊢
        have hnew : data ++ readAt file (dataStart + data.length) n =
            readAt file dataStart (data.length + n) := by
          rw [readAt_add, ← hdata]
        have hlength : (data ++ readAt file (dataStart + data.length) n).length = data.length + n := by
          rw [hnew]
          exact length_readAt (by omega)
        apply ih (rawDataSize - (data ++ readAt file (dataStart + data.length) n).length) _ (call + 1) _ _ _ rfl
        · omega
        · rw [hlength, hnew]
        · omega
      · have heq : data.length = rawDataSize := by omega
        rw [readFragment, if_neg hmore, ← heq, ← hdata]

/-- The size of the data, an int, is what the file has after `data_start`. -/
theorem rawDataSize_toInt (hsize : file.length < 2 ^ 31) (dataStart : BitVec 16) :
    (BitVec.ofNat 32 file.length - dataStart.setWidth 32).toInt =
      (file.length : ℤ) - dataStart.toNat := by
  have hstart := dataStart.isLt
  rw [BitVec.toInt_eq_toNat_cond, BitVec.toNat_sub, BitVec.toNat_ofNat, BitVec.toNat_setWidth]
  split <;> omega

theorem rawDataSize_toNat (hsize : file.length < 2 ^ 31) {dataStart : BitVec 16}
    (hstart : dataStart.toNat ≤ file.length) :
    (BitVec.ofNat 32 file.length - dataStart.setWidth 32).toNat = file.length - dataStart.toNat := by
  have hlt := dataStart.isLt
  rw [BitVec.toNat_sub, BitVec.toNat_ofNat, BitVec.toNat_setWidth]
  omega

/-- A first read that brings the whole header. -/
theorem kernelRead_header {outcome : Outcome Errno}
    (hheader : outcome.moved (min sizeofHeader file.length) = sizeofHeader) :
    kernelRead file outcome 0 sizeofHeader = ((sizeofHeader : ℤ), file.take sizeofHeader) := by
  have hthere : readAt file 0 sizeofHeader = file.take sizeofHeader := by
    simp [readAt]
  have hok : outcome.isError = false := by
    cases outcome with
    | error err => simp [Outcome.moved, sizeofHeader] at hheader
    | short n => rfl
    | full => rfl
  rw [kernelRead_of_not_error hok, hthere, List.length_take, hheader, List.take_take, min_self]

/-- A first read that does not. -/
theorem kernelRead_header_short {outcome : Outcome Errno}
    (hshort : outcome.moved (min sizeofHeader file.length) ≠ sizeofHeader) :
    (kernelRead file outcome 0 sizeofHeader).1 < 0 ∨
      (kernelRead file outcome 0 sizeofHeader).1 ≠ sizeofHeader := by
  cases hok : outcome.isError with
  | true =>
      cases outcome with
      | error err => exact .inl err.negative
      | short n => cases hok
      | full => cases hok
  | false =>
      have hthere : (readAt file 0 sizeofHeader).length = min sizeofHeader file.length := by
        simp [readAt]
      rw [kernelRead_of_not_error hok, hthere]
      exact .inr fun h => hshort (Int.ofNat.inj h)

/-- A first read that does not bring the whole header fails the load. -/
theorem load_header_short (hshort : (reads 0).moved (min sizeofHeader file.length) ≠ sizeofHeader) :
    prefetchLoadTraceFragment e none memory file reads = .error (-EINVAL) := by
  unfold prefetchLoadTraceFragment
  exact if_pos (kernelRead_header_short hshort)

/-- A first read that brings the whole header leaves the header and the data to be checked. -/
theorem load_eq (hlen : sizeofHeader ≤ file.length)
    (hfirst : (reads 0).moved sizeofHeader = sizeofHeader) :
    prefetchLoadTraceFragment e none memory file reads =
      if (headerOf e file).Accepted then
        loadData memory file (fun call => reads (call + 1)) (BitVec.ofNat 32 file.length)
          ((headerOf e file).dataStart.setWidth 32)
      else .error (-EINVAL) := by
  have hgot : kernelRead file (reads 0) 0 sizeofHeader = ((sizeofHeader : ℤ), file.take sizeofHeader) :=
    kernelRead_header (by rwa [min_eq_left hlen])
  unfold prefetchLoadTraceFragment
  simp only [hgot]
  rw [if_neg (by simp [sizeofHeader]), checks_eq]
  rfl

/-- The data is loaded if there is some and there is memory for it. -/
theorem loadData_eq_ok_iff (hsize : file.length < 2 ^ 31) (hreads : ∀ i, (reads i).Moves)
    (dataStart : BitVec 16) {data : List UInt8} :
    loadData memory file reads (BitVec.ofNat 32 file.length) (dataStart.setWidth 32) = .ok data ↔
      dataStart.toNat < file.length ∧ memory = true ∧ data = file.drop dataStart.toNat := by
  have hraw := rawDataSize_toInt hsize dataStart
  have hstart : (dataStart.setWidth 32).toNat = dataStart.toNat := by
    have := dataStart.isLt
    rw [BitVec.toNat_setWidth]
    omega
  unfold loadData
  simp only [hstart]
  by_cases hroom : dataStart.toNat < file.length
  swap
  · -- data_start is the end of the file or past it
    refine ⟨fun hok => ?_, fun hacc => absurd hacc.1 hroom⟩
    by_cases hneg : (BitVec.ofNat 32 file.length - dataStart.setWidth 32).toInt < 0
    · rw [if_pos hneg] at hok
      cases hok
    · have hzero : BitVec.ofNat 32 file.length - dataStart.setWidth 32 = 0 := by
        apply BitVec.eq_of_toInt_eq
        show _ = 0
        omega
      rw [if_neg hneg, if_pos hzero] at hok
      cases hok
  have hpos : 0 < (BitVec.ofNat 32 file.length - dataStart.setWidth 32).toInt := by omega
  have hnat := rawDataSize_toNat hsize hroom.le
  have hne : BitVec.ofNat 32 file.length - dataStart.setWidth 32 ≠ 0 := by
    intro hzero
    rw [hzero] at hpos
    exact absurd hpos (by decide)
  rw [if_neg (not_lt.mpr hpos.le), if_neg hne]
  have halloc : allocTraceBuffer (BitVec.ofNat 32 file.length - dataStart.setWidth 32) memory =
      memory := by
    unfold allocTraceBuffer
    rw [decide_eq_true hpos, Bool.and_true]
  have hfits : dataStart.toNat + (file.length - dataStart.toNat) ≤ file.length := by omega
  have hall : readAt file dataStart.toNat (file.length - dataStart.toNat) =
      file.drop dataStart.toNat := by
    unfold readAt
    exact List.take_of_length_le (by rw [List.length_drop])
  have hread := readFragment_eq hreads hfits 0 [] rfl (Nat.zero_le _)
  rw [halloc, hnat, hread, hall]
  cases memory with
  | false =>
      rw [if_pos rfl]
      exact ⟨nofun, fun hacc => absurd hacc.2.1 Bool.false_ne_true⟩
  | true =>
      have hsizes : (file.drop dataStart.toNat).length = file.length - dataStart.toNat :=
        List.length_drop
      rw [if_neg (by decide)]
      simp only [hsizes, if_true, Except.ok.injEq]
      exact ⟨fun hdata => ⟨hroom, trivial, hdata.symm⟩, fun hacc => hacc.2.2.symm⟩

/-- **What the loader accepts and what it returns**, once its first read brings the whole header. -/
theorem load_eq_ok_iff (hlen : sizeofHeader ≤ file.length) (hsize : file.length < 2 ^ 31)
    (hfirst : (reads 0).moved sizeofHeader = sizeofHeader) (hreads : ∀ i, (reads i).Moves)
    {data : List UInt8} :
    prefetchLoadTraceFragment e none memory file reads = .ok data ↔
      (headerOf e file).Accepted ∧ (headerOf e file).dataStart.toNat < file.length ∧ memory = true ∧
        data = file.drop (headerOf e file).dataStart.toNat := by
  rw [load_eq e hlen hfirst]
  by_cases hacc : (headerOf e file).Accepted
  -- the loop goes on with the second read
  · rw [if_pos hacc, loadData_eq_ok_iff hsize fun i => hreads (i + 1), and_iff_right hacc]
  · rw [if_neg hacc]
    exact ⟨nofun, fun h => absurd h.1 hacc⟩

/-! ## §4 — what a save leaves for a load -/

/-- The save returns, and if what it returns is not negative then a load of the file it left gives back
exactly the fragment. -/
def SavedExactly (opened : Option Errno) (old fragment : List UInt8)
    (writes reads : ℕ → Outcome Errno) : Prop :=
  ∃ (ret : ℤ) (file : List UInt8),
    (∃ enough, ∀ fuel ≥ enough,
      prefetchSaveTraceFragment e opened old fragment writes fuel = some (ret, file)) ∧
    (0 ≤ ret → prefetchLoadTraceFragment e none true file reads = .ok fragment)

/-- What the save returns is settled once it returns at all. -/
theorem savedExactly_iff_of_returns {opened : Option Errno} {old : List UInt8} {ret : ℤ}
    {file : List UInt8}
    (h : ∃ enough, ∀ fuel ≥ enough,
      prefetchSaveTraceFragment e opened old fragment writes fuel = some (ret, file)) :
    SavedExactly e opened old fragment writes reads ↔
      (0 ≤ ret → prefetchLoadTraceFragment e none true file reads = .ok fragment) := by
  refine ⟨?_, fun hload => ⟨ret, file, h, hload⟩⟩
  rintro ⟨ret', file', ⟨enough', hreturns'⟩, hload⟩
  obtain ⟨enough, hreturns⟩ := h
  -- enough fuel for both runs
  have hsame := (hreturns' (max enough enough') (le_max_right _ _)).symm.trans
    (hreturns _ (le_max_left _ _))
  obtain ⟨rfl, rfl⟩ := Prod.mk.inj (Option.some.inj hsame)
  exact hload

variable (old : List UInt8)

/-- A call that writes the header short: its result is what the save returns. -/
theorem save_header_short (hok : (writes 0).isError = false)
    (hshort : (writes 0).moved sizeofHeader ≠ sizeofHeader) (fuel : ℕ) :
    prefetchSaveTraceFragment e none old fragment writes fuel =
      some ((((writes 0).moved sizeofHeader : ℕ) : ℤ),
        (headerBytes e).take ((writes 0).moved sizeofHeader)) := by
  have hheader := kernelWrite_of_not_error hok [] 0 (headerBytes e)
  rw [length_headerBytes] at hheader
  have happend := writeAt_length [] ((headerBytes e).take ((writes 0).moved sizeofHeader))
  rw [List.length_nil, List.nil_append] at happend
  rw [happend] at hheader
  unfold prefetchSaveTraceFragment
  simp only [hheader]
  exact if_pos (Or.inr fun h => hshort (Int.ofNat.inj h))

/-- A call that writes the whole header: the rest is the loop's. -/
theorem save_header_full (hfull : (writes 0).moved sizeofHeader = sizeofHeader) (fuel : ℕ) :
    prefetchSaveTraceFragment e none old fragment writes fuel =
      writeFragment fragment sizeofHeader (fun call => writes (call + 1)) fuel 0 0 sizeofHeader
        (headerBytes e) := by
  have hok : (writes 0).isError = false := by
    cases hwrite : writes 0 with
    | error err => simp [hwrite, Outcome.moved, sizeofHeader] at hfull
    | short n => rfl
    | full => rfl
  have hheader := kernelWrite_of_not_error hok [] 0 (headerBytes e)
  have hall : (headerBytes e).take sizeofHeader = headerBytes e :=
    List.take_of_length_le (length_headerBytes e).le
  have happend := writeAt_length [] (headerBytes e)
  rw [List.length_nil, List.nil_append] at happend
  rw [length_headerBytes, hfull, hall, happend] at hheader
  unfold prefetchSaveTraceFragment
  simp only [hheader]
  rw [if_neg (by simp [sizeofHeader])]

/-- A call for the header that fails is an error of the save. -/
theorem save_header_error (herr : (writes 0).isError = true) :
    ∃ err : ℤ, err < 0 ∧ ∀ fuel,
      prefetchSaveTraceFragment e none old fragment writes fuel = some (err, []) := by
  obtain ⟨err, hneg, herror⟩ := kernelWrite_of_error herr
  refine ⟨err, hneg, fun fuel => ?_⟩
  unfold prefetchSaveTraceFragment
  simp only [herror]
  exact if_pos (Or.inl hneg)

/-- **A complete file is read back** if the first read brings the whole header. -/
theorem load_saved (hne : fragment ≠ []) (hsize : sizeofHeader + fragment.length < 2 ^ 31)
    (hfirst : (reads 0).moved sizeofHeader = sizeofHeader) (hreads : ∀ i, (reads i).Moves) :
    prefetchLoadTraceFragment e none true (headerBytes e ++ fragment) reads = .ok fragment := by
  have hpos : 0 < fragment.length := List.length_pos_iff.mpr hne
  have hlength : (headerBytes e ++ fragment).length = sizeofHeader + fragment.length := by
    rw [List.length_append, length_headerBytes]
  have hstart : savedHeader.dataStart.toNat = sizeofHeader := rfl
  rw [load_eq_ok_iff e (by omega) (by omega) hfirst hreads, headerOf_saved, hstart, hlength]
  exact ⟨savedHeader_accepted, by omega, rfl, (List.drop_left' (length_headerBytes e)).symm⟩

/-- A header written short leaves a file no load accepts, and the save does not return an error. -/
theorem not_savedExactly_of_header_short (hok : (writes 0).isError = false)
    (hshort : (writes 0).moved sizeofHeader ≠ sizeofHeader) :
    ¬ SavedExactly e none old fragment writes reads := by
  have hreturns : ∀ fuel, prefetchSaveTraceFragment e none old fragment writes fuel = _ :=
    save_header_short e old hok hshort
  rw [savedExactly_iff_of_returns e ⟨0, fun fuel _ => hreturns fuel⟩]
  intro hload
  have hlt : (writes 0).moved sizeofHeader < sizeofHeader :=
    lt_of_le_of_ne (Outcome.moved_le _ _) hshort
  -- no read brings more than the file has
  have hnone : (reads 0).moved
      (min sizeofHeader ((headerBytes e).take ((writes 0).moved sizeofHeader)).length) ≠
        sizeofHeader := by
    have hle := Outcome.moved_le (reads 0)
      (min sizeofHeader ((headerBytes e).take ((writes 0).moved sizeofHeader)).length)
    rw [List.length_take, length_headerBytes] at hle ⊢
    omega
  have hok := hload (Int.natCast_nonneg _)
  rw [load_header_short e hnone] at hok
  cases hok

/-- Writes that complete the fragment leave a file whose load depends on its first read alone. -/
theorem savedExactly_of_completes_iff (hne : fragment ≠ [])
    (hsize : sizeofHeader + fragment.length < 2 ^ 31) (hreads : ∀ i, (reads i).Moves)
    (hfull : (writes 0).moved sizeofHeader = sizeofHeader)
    (hall : Completes fragment.length (fun call => writes (call + 1))) :
    SavedExactly e none old fragment writes reads ↔ (reads 0).moved sizeofHeader = sizeofHeader := by
  have hlength := length_headerBytes e
  obtain ⟨last, hlast, enough, hrun⟩ :=
    writeFragment_completes hlength (Int.natCast_nonneg _) hall
  have hreturns : ∀ fuel ≥ enough, prefetchSaveTraceFragment e none old fragment writes fuel =
      some (last, headerBytes e ++ fragment) := fun fuel hfuel =>
    (save_header_full e old hfull fuel).trans (hrun fuel hfuel)
  rw [savedExactly_iff_of_returns e ⟨enough, hreturns⟩]
  refine ⟨fun hload => ?_, fun hfirst _ => load_saved e hne hsize hfirst hreads⟩
  by_contra hshort
  have hmin : min sizeofHeader (headerBytes e ++ fragment).length = sizeofHeader := by
    rw [List.length_append, hlength]
    omega
  have hok := hload hlast
  rw [load_header_short e (by rwa [hmin])] at hok
  cases hok

/-- Writes that neither complete the fragment nor fail are repeated for ever. -/
theorem not_savedExactly_of_stalls (hfull : (writes 0).moved sizeofHeader = sizeofHeader)
    (hstalls : Stalls fragment.length (fun call => writes (call + 1))) :
    ¬ SavedExactly e none old fragment writes reads := by
  rintro ⟨ret, file, ⟨enough, hreturns⟩, -⟩
  have hsome := hreturns enough le_rfl
  rw [save_header_full e old hfull,
    writeFragment_stalls (length_headerBytes e) (Int.natCast_nonneg _) hstalls] at hsome
  cases hsome

/-- **When a saved trace can be loaded again.** The save returns, and a result that is not negative
means the fragment is loaded, exactly if the save ends with an error, or the header is written and read
with one call each and the other writes complete the fragment. -/
theorem saved_exactly_iff (opened : Option Errno) (hne : fragment ≠ [])
    (hsize : sizeofHeader + fragment.length < 2 ^ 31) (hreads : ∀ i, (reads i).Moves) :
    SavedExactly e opened old fragment writes reads ↔
      opened.isSome = true ∨ (writes 0).isError = true ∨
        (writes 0).moved sizeofHeader = sizeofHeader ∧
          (Fails fragment.length (fun call => writes (call + 1)) ∨
            Completes fragment.length (fun call => writes (call + 1)) ∧
              (reads 0).moved sizeofHeader = sizeofHeader) := by
  cases opened with
  | some err =>
      rw [savedExactly_iff_of_returns e ⟨0, fun fuel _ => rfl⟩]
      exact iff_of_true (fun hret => absurd err.negative (not_lt.mpr hret)) (Or.inl rfl)
  | none =>
      simp only [Option.isSome_none, Bool.false_eq_true, false_or]
      cases herr : (writes 0).isError with
      | true =>
          have hsaved : SavedExactly e none old fragment writes reads := by
            obtain ⟨err, hneg, hreturns⟩ := save_header_error e old herr
            rw [savedExactly_iff_of_returns e ⟨0, fun fuel _ => hreturns fuel⟩]
            exact fun hret => absurd hneg (not_lt.mpr hret)
          exact iff_of_true hsaved (Or.inl rfl)
      | false =>
          simp only [Bool.false_eq_true, false_or]
          by_cases hfull : (writes 0).moved sizeofHeader = sizeofHeader
          swap
          · exact iff_of_false (not_savedExactly_of_header_short e old herr hfull) fun h => hfull h.1
          -- from here on the loop decides: it completes, fails or goes on for ever
          rw [and_iff_right hfull]
          rcases completes_or_fails_or_stalls fragment.length fun call => writes (call + 1) with
            hall | hfails | hstalls
          · rw [savedExactly_of_completes_iff e old hne hsize hreads hfull hall,
              or_iff_right hall.not_fails, and_iff_right hall]
          · obtain ⟨err, file, hneg, enough, hrun⟩ :=
              writeFragment_fails (length_headerBytes e)
                (Int.natCast_nonneg _) hfails
            have hreturns : ∀ fuel ≥ enough,
                prefetchSaveTraceFragment e none old fragment writes fuel = some (err, file) :=
              fun fuel hfuel => (save_header_full e old hfull fuel).trans (hrun fuel hfuel)
            rw [savedExactly_iff_of_returns e ⟨enough, hreturns⟩]
            exact iff_of_true (fun hret => absurd hneg (not_lt.mpr hret)) (Or.inl hfails)
          · apply iff_of_false (not_savedExactly_of_stalls e old hfull hstalls)
            rintro (hfails | ⟨hall, -⟩)
            · exact hstalls.not_fails hfails
            · exact hstalls.not_completes hall

/-- The header is written whole and the fragment byte by byte; it is read back byte by byte. -/
theorem saved_exactly_iff_bytewise :
    SavedExactly .little none [] [7, 8] (fun call => if call = 0 then .full else .short 1)
      (fun call => if call = 0 then .full else .short 1) := by
  refine (saved_exactly_iff .little [] none (by decide) (by decide) fun i => ?_).mpr
    (Or.inr (Or.inr ⟨by decide, Or.inr ⟨⟨2, ?_, by decide⟩, by decide⟩⟩))
  · by_cases hi : i = 0 <;> simp [hi, Outcome.Moves]
  · unfold Reaches
    decide

/-- A header written short is reported as a success that cannot be loaded, writes that move nothing are
repeated for ever, and a header read short is an error although the next read would bring the rest. -/
theorem partial_header_not_loaded :
    ¬ SavedExactly .little none [] [7, 8] (fun _ => .short 5) (fun _ => .full) ∧
      ¬ SavedExactly .little none [] [7, 8] (fun call => if call = 0 then .full else .short 0)
        (fun _ => .full) ∧
      ¬ SavedExactly .little none [] [7, 8] (fun _ => .full) (fun _ => .short 5) := by
  refine ⟨?_, ?_, ?_⟩
  · exact not_savedExactly_of_header_short .little [] rfl (by decide)
  · apply not_savedExactly_of_stalls .little [] (by decide)
    intro k i _
    simp [offered, Outcome.isError, Outcome.moved]
  · intro hsaved
    have hall : Completes 2 fun _ => (Outcome.full : Outcome Errno) := by
      refine ⟨1, ?_, by decide⟩
      unfold Reaches
      decide
    have hreads : ∀ i, ((fun _ => .short 5 : ℕ → Outcome Errno) i).Moves := fun _ => Nat.succ_pos 4
    have hiff : SavedExactly .little none [] [7, 8] (fun _ => .full) (fun _ => .short 5) ↔ _ :=
      savedExactly_of_completes_iff .little [] (by decide) (by decide) hreads rfl hall
    exact absurd (hiff.mp hsaved) (by decide)

end Prefetch.TraceFile

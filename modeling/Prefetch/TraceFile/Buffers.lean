/-
# Prefetch.TraceFile.Buffers — who frees the memory of a trace (`prefetch_core.c`)

`alloc_trace_buffer` takes pages by the order of a length and `free_trace_buffer` gives them back by the
order of another: nothing but the callers keeps the two alike. The loader, the prefetching from a file and
the fragment of a trace are followed here with the calls they make of both.

The loader allocates for the data and, where reading the data fails, frees by the size of the file.
-/
import Prefetch.TraceFile.KernelFile

namespace Prefetch.TraceFile.Buffers

open Prefetch.Core Codec Transfers

variable {M : Machine}

/-! ## §1 — the calls -/

/-- A call of the page allocator that hands out or takes back memory at an address. -/
inductive BufferCall where
  | alloc (buffer : ℕ) (len : BitVec 32)
  | free (buffer : ℕ) (len : BitVec 32)
  deriving DecidableEq, Repr

/-- The memory a call is about. -/
def BufferCall.buffer : BufferCall → ℕ
  | alloc buffer _ => buffer
  | free buffer _ => buffer

/-- What a function returns, the buffer it leaves to its caller and the calls it made. -/
structure Handled (α : Type*) where
  result : α
  handed : Option ℕ
  calls : List BufferCall

/-- `alloc_trace_buffer`, where there is memory at an address or none. -/
def allocBuffer (len : BitVec 32) (memory : Option ℕ) : Option ℕ :=
  if allocTraceBuffer len memory.isSome then memory else none

/-- `free_trace_buffer`; there is nothing to free at `NULL`. -/
def freeBuffer (buffer : Option ℕ) (len : BitVec 32) : List BufferCall :=
  (buffer.map fun buffer => .free buffer len).toList

/-- Each buffer a function obtained is either handed to the caller and not freed, or not handed on and
freed once, by a length of the order it was allocated with. -/
def Accounted {α : Type*} (getOrder : BitVec 32 → ℕ) (h : Handled α) : Prop :=
  ∀ buffer len, .alloc buffer len ∈ h.calls →
    h.handed = some buffer ∧ h.calls.filter (·.buffer = buffer) = [.alloc buffer len] ∨
      h.handed ≠ some buffer ∧ ∃ freed,
        h.calls.filter (·.buffer = buffer) = [.alloc buffer len, .free buffer freed] ∧
          getOrder freed = getOrder len

section Accounted

variable {α : Type*} {getOrder : BitVec 32 → ℕ} (result : α) (buffer : ℕ) (len freed : BitVec 32)

theorem accounted_nil (handed : Option ℕ) : Accounted getOrder ⟨result, handed, []⟩ := by
  intro buffer len hmem
  cases hmem

theorem accounted_handed : Accounted getOrder ⟨result, some buffer, [.alloc buffer len]⟩ := by
  intro buffer' len' hmem
  obtain ⟨rfl, rfl⟩ : buffer' = buffer ∧ len' = len := by simpa using hmem
  exact .inl ⟨rfl, by simp [BufferCall.buffer]⟩

/-- A buffer that is freed is accounted for if the two orders are one. -/
theorem accounted_freed_iff :
    Accounted getOrder ⟨result, none, [.alloc buffer len, .free buffer freed]⟩ ↔
      getOrder freed = getOrder len := by
  constructor
  · intro haccounted
    rcases haccounted buffer len (by simp) with ⟨hhanded, -⟩ | ⟨-, freed', hcalls, horder⟩
    · cases hhanded
    · simp only [BufferCall.buffer, decide_true, List.filter_cons_of_pos, List.filter_nil,
        List.cons.injEq, true_and, and_true, BufferCall.free.injEq] at hcalls
      rwa [hcalls]
  · intro horder buffer' len' hmem
    obtain ⟨rfl, rfl⟩ : buffer' = buffer ∧ len' = len := by simpa using hmem
    exact .inr ⟨nofun, freed, by simp [BufferCall.buffer], horder⟩

end Accounted

/-! ## §2 — the functions -/

/-- `prefetch_load_trace_fragment` once the header is checked: the size and the data. -/
def loadData (memory : Option ℕ) (file : List UInt8) (reads : ℕ → Outcome Errno)
    (fileSize dataStart : BitVec 32) : Handled (Except ℤ (BitVec 32 × List UInt8)) :=
  let rawDataSize := fileSize - dataStart
  if rawDataSize.toInt < 0 then ⟨.error (-EINVAL), none, []⟩
  else if rawDataSize = 0 then ⟨.error (-EINVAL), none, []⟩
  else
    match allocBuffer rawDataSize memory with
    | none => ⟨.error (-ENOMEM), none, []⟩
    | some buffer =>
        let calls := [.alloc buffer rawDataSize]
        -- `out_close_free` frees by `file_size`
        match readFragment file dataStart.toNat rawDataSize.toNat reads 0 [] with
        | .error ret => ⟨.error ret, none, calls ++ freeBuffer (some buffer) fileSize⟩
        | .ok data =>
            if data.length = rawDataSize.toNat then ⟨.ok (rawDataSize, data), some buffer, calls⟩
            else ⟨.error (-ETXTBSY), none, calls ++ freeBuffer (some buffer) fileSize⟩

/-- `prefetch_load_trace_fragment` -/
def prefetchLoadTraceFragment (e : Endian) (opened : Option Errno) (memory : Option ℕ)
    (file : List UInt8) (reads : ℕ → Outcome Errno) : Handled (Except ℤ (BitVec 32 × List UInt8)) :=
  match opened with
  | some err => ⟨.error err.code, none, []⟩
  | none =>
      let fileSize := BitVec.ofNat 32 file.length
      let got := kernelRead file (reads 0) 0 sizeofHeader
      if got.1 < 0 ∨ got.1 ≠ sizeofHeader then ⟨.error (-EINVAL), none, []⟩
      else
        let header := (headerCodec e).decode got.2
        if strncmp (List.ofFn header.magic) (List.ofFn traceFileMagic) ≠ 0 then
          ⟨.error (-EINVAL), none, []⟩
        else if header.versionMajor ≠ PREFETCH_FORMAT_VERSION_MAJOR then ⟨.error (-EINVAL), none, []⟩
        else if header.dataStart.toNat < sizeofHeader then ⟨.error (-EINVAL), none, []⟩
        else
          loadData memory file (fun call => reads (call + 1)) fileSize (header.dataStart.setWidth 32)

/-- `do_prefetch_from_file`; `startPrefetch` is `prefetch_start_prefetch`, which is done with the buffer
when it returns. -/
def doPrefetchFromFile (e : Endian) (opened : Option Errno) (memory : Option ℕ) (file : List UInt8)
    (reads : ℕ → Outcome Errno) (startPrefetch : List UInt8 → BitVec 32 → ℤ) : Handled ℤ :=
  let loaded := prefetchLoadTraceFragment e opened memory file reads
  match loaded.result with
  | .error ret => ⟨ret, none, loaded.calls⟩
  | .ok (bufferSize, data) =>
      ⟨startPrefetch data bufferSize, none, loaded.calls ++ freeBuffer loaded.handed bufferSize⟩

/-- `get_prefetch_trace_fragment`; a `BUG_ON` would leave the buffer to nobody. -/
def getPrefetchTraceFragment (t : PrefetchTrace M) (startMarker endMarker : TraceMarker)
    (memory : Option ℕ) : Handled (FragmentResult M) :=
  let fragmentSize := prefetchTraceFragmentSize startMarker endMarker
  if fragmentSize < 0 then ⟨.error fragmentSize, none, []⟩
  else if fragmentSize = 0 then ⟨.ok none 0, none, []⟩
  else
    let len := BitVec.ofInt 32 fragmentSize
    match allocBuffer len memory with
    | none => ⟨.error (-ENOMEM), none, []⟩
    | some fragment =>
        let calls := [.alloc fragment len]
        let startPosition := traceMarkerPositionInBuffer t startMarker
        let endPosition := traceMarkerPositionInBuffer t endMarker
        if startPosition < 0 then
          ⟨.error (-ESRCH), none, calls ++ freeBuffer (some fragment) len⟩
        else if endPosition < 0 then
          ⟨.error (-ESRCH), none, calls ++ freeBuffer (some fragment) len⟩
        else
          let size := endPosition - startPosition
          if size ≤ 0 ∨ size ≠ fragmentSize then ⟨.bug, none, calls⟩
          else ⟨.ok (some (copyCells t startPosition.toNat size.toNat)) fragmentSize, some fragment, calls⟩

/-! ## §3 — they return what they return without the calls -/

theorem allocBuffer_isSome (len : BitVec 32) (memory : Option ℕ) :
    (allocBuffer len memory).isSome = allocTraceBuffer len memory.isSome := by
  unfold allocBuffer allocTraceBuffer
  cases memory with
  | none => rfl
  | some buffer => by_cases hlen : 0 < len.toInt <;> simp [hlen]

theorem loadData_result (memory : Option ℕ) (file : List UInt8) (reads : ℕ → Outcome Errno)
    (fileSize dataStart : BitVec 32) :
    (loadData memory file reads fileSize dataStart).result.map Prod.snd =
      TraceFile.loadData memory.isSome file reads fileSize dataStart := by
  unfold loadData TraceFile.loadData
  simp only [← allocBuffer_isSome]
  split_ifs with hneg hzero hmemory
  · rfl
  · rfl
  · cases halloc : allocBuffer (fileSize - dataStart) memory with
    | none => rfl
    | some buffer => simp [halloc] at hmemory
  · cases halloc : allocBuffer (fileSize - dataStart) memory with
    | none => simp [halloc] at hmemory
    | some buffer =>
        cases readFragment file dataStart.toNat (fileSize - dataStart).toNat reads 0 [] with
        | error ret => rfl
        | ok data =>
            by_cases hall : data.length = (fileSize - dataStart).toNat
            · simp only [if_pos hall]
              rfl
            · simp only [if_neg hall]
              rfl

theorem prefetchLoadTraceFragment_result (e : Endian) (opened : Option Errno) (memory : Option ℕ)
    (file : List UInt8) (reads : ℕ → Outcome Errno) :
    (prefetchLoadTraceFragment e opened memory file reads).result.map Prod.snd =
      TraceFile.prefetchLoadTraceFragment e opened memory.isSome file reads := by
  unfold prefetchLoadTraceFragment TraceFile.prefetchLoadTraceFragment
  cases opened with
  | some err => rfl
  | none =>
      simp only [checks_eq]
      split_ifs with hshort haccepted
      · rfl
      · exact loadData_result memory file _ _ _
      · rfl

theorem getPrefetchTraceFragment_result (t : PrefetchTrace M) (startMarker endMarker : TraceMarker)
    (memory : Option ℕ) :
    (getPrefetchTraceFragment t startMarker endMarker memory).result =
      Core.getPrefetchTraceFragment t startMarker endMarker memory.isSome := by
  unfold getPrefetchTraceFragment Core.getPrefetchTraceFragment
  simp only [← allocBuffer_isSome]
  cases allocBuffer (BitVec.ofInt 32 (prefetchTraceFragmentSize startMarker endMarker)) memory with
  | none =>
      simp only [Option.isSome_none, Bool.false_eq_true, not_false_eq_true, if_true]
      split_ifs <;> rfl
  | some fragment =>
      simp only [Option.isSome_some, not_true_eq_false, if_false]
      split_ifs <;> rfl

/-! ## §4 — the fragment of a trace -/

/-- **The two markers are as far apart in the buffer as their positions say**: `BUG_ON` is not reached. -/
theorem positions_sub {t : PrefetchTrace M} {startMarker endMarker : TraceMarker}
    (hsize : 0 < prefetchTraceFragmentSize startMarker endMarker)
    (hstart : 0 ≤ traceMarkerPositionInBuffer t startMarker)
    (hend : 0 ≤ traceMarkerPositionInBuffer t endMarker) :
    traceMarkerPositionInBuffer t endMarker - traceMarkerPositionInBuffer t startMarker =
      prefetchTraceFragmentSize startMarker endMarker := by
  unfold prefetchTraceFragmentSize at hsize ⊢
  unfold traceMarkerPositionInBuffer at hstart hend ⊢
  by_cases hgeneration : startMarker.generation = endMarker.generation
  swap
  · simp [hgeneration, EINVAL] at hsize
  by_cases horder : endMarker.position < startMarker.position
  · simp [hgeneration, horder, ERANGE] at hsize
  by_cases hcurrent : endMarker.generation = t.generation
  swap
  · simp [hcurrent, EINVAL] at hend
  by_cases hstarted : t.bufferUsed < startMarker.position
  · simp [hgeneration, hcurrent, hstarted, ENOSPC] at hstart
  by_cases hended : t.bufferUsed < endMarker.position
  · simp [hcurrent, hended, ENOSPC] at hend
  simp only [hgeneration, hcurrent, horder, hstarted, hended, ne_eq, not_true_eq_false, if_false]
    at hsize hstart hend ⊢
  -- neither position is past what an int holds
  rw [BitVec.toInt_eq_toNat_cond] at hsize hstart hend ⊢
  rw [BitVec.toInt_eq_toNat_cond, BitVec.toInt_eq_toNat_cond, BitVec.toNat_sub]
  rw [BitVec.lt_def] at horder
  rw [BitVec.toNat_sub] at hsize
  split_ifs at hstart hend hsize ⊢ <;> omega

/-- `BUG_ON` is not reached, whatever the markers. -/
theorem getPrefetchTraceFragment_ne_bug (t : PrefetchTrace M) (startMarker endMarker : TraceMarker)
    (memory : Bool) : Core.getPrefetchTraceFragment t startMarker endMarker memory ≠ .bug := by
  intro hget
  unfold Core.getPrefetchTraceFragment at hget
  dsimp only at hget
  -- every other way out is an error or a success
  split_ifs at hget with hneg hzero hmemory hstart hend hbug
  have hsize := positions_sub (t := t) (lt_of_le_of_ne (not_lt.mp hneg) (Ne.symm hzero))
    (not_lt.mp hstart) (not_lt.mp hend)
  omega

/-- **The fragment is handed on, or freed by the length it was allocated with.** -/
theorem accounted_getPrefetchTraceFragment (getOrder : BitVec 32 → ℕ) (t : PrefetchTrace M)
    (startMarker endMarker : TraceMarker) (memory : Option ℕ) :
    Accounted getOrder (getPrefetchTraceFragment t startMarker endMarker memory) := by
  unfold getPrefetchTraceFragment
  by_cases hneg : prefetchTraceFragmentSize startMarker endMarker < 0
  · simp only [if_pos hneg]
    exact accounted_nil _ _
  by_cases hzero : prefetchTraceFragmentSize startMarker endMarker = 0
  · simp only [if_neg hneg, if_pos hzero]
    exact accounted_nil _ _
  simp only [if_neg hneg, if_neg hzero]
  cases halloc : allocBuffer (BitVec.ofInt 32 (prefetchTraceFragmentSize startMarker endMarker)) memory with
  | none => exact accounted_nil _ _
  | some fragment =>
      by_cases hstart : traceMarkerPositionInBuffer t startMarker < 0
      · simp only [if_pos hstart]
        exact (accounted_freed_iff _ _ _ _).mpr rfl
      by_cases hend : traceMarkerPositionInBuffer t endMarker < 0
      · simp only [if_neg hstart, if_pos hend]
        exact (accounted_freed_iff _ _ _ _).mpr rfl
      have hsize := positions_sub (t := t) (lt_of_le_of_ne (not_lt.mp hneg) (Ne.symm hzero))
        (not_lt.mp hstart) (not_lt.mp hend)
      have hbug : ¬ (prefetchTraceFragmentSize startMarker endMarker ≤ 0 ∨
          prefetchTraceFragmentSize startMarker endMarker ≠
            prefetchTraceFragmentSize startMarker endMarker) := by
        omega
      simp only [if_neg hstart, if_neg hend, hsize, if_neg hbug]
      exact accounted_handed _ _ _

/-! ## §5 — loading -/

variable {file : List UInt8} {reads : ℕ → Outcome Errno}

/-- **The loop reads all the data exactly if the calls bring it.** -/
theorem readFragment_length_iff (reads : ℕ → Outcome Errno) {dataStart rawDataSize : ℕ}
    (hfits : dataStart + rawDataSize ≤ file.length) (call : ℕ) (data : List UInt8)
    (hle : data.length ≤ rawDataSize) :
    (∃ whole, readFragment file dataStart rawDataSize reads call data = .ok whole ∧
        whole.length = rawDataSize) ↔ Brings reads call (rawDataSize - data.length) := by
  induction hleft : rawDataSize - data.length using Nat.strong_induction_on generalizing call data with
  | _ left ih =>
  by_cases hmore : data.length < rawDataSize
  swap
  · rw [readFragment, if_neg hmore, show left = 0 by omega]
    exact iff_of_true ⟨data, rfl, by omega⟩ (.done call)
  rw [brings_iff_of_pos (by omega)]
  cases herr : (reads call).isError with
  | true =>
      obtain ⟨ret, hfails⟩ := readFragment_error file dataStart hmore herr
      rw [hfails]
      refine iff_of_false ?_ fun h => ?_
      · rintro ⟨whole, hok, -⟩
        cases hok
      · rw [Outcome.not_isError_of_moves h.1] at herr
        cases herr
  | false =>
      have hbound := (reads call).moved_le left
      rw [readFragment_turn hfits hmore herr (congrArg (reads call).moved hleft)]
      by_cases hnone : (reads call).moved left = 0
      -- the file seems to end, which breaks out of the loop
      · rw [if_pos hnone]
        refine iff_of_false ?_ fun h => ?_
        · rintro ⟨whole, hok, hlen⟩
          cases hok
          omega
        · have hpos : 0 < left := by omega
          exact absurd hnone (Outcome.moved_pos h.1 hpos).ne'
      · have hmoves := Outcome.moves_of_moved_pos (Nat.pos_of_ne_zero hnone)
        have hnew : (data ++ readAt file (dataStart + data.length) ((reads call).moved left)).length =
            data.length + (reads call).moved left := by
          rw [List.length_append, length_readAt (by omega)]
        rw [if_neg hnone, and_iff_right hmoves]
        exact ih (left - (reads call).moved left) (by omega) (call + 1) _ (by omega) (by omega)

/-- The data is where the file has it, whatever the file's size. -/
theorem dataStart_add_rawDataSize_le (length : ℕ) (dataStart : BitVec 16)
    (hpos : 0 < (BitVec.ofNat 32 length - dataStart.setWidth 32).toInt) :
    (dataStart.setWidth 32).toNat + (BitVec.ofNat 32 length - dataStart.setWidth 32).toNat ≤ length := by
  have hstart := dataStart.isLt
  have hmod := Nat.mod_le length (2 ^ 32)
  have hlt := Nat.mod_lt length (Nat.two_pow_pos 32)
  rw [BitVec.toInt_eq_toNat_cond, BitVec.toNat_sub, BitVec.toNat_ofNat, BitVec.toNat_setWidth] at hpos
  rw [BitVec.toNat_sub, BitVec.toNat_ofNat, BitVec.toNat_setWidth]
  split_ifs at hpos <;> omega

/-- **What the loader comes to once the header is checked**: there is no data or no memory for it, the
reads bring it all, or they do not. -/
theorem loadData_cases (memory : Option ℕ) (file : List UInt8) (reads : ℕ → Outcome Errno)
    {fileSize dataStart rawDataSize : BitVec 32} (hraw : fileSize - dataStart = rawDataSize)
    (hfits : 0 < rawDataSize.toInt → dataStart.toNat + rawDataSize.toNat ≤ file.length) :
    ((rawDataSize.toInt ≤ 0 ∨ memory = none) ∧ ∃ ret,
      loadData memory file reads fileSize dataStart = ⟨.error ret, none, []⟩) ∨
    ∃ buffer, 0 < rawDataSize.toInt ∧ memory = some buffer ∧
      ((Brings reads 0 rawDataSize.toNat ∧ ∃ data, loadData memory file reads fileSize dataStart =
          ⟨.ok (rawDataSize, data), some buffer, [.alloc buffer rawDataSize]⟩) ∨
        (¬ Brings reads 0 rawDataSize.toNat ∧ ∃ ret, loadData memory file reads fileSize dataStart =
          ⟨.error ret, none, [.alloc buffer rawDataSize, .free buffer fileSize]⟩)) := by
  unfold loadData
  simp only [hraw]
  by_cases hneg : rawDataSize.toInt < 0
  · exact .inl ⟨.inl hneg.le, -EINVAL, if_pos hneg⟩
  by_cases hzero : rawDataSize = 0
  · refine .inl ⟨.inl ?_, -EINVAL, (if_neg hneg).trans (if_pos hzero)⟩
    rw [hzero]
    decide
  have hpos : 0 < rawDataSize.toInt :=
    lt_of_le_of_ne (not_lt.mp hneg) fun h => hzero (BitVec.eq_of_toInt_eq h.symm)
  rw [if_neg hneg, if_neg hzero]
  cases memory with
  | none => exact .inl ⟨.inr rfl, -ENOMEM, rfl⟩
  | some buffer =>
      have halloc : allocBuffer rawDataSize (some buffer) = some buffer := by
        simp [allocBuffer, allocTraceBuffer, hpos]
      rw [halloc]
      refine .inr ⟨buffer, hpos, rfl, ?_⟩
      have hbrings := readFragment_length_iff reads (hfits hpos) 0 [] (Nat.zero_le _)
      rw [List.length_nil, Nat.sub_zero] at hbrings
      rw [← hbrings]
      cases readFragment file dataStart.toNat rawDataSize.toNat reads 0 [] with
      | error ret =>
          refine .inr ⟨?_, ret, rfl⟩
          rintro ⟨whole, hok, -⟩
          cases hok
      | ok data =>
          by_cases hall : data.length = rawDataSize.toNat
          · exact .inl ⟨⟨data, rfl, hall⟩, data, if_pos hall⟩
          · refine .inr ⟨?_, -ETXTBSY, if_neg hall⟩
            rintro ⟨whole, hok, hlen⟩
            cases hok
            exact hall hlen

/-- The data of a trace file begins where the header says. -/
def rawDataSize (e : Endian) (file : List UInt8) : BitVec 32 :=
  BitVec.ofNat 32 file.length - (headerOf e file).dataStart.setWidth 32

/-- A load that comes to the data: the file is opened, its header read whole and accepted. -/
structure ComesToData (e : Endian) (opened : Option Errno) (file : List UInt8)
    (reads : ℕ → Outcome Errno) : Prop where
  opened : opened = none
  header : (reads 0).moved (min sizeofHeader file.length) = sizeofHeader
  accepted : (headerOf e file).Accepted

/-- **A load that does not come to the data obtains no buffer**; one that does goes on with it. -/
theorem prefetchLoadTraceFragment_cases (e : Endian) (opened : Option Errno) (memory : Option ℕ)
    (file : List UInt8) (reads : ℕ → Outcome Errno) :
    (¬ ComesToData e opened file reads ∧ ∃ ret,
      prefetchLoadTraceFragment e opened memory file reads = ⟨.error ret, none, []⟩) ∨
    (ComesToData e opened file reads ∧
      prefetchLoadTraceFragment e opened memory file reads =
        loadData memory file (fun call => reads (call + 1)) (BitVec.ofNat 32 file.length)
          ((headerOf e file).dataStart.setWidth 32)) := by
  cases opened with
  | some err =>
      refine .inl ⟨fun h => ?_, err.code, rfl⟩
      have hopened := h.opened
      cases hopened
  | none =>
      unfold prefetchLoadTraceFragment
      simp only [checks_eq]
      by_cases hheader : (reads 0).moved (min sizeofHeader file.length) = sizeofHeader
      swap
      · exact .inl ⟨fun h => hheader h.header, -EINVAL, if_pos (kernelRead_header_short hheader)⟩
      simp only [kernelRead_header hheader]
      rw [if_neg (by simp [sizeofHeader])]
      by_cases haccepted : (headerOf e file).Accepted
      · exact .inr ⟨⟨rfl, hheader, haccepted⟩, if_pos haccepted⟩
      · exact .inl ⟨fun h => haccepted h.accepted, -EINVAL, if_neg haccepted⟩

/-- **What a load leaves**: no buffer, one that it hands on, or one that it freed by the size of the file. -/
theorem prefetchLoadTraceFragment_leaves (e : Endian) (opened : Option Errno) (memory : Option ℕ)
    (file : List UInt8) (reads : ℕ → Outcome Errno) :
    ((¬ ComesToData e opened file reads ∨ (rawDataSize e file).toInt ≤ 0 ∨ memory = none) ∧ ∃ ret,
      prefetchLoadTraceFragment e opened memory file reads = ⟨.error ret, none, []⟩) ∨
    ∃ buffer, ComesToData e opened file reads ∧ 0 < (rawDataSize e file).toInt ∧ memory = some buffer ∧
      ((Brings (fun call => reads (call + 1)) 0 (rawDataSize e file).toNat ∧ ∃ data,
          prefetchLoadTraceFragment e opened memory file reads =
            ⟨.ok (rawDataSize e file, data), some buffer, [.alloc buffer (rawDataSize e file)]⟩) ∨
        (¬ Brings (fun call => reads (call + 1)) 0 (rawDataSize e file).toNat ∧ ∃ ret,
          prefetchLoadTraceFragment e opened memory file reads =
            ⟨.error ret, none, [.alloc buffer (rawDataSize e file),
              .free buffer (BitVec.ofNat 32 file.length)]⟩)) := by
  rcases prefetchLoadTraceFragment_cases e opened memory file reads with
    ⟨hnot, ret, hload⟩ | ⟨hcomes, hload⟩
  · exact .inl ⟨.inl hnot, ret, hload⟩
  · rw [hload]
    rcases loadData_cases memory file (fun call => reads (call + 1)) (rfl : _ = rawDataSize e file)
        (dataStart_add_rawDataSize_le file.length (headerOf e file).dataStart) with
      ⟨hnone, ret, hfails⟩ | ⟨buffer, hpos, hmemory, hreads⟩
    · exact .inl ⟨.inr hnone, ret, hfails⟩
    · exact .inr ⟨buffer, hcomes, hpos, hmemory, hreads⟩

/-- The buffer of the loader is accounted for. -/
theorem accounted_prefetchLoadTraceFragment_iff (getOrder : BitVec 32 → ℕ) (e : Endian)
    (opened : Option Errno) (memory : Option ℕ) (file : List UInt8) (reads : ℕ → Outcome Errno) :
    Accounted getOrder (prefetchLoadTraceFragment e opened memory file reads) ↔
      ¬ ComesToData e opened file reads ∨ (rawDataSize e file).toInt ≤ 0 ∨ memory = none ∨
        Brings (fun call => reads (call + 1)) 0 (rawDataSize e file).toNat ∨
          getOrder (BitVec.ofNat 32 file.length) = getOrder (rawDataSize e file) := by
  rcases prefetchLoadTraceFragment_leaves e opened memory file reads with
    ⟨hnone, ret, hload⟩ | ⟨buffer, hcomes, hpos, rfl, ⟨hbrings, data, hload⟩ | ⟨hshort, ret, hload⟩⟩
  · rw [hload]
    refine iff_of_true (accounted_nil _ _) ?_
    rcases hnone with hnot | hempty | hmemory
    · exact .inl hnot
    · exact .inr (.inl hempty)
    · exact .inr (.inr (.inl hmemory))
  · rw [hload]
    exact iff_of_true (accounted_handed _ _ _) (.inr (.inr (.inr (.inl hbrings))))
  -- the orders alone are left to decide
  · rw [hload, accounted_freed_iff, or_iff_right (not_not.mpr hcomes), or_iff_right (not_le.mpr hpos),
      or_iff_right (by simp), or_iff_right hshort]

/-! ## §6 — prefetching from a file -/

/-- **Prefetching from a file frees what it is handed by the length it is told**, so its buffer is
accounted for if the loader's is. -/
theorem accounted_doPrefetchFromFile_iff (getOrder : BitVec 32 → ℕ) (e : Endian)
    (opened : Option Errno) (memory : Option ℕ) (file : List UInt8) (reads : ℕ → Outcome Errno)
    (startPrefetch : List UInt8 → BitVec 32 → ℤ) :
    Accounted getOrder (doPrefetchFromFile e opened memory file reads startPrefetch) ↔
      Accounted getOrder (prefetchLoadTraceFragment e opened memory file reads) := by
  unfold doPrefetchFromFile
  rcases prefetchLoadTraceFragment_leaves e opened memory file reads with
    ⟨-, ret, hload⟩ | ⟨buffer, -, -, -, ⟨-, data, hload⟩ | ⟨-, ret, hload⟩⟩
  · rw [hload]
    exact Iff.rfl
  · rw [hload]
    exact iff_of_true ((accounted_freed_iff _ _ _ _).mpr rfl) (accounted_handed _ _ _)
  · rw [hload]
    exact Iff.rfl

/-! ## §7 — every buffer -/

/-- Every buffer the three functions obtain is handed on, or freed once by a length of its own order. -/
structure BuffersAccounted (getOrder : BitVec 32 → ℕ) (e : Endian) (opened : Option Errno)
    (memory : Option ℕ) (file : List UInt8) (reads : ℕ → Outcome Errno) : Prop where
  load : Accounted getOrder (prefetchLoadTraceFragment e opened memory file reads)
  prefetch : ∀ startPrefetch,
    Accounted getOrder (doPrefetchFromFile e opened memory file reads startPrefetch)
  fragment : ∀ {M : Machine} (t : PrefetchTrace M) (startMarker endMarker : TraceMarker)
    (memory : Option ℕ), Accounted getOrder (getPrefetchTraceFragment t startMarker endMarker memory)

/-- **Every buffer is accounted for, if and only if the load does not come to the data, there is none or
no memory for it, the reads bring all of it, or the file is of the same order as its data.** -/
theorem buffersAccounted_iff (getOrder : BitVec 32 → ℕ) (e : Endian) (opened : Option Errno)
    (memory : Option ℕ) (file : List UInt8) (reads : ℕ → Outcome Errno) :
    BuffersAccounted getOrder e opened memory file reads ↔
      ¬ ComesToData e opened file reads ∨ (rawDataSize e file).toInt ≤ 0 ∨ memory = none ∨
        Brings (fun call => reads (call + 1)) 0 (rawDataSize e file).toNat ∨
          getOrder (BitVec.ofNat 32 file.length) = getOrder (rawDataSize e file) := by
  rw [← accounted_prefetchLoadTraceFragment_iff]
  refine ⟨BuffersAccounted.load, fun hload => ⟨hload, fun startPrefetch => ?_, ?_⟩⟩
  · exact (accounted_doPrefetchFromFile_iff getOrder e opened memory file reads startPrefetch).mpr hload
  · exact accounted_getPrefetchTraceFragment getOrder

/-- `get_order` on a machine with pages of 4096 bytes. -/
def getOrder4096 (len : BitVec 32) : ℕ :=
  let pages := (len.toNat - 1) / 4096
  if pages = 0 then 0 else pages.log2 + 1

/-- A header and 4096 bytes of data. -/
def pageOfData : List UInt8 := headerBytes .little ++ List.replicate 4096 0

/-- The header is read, the data is not. -/
def failingReads (call : ℕ) : Outcome Errno := if call = 0 then .full else .error ⟨-5, by decide⟩

/-- Where the data cannot be read, the page it was to go to is given back as two. -/
theorem failed_read_frees_two_pages :
    (prefetchLoadTraceFragment .little none (some 1) pageOfData failingReads).calls =
        [.alloc 1 4096, .free 1 4106] ∧
      getOrder4096 4096 = 0 ∧ getOrder4096 4106 = 1 ∧
      ¬ BuffersAccounted getOrder4096 .little none (some 1) pageOfData failingReads := by
  have hlength : pageOfData.length = 4106 := by
    rw [pageOfData, List.length_append, length_headerBytes, List.length_replicate]
    rfl
  have hheader : headerOf .little pageOfData = savedHeader := headerOf_saved .little _
  have hcomes : ComesToData .little none pageOfData failingReads := by
    refine ⟨rfl, ?_, ?_⟩
    · rw [hlength]
      rfl
    · rw [hheader]
      exact savedHeader_accepted
  have hraw : rawDataSize .little pageOfData = 4096 := by
    rw [rawDataSize, hlength, hheader]
    rfl
  have horders : getOrder4096 4096 = 0 ∧ getOrder4096 4106 = 1 := by decide
  refine ⟨?_, horders.1, horders.2, ?_⟩
  · rcases prefetchLoadTraceFragment_cases .little none (some 1) pageOfData failingReads with
      ⟨hnot, -⟩ | ⟨-, hload⟩
    · exact absurd hcomes hnot
    have hfails : readFragment pageOfData 10 4096 (fun call => failingReads (call + 1)) 0 [] =
        .error (-5) := by
      rw [readFragment]
      rfl
    have hdata : (BitVec.ofNat 32 4106 - BitVec.setWidth 32 savedHeader.dataStart) = 4096 := rfl
    have hmemory : allocBuffer 4096 (some 1) = some 1 := by decide
    rw [hload, hlength, hheader, loadData]
    simp only [hdata, hmemory]
    rw [if_neg (by decide), if_neg (by decide)]
    have hstart : (BitVec.setWidth 32 savedHeader.dataStart).toNat = 10 := rfl
    have hsize : (4096 : BitVec 32).toNat = 4096 := rfl
    rw [hstart, hsize, hfails]
    rfl
  · intro haccounted
    rcases (accounted_prefetchLoadTraceFragment_iff _ _ _ _ _ _).mp haccounted.load with
      hnot | hempty | hmemory | hbrings | horder
    · exact hnot hcomes
    · rw [hraw] at hempty
      exact absurd hempty (by decide)
    · cases hmemory
    · rw [hraw] at hbrings
      cases hbrings with
      | more hpos hmoves hrest => exact hmoves
    · rw [hraw, hlength] at horder
      exact absurd (horders.2.symm.trans (horder.trans horders.1)) (by decide)

end Prefetch.TraceFile.Buffers

/-
# Prefetch.Core.Buffer — the trace buffer of `prefetch_core.c`

`struct prefetch_trace_t` with the functions that work on it alone: adding a record, markers, the
fragment between two markers, clearing. The memory behind `buffer` is kept by byte offset, one cell
for each place a record was written to; `position`, `buffer_used` and `buffer_size` are unsigned ints
and the sizes computed from them ints, as in C.

Three fields have no counterpart in C and no function reads them: `history`, every record ever added,
`dropped`, the records there was no room for, and `wildWrite`, whether a record was ever written outside
the allocated buffer.

`Live t live` says that the buffer holds exactly `live`, the records added since it was last cleared.
Adding keeps it (`Appends`), clearing empties it, and `getPrefetchTraceFragment_exact` reads it back
between any two markers handed out since the last clear.
-/
import Prefetch.Trace.Record
import Mathlib.Data.List.Infix
import Mathlib.Data.Nat.Basic
import Mathlib.Logic.Function.Basic

namespace Prefetch.Core

/-! ## §1 — the machine -/

/-- The kernel is built for 32-bit or 64-bit words. -/
inductive Machine where
  | bits32
  | bits64
  deriving DecidableEq, Repr

/-- Bits of an `unsigned long`, `pgoff_t` and `size_t`. -/
def Machine.bits : Machine → ℕ
  | .bits32 => 32
  | .bits64 => 64

/-- `sizeof(struct prefetch_trace_record)`: four words, `device` padded to one. -/
def Machine.sizeofRecord : Machine → ℕ
  | .bits32 => 16
  | .bits64 => 32

/-- `struct prefetch_trace_record` on a machine. -/
abbrev Record (M : Machine) := PrefetchTraceRecord M.bits

variable {M : Machine}

theorem Machine.sizeofRecord_pos : 0 < M.sizeofRecord := by
  cases M <;> decide

theorem Machine.sizeofRecord_le : M.sizeofRecord ≤ 32 := by
  cases M <;> decide

theorem Machine.two_pow_bits_ge : 2 ^ 32 ≤ 2 ^ M.bits := by
  cases M <;> decide

/-- Error codes; functions return them negated. -/
def EINVAL : ℤ := 22
def ERANGE : ℤ := 34
def ESRCH : ℤ := 3
def ENOSPC : ℤ := 28
def ENOMEM : ℤ := 12
def ENODEV : ℤ := 19

/-! ## §2 — the trace and its operations -/

/-- `struct trace_marker`. -/
structure TraceMarker where
  position : BitVec 32
  generation : BitVec 32
  deriving DecidableEq, Repr

/-- `struct prefetch_trace_t`, as it is before the module is initialised. -/
structure PrefetchTrace (M : Machine) where
  bufferUsed : BitVec 32 := 0
  bufferSize : BitVec 32 := 0
  buffer : Option (ℕ → Option (Record M)) := none
  generation : BitVec 32 := 0
  overflow : Bool := false
  overflowReported : Bool := false
  pageReleaseTraced : ℕ := 0
  tracersCount : ℤ := 0
  traceUsers : ℤ := 0
  history : List (Record M) := []
  dropped : List (Record M) := []
  wildWrite : Bool := false

/-- `prefetch_trace_add` -/
def prefetchTraceAdd (t : PrefetchTrace M) (device : BitVec 32)
    (inodeNo rangeStart rangeLength : BitVec M.bits) : PrefetchTrace M :=
  let record : Record M := ⟨device, inodeNo, rangeStart, rangeLength⟩
  if t.bufferSize.toNat ≤ (t.bufferUsed.toNat + M.sizeofRecord) % 2 ^ M.bits then
    { t with overflow := true, dropped := t.dropped ++ [record] }
  else
    { t with
      buffer := t.buffer.map (fun mem => Function.update mem t.bufferUsed.toNat (some record))
      bufferUsed := t.bufferUsed + BitVec.ofNat 32 M.sizeofRecord
      history := t.history ++ [record]
      wildWrite := t.wildWrite || t.buffer.isNone ||
        decide (t.bufferSize.toNat < t.bufferUsed.toNat + M.sizeofRecord) }

/-- `alloc_trace_buffer`: `len` is an int, and an order computed from one that is not positive is past
what the page allocator hands out; for the others `memory` says whether there are pages. -/
def allocTraceBuffer (len : BitVec 32) (memory : Bool) : Bool :=
  memory && decide (0 < len.toInt)

/-- `prefetch_trace_size` -/
def prefetchTraceSize (traceSizeKb : BitVec 32) : BitVec 32 :=
  if 0 < traceSizeKb then traceSizeKb <<< 10 else 256 * 1024

/-- The end of `clear_trace`: next generation, markers are not comparable. -/
def resetTrace (t : PrefetchTrace M) : PrefetchTrace M :=
  { t with
    bufferUsed := 0
    overflow := false
    overflowReported := false
    pageReleaseTraced := 0
    generation := t.generation + 1 }

/-- `clear_trace`. It drops the spinlock to allocate, but its callers hold `prefetch_trace_mutex`, so
nobody else allocates the buffer meanwhile. -/
def clearTrace (traceSizeKb : BitVec 32) (memory : Bool) (t : PrefetchTrace M) : PrefetchTrace M :=
  match t.buffer with
  | some _ => resetTrace t
  | none =>
      if allocTraceBuffer (prefetchTraceSize traceSizeKb) memory then
        resetTrace { t with
          buffer := some (fun _ => none), bufferSize := prefetchTraceSize traceSizeKb }
      else t

/-- `get_trace_marker` -/
def getTraceMarker (t : PrefetchTrace M) : TraceMarker := ⟨t.bufferUsed, t.generation⟩

@[simp] theorem getTraceMarker_position (t : PrefetchTrace M) :
    (getTraceMarker t).position = t.bufferUsed := rfl

@[simp] theorem getTraceMarker_generation (t : PrefetchTrace M) :
    (getTraceMarker t).generation = t.generation := rfl

/-- `prefetch_trace_fragment_size` -/
def prefetchTraceFragmentSize (startMarker endMarker : TraceMarker) : ℤ :=
  if startMarker.generation ≠ endMarker.generation then -EINVAL
  else if endMarker.position < startMarker.position then -ERANGE
  else (endMarker.position - startMarker.position).toInt

/-- `trace_marker_position_in_buffer` -/
def traceMarkerPositionInBuffer (t : PrefetchTrace M) (marker : TraceMarker) : ℤ :=
  if marker.generation ≠ t.generation then -EINVAL
  else if t.bufferUsed < marker.position then -ENOSPC
  else marker.position.toInt

/-- What `get_prefetch_trace_fragment` leaves: an error code, a `BUG_ON`, or success with
`fragment_result` (`NULL` or a copy of the cells) and `fragment_size_result`. -/
inductive FragmentResult (M : Machine) where
  | error (ret : ℤ)
  | bug
  | ok (fragment : Option (List (Option (Record M)))) (size : ℤ)
  deriving DecidableEq, Repr

/-- `memcpy` out of the buffer. -/
def copyCells (t : PrefetchTrace M) (start len : ℕ) : List (Option (Record M)) :=
  (List.range (len / M.sizeofRecord)).map (fun i =>
    t.buffer.bind (fun mem => mem (start + i * M.sizeofRecord)))

/-- `get_prefetch_trace_fragment` -/
def getPrefetchTraceFragment (t : PrefetchTrace M) (startMarker endMarker : TraceMarker)
    (memory : Bool) : FragmentResult M :=
  let fragmentSize := prefetchTraceFragmentSize startMarker endMarker
  if fragmentSize < 0 then .error fragmentSize
  else if fragmentSize = 0 then .ok none 0
  else if ¬ allocTraceBuffer (BitVec.ofInt 32 fragmentSize) memory then .error (-ENOMEM)
  else
    let startPosition := traceMarkerPositionInBuffer t startMarker
    let endPosition := traceMarkerPositionInBuffer t endMarker
    if startPosition < 0 then .error (-ESRCH)
    else if endPosition < 0 then .error (-ESRCH)
    else
      let len := endPosition - startPosition
      if len ≤ 0 ∨ len ≠ fragmentSize then .bug
      else .ok (some (copyCells t startPosition.toNat len.toNat)) fragmentSize

/-- The success that hands out exactly these records. -/
def FragmentResult.ofRecords (rs : List (Record M)) : FragmentResult M :=
  if rs = [] then .ok none 0 else .ok (some (rs.map some)) (rs.length * M.sizeofRecord : ℕ)

/-! ## §3 — what the buffer holds -/

/-- The buffer holds exactly `live`: the records below `buffer_used` in order, at the end of the
history, in a buffer that is there and large enough. -/
structure Live (t : PrefetchTrace M) (live : List (Record M)) : Prop where
  suffix : live <:+ t.history
  used : t.bufferUsed.toNat = live.length * M.sizeofRecord
  fits : t.bufferUsed.toNat ≤ t.bufferSize.toNat
  size_lt : t.bufferSize.toNat < 2 ^ 31
  null : t.buffer = none → t.bufferSize = 0
  cells : ∀ i (h : i < live.length),
    t.buffer.bind (fun mem => mem (i * M.sizeofRecord)) = some live[i]
  safe : t.wildWrite = false

theorem live_init : Live ({} : PrefetchTrace M) [] where
  suffix := List.nil_suffix
  used := by simp
  fits := by simp
  size_lt := by simp
  null := by simp
  cells := by simp
  safe := rfl

/-- `t'` is `t` with `new` appended; a record dropped raised the flag. The counters and the overflow
report are left open. -/
structure Appends (t t' : PrefetchTrace M) (new : List (Record M)) : Prop where
  history : t'.history = t.history ++ new
  generation : t'.generation = t.generation
  present : t'.buffer.isSome = t.buffer.isSome
  overflow : t.overflow = true → t'.overflow = true
  dropped : t'.overflow = false → t'.dropped = t.dropped
  live : ∀ live, Live t live → Live t' (live ++ new)

theorem Appends.refl (t : PrefetchTrace M) : Appends t t [] :=
  ⟨by simp, rfl, rfl, id, fun _ => rfl, by simp⟩

/-- The overflow flag is sticky. -/
theorem Appends.overflow_false {t t' : PrefetchTrace M} {new : List (Record M)}
    (h : Appends t t' new) (hover : t'.overflow = false) : t.overflow = false := by
  cases hflag : t.overflow
  · rfl
  · rw [h.overflow hflag] at hover
    cases hover

theorem Appends.trans {t t' t'' : PrefetchTrace M} {new new' : List (Record M)}
    (h : Appends t t' new) (h' : Appends t' t'' new') : Appends t t'' (new ++ new') where
  history := by rw [h'.history, h.history, List.append_assoc]
  generation := h'.generation.trans h.generation
  present := h'.present.trans h.present
  overflow := fun ho => h'.overflow (h.overflow ho)
  dropped := fun ho => (h'.dropped ho).trans (h.dropped (h'.overflow_false ho))
  live := by
    intro live hl
    rw [← List.append_assoc]
    exact h'.live _ (h.live _ hl)

/-- Changing the counters and flags alone appends nothing. -/
theorem Appends.of_fields {t t' : PrefetchTrace M} (hused : t'.bufferUsed = t.bufferUsed)
    (hsize : t'.bufferSize = t.bufferSize) (hbuffer : t'.buffer = t.buffer)
    (hgen : t'.generation = t.generation) (hover : t.overflow = true → t'.overflow = true)
    (hhist : t'.history = t.history)
    (hdrop : t'.overflow = false → t'.dropped = t.dropped)
    (hwild : t'.wildWrite = t.wildWrite) : Appends t t' [] where
  history := by rw [hhist, List.append_nil]
  generation := hgen
  present := by rw [hbuffer]
  overflow := hover
  dropped := hdrop
  live := by
    intro live hl
    rw [List.append_nil]
    constructor
    · rw [hhist]
      exact hl.suffix
    · rw [hused]
      exact hl.used
    · rw [hused, hsize]
      exact hl.fits
    · rw [hsize]
      exact hl.size_lt
    · rw [hbuffer, hsize]
      exact hl.null
    · rw [hbuffer]
      exact hl.cells
    · rw [hwild]
      exact hl.safe

/-- Room for one more record: neither the position nor the check wraps. -/
theorem Live.room {t : PrefetchTrace M} {live : List (Record M)} (h : Live t live) :
    (t.bufferUsed.toNat + M.sizeofRecord) % 2 ^ M.bits = t.bufferUsed.toNat + M.sizeofRecord := by
  have hsize := h.size_lt
  have hfits := h.fits
  have hrec := M.sizeofRecord_le
  have hbits := M.two_pow_bits_ge
  exact Nat.mod_eq_of_lt (by omega)

/-- A record written behind the live ones leaves them alone and becomes the last of them. -/
theorem Live.push {t t' : PrefetchTrace M} {live : List (Record M)} {record : Record M}
    (hl : Live t live) (hroom : t.bufferUsed.toNat + M.sizeofRecord < t.bufferSize.toNat)
    (ht' : t' = { t with
      buffer := t.buffer.map (fun mem => Function.update mem t.bufferUsed.toNat (some record))
      bufferUsed := t.bufferUsed + BitVec.ofNat 32 M.sizeofRecord
      history := t.history ++ [record]
      wildWrite := t.wildWrite || t.buffer.isNone ||
        decide (t.bufferSize.toNat < t.bufferUsed.toNat + M.sizeofRecord) }) :
    Live t' (live ++ [record]) := by
  subst ht'
  have hsize := hl.size_lt
  have hrec := M.sizeofRecord_le
  have hpos := M.sizeofRecord_pos
  have hused : (t.bufferUsed + BitVec.ofNat 32 M.sizeofRecord).toNat =
      t.bufferUsed.toNat + M.sizeofRecord := by
    rw [BitVec.toNat_add, BitVec.toNat_ofNat, Nat.mod_eq_of_lt (by omega : M.sizeofRecord < 2 ^ 32),
      Nat.mod_eq_of_lt (by omega)]
  -- room is left, so the buffer is there
  have hsome : t.buffer ≠ none := by
    intro hnone
    have hzero := hl.null hnone
    rw [hzero] at hroom
    simp at hroom
  obtain ⟨mem, hmem⟩ := Option.ne_none_iff_exists'.1 hsome
  constructor
  · obtain ⟨old, hold⟩ := hl.suffix
    exact ⟨old, by rw [← hold, List.append_assoc]⟩
  · show (t.bufferUsed + BitVec.ofNat 32 M.sizeofRecord).toNat = _
    rw [hused, hl.used, List.length_append, List.length_singleton, Nat.add_mul, Nat.one_mul]
  · show (t.bufferUsed + BitVec.ofNat 32 M.sizeofRecord).toNat ≤ t.bufferSize.toNat
    omega
  · exact hsize
  · intro hnone
    simp [hmem] at hnone
  · intro i hi
    have hcells := hl.cells
    simp only [hmem, Option.bind_some, Option.map_some] at hcells ⊢
    rw [List.length_append, List.length_singleton] at hi
    rcases Nat.lt_succ_iff_lt_or_eq.1 hi with hlt | rfl
    · have hne : i * M.sizeofRecord ≠ t.bufferUsed.toNat := by
        rw [hl.used]
        intro heq
        exact hlt.ne (Nat.eq_of_mul_eq_mul_right hpos heq)
      rw [Function.update_of_ne hne, hcells i hlt, List.getElem_append_left hlt]
    · rw [hl.used, Function.update_self]
      simp
  · show (t.wildWrite || t.buffer.isNone || _) = false
    rw [hl.safe, hmem]
    simp only [Option.isNone_some, Bool.or_false, Bool.false_or, decide_eq_false_iff_not]
    omega

/-- **Adding a record** appends it, or finds the buffer full and raises the overflow flag. -/
theorem prefetchTraceAdd_appends (t : PrefetchTrace M) (device : BitVec 32)
    (inodeNo rangeStart rangeLength : BitVec M.bits) :
    ∃ new, Appends t (prefetchTraceAdd t device inodeNo rangeStart rangeLength) new ∧
      ((prefetchTraceAdd t device inodeNo rangeStart rangeLength).overflow = false →
        new = [⟨device, inodeNo, rangeStart, rangeLength⟩]) := by
  unfold prefetchTraceAdd
  dsimp only
  split
  · next hfull =>
    refine ⟨[], ?_, ?_⟩
    · apply Appends.of_fields <;> simp
    · simp
  · next hroom =>
    refine ⟨[⟨device, inodeNo, rangeStart, rangeLength⟩], ⟨rfl, rfl, by simp, id, fun _ => rfl, ?_⟩,
      fun _ => rfl⟩
    intro live hl
    apply hl.push ?_ rfl
    rw [hl.room] at hroom
    omega

/-- The counters of the trace, and what has been reported, are not the buffer's business. -/
structure SameCounters (t t' : PrefetchTrace M) : Prop where
  tracersCount : t'.tracersCount = t.tracersCount
  traceUsers : t'.traceUsers = t.traceUsers
  overflowReported : t'.overflowReported = t.overflowReported

theorem SameCounters.refl (t : PrefetchTrace M) : SameCounters t t := ⟨rfl, rfl, rfl⟩

theorem SameCounters.trans {t t' t'' : PrefetchTrace M} (h : SameCounters t t')
    (h' : SameCounters t' t'') : SameCounters t t'' :=
  ⟨h'.tracersCount.trans h.tracersCount, h'.traceUsers.trans h.traceUsers,
    h'.overflowReported.trans h.overflowReported⟩

theorem prefetchTraceAdd_counters (t : PrefetchTrace M) (device : BitVec 32)
    (inodeNo rangeStart rangeLength : BitVec M.bits) :
    SameCounters t (prefetchTraceAdd t device inodeNo rangeStart rangeLength) := by
  unfold prefetchTraceAdd
  dsimp only
  split
  · exact ⟨rfl, rfl, rfl⟩
  · exact ⟨rfl, rfl, rfl⟩

/-! ## §4 — clearing -/

/-- An allocated buffer is shorter than the largest int. -/
theorem allocTraceBuffer_lt {len : BitVec 32} {memory : Bool}
    (h : allocTraceBuffer len memory = true) : len.toNat < 2 ^ 31 := by
  simp only [allocTraceBuffer, Bool.and_eq_true, decide_eq_true_eq] at h
  have hint := h.2
  rw [BitVec.toInt_eq_toNat_cond] at hint
  split at hint <;> omega

theorem Live.reset {t : PrefetchTrace M} (hsize : t.bufferSize.toNat < 2 ^ 31)
    (hnull : t.buffer = none → t.bufferSize = 0) (hsafe : t.wildWrite = false) :
    Live (resetTrace t) [] where
  suffix := List.nil_suffix
  used := by simp [resetTrace]
  fits := by simp [resetTrace]
  size_lt := hsize
  null := hnull
  cells := by simp
  safe := hsafe

/-- What `clear_trace` did: without a buffer and without memory for one nothing, else the trace is
empty and in the next generation. -/
theorem clearTrace_cases (traceSizeKb : BitVec 32) (memory : Bool) (t : PrefetchTrace M)
    {live : List (Record M)} (hl : Live t live) :
    (t.buffer = none ∧ clearTrace traceSizeKb memory t = t) ∨
      (clearTrace traceSizeKb memory t).buffer.isSome ∧ Live (clearTrace traceSizeKb memory t) [] ∧
        (clearTrace traceSizeKb memory t).generation = t.generation + 1 := by
  unfold clearTrace
  split
  · next mem hmem =>
    exact .inr ⟨Option.isSome_iff_exists.2 ⟨mem, hmem⟩, Live.reset hl.size_lt hl.null hl.safe, rfl⟩
  · next hnone =>
    split
    · next halloc =>
      exact .inr ⟨rfl, Live.reset (allocTraceBuffer_lt halloc) (by simp) hl.safe, rfl⟩
    · exact .inl ⟨hnone, rfl⟩

/-- Clearing leaves the history and the counters alone. -/
theorem clearTrace_frame (traceSizeKb : BitVec 32) (memory : Bool) (t : PrefetchTrace M) :
    (clearTrace traceSizeKb memory t).history = t.history ∧
      (clearTrace traceSizeKb memory t).tracersCount = t.tracersCount ∧
      (clearTrace traceSizeKb memory t).traceUsers = t.traceUsers := by
  unfold clearTrace
  split
  · exact ⟨rfl, rfl, rfl⟩
  · split <;> exact ⟨rfl, rfl, rfl⟩

/-- The buffer holds what was added since the last clear, whichever way the clear went. -/
theorem Live.clearTrace {t : PrefetchTrace M} {live : List (Record M)} (hl : Live t live)
    (traceSizeKb : BitVec 32) (memory : Bool) :
    ∃ live', Live (clearTrace traceSizeKb memory t) live' := by
  rcases clearTrace_cases traceSizeKb memory t hl with ⟨-, heq⟩ | ⟨-, hempty, -⟩
  · rw [heq]
    exact ⟨live, hl⟩
  · exact ⟨[], hempty⟩

/-! ## §5 — reading a fragment back -/

section Fragment

variable {t₁ t₃ t₄ : PrefetchTrace M} {live new more : List (Record M)}

/-- Below `2 ^ 31` an unsigned int and the int it converts to agree. -/
theorem toInt_of_lt {x : BitVec 32} (h : x.toNat < 2 ^ 31) : x.toInt = x.toNat :=
  BitVec.toInt_eq_toNat_of_lt (by omega)

theorem Appends.bufferUsed (h : Appends t₁ t₃ new) (hl : Live t₁ live) :
    t₃.bufferUsed.toNat = t₁.bufferUsed.toNat + new.length * M.sizeofRecord := by
  rw [(h.live live hl).used, hl.used, List.length_append, Nat.add_mul]

/-- The size computed from two markers, the second `new` records behind the first. -/
theorem Appends.sub_bufferUsed (h : Appends t₁ t₃ new) (hl : Live t₁ live) :
    (t₃.bufferUsed - t₁.bufferUsed).toInt = (new.length * M.sizeofRecord : ℕ) := by
  have hused := h.bufferUsed hl
  have hfits := (h.live live hl).fits
  have hsize := (h.live live hl).size_lt
  have hsub : (t₃.bufferUsed - t₁.bufferUsed).toNat = new.length * M.sizeofRecord := by
    rw [BitVec.toNat_sub_of_le (BitVec.le_def.2 (by omega))]
    omega
  rw [toInt_of_lt (by omega), hsub]

/-- The position of a marker handed out since the last clear. -/
theorem Appends.position (h : Appends t₁ t₃ new) (hl : Live t₁ live) :
    traceMarkerPositionInBuffer t₃ (getTraceMarker t₁) = t₁.bufferUsed.toNat := by
  have hused := h.bufferUsed hl
  have hfits := (h.live live hl).fits
  have hsize := (h.live live hl).size_lt
  unfold traceMarkerPositionInBuffer
  rw [if_neg (by simp [h.generation]), if_neg, getTraceMarker_position, toInt_of_lt (by omega)]
  rw [getTraceMarker_position, BitVec.lt_def]
  omega

/-- The cells between two markers are the records between them. -/
theorem copyCells_eq (hl : Live t₄ (live ++ new ++ more)) :
    copyCells t₄ (live.length * M.sizeofRecord) (new.length * M.sizeofRecord) = new.map some := by
  unfold copyCells
  rw [Nat.mul_div_cancel _ M.sizeofRecord_pos]
  apply List.ext_getElem
  · simp
  · intro i hi _
    simp only [List.length_map, List.length_range] at hi
    have hcell := hl.cells (live.length + i) (by simp only [List.length_append]; omega)
    simp only [List.getElem_map, List.getElem_range, ← Nat.add_mul, hcell]
    congr 1
    rw [List.getElem_append_left (by simp only [List.length_append]; omega),
      List.getElem_append_right (by omega)]
    simp

/-- The size of the fragment between two markers, the second `new` records behind the first. -/
theorem Appends.fragmentSize (h : Appends t₁ t₃ new) (hl : Live t₁ live) :
    prefetchTraceFragmentSize (getTraceMarker t₁) (getTraceMarker t₃) =
      (new.length * M.sizeofRecord : ℕ) := by
  have hused := h.bufferUsed hl
  unfold prefetchTraceFragmentSize
  rw [if_neg (by simp [h.generation]), if_neg, ← h.sub_bufferUsed hl]
  · rfl
  · rw [getTraceMarker_position, getTraceMarker_position, BitVec.lt_def]
    omega

/-- Only the true start marker gives that size: the size fixes the position, the check the
generation. -/
theorem Appends.eq_marker (h : Appends t₁ t₃ new) (hl : Live t₁ live) {startMarker : TraceMarker}
    (hsize : prefetchTraceFragmentSize startMarker (getTraceMarker t₃) =
      (new.length * M.sizeofRecord : ℕ)) : startMarker = getTraceMarker t₁ := by
  have hnonneg := Int.natCast_nonneg (new.length * M.sizeofRecord)
  unfold prefetchTraceFragmentSize at hsize
  split_ifs at hsize with hgen hlt
  · rw [← hsize] at hnonneg
    exact absurd hnonneg (by decide)
  · rw [← hsize] at hnonneg
    exact absurd hnonneg (by decide)
  · rw [← h.sub_bufferUsed hl] at hsize
    have hposition : startMarker.position = t₁.bufferUsed := by
      simpa using BitVec.eq_of_toInt_eq hsize
    have hgeneration : startMarker.generation = t₁.generation := by
      rw [← h.generation]
      simpa using hgen
    cases startMarker
    simp_all [getTraceMarker]

/-- A successful read hands out as many bytes as it says. -/
theorem fragmentSize_of_ofRecords {startMarker endMarker : TraceMarker} {memory : Bool}
    (h : getPrefetchTraceFragment t₄ startMarker endMarker memory = .ofRecords new) :
    prefetchTraceFragmentSize startMarker endMarker = (new.length * M.sizeofRecord : ℕ) := by
  unfold getPrefetchTraceFragment FragmentResult.ofRecords at h
  dsimp only at h
  split_ifs at h <;> simp_all

/-- Reading between two markers handed out since the last clear succeeds. -/
theorem Appends.fragment (hl : Live t₁ live) (h : Appends t₁ t₃ new)
    (h' : Appends t₃ t₄ more) :
    getPrefetchTraceFragment t₄ (getTraceMarker t₁) (getTraceMarker t₃) true = .ofRecords new := by
  have hl₃ := h.live live hl
  have hl₄ := h'.live _ hl₃
  have hused := h.bufferUsed hl
  unfold getPrefetchTraceFragment FragmentResult.ofRecords
  dsimp only
  rw [h.fragmentSize hl, if_neg (by omega)]
  by_cases hnew : new = []
  · subst hnew
    simp
  · have hlen : 0 < new.length * M.sizeofRecord :=
      Nat.mul_pos (List.length_pos_iff.2 hnew) M.sizeofRecord_pos
    have halloc : allocTraceBuffer
        (BitVec.ofInt 32 ((new.length * M.sizeofRecord : ℕ) : ℤ)) true = true := by
      rw [← h.sub_bufferUsed hl, BitVec.ofInt_toInt]
      simp only [allocTraceBuffer, Bool.true_and, decide_eq_true_eq, h.sub_bufferUsed hl]
      omega
    have hcopy : ((t₃.bufferUsed.toNat : ℤ) - t₁.bufferUsed.toNat).toNat =
        new.length * M.sizeofRecord := by
      omega
    rw [if_neg (by omega), if_neg (not_not_intro halloc), (h.trans h').position hl,
      h'.position hl₃, if_neg (by omega), if_neg (by omega), if_neg (by omega), if_neg hnew,
      hcopy, Int.toNat_natCast, hl.used, copyCells_eq hl₄]

/-- **A fragment holds exactly the records appended between its markers.** With the end marker taken
`new` records after `t₁`, reading succeeds with `new` if and only if the start marker is the one
`get_trace_marker` hands out at `t₁`, as long as the trace has only been appended to. -/
theorem getPrefetchTraceFragment_exact (hl : Live t₁ live) (h : Appends t₁ t₃ new)
    (h' : Appends t₃ t₄ more) (startMarker : TraceMarker) :
    getPrefetchTraceFragment t₄ startMarker (getTraceMarker t₃) true = .ofRecords new ↔
      startMarker = getTraceMarker t₁ := by
  constructor
  · intro hget
    exact h.eq_marker hl (fragmentSize_of_ofRecords hget)
  · rintro rfl
    exact h.fragment hl h'

end Fragment

end Prefetch.Core

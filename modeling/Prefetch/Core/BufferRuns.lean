/-
# Prefetch.Core.BufferRuns — the trace buffer over whole runs

Any sequence of `prefetch_trace_add` and `clear_trace` from the state the module is loaded in. What is
not in the source comes along in `BufferRun`: the records accepted since the last clear that took
effect, and the number of such clears.

`trace_buffer_sound`: the buffer holds exactly those records, in order and within its bounds, and reading
between any two markers handed out on the way is an error or yields the records between them. The size
of a fragment is computed from the markers alone, so a clear between that and the copy is a clear
before both.
-/
import Prefetch.Core.Buffer

namespace Prefetch.Core

variable {M : Machine}

/-! ## §1 — runs of the buffer -/

/-- What happens to the buffer; `memory` is for the buffer a clear may have to allocate. -/
inductive BufferEvent (M : Machine) where
  | add (device : BitVec 32) (inodeNo rangeStart rangeLength : BitVec M.bits)
  | clear (memory : Bool)

/-- The trace, the records accepted since the last clear that took effect, and how many did. -/
structure BufferRun (M : Machine) where
  trace : PrefetchTrace M := {}
  accepted : List (Record M) := []
  clears : ℕ := 0

/-- One call. -/
def bufferStep (traceSizeKb : BitVec 32) (r : BufferRun M) : BufferEvent M → BufferRun M
  | .add device inodeNo rangeStart rangeLength =>
      let t := prefetchTraceAdd r.trace device inodeNo rangeStart rangeLength
      { r with trace := t, accepted := r.accepted ++ t.history.drop r.trace.history.length }
  | .clear memory =>
      let t := clearTrace traceSizeKb memory r.trace
      -- a clear that finds no buffer and gets none ends before the reset
      if t.buffer.isSome then ⟨t, [], r.clears + 1⟩ else { r with trace := t }

/-- The buffer after a sequence of calls. -/
def runBuffer (traceSizeKb : BitVec 32) (es : List (BufferEvent M)) : BufferRun M :=
  es.foldl (bufferStep traceSizeKb) {}

/-! ## §2 — the invariant -/

/-- The accepted records are live, and the generation counts the clears. -/
structure BufferRun.Inv (r : BufferRun M) : Prop where
  live : Live r.trace r.accepted
  generation : r.trace.generation = BitVec.ofNat 32 r.clears

/-- `r'` comes later than `r`: after further clears, or with further records only. -/
structure BufferRun.Later (r r' : BufferRun M) : Prop where
  clears_le : r.clears ≤ r'.clears
  appends : r'.clears = r.clears →
    ∃ new, Appends r.trace r'.trace new ∧ r'.accepted = r.accepted ++ new

theorem BufferRun.Later.refl (r : BufferRun M) : r.Later r :=
  ⟨le_rfl, fun _ => ⟨[], .refl _, (List.append_nil _).symm⟩⟩

theorem BufferRun.Later.trans {r r' r'' : BufferRun M} (h : r.Later r') (h' : r'.Later r'') :
    r.Later r'' := by
  refine ⟨h.clears_le.trans h'.clears_le, ?_⟩
  intro heq
  have hle := h.clears_le
  have hle' := h'.clears_le
  obtain ⟨new, hnew, haccepted⟩ := h.appends (by omega)
  obtain ⟨new', hnew', haccepted'⟩ := h'.appends (by omega)
  exact ⟨new ++ new', hnew.trans hnew', by rw [haccepted', haccepted, List.append_assoc]⟩

/-- **One call keeps the invariant**, and appends or clears. -/
theorem bufferStep_spec (traceSizeKb : BitVec 32) {r : BufferRun M} (h : r.Inv)
    (e : BufferEvent M) :
    (bufferStep traceSizeKb r e).Inv ∧ r.Later (bufferStep traceSizeKb r e) := by
  cases e with
  | add device inodeNo rangeStart rangeLength =>
      obtain ⟨new, hnew, -⟩ := prefetchTraceAdd_appends r.trace device inodeNo rangeStart rangeLength
      have hdrop : (prefetchTraceAdd r.trace device inodeNo rangeStart rangeLength).history.drop
          r.trace.history.length = new := by
        rw [hnew.history, List.drop_left]
      simp only [bufferStep, hdrop]
      refine ⟨⟨hnew.live _ h.live, hnew.generation.trans h.generation⟩, le_rfl, ?_⟩
      intro _
      exact ⟨new, hnew, rfl⟩
  | clear memory =>
      simp only [bufferStep]
      rcases clearTrace_cases traceSizeKb memory r.trace h.live with
        ⟨hnone, heq⟩ | ⟨hsome, hlive, hgeneration⟩
      · rw [heq, if_neg (by simp [hnone])]
        exact ⟨h, .refl r⟩
      · rw [if_pos hsome]
        refine ⟨⟨hlive, ?_⟩, Nat.le_succ _, ?_⟩
        · rw [hgeneration, h.generation]
          exact (BitVec.ofNat_add r.clears 1).symm
        · intro heq
          exact absurd heq (Nat.succ_ne_self _)

/-- Over a whole sequence of calls. -/
theorem foldl_bufferStep_spec (traceSizeKb : BitVec 32) {r : BufferRun M} (h : r.Inv)
    (es : List (BufferEvent M)) :
    (es.foldl (bufferStep traceSizeKb) r).Inv ∧ r.Later (es.foldl (bufferStep traceSizeKb) r) := by
  induction es generalizing r with
  | nil => exact ⟨h, .refl r⟩
  | cons e es ih =>
      obtain ⟨hinv, hlater⟩ := bufferStep_spec traceSizeKb h e
      obtain ⟨hinv', hlater'⟩ := ih hinv
      exact ⟨hinv', hlater.trans hlater'⟩

theorem inv_runBuffer (traceSizeKb : BitVec 32) (es : List (BufferEvent M)) :
    (runBuffer traceSizeKb es).Inv :=
  (foldl_bufferStep_spec traceSizeKb ⟨live_init, rfl⟩ es).1

theorem later_runBuffer (traceSizeKb : BitVec 32) (es fs : List (BufferEvent M)) :
    (runBuffer traceSizeKb es).Later (runBuffer traceSizeKb (es ++ fs)) := by
  unfold runBuffer
  rw [List.foldl_append]
  exact (foldl_bufferStep_spec traceSizeKb (inv_runBuffer traceSizeKb es) fs).2

theorem later_of_extends (traceSizeKb : BitVec 32) {es fs : List (BufferEvent M)} (h : es <+: fs) :
    (runBuffer traceSizeKb es).Later (runBuffer traceSizeKb fs) := by
  obtain ⟨rest, rfl⟩ := h
  exact later_runBuffer traceSizeKb es rest

/-! ## §3 — fragments -/

section Fragments

variable {r₁ r₂ r₃ : BufferRun M}

/-- Markers of different clears cannot be confused, as long as the generation has not wrapped. -/
theorem generation_ne (h₁ : r₁.Inv) (h₂ : r₂.Inv) (hne : r₁.clears ≠ r₂.clears)
    (hlt₁ : r₁.clears < 2 ^ 32) (hlt₂ : r₂.clears < 2 ^ 32) :
    r₁.trace.generation ≠ r₂.trace.generation := by
  rw [h₁.generation, h₂.generation]
  intro heq
  have htoNat := congrArg BitVec.toNat heq
  rw [BitVec.toNat_ofNat, BitVec.toNat_ofNat, Nat.mod_eq_of_lt hlt₁, Nat.mod_eq_of_lt hlt₂] at htoNat
  exact hne htoNat

/-- A marker that is not of the trace's generation is found out behind the allocation. -/
theorem getPrefetchTraceFragment_stale {t : PrefetchTrace M} {startMarker endMarker : TraceMarker}
    (memory : Bool) (hsize : 0 < prefetchTraceFragmentSize startMarker endMarker)
    (hstale : startMarker.generation ≠ t.generation) :
    ∃ ret < 0, getPrefetchTraceFragment t startMarker endMarker memory = .error ret := by
  have hposition : traceMarkerPositionInBuffer t startMarker < 0 := by
    unfold traceMarkerPositionInBuffer
    rw [if_pos hstale]
    decide
  unfold getPrefetchTraceFragment
  dsimp only
  rw [if_neg (by omega), if_neg (by omega)]
  split
  · exact ⟨-ENOMEM, by decide, rfl⟩
  · exact ⟨-ESRCH, by decide, rfl⟩

/-- An empty fragment needs no memory and is never stale. -/
theorem getPrefetchTraceFragment_empty (t : PrefetchTrace M) (m : TraceMarker) (memory : Bool) :
    getPrefetchTraceFragment t m m memory = .ofRecords [] := by
  have hsize : prefetchTraceFragmentSize m m = 0 := by
    unfold prefetchTraceFragmentSize
    simp
  unfold getPrefetchTraceFragment
  dsimp only
  rw [hsize]
  rfl

/-- **Reading from an earlier marker to a later one of the same clear.** -/
theorem fragment_forward (h₁ : r₁.Inv) (h₃ : r₃.Inv) {new : List (Record M)}
    (hnew : Appends r₁.trace r₂.trace new) (hclears : r₂.clears = r₁.clears)
    (hlater : r₂.Later r₃) (hlt : r₃.clears < 2 ^ 32) (memory : Bool) :
    (∃ ret < 0, getPrefetchTraceFragment r₃.trace (getTraceMarker r₁.trace)
        (getTraceMarker r₂.trace) memory = .error ret) ∨
      getPrefetchTraceFragment r₃.trace (getTraceMarker r₁.trace) (getTraceMarker r₂.trace) memory =
        .ofRecords new := by
  have hsize := hnew.fragmentSize h₁.live
  by_cases hempty : new = []
  · subst hempty
    have hmarker : getTraceMarker r₂.trace = getTraceMarker r₁.trace :=
      hnew.eq_marker h₁.live (by simp [prefetchTraceFragmentSize])
    rw [hmarker]
    exact .inr (getPrefetchTraceFragment_empty _ _ memory)
  have hpos : 0 < prefetchTraceFragmentSize (getTraceMarker r₁.trace) (getTraceMarker r₂.trace) := by
    rw [hsize]
    exact Int.natCast_pos.2 (Nat.mul_pos (List.length_pos_iff.2 hempty) M.sizeofRecord_pos)
  by_cases hcurrent : r₃.clears = r₂.clears
  · obtain ⟨more, hmore, -⟩ := hlater.appends hcurrent
    cases memory with
    | true => exact .inr (hnew.fragment h₁.live hmore)
    | false =>
        left
        unfold getPrefetchTraceFragment
        dsimp only
        rw [if_neg (by omega), if_neg (by omega), if_pos (by simp [allocTraceBuffer])]
        exact ⟨-ENOMEM, by decide, rfl⟩
  · left
    have hle := hlater.clears_le
    apply getPrefetchTraceFragment_stale memory hpos
    exact generation_ne h₁ h₃ (by omega) (by omega) hlt

/-- From a later marker to an earlier one: an error, or both are the same place. -/
theorem fragment_backward (h₁ : r₁.Inv) {new : List (Record M)}
    (hnew : Appends r₁.trace r₂.trace new) (t : PrefetchTrace M) (memory : Bool) :
    (∃ ret < 0, getPrefetchTraceFragment t (getTraceMarker r₂.trace) (getTraceMarker r₁.trace)
        memory = .error ret) ∨ new = [] := by
  by_cases hempty : new = []
  · exact .inr hempty
  left
  have hlen : 0 < new.length * M.sizeofRecord :=
    Nat.mul_pos (List.length_pos_iff.2 hempty) M.sizeofRecord_pos
  have hused := hnew.bufferUsed h₁.live
  have hsize : prefetchTraceFragmentSize (getTraceMarker r₂.trace) (getTraceMarker r₁.trace) =
      -ERANGE := by
    unfold prefetchTraceFragmentSize
    rw [if_neg (by simp [hnew.generation]), if_pos]
    rw [getTraceMarker_position, getTraceMarker_position, BitVec.lt_def]
    omega
  unfold getPrefetchTraceFragment
  dsimp only
  rw [hsize]
  exact ⟨-ERANGE, by decide, rfl⟩

/-- Markers of different generations are told apart before anything is read. -/
theorem getPrefetchTraceFragment_mixed {t : PrefetchTrace M} {startMarker endMarker : TraceMarker}
    (memory : Bool) (hne : startMarker.generation ≠ endMarker.generation) :
    ∃ ret < 0, getPrefetchTraceFragment t startMarker endMarker memory = .error ret := by
  have hsize : prefetchTraceFragmentSize startMarker endMarker = -EINVAL := by
    unfold prefetchTraceFragmentSize
    rw [if_pos hne]
  unfold getPrefetchTraceFragment
  dsimp only
  rw [hsize]
  exact ⟨-EINVAL, by decide, rfl⟩

/-- What reading between the markers handed out at `r` and `r'` may give: an error, or exactly the
records accepted between the two. -/
def ReadsBetween (r r' : BufferRun M) (result : FragmentResult M) : Prop :=
  (∃ ret < 0, result = .error ret) ∨
    r'.clears = r.clears ∧
      ∃ between, r'.accepted = r.accepted ++ between ∧ result = .ofRecords between

/-- Whichever of the two markers was handed out first. -/
theorem readsBetween (h₁ : r₁.Inv) (h₂ : r₂.Inv) (h₃ : r₃.Inv) (hlater₁ : r₁.Later r₃)
    (hlater₂ : r₂.Later r₃) (horder : r₁.Later r₂ ∨ r₂.Later r₁) (hlt : r₃.clears < 2 ^ 32)
    (memory : Bool) :
    ReadsBetween r₁ r₂ (getPrefetchTraceFragment r₃.trace (getTraceMarker r₁.trace)
      (getTraceMarker r₂.trace) memory) := by
  have hle₁ := hlater₁.clears_le
  have hle₂ := hlater₂.clears_le
  by_cases hclears : r₂.clears = r₁.clears
  · rcases horder with horder | horder
    · obtain ⟨new, hnew, haccepted⟩ := horder.appends hclears
      rcases fragment_forward h₁ h₃ hnew hclears hlater₂ hlt memory with herror | hread
      · exact .inl herror
      · exact .inr ⟨hclears, new, haccepted, hread⟩
    · obtain ⟨new, hnew, haccepted⟩ := horder.appends hclears.symm
      rcases fragment_backward h₂ hnew r₃.trace memory with herror | hempty
      · exact .inl herror
      · -- nothing was accepted in between, so the two are the same marker
        subst hempty
        rw [List.append_nil] at haccepted
        have hmarker : getTraceMarker r₁.trace = getTraceMarker r₂.trace :=
          hnew.eq_marker h₂.live (by simp [prefetchTraceFragmentSize])
        rw [hmarker]
        refine .inr ⟨hclears, [], ?_, getPrefetchTraceFragment_empty _ _ memory⟩
        rw [List.append_nil, haccepted]
  · left
    apply getPrefetchTraceFragment_mixed memory
    exact generation_ne h₁ h₂ (Ne.symm hclears) (by omega) (by omega)

end Fragments

/-! ## §4 — the whole buffer -/

/-- The bytes below `buffer_used`. -/
theorem copyCells_live {t : PrefetchTrace M} {live : List (Record M)} (h : Live t live) :
    copyCells t 0 t.bufferUsed.toNat = live.map some := by
  have hcopy := @copyCells_eq M t [] live [] (by simpa using h)
  rwa [List.length_nil, Nat.zero_mul, ← h.used] at hcopy

/-- **The trace buffer is sound in every run**: it is filled by whole records within its size, never
written outside, holds the records accepted since the last clear that took effect in order, and reading
between any two markers ever handed out fails or yields the records between them. No reading reaches
the `BUG_ON`. -/
theorem trace_buffer_sound (traceSizeKb : BitVec 32) (es : List (BufferEvent M)) :
    M.sizeofRecord ∣ (runBuffer traceSizeKb es).trace.bufferUsed.toNat ∧
    (runBuffer traceSizeKb es).trace.bufferUsed ≤ (runBuffer traceSizeKb es).trace.bufferSize ∧
    (runBuffer traceSizeKb es).trace.wildWrite = false ∧
    copyCells (runBuffer traceSizeKb es).trace 0
        (runBuffer traceSizeKb es).trace.bufferUsed.toNat =
      (runBuffer traceSizeKb es).accepted.map some ∧
    ((runBuffer traceSizeKb es).clears < 2 ^ 32 → ∀ pre pre', pre <+: es → pre' <+: es →
      ∀ memory, ReadsBetween (runBuffer traceSizeKb pre) (runBuffer traceSizeKb pre')
        (getPrefetchTraceFragment (runBuffer traceSizeKb es).trace
          (getTraceMarker (runBuffer traceSizeKb pre).trace)
          (getTraceMarker (runBuffer traceSizeKb pre').trace) memory)) := by
  have hinv := inv_runBuffer traceSizeKb es
  refine ⟨?_, BitVec.le_def.2 hinv.live.fits, hinv.live.safe, copyCells_live hinv.live, ?_⟩
  · rw [hinv.live.used]
    exact Nat.dvd_mul_left _ _
  intro hlt pre pre' hpre hpre' memory
  apply readsBetween (inv_runBuffer traceSizeKb pre) (inv_runBuffer traceSizeKb pre') hinv
    (later_of_extends traceSizeKb hpre) (later_of_extends traceSizeKb hpre') ?_ hlt memory
  exact (List.prefix_or_prefix_of_prefix hpre hpre').imp (later_of_extends traceSizeKb)
    (later_of_extends traceSizeKb)

/-- One record is dropped before the buffer is there, one is cleared away, one is left. -/
def sampleEvents : List (BufferEvent .bits64) :=
  [.add 1 2 0 1, .clear false, .clear true, .add 1 2 0 1, .clear true, .add 1 3 4 1]

theorem trace_buffer_sound_sample :
    (runBuffer 1 sampleEvents).clears = 2 ∧
    ReadsBetween (runBuffer 1 (sampleEvents.take 5)) (runBuffer 1 sampleEvents)
      (getPrefetchTraceFragment (runBuffer 1 sampleEvents).trace
        (getTraceMarker (runBuffer 1 (sampleEvents.take 5)).trace)
        (getTraceMarker (runBuffer 1 sampleEvents).trace) true) :=
  ⟨by decide, (trace_buffer_sound 1 sampleEvents).2.2.2.2 (by decide) _ _ (List.take_prefix 5 _)
    List.prefix_rfl true⟩

end Prefetch.Core

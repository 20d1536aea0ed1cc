/-
# Prefetch.Core.WalkEffect — what the calls of tracing clients do to the trace

A call of the module goes over some files, clears the referenced bits it finds there, appends records
and moves the counters; `Effect` says so once, and each call has one lemma that gives its `Effect`
and the marker it hands out. `AppendsPages` says which pages the new records cover, unless the buffer
overflowed on the way.
-/
import Prefetch.Core.Tracing

namespace Prefetch.Core

variable {M : Machine} {ι : Type*}

/-! ## §1 — pages covered by records -/

/-- A page of a file on a block device, as the trace names it. -/
structure PageId (M : Machine) where
  device : BitVec 32
  inodeNo : BitVec M.bits
  index : ℕ
  deriving DecidableEq, Repr

/-- Some of the records is about the page. -/
def Covers (rs : List (Record M)) (k : PageId M) : Prop :=
  ∃ r ∈ rs, r.device = k.device ∧ r.inodeNo = k.inodeNo ∧ k.index ∈ r.pages

@[simp] theorem covers_nil (k : PageId M) : ¬ Covers ([] : List (Record M)) k := by
  simp [Covers]

@[simp] theorem covers_append (rs ss : List (Record M)) (k : PageId M) :
    Covers (rs ++ ss) k ↔ Covers rs k ∨ Covers ss k := by
  simp only [Covers, List.mem_append, or_and_right, exists_or]

/-- A page of the file named `k` is cached with its referenced bit set. -/
def AddressSpace.HasReferenced (m : AddressSpace M) (k : PageId M) : Prop :=
  m.host = some ⟨some k.device, k.inodeNo⟩ ∧ k.index ∈ referencedIndices m.pages

theorem mem_indices {w : ℕ} (r : PrefetchTraceRecord w) (n : ℕ) :
    n ∈ r.pages ↔ n ∈ List.range' r.rangeStart.toNat r.rangeLength.toNat := by
  simp [PrefetchTraceRecord.pages, List.mem_range'_1]

/-! ## §2 — what a walk appends -/

section Walk

variable {t : PrefetchTrace M} {host : Option (Inode M)} {clearing : Bool}

/-- `t'` comes from `t` by appending records that, unless the buffer overflowed, cover exactly the
pages in `K`. -/
def AppendsPages (t t' : PrefetchTrace M) (K : PageId M → Prop) : Prop :=
  ∃ new, Appends t t' new ∧ (t'.overflow = false → ∀ k, Covers new k ↔ K k)

theorem AppendsPages.nothing (t : PrefetchTrace M) : AppendsPages t t (fun _ => False) :=
  ⟨[], .refl t, by simp⟩

theorem AppendsPages.trans {t' t'' : PrefetchTrace M} {K K' : PageId M → Prop}
    (h : AppendsPages t t' K) (h' : AppendsPages t' t'' K') :
    AppendsPages t t'' (fun k => K k ∨ K' k) := by
  obtain ⟨new, hnew, hK⟩ := h
  obtain ⟨new', hnew', hK'⟩ := h'
  refine ⟨new ++ new', hnew.trans hnew', ?_⟩
  intro hover k
  -- the flag is sticky, so it was down in between
  rw [covers_append, hK (hnew'.overflow_false hover) k, hK' hover k]

theorem AppendsPages.congr {t' : PrefetchTrace M} {K K' : PageId M → Prop}
    (h : AppendsPages t t' K) (hK : ∀ k, K k ↔ K' k) : AppendsPages t t' K' := by
  obtain ⟨new, hnew, hcovers⟩ := h
  refine ⟨new, hnew, ?_⟩
  intro hover k
  rw [hcovers hover k, hK k]

/-- One record covers the pages of its range. -/
theorem prefetchTraceAdd_pages (t : PrefetchTrace M) (device : BitVec 32)
    (inodeNo start len : BitVec M.bits) :
    AppendsPages t (prefetchTraceAdd t device inodeNo start len)
      (fun k => device = k.device ∧ inodeNo = k.inodeNo ∧ k.index ∈ indices (start, len)) := by
  obtain ⟨new, hnew, hrecord⟩ := prefetchTraceAdd_appends t device inodeNo start len
  refine ⟨new, hnew, ?_⟩
  intro hover k
  rw [hrecord hover]
  simp [Covers, mem_indices, indices]

variable (host clearing)

/-- A report puts its range into the trace, unless the bits are only being cleared. -/
theorem addReferencedPageRange_pages (t : PrefetchTrace M) (start len : BitVec M.bits) :
    AppendsPages t (addReferencedPageRange clearing host t start len)
      (fun k => clearing = false ∧ host = some ⟨some k.device, k.inodeNo⟩ ∧
        k.index ∈ indices (start, len)) := by
  unfold addReferencedPageRange
  split
  · next hclear =>
    apply (AppendsPages.nothing t).congr
    simp [hclear]
  · next hclear =>
    split
    · next device iIno =>
      apply (prefetchTraceAdd_pages t device iIno start len).congr
      intro k
      simp [hclear, and_assoc]
    · next hhost =>
      apply (AppendsPages.nothing t).congr
      intro k
      simp only [false_iff]
      rintro ⟨-, heq, -⟩
      exact hhost _ _ heq

/-- All reports of a walk over one file. -/
theorem reportAll_pages (calls : List (BitVec M.bits × BitVec M.bits)) (t : PrefetchTrace M) :
    AppendsPages t (reportAll (addReferencedPageRange clearing host) t calls)
      (fun k => clearing = false ∧ host = some ⟨some k.device, k.inodeNo⟩ ∧
        k.index ∈ calls.flatMap indices) := by
  induction calls generalizing t with
  | nil =>
      apply (AppendsPages.nothing t).congr
      simp
  | cons range calls ih =>
      have hfirst := addReferencedPageRange_pages host clearing t range.1 range.2
      apply (hfirst.trans (ih _)).congr
      intro k
      rw [List.flatMap_cons, List.mem_append]
      tauto

/-- Reports leave the counters alone. -/
theorem reportAll_counters (calls : List (BitVec M.bits × BitVec M.bits)) (t : PrefetchTrace M) :
    SameCounters t (reportAll (addReferencedPageRange clearing host) t calls) := by
  induction calls generalizing t with
  | nil => exact .refl t
  | cons range calls ih =>
      have hfirst : SameCounters t (addReferencedPageRange clearing host t range.1 range.2) := by
        unfold addReferencedPageRange
        split
        · exact .refl t
        split
        · apply prefetchTraceAdd_counters
        · exact .refl t
      exact hfirst.trans (ih _)

end Walk

/-! ## §3 — what a call does -/

section Calls

variable [DecidableEq ι]

/-- `core'` is `core` after a call that went over the files in `visited`, putting what it found into
the trace if `recording`, and moved the counters by `tracers` and `users`. -/
structure Effect (recording : Prop) (visited : List ι) (tracers users : ℤ)
    (core core' : CoreState M ι) : Prop where
  clearing : core'.clearingInProgress = core.clearingInProgress
  enabled : core'.enabled = core.enabled
  traceSizeKb : core'.traceSizeKb = core.traceSizeKb
  tracersCount : core'.trace.tracersCount = core.trace.tracersCount + tracers
  traceUsers : core'.trace.traceUsers = core.trace.traceUsers + users
  cache : ∀ i, core'.cache i =
    if i ∈ visited then (core.cache i).clearReferenced else core.cache i
  pages : AppendsPages core.trace core'.trace (fun k =>
    recording ∧ ∃ i ∈ visited, (core.cache i).HasReferenced k)

theorem Effect.appends {recording : Prop} {visited : List ι} {a u : ℤ} {core core' : CoreState M ι}
    (h : Effect recording visited a u core core') : ∃ new, Appends core.trace core'.trace new := by
  obtain ⟨new, hnew, -⟩ := h.pages
  exact ⟨new, hnew⟩

@[simp] theorem referencedIndices_clear (m : AddressSpace M) :
    referencedIndices m.clearReferenced.pages = [] := by
  simp [referencedIndices, AddressSpace.clearReferenced]

theorem not_hasReferenced_clear (m : AddressSpace M) (k : PageId M) :
    ¬ m.clearReferenced.HasReferenced k := by
  simp [AddressSpace.HasReferenced]

theorem clearReferenced_idem (m : AddressSpace M) :
    m.clearReferenced.clearReferenced = m.clearReferenced := by
  apply AddressSpace.ext
  · rfl
  · show (m.pages.map _).map _ = m.pages.map _
    rw [List.map_map]
    rfl

theorem Effect.trans {recording : Prop} {visited visited' : List ι} {a a' u u' : ℤ}
    {core core' core'' : CoreState M ι} (h : Effect recording visited a u core core')
    (h' : Effect recording visited' a' u' core' core'') :
    Effect recording (visited ++ visited') (a + a') (u + u') core core'' := by
  refine ⟨h'.clearing.trans h.clearing, h'.enabled.trans h.enabled,
    h'.traceSizeKb.trans h.traceSizeKb, ?_, ?_, ?_, ?_⟩
  · rw [h'.tracersCount, h.tracersCount, Int.add_assoc]
  · rw [h'.traceUsers, h.traceUsers, Int.add_assoc]
  · intro i
    rw [h'.cache i, h.cache i]
    by_cases hi : i ∈ visited <;> by_cases hi' : i ∈ visited' <;>
      simp [hi, hi', clearReferenced_idem]
  · apply (h.pages.trans h'.pages).congr
    intro k
    rw [← and_or_left]
    apply and_congr_right
    intro _
    constructor
    · rintro (⟨i, hi, hk⟩ | ⟨i, hi, hk⟩)
      · exact ⟨i, List.mem_append_left _ hi, hk⟩
      · rw [h.cache i] at hk
        split at hk
        · exact absurd hk (not_hasReferenced_clear _ k)
        · exact ⟨i, List.mem_append_right _ hi, hk⟩
    · rintro ⟨i, hi, hk⟩
      by_cases hfirst : i ∈ visited
      · exact .inl ⟨i, hfirst, hk⟩
      · -- not visited yet, so its bits are as they were
        refine .inr ⟨i, (List.mem_append.1 hi).resolve_left hfirst, ?_⟩
        rwa [h.cache i, if_neg hfirst]

/-- One file of the walk. -/
theorem showInode_effect (plan : WalkPlan M ι) (core : CoreState M ι) (i : ι) :
    Effect (core.clearingInProgress = false) [i] 0 0 core (showInode plan core i) := by
  obtain ⟨calls, hwalk, hcalls⟩ := walkFileCache_spec plan.ops
    (addReferencedPageRange core.clearingInProgress (core.cache i).host) (plan.batch i)
    core.trace (core.cache i)
  have hcount := reportAll_counters (core.cache i).host core.clearingInProgress calls core.trace
  unfold showInode
  rw [hwalk]
  refine ⟨rfl, rfl, rfl, ?_, ?_, ?_, ?_⟩
  · rw [Int.add_zero]
    exact hcount.tracersCount
  · rw [Int.add_zero]
    exact hcount.traceUsers
  · intro j
    by_cases hj : j = i
    · subst hj
      simp
    · simp [hj]
  · apply (reportAll_pages _ _ calls core.trace).congr
    intro k
    simp [hcalls, AddressSpace.HasReferenced]

/-- **The walk over all inodes.** -/
theorem walkInodes_effect (plan : WalkPlan M ι) (core : CoreState M ι) :
    Effect (core.clearingInProgress = false) plan.visited 0 0 core (walkInodes plan core) := by
  unfold walkInodes
  generalize plan.visited = visited
  induction visited generalizing core with
  | nil =>
      refine ⟨rfl, rfl, rfl, by simp, by simp, by simp, ?_⟩
      apply (AppendsPages.nothing core.trace).congr
      simp
  | cons i visited ih =>
      have hfirst := showInode_effect plan core i
      have hrest := ih (showInode plan core i)
      rw [hfirst.clearing] at hrest
      exact hfirst.trans hrest

/-- A walk reports ranges of pages; it does not report an overflow. -/
theorem walkInodes_reported (plan : WalkPlan M ι) (core : CoreState M ι) :
    (walkInodes plan core).trace.overflowReported = core.trace.overflowReported := by
  unfold walkInodes
  induction plan.visited generalizing core with
  | nil => rfl
  | cons i visited ih =>
      obtain ⟨calls, hwalk, -⟩ := walkFileCache_spec plan.ops
        (addReferencedPageRange core.clearingInProgress (core.cache i).host) (plan.batch i)
        core.trace (core.cache i)
      have hfirst : (showInode plan core i).trace.overflowReported = core.trace.overflowReported := by
        unfold showInode
        rw [hwalk]
        exact (reportAll_counters _ _ calls core.trace).overflowReported
      rw [List.foldl_cons, ih, hfirst]

/-- Moving `tracers_count` is no more than that. -/
theorem addTracers_effect (recording : Prop) (core : CoreState M ι) (n : ℤ) :
    Effect recording [] n 0 core (core.addTracers n) := by
  refine ⟨rfl, rfl, rfl, rfl, by simp [CoreState.addTracers], by simp [CoreState.addTracers], ?_⟩
  refine ⟨[], ?_, by simp⟩
  apply Appends.of_fields <;> simp [CoreState.addTracers]

/-- Moving `trace_users` is no more than that. -/
theorem addUsers_effect (recording : Prop) (core : CoreState M ι) (n : ℤ) :
    Effect recording [] 0 n core (core.addUsers n) := by
  refine ⟨rfl, rfl, rfl, by simp [CoreState.addUsers], rfl, by simp [CoreState.addUsers], ?_⟩
  refine ⟨[], ?_, by simp⟩
  apply Appends.of_fields <;> simp [CoreState.addUsers]

/-- Reporting the overflow is no more than that. -/
theorem reportOverflow_effect (recording : Prop) (core : CoreState M ι) :
    Effect recording [] 0 0 core core.reportOverflow := by
  refine ⟨rfl, rfl, rfl, by simp [CoreState.reportOverflow], by simp [CoreState.reportOverflow],
    by simp [CoreState.reportOverflow], [], ?_, by simp⟩
  apply Appends.of_fields <;> simp [CoreState.reportOverflow]

theorem Effect.refl (recording : Prop) (core : CoreState M ι) :
    Effect recording [] 0 0 core core := by
  refine ⟨rfl, rfl, rfl, by simp, by simp, by simp, [], .refl _, by simp⟩

/-- Raising `clearing_in_progress` for the time of a walk. -/
theorem Effect.of_clearing {recording : Prop} {visited : List ι} {a u : ℤ}
    {core core' : CoreState M ι} (hclearing : core.clearingInProgress = false)
    (h : Effect recording visited a u { core with clearingInProgress := true } core') :
    Effect recording visited a u core { core' with clearingInProgress := false } :=
  ⟨hclearing.symm, h.enabled, h.traceSizeKb, h.tracersCount, h.traceUsers, h.cache, h.pages⟩

theorem Effect.congr {recording recording' : Prop} {visited : List ι} {a u : ℤ}
    {core core' : CoreState M ι} (hrec : recording ↔ recording')
    (h : Effect recording visited a u core core') : Effect recording' visited a u core core' := by
  rwa [propext hrec] at h

/-- **A start walk** fails without effect, or counts the tracer and walks: the first tracer gets the
marker in front of the walk and discards what the walk finds, the others record it and find their
marker untouched. -/
theorem walkPages_start {core : CoreState M ι} {plan : WalkPlan M ι} {marker : TraceMarker}
    {r : CallResult M ι} (hclearing : core.clearingInProgress = false)
    (hr : walkPages .startTracing plan marker core = r) :
    (r.ret < 0 ∧ r.marker = marker ∧ Effect True [] 0 0 core r.core) ∨
      (r.ret = 0 ∧
        r.marker = (if core.trace.tracersCount = 0 then getTraceMarker core.trace else marker) ∧
        Effect (core.trace.tracersCount ≠ 0) plan.visited 1 0 core r.core) := by
  subst hr
  unfold walkPages
  by_cases hover : core.trace.overflow ∧ ¬ core.trace.overflowReported
  · rw [if_pos hover]
    exact .inl ⟨by show -ENOSPC < 0; decide, rfl, reportOverflow_effect _ core⟩
  rw [if_neg hover]
  by_cases hsession : ¬ plan.session
  · rw [if_pos hsession]
    exact .inl ⟨by show -ENOMEM < 0; decide, rfl, .refl _ core⟩
  rw [if_neg hsession]
  right
  have hone : (core.addTracers 1).trace.tracersCount = 1 ↔ core.trace.tracersCount = 0 := by
    show core.trace.tracersCount + 1 = 1 ↔ _
    omega
  have hcount := fun r => addTracers_effect (M := M) (ι := ι) r core 1
  by_cases hzero : core.trace.tracersCount = 0
  · -- the first tracer
    rw [if_pos hzero]
    unfold walkLocked
    dsimp only
    rw [if_pos (hone.2 hzero)]
    refine ⟨rfl, rfl, ?_⟩
    have hwalk := walkInodes_effect plan { core.addTracers 1 with clearingInProgress := true }
    apply ((hcount _).trans (hwalk.of_clearing hclearing)).congr
    simp [hzero]
  · rw [if_neg hzero]
    unfold walkLocked
    dsimp only
    rw [if_neg (fun h => hzero (hone.1 h))]
    refine ⟨rfl, rfl, ?_⟩
    apply ((hcount _).trans (walkInodes_effect plan (core.addTracers 1))).congr
    simp [hzero, CoreState.addTracers, hclearing]

/-- **A continue walk** fails without effect, or records and hands out the marker behind the walk. -/
theorem walkPages_continue {core : CoreState M ι} {plan : WalkPlan M ι} {marker : TraceMarker}
    {r : CallResult M ι} (hclearing : core.clearingInProgress = false)
    (hr : walkPages .continueTracing plan marker core = r) :
    (r.ret < 0 ∧ r.marker = marker ∧ Effect True [] 0 0 core r.core) ∨
      (r.ret = 0 ∧ r.marker = getTraceMarker r.core.trace ∧
        Effect True plan.visited 0 0 core r.core) := by
  subst hr
  unfold walkPages
  by_cases hover : core.trace.overflow ∧ ¬ core.trace.overflowReported
  · rw [if_pos hover]
    exact .inl ⟨by show -ENOSPC < 0; decide, rfl, reportOverflow_effect _ core⟩
  rw [if_neg hover]
  by_cases hsession : ¬ plan.session
  · rw [if_pos hsession]
    exact .inl ⟨by show -ENOMEM < 0; decide, rfl, .refl _ core⟩
  rw [if_neg hsession]
  refine .inr ⟨rfl, rfl, ?_⟩
  apply (walkInodes_effect plan core).congr
  simp [hclearing]

/-- **A stop walk** fails, with or without uncounting the tracer, or records, uncounts it and hands
out the marker behind the walk. -/
theorem walkPages_stop {core : CoreState M ι} {plan : WalkPlan M ι} {marker : TraceMarker}
    {r : CallResult M ι} (hclearing : core.clearingInProgress = false)
    (hr : walkPages .stopTracing plan marker core = r) :
    (r.ret < 0 ∧ r.marker = marker ∧ ∃ d, (d = 0 ∨ d = -1) ∧ Effect True [] d 0 core r.core) ∨
      (r.ret = 0 ∧ r.marker = getTraceMarker r.core.trace ∧
        Effect True plan.visited (-1) 0 core r.core) := by
  subst hr
  unfold walkPages
  by_cases hover : core.trace.overflow ∧ ¬ core.trace.overflowReported
  · rw [if_pos hover]
    refine .inl ⟨by show -ENOSPC < 0; decide, rfl, -1, .inr rfl, ?_⟩
    show Effect True [] (-1) 0 core (core.reportOverflow.addTracers (-1))
    exact (reportOverflow_effect True core).trans (addTracers_effect True core.reportOverflow (-1))
  rw [if_neg hover]
  by_cases hsession : ¬ plan.session
  · rw [if_pos hsession]
    exact .inl ⟨by show -ENOMEM < 0; decide, rfl, 0, .inl rfl, .refl _ core⟩
  rw [if_neg hsession]
  refine .inr ⟨rfl, rfl, ?_⟩
  have hwalk := (walkInodes_effect plan core).trans
    (addTracers_effect (core.clearingInProgress = false) _ (-1))
  rw [List.append_nil] at hwalk
  apply hwalk.congr
  simp [hclearing]

/-- `prefetch_start_trace`: a start walk, and if it succeeds a user more. -/
theorem prefetchStartTrace_effect {core : CoreState M ι} {plan : WalkPlan M ι}
    {marker : TraceMarker} {r : CallResult M ι} (hclearing : core.clearingInProgress = false)
    (hr : prefetchStartTrace plan marker core = r) :
    (r.ret < 0 ∧ r.marker = marker ∧ Effect True [] 0 0 core r.core) ∨
      (r.ret = 0 ∧
        r.marker = (if core.trace.tracersCount = 0 then getTraceMarker core.trace else marker) ∧
        Effect (core.trace.tracersCount ≠ 0) plan.visited 1 1 core r.core) := by
  subst hr
  unfold prefetchStartTrace
  by_cases henabled : ¬ core.enabled
  · rw [if_pos henabled]
    exact .inl ⟨by show -ENODEV < 0; decide, rfl, .refl _ core⟩
  rw [if_neg henabled]
  dsimp only
  rcases walkPages_start hclearing (rfl : walkPages .startTracing plan marker core = _) with
    ⟨hret, hmarker, heffect⟩ | ⟨hret, hmarker, heffect⟩
  · rw [if_neg (by omega)]
    exact .inl ⟨hret, hmarker, heffect⟩
  · rw [if_pos (by omega)]
    have huser := heffect.trans (addUsers_effect _ _ 1)
    rw [List.append_nil] at huser
    exact .inr ⟨hret, hmarker, huser⟩

/-- `prefetch_continue_trace` -/
theorem prefetchContinueTrace_effect {core : CoreState M ι} {plan : WalkPlan M ι}
    {marker : TraceMarker} {r : CallResult M ι} (hclearing : core.clearingInProgress = false)
    (hr : prefetchContinueTrace plan marker core = r) :
    (r.ret < 0 ∧ r.marker = marker ∧ Effect True [] 0 0 core r.core) ∨
      (r.ret = 0 ∧ r.marker = getTraceMarker r.core.trace ∧
        Effect True plan.visited 0 0 core r.core) := by
  subst hr
  unfold prefetchContinueTrace
  by_cases henabled : ¬ core.enabled
  · rw [if_pos henabled]
    exact .inl ⟨by show -ENODEV < 0; decide, rfl, .refl _ core⟩
  · rw [if_neg henabled]
    exact walkPages_continue hclearing rfl

/-- `prefetch_stop_trace` -/
theorem prefetchStopTrace_effect {core : CoreState M ι} {plan : WalkPlan M ι}
    {marker : TraceMarker} {r : CallResult M ι} (hclearing : core.clearingInProgress = false)
    (hr : prefetchStopTrace plan marker core = r) :
    (r.ret < 0 ∧ r.marker = marker ∧ ∃ d, (d = 0 ∨ d = -1) ∧ Effect True [] d 0 core r.core) ∨
      (r.ret = 0 ∧ r.marker = getTraceMarker r.core.trace ∧
        Effect True plan.visited (-1) 0 core r.core) := by
  subst hr
  unfold prefetchStopTrace
  by_cases henabled : ¬ core.enabled
  · rw [if_pos henabled]
    exact .inl ⟨by show -ENODEV < 0; decide, rfl, -1, .inr rfl, addTracers_effect _ core _⟩
  · rw [if_neg henabled]
    exact walkPages_stop hclearing rfl

end Calls

/-! ## §4 — release, and the release hook -/

/-- `prefetch_release_trace` takes a user away; only the last one's release clears the trace. -/
theorem prefetchReleaseTrace_cases (memory : Bool) (core : CoreState M ι) :
    (core.trace.traceUsers ≠ 1 ∧ prefetchReleaseTrace memory core = core.addUsers (-1)) ∨
      (core.trace.traceUsers = 1 ∧ prefetchReleaseTrace memory core = { core with
        trace := clearTrace core.traceSizeKb memory (core.addUsers (-1)).trace }) := by
  have hzero : (core.addUsers (-1)).trace.traceUsers = 0 ↔ core.trace.traceUsers = 1 := by
    show core.trace.traceUsers + -1 = 0 ↔ _
    omega
  unfold prefetchReleaseTrace
  dsimp only
  by_cases hone : core.trace.traceUsers = 1
  · rw [if_pos (hzero.2 hone)]
    exact .inr ⟨hone, rfl⟩
  · rw [if_neg (fun h => hone (hzero.1 h))]
    exact .inl ⟨hone, rfl⟩

/-- Whether it clears or not, a release moves `trace_users` alone and leaves the buffer in order. -/
theorem prefetchReleaseTrace_frame (memory : Bool) (core : CoreState M ι) :
    (prefetchReleaseTrace memory core).clearingInProgress = core.clearingInProgress ∧
      (prefetchReleaseTrace memory core).cache = core.cache ∧
      (prefetchReleaseTrace memory core).trace.tracersCount = core.trace.tracersCount ∧
      (prefetchReleaseTrace memory core).trace.traceUsers = core.trace.traceUsers - 1 ∧
      ∀ live, Live core.trace live →
        ∃ live', Live (prefetchReleaseTrace memory core).trace live' := by
  have hkeep : ∀ live, Live core.trace live → Live (core.addUsers (-1)).trace live := by
    intro live hlive
    exact ⟨hlive.suffix, hlive.used, hlive.fits, hlive.size_lt, hlive.null, hlive.cells,
      hlive.safe⟩
  rcases prefetchReleaseTrace_cases memory core with ⟨-, heq⟩ | ⟨-, heq⟩
  · rw [heq]
    refine ⟨rfl, rfl, rfl, rfl, ?_⟩
    intro live hlive
    exact ⟨live, hkeep live hlive⟩
  · rw [heq]
    obtain ⟨-, htracers, husers⟩ := clearTrace_frame core.traceSizeKb memory
      (core.addUsers (-1)).trace
    refine ⟨rfl, rfl, htracers, husers, ?_⟩
    intro live hlive
    exact (hkeep live hlive).clearTrace core.traceSizeKb memory

/-- A release that is not the last one's leaves the records alone. -/
theorem prefetchReleaseTrace_held {core : CoreState M ι} (memory : Bool)
    (h : core.trace.traceUsers ≠ 1) :
    Appends core.trace (prefetchReleaseTrace memory core).trace [] := by
  rcases prefetchReleaseTrace_cases memory core with ⟨-, heq⟩ | ⟨hone, -⟩
  · rw [heq]
    apply Appends.of_fields <;> simp [CoreState.addUsers]
  · exact absurd hone h

/-- The release hook puts a referenced page into the trace while somebody is tracing, unless it is a
swap cache page. -/
theorem prefetchAddPageToTrace_pages (t : PrefetchTrace M) (host : Option (Inode M))
    (page : Page M) (pageSwapCache : Bool) :
    AppendsPages t (prefetchAddPageToTrace t host page pageSwapCache) (fun k =>
      0 < t.tracersCount ∧ page.referenced = true ∧ pageSwapCache = false ∧
        host = some ⟨some k.device, k.inodeNo⟩ ∧ k.index = page.index.toNat) := by
  unfold prefetchAddPageToTrace
  by_cases hcount : t.tracersCount ≤ 0
  · rw [if_pos hcount]
    apply (AppendsPages.nothing t).congr
    intro k
    simp only [false_iff]
    rintro ⟨hpos, -⟩
    omega
  rw [if_neg hcount]
  by_cases href : ¬ page.referenced
  · rw [if_pos href]
    apply (AppendsPages.nothing t).congr
    simp [href]
  rw [if_neg href]
  by_cases hswap : pageSwapCache
  · rw [if_pos hswap]
    apply (AppendsPages.nothing t).congr
    simp [hswap]
  rw [if_neg hswap]
  have hstat : AppendsPages t { t with pageReleaseTraced := t.pageReleaseTraced + 1 }
      (fun _ => False) := by
    refine ⟨[], ?_, by simp⟩
    apply Appends.of_fields <;> simp
  have hpos : 0 < t.tracersCount := by omega
  dsimp only
  split
  · next device iIno =>
    apply (hstat.trans (prefetchTraceAdd_pages _ device iIno page.index 1)).congr
    intro k
    rw [indices_one]
    simp [hpos, not_not.1 href, hswap, and_assoc]
  · next hhost =>
    apply hstat.congr
    intro k
    simp only [false_iff]
    rintro ⟨-, -, -, heq, -⟩
    exact hhost _ _ heq

/-- The hook leaves the counters alone. -/
theorem prefetchAddPageToTrace_counters (t : PrefetchTrace M) (host : Option (Inode M))
    (page : Page M) (pageSwapCache : Bool) :
    SameCounters t (prefetchAddPageToTrace t host page pageSwapCache) := by
  unfold prefetchAddPageToTrace
  split
  · exact .refl t
  split
  · exact .refl t
  split
  · exact .refl t
  dsimp only
  have hstat : SameCounters t { t with pageReleaseTraced := t.pageReleaseTraced + 1 } :=
    ⟨rfl, rfl, rfl⟩
  split
  · exact hstat.trans (prefetchTraceAdd_counters _ _ _ _ _)
  · exact hstat

variable [DecidableEq ι]

/-- An event around the module at most appends to the trace. -/
theorem envStep_frame {core core' : CoreState M ι} {e : EnvEvent M ι}
    (h : envStep core e = some core') :
    core'.clearingInProgress = core.clearingInProgress ∧ SameCounters core.trace core'.trace ∧
      ∃ new, Appends core.trace core'.trace new := by
  cases e with
  | touch i index =>
      simp only [envStep] at h
      split at h
      · cases h
      · cases h
        exact ⟨rfl, .refl _, [], .refl _⟩
  | insert i index =>
      simp only [envStep] at h
      split at h
      · split at h
        · cases h
          exact ⟨rfl, .refl _, [], .refl _⟩
        · cases h
      · cases h
  | evict i index pageSwapCache =>
      simp only [envStep] at h
      split at h
      · cases h
      · next page hpage =>
        cases h
        obtain ⟨new, hnew, -⟩ := prefetchAddPageToTrace_pages core.trace (core.cache i).host page
          pageSwapCache
        have hcount := prefetchAddPageToTrace_counters core.trace (core.cache i).host page
          pageSwapCache
        exact ⟨rfl, hcount, new, hnew⟩
  | control enabled =>
      cases h
      exact ⟨rfl, .refl _, [], .refl _⟩

end Prefetch.Core

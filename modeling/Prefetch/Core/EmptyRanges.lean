/-
# Prefetch.Core.EmptyRanges — the empty range before the first page (`prefetch_core.c`)

`walk_file_cache` starts out with an empty range at index 0 and gives it what `PageReferenced` returns for the
first cached page. It goes on with that page only if the page is at index 0 and `TestClearPageReferenced`
returns the same. If it does not and the bit is set, the empty range is reported like any other:
`someEmpty_iff`. On x86 the two never return the same for a bit that is set, so that is any file whose first
cached page was referenced. Everything else that goes into the trace has a page in it, so a run in which no
recording walk meets such a file has no empty record, `recordsNonempty_iff_pagesFirst`.
-/
import Prefetch.Core.Clients
import Prefetch.Core.PageRuns

namespace Prefetch.Core

open Function Runs

variable {M : Machine} {σ : Type*} {ops : BitOps} {m : AddressSpace M}

/-! ## §1 — one file -/

/-- The first cached page has its referenced bit set, and it does not go on with the empty range at index 0:
it is somewhere else, or the two operations on its bit do not return the same. -/
def AddressSpace.OpensEmpty (ops : BitOps) (m : AddressSpace M) : Prop :=
  ∃ first, m.pages.head? = some first ∧ first.referenced = true ∧
    (first.index ≠ 0 ∨ ops.testBit ≠ ops.testAndClearBit)

instance (ops : BitOps) (m : AddressSpace M) : Decidable (m.OpensEmpty ops) :=
  decidable_of_iff
    (m.pages.head?.any fun first => first.referenced &&
      (first.index ≠ 0 || ops.testBit ≠ ops.testAndClearBit)) (by
    cases h : m.pages.head? <;> simp [AddressSpace.OpensEmpty, h])

/-- On x86 it is enough that the bit is set. -/
theorem opensEmpty_x86 : m.OpensEmpty .x86 ↔ ∃ first, m.pages.head? = some first ∧ first.referenced = true := by
  have hne : BitOps.x86.testBit ≠ BitOps.x86.testAndClearBit := by decide
  simp only [AddressSpace.OpensEmpty, hne, or_true, and_true, ne_eq, not_false_eq_true]

/-- Some range is empty. -/
def SomeEmpty (calls : List (BitVec M.bits × BitVec M.bits)) : Prop := ∃ call ∈ calls, call.2 = 0

/-- Where a walk of `m` stands: before the first lookup, before the first page, or at a range with pages
in it. -/
inductive EmptyInv (ops : BitOps) (m : AddressSpace M) :
    WalkState M (List (BitVec M.bits × BitVec M.bits)) → Prop where
  | fresh {st} (hpage : st.page0 = none) (hstart : st.start = 0) (hlen : st.len = 0)
      (hprev : st.previousPageReferenced = 0) (hsession : st.session = []) : EmptyInv ops m st
  | begun {st first} (hfirst : m.pages.head? = some first) (hpage : st.page0 = some first)
      (hstart : st.start = 0) (hlen : st.len = 0)
      (hprev : st.previousPageReferenced = ops.pageReferenced first) (hsession : st.session = []) :
      EmptyInv ops m st
  | within {st} (hpage : st.page0.isSome = true) (hlen : st.len ≠ 0)
      (hempty : SomeEmpty st.session ↔ m.OpensEmpty ops) : EmptyInv ops m st

variable {done rest : List (Page M)} {p : Page M}
  {session calls : List (BitVec M.bits × BitVec M.bits)}
  {st : WalkState M (List (BitVec M.bits × BitVec M.bits))}

theorem one_ne_zero_index : (1 : BitVec M.bits) ≠ 0 := by
  cases M <;> decide

/-- At the empty range at index 0 no page is behind. -/
theorem WalkInv.done_eq_nil (h : WalkInv ops recordRange m session done rest calls st)
    (hstart : st.start = 0) (hlen : st.len = 0) : done = [] := by
  rw [List.eq_nil_iff_forall_not_mem]
  intro q hq
  have hlt := h.behind q hq
  simp [hstart, hlen] at hlt

theorem someEmpty_snoc (start len : BitVec M.bits) :
    SomeEmpty (calls ++ [(start, len)]) ↔ SomeEmpty calls ∨ len = 0 := by
  simp only [SomeEmpty, List.mem_append, List.mem_singleton, or_and_right, exists_or, exists_eq_left]

/-- A range with pages in it is reported, or is not. -/
theorem someEmpty_report (hlen : st.len ≠ 0) :
    SomeEmpty (st.report recordRange) ↔ SomeEmpty st.session := by
  unfold WalkState.report recordRange
  split
  · exact (someEmpty_snoc _ _).trans (or_iff_left hlen)
  · exact Iff.rfl

theorem EmptyInv.begin (hwalk : WalkInv ops recordRange m session done (p :: rest) calls st)
    (hnone : st.page0.isSome = false) (h : EmptyInv ops m st) :
    EmptyInv ops m { st with page0 := some p, previousPageReferenced := ops.pageReferenced p } := by
  cases h with
  | fresh hpage hstart hlen hprev hsession =>
      have hdone := hwalk.done_eq_nil hstart hlen
      have hfirst : m.pages.head? = some p := by
        rw [hwalk.split, hdone]
        rfl
      exact .begun hfirst rfl hstart hlen rfl hsession
  | begun hfirst hpage => simp [hpage] at hnone
  | within hpage => simp [hpage] at hnone

/-- **One page further.** The first page either continues the empty range at index 0 or has it reported. -/
theorem EmptyInv.visitPage (hwalk : WalkInv ops recordRange m session done (p :: rest) calls st)
    (hsome : st.page0.isSome = true) (h : EmptyInv ops m st) :
    EmptyInv ops m (visitPage ops recordRange st p) := by
  have hone : (1 : BitVec M.bits) ≠ 0 := one_ne_zero_index
  cases h with
  | fresh hpage => simp [hpage] at hsome
  | @begun first hfirst hpage hstart hlen hprev hsession =>
      have hfp : first = p := by
        rw [hwalk.split, hwalk.done_eq_nil hstart hlen] at hfirst
        exact (Option.some.inj hfirst).symm
      subst hfp
      have hopens : m.OpensEmpty ops ↔
          first.referenced = true ∧ (first.index ≠ 0 ∨ ops.testBit ≠ ops.testAndClearBit) := by
        constructor
        · rintro ⟨q, hq, hset⟩
          rw [hfirst] at hq
          cases hq
          exact hset
        · exact fun hset => ⟨first, hfirst, hset⟩
      unfold Core.visitPage
      simp only [hstart, hlen, hprev]
      split
      · next hext =>
        -- the page goes on with the range
        obtain ⟨hindex, hsame⟩ := hext
        have hclosed : ¬ m.OpensEmpty ops := by
          rw [hopens]
          rintro ⟨hset, hne | hne⟩
          · exact hne (by simpa using hindex)
          · simp only [BitOps.pageReferenced, BitOps.testClearPageReferenced, if_pos hset] at hsame
            exact hne hsame
        have hempty : ¬ SomeEmpty st.session := by simp [SomeEmpty, hsession]
        refine .within hsome ?_ (iff_of_false hempty hclosed)
        show (0 : BitVec M.bits) + 1 ≠ 0
        simpa using hone
      · next hext =>
        refine .within rfl hone ?_
        show SomeEmpty (st.report recordRange) ↔ _
        unfold WalkState.report recordRange
        rw [hprev, hsession, hlen, hopens]
        by_cases hset : first.referenced = true
        · have hreports : ops.pageReferenced first ≠ 0 := BitOps.pageReferenced_ne_zero.2 hset
          rw [if_pos hreports]
          refine iff_of_true ⟨_, List.mem_singleton_self _, rfl⟩ ⟨hset, ?_⟩
          by_contra hnot
          rw [not_or, not_not, not_not] at hnot
          refine hext ⟨by simpa using hnot.1, ?_⟩
          simp only [BitOps.pageReferenced, BitOps.testClearPageReferenced, if_pos hset, hnot.2]
        · have hsilent : ¬ ops.pageReferenced first ≠ 0 := fun hne => hset (BitOps.pageReferenced_ne_zero.1 hne)
          rw [if_neg hsilent]
          exact iff_of_false (by simp [SomeEmpty]) fun h => hset h.1
  | within hpage hlen hempty =>
      unfold Core.visitPage
      dsimp only
      split
      · next hext =>
        refine .within hpage (fun hzero => ?_) hempty
        have hnat := congrArg BitVec.toNat hzero
        rw [hwalk.toNat_len_succ hext.1] at hnat
        cases hnat
      · exact .within rfl hone ((someEmpty_report hlen).trans hempty)

/-- **An empty range is reported if and only if the first cached page has its bit set and does not go on with
the empty range at index 0.** -/
theorem someEmpty_iff (ops : BitOps) (batch : BitVec M.bits → ℕ) (m : AddressSpace M) :
    SomeEmpty (reportedRanges ops batch m) ↔ m.OpensEmpty ops := by
  obtain ⟨last, reported, hlast, hwalk, hempty⟩ := walkLoop_rule (P := EmptyInv ops m) batch
    (fun hwalk hnone _ h => h.begin hwalk hnone) (fun hwalk hsome h => h.visitPage hwalk hsome)
    (Nat.lt_succ_self m.pages.length) (walkInv_init ops recordRange m []) (fun _ => rfl)
    (.fresh rfl rfl rfl rfl rfl)
  have hcalls : reportedRanges ops batch m = last.report recordRange := by
    simp only [reportedRanges, walkFileCache, hlast, Option.get_some]
  rw [hcalls]
  cases hempty with
  | fresh hpage hstart hlen hprev hsession =>
      have hpages : m.pages = [] := hwalk.done_eq_nil hstart hlen
      apply iff_of_false
      · simp [SomeEmpty, WalkState.report, hprev, hsession]
      · simp [AddressSpace.OpensEmpty, hpages]
  | begun hfirst hpage hstart hlen =>
      have hpages : m.pages = [] := hwalk.done_eq_nil hstart hlen
      rw [hpages] at hfirst
      cases hfirst
  | within hpage hlen hempty => exact (someEmpty_report hlen).trans hempty

/-- On x86 even where the one page is at index 0. -/
example : reportedRanges .x86 (fun _ => 0) ({
    host := none
    pages := [⟨0, true⟩]
    sorted := by decide
    index_lt := by decide } : AddressSpace .bits32) = [(0, 0), (0, 1)] := by decide

/-! ## §2 — one walk -/

/-- Some record that was ever put into the trace is empty. -/
def HasEmpty (t : PrefetchTrace M) : Prop := ∃ r ∈ t.history, r.rangeLength = 0

/-- `prefetch_trace_add` finds room for a record. -/
def HasRoom (t : PrefetchTrace M) : Prop :=
  (t.bufferUsed.toNat + M.sizeofRecord) % 2 ^ M.bits < t.bufferSize.toNat

/-- The file is on a block device. -/
def OnDevice (host : Option (Inode M)) : Prop := ∃ device iIno, host = some ⟨some device, iIno⟩

variable {t : PrefetchTrace M} {host : Option (Inode M)} {clearing : Bool}

theorem prefetchTraceAdd_hasEmpty {device : BitVec 32} {inodeNo start len : BitVec M.bits} :
    HasEmpty (prefetchTraceAdd t device inodeNo start len) ↔ HasEmpty t ∨ HasRoom t ∧ len = 0 := by
  unfold prefetchTraceAdd HasEmpty HasRoom
  dsimp only
  split_ifs with hfull
  · simp [not_lt.2 hfull]
  · simp [not_le.1 hfull, or_and_right, exists_or]

/-- A full trace stays full. -/
theorem hasRoom_of_add {device : BitVec 32} {inodeNo start len : BitVec M.bits}
    (h : HasRoom (prefetchTraceAdd t device inodeNo start len)) : HasRoom t := by
  unfold prefetchTraceAdd at h
  dsimp only at h
  split_ifs at h with hfull
  · exact h
  · exact not_le.1 hfull

theorem addReferencedPageRange_room {start len : BitVec M.bits}
    (h : HasRoom (addReferencedPageRange clearing host t start len)) : HasRoom t := by
  unfold addReferencedPageRange at h
  split at h
  · exact h
  split at h
  · exact hasRoom_of_add h
  · exact h

theorem addReferencedPageRange_hasEmpty {start len : BitVec M.bits} :
    HasEmpty (addReferencedPageRange clearing host t start len) ↔
      HasEmpty t ∨ (clearing = false ∧ OnDevice host) ∧ HasRoom t ∧ len = 0 := by
  unfold addReferencedPageRange OnDevice
  split_ifs with hclearing
  · simp [hclearing]
  split
  · next device iIno => simp [prefetchTraceAdd_hasEmpty, hclearing]
  · next hhost =>
    have hnone : ¬ ∃ device iIno, host = some ⟨some device, iIno⟩ := by
      rintro ⟨device, iIno, heq⟩
      exact hhost device iIno heq
    simp [hnone]

theorem reportAll_room {calls : List (BitVec M.bits × BitVec M.bits)}
    (h : HasRoom (reportAll (addReferencedPageRange clearing host) t calls)) : HasRoom t := by
  induction calls generalizing t with
  | nil => exact h
  | cons range calls ih => exact addReferencedPageRange_room (ih h)

/-- An empty record that reports leave comes from an empty range. -/
theorem reportAll_hasEmpty {calls : List (BitVec M.bits × BitVec M.bits)}
    (h : HasEmpty (reportAll (addReferencedPageRange clearing host) t calls)) :
    HasEmpty t ∨ (clearing = false ∧ OnDevice host) ∧ HasRoom t ∧ SomeEmpty calls := by
  induction calls generalizing t with
  | nil => exact .inl h
  | cons range calls ih =>
      rcases ih h with hfirst | ⟨hrecord, hroom, call, hcall, hempty⟩
      · rcases addReferencedPageRange_hasEmpty.1 hfirst with ht | ⟨hrecord, hroom, hempty⟩
        · exact .inl ht
        · exact .inr ⟨hrecord, hroom, range, List.mem_cons_self, hempty⟩
      · exact .inr ⟨hrecord, addReferencedPageRange_room hroom, call, List.mem_cons_of_mem _ hcall, hempty⟩

theorem HasEmpty.appends {t' : PrefetchTrace M} {new : List (Record M)} (h : HasEmpty t)
    (happends : Appends t t' new) : HasEmpty t' := by
  obtain ⟨r, hr, hempty⟩ := h
  exact ⟨r, happends.history ▸ List.mem_append_left _ hr, hempty⟩

/-- A record that is dropped raises the flag. -/
theorem room_of_overflow_false {start len : BitVec M.bits} (hclearing : clearing = false)
    (hdevice : OnDevice host)
    (hover : (addReferencedPageRange clearing host t start len).overflow = false) : HasRoom t := by
  obtain ⟨device, iIno, rfl⟩ := hdevice
  subst hclearing
  by_contra hfull
  have hraised : (addReferencedPageRange false (some ⟨some device, iIno⟩) t start len).overflow = true := by
    show (prefetchTraceAdd t device iIno start len).overflow = true
    unfold prefetchTraceAdd
    rw [if_pos (not_lt.1 hfull)]
  exact Bool.false_ne_true (hover.symm.trans hraised)

/-- And an empty range leaves one, as long as the trace does not overflow. -/
theorem hasEmpty_reportAll {calls : List (BitVec M.bits × BitVec M.bits)} (hclearing : clearing = false)
    (hdevice : OnDevice host) (hempty : SomeEmpty calls)
    (hover : (reportAll (addReferencedPageRange clearing host) t calls).overflow = false) :
    HasEmpty (reportAll (addReferencedPageRange clearing host) t calls) := by
  induction calls generalizing t with
  | nil =>
      obtain ⟨call, hcall, -⟩ := hempty
      cases hcall
  | cons range calls ih =>
      obtain ⟨call, hcall, hzero⟩ := hempty
      rcases List.mem_cons.1 hcall with rfl | hcall
      · obtain ⟨new, hnew, -⟩ := reportAll_pages host clearing calls
          (addReferencedPageRange clearing host t call.1 call.2)
        have hfirst := hnew.overflow_false hover
        refine HasEmpty.appends ?_ hnew
        rw [addReferencedPageRange_hasEmpty]
        exact .inr ⟨⟨hclearing, hdevice⟩, room_of_overflow_false hclearing hdevice hfirst, hzero⟩
      · exact ih ⟨call, hcall, hzero⟩ hover

section Walk

variable {ι : Type*} [DecidableEq ι] {plan : WalkPlan M ι} {core : CoreState M ι}

/-- A walk that comes to the file reports an empty range. -/
def CoreState.EmptyAhead (core : CoreState M ι) (ops : BitOps) (i : ι) : Prop :=
  OnDevice (core.cache i).host ∧ (core.cache i).OpensEmpty ops

theorem showInode_trace (plan : WalkPlan M ι) (core : CoreState M ι) (i : ι) :
    (showInode plan core i).trace =
      reportAll (addReferencedPageRange core.clearingInProgress (core.cache i).host) core.trace
        (reportedRanges plan.ops (plan.batch i) (core.cache i)) := by
  unfold showInode
  rw [walkFileCache_reported]

theorem not_opensEmpty_clearReferenced (m : AddressSpace M) : ¬ m.clearReferenced.OpensEmpty ops := by
  rintro ⟨first, hfirst, href, -⟩
  have hmem := List.mem_of_mem_head? hfirst
  obtain ⟨page, -, rfl⟩ := List.mem_map.1 hmem
  cases href

/-- Behind a file the others are as they were. -/
theorem emptyAhead_showInode {i j : ι} :
    (showInode plan core i).EmptyAhead ops j ↔ j ≠ i ∧ core.EmptyAhead ops j := by
  unfold CoreState.EmptyAhead
  rw [(showInode_effect plan core i).cache j]
  by_cases hji : j = i
  · simp [hji, not_opensEmpty_clearReferenced]
  · simp [hji]

/-- **A walk leaves an empty record only if it records, finds room and comes to such a file.** -/
theorem walkInodes_hasEmpty (h : HasEmpty (walkInodes plan core).trace) :
    HasEmpty core.trace ∨ core.clearingInProgress = false ∧ HasRoom core.trace ∧
      ∃ i ∈ plan.visited, core.EmptyAhead plan.ops i := by
  unfold walkInodes at h
  generalize plan.visited = visited at h ⊢
  induction visited generalizing core with
  | nil => exact .inl h
  | cons i visited ih =>
      have htrace := showInode_trace plan core i
      rcases ih h with hfirst | ⟨hclearing, hroom, j, hj, hahead⟩
      · rw [htrace] at hfirst
        rcases reportAll_hasEmpty hfirst with ht | ⟨⟨hclearing, hdevice⟩, hroom, hempty⟩
        · exact .inl ht
        · exact .inr ⟨hclearing, hroom, i, List.mem_cons_self, hdevice, (someEmpty_iff _ _ _).1 hempty⟩
      · rw [htrace] at hroom
        refine .inr ⟨hclearing, reportAll_room hroom, j, List.mem_cons_of_mem _ hj, ?_⟩
        exact (emptyAhead_showInode.1 hahead).2

theorem foldl_showInode_appends (plan : WalkPlan M ι) (core : CoreState M ι) (visited : List ι) :
    ∃ new, Appends core.trace (visited.foldl (showInode plan) core).trace new := by
  induction visited generalizing core with
  | nil => exact ⟨[], .refl _⟩
  | cons i visited ih =>
      obtain ⟨new, hnew⟩ := (showInode_effect plan core i).appends
      obtain ⟨more, hmore⟩ := ih (showInode plan core i)
      exact ⟨new ++ more, hnew.trans hmore⟩

/-- **It does, if the trace does not overflow on the way.** -/
theorem hasEmpty_walkInodes (hclearing : core.clearingInProgress = false)
    (hahead : ∃ i ∈ plan.visited, core.EmptyAhead plan.ops i)
    (hover : (walkInodes plan core).trace.overflow = false) :
    HasEmpty (walkInodes plan core).trace := by
  unfold walkInodes at hover ⊢
  generalize plan.visited = visited at hover hahead ⊢
  induction visited generalizing core with
  | nil =>
      obtain ⟨i, hi, -⟩ := hahead
      cases hi
  | cons i visited ih =>
      by_cases hi : core.EmptyAhead plan.ops i
      · obtain ⟨new, hnew⟩ := foldl_showInode_appends plan (showInode plan core i) visited
        have hfirst := hnew.overflow_false hover
        rw [showInode_trace] at hfirst
        refine HasEmpty.appends ?_ hnew
        rw [showInode_trace]
        exact hasEmpty_reportAll hclearing hi.1 ((someEmpty_iff _ _ _).2 hi.2) hfirst
      -- another file is, and this one leaves it alone
      · obtain ⟨j, hj, hahead⟩ := hahead
        have hji : j ≠ i := fun heq => hi (heq ▸ hahead)
        have hrest : j ∈ visited := (List.mem_cons.1 hj).resolve_left hji
        exact ih hclearing hover ⟨j, hrest, emptyAhead_showInode.2 ⟨hji, hahead⟩⟩

/-! ## §3 — the calls of clients -/

/-- A call of a client goes over the files, with room in the trace, to record what it finds, and comes to a
file for which it reports an empty range. -/
structure EmptyRecorded (command : TracingCommand) (plan : WalkPlan M ι) (core : CoreState M ι) :
    Prop where
  enabled : core.enabled = true
  reported : ¬ (core.trace.overflow ∧ ¬ core.trace.overflowReported)
  session : plan.session = true
  recording : command = .startTracing → core.trace.tracersCount ≠ 0
  room : HasRoom core.trace
  ahead : ∃ i ∈ plan.visited, core.EmptyAhead plan.ops i

/-- The walk of a call under the lock. -/
theorem walkLocked_hasEmpty {command : TracingCommand} {marker : TraceMarker}
    (h : HasEmpty (walkLocked plan marker core command).core.trace) :
    HasEmpty core.trace ∨ (command = .startTracing → core.trace.tracersCount ≠ 0) ∧
      HasRoom core.trace ∧ ∃ i ∈ plan.visited, core.EmptyAhead plan.ops i := by
  cases command with
  | startTracing =>
      simp only [walkLocked] at h
      split_ifs at h with hfirst
      · rcases walkInodes_hasEmpty h with ht | ⟨hclearing, -⟩
        · exact .inl ht
        · cases hclearing
      · rcases walkInodes_hasEmpty h with ht | ⟨-, hroom, hahead⟩
        · exact .inl ht
        · refine .inr ⟨fun _ hzero => hfirst ?_, hroom, hahead⟩
          show core.trace.tracersCount + 1 = 1
          omega
  | stopTracing =>
      rcases walkInodes_hasEmpty h with ht | ⟨-, hroom, hahead⟩
      · exact .inl ht
      · exact .inr ⟨nofun, hroom, hahead⟩
  | continueTracing =>
      rcases walkInodes_hasEmpty h with ht | ⟨-, hroom, hahead⟩
      · exact .inl ht
      · exact .inr ⟨nofun, hroom, hahead⟩

theorem walkPages_hasEmpty {command : TracingCommand} {marker : TraceMarker}
    (henabled : core.enabled = true)
    (h : HasEmpty (walkPages command plan marker core).core.trace) :
    HasEmpty core.trace ∨ EmptyRecorded command plan core := by
  unfold walkPages at h
  split_ifs at h with hover hstop hsession
  · exact .inl h
  · exact .inl h
  · rcases walkLocked_hasEmpty h with ht | ⟨hrecording, hroom, hahead⟩
    · exact .inl ht
    · exact .inr ⟨henabled, hover, hsession, hrecording, hroom, hahead⟩
  · exact .inl h

/-- The walk leaves an empty record, if the trace does not overflow on the way. -/
theorem hasEmpty_walkPages {command : TracingCommand} {marker : TraceMarker}
    (hclearing : core.clearingInProgress = false) (hgap : EmptyRecorded command plan core)
    (hover : (walkPages command plan marker core).core.trace.overflow = false) :
    HasEmpty (walkPages command plan marker core).core.trace := by
  unfold walkPages at hover ⊢
  rw [if_neg hgap.reported, if_neg (not_not.2 hgap.session)] at hover ⊢
  cases command with
  | startTracing =>
      have hothers : ¬ (core.addTracers 1).trace.tracersCount = 1 := by
        show ¬ core.trace.tracersCount + 1 = 1
        have hcount := hgap.recording rfl
        omega
      simp only [walkLocked, if_neg hothers] at hover ⊢
      exact hasEmpty_walkInodes hclearing hgap.ahead hover
  | stopTracing => exact hasEmpty_walkInodes hclearing hgap.ahead hover
  | continueTracing => exact hasEmpty_walkInodes hclearing hgap.ahead hover

/-- A page that leaves the cache is recorded as one page. -/
theorem prefetchAddPageToTrace_hasEmpty {page : Page M} {pageSwapCache : Bool}
    (h : HasEmpty (prefetchAddPageToTrace t host page pageSwapCache)) : HasEmpty t := by
  unfold prefetchAddPageToTrace at h
  by_cases htracers : t.tracersCount ≤ 0
  · rwa [if_pos htracers] at h
  by_cases href : page.referenced
  swap
  · rwa [if_neg htracers, if_pos href] at h
  by_cases hswap : pageSwapCache
  · rwa [if_neg htracers, if_neg (not_not.2 href), if_pos hswap] at h
  rw [if_neg htracers, if_neg (not_not.2 href), if_neg hswap] at h
  dsimp only at h
  split at h
  · rcases prefetchTraceAdd_hasEmpty.1 h with ht | ⟨-, hone⟩
    · exact ht
    · exact absurd hone one_ne_zero_index
  · exact h

theorem envStep_hasEmpty {core' : CoreState M ι} {e : EnvEvent M ι} (hstep : envStep core e = some core')
    (h : HasEmpty core'.trace) : HasEmpty core.trace := by
  cases e with
  | touch i index =>
      simp only [envStep] at hstep
      split_ifs at hstep
      cases hstep
      exact h
  | insert i index =>
      simp only [envStep] at hstep
      split_ifs at hstep
      cases hstep
      exact h
  | evict i index pageSwapCache =>
      simp only [envStep] at hstep
      split at hstep
      · cases hstep
      · cases hstep
        exact prefetchAddPageToTrace_hasEmpty h
  | control enabled =>
      cases hstep
      exact h

omit [DecidableEq ι] in
theorem prefetchReleaseTrace_hasEmpty {memory : Bool}
    (h : HasEmpty (prefetchReleaseTrace memory core).trace) : HasEmpty core.trace := by
  rcases prefetchReleaseTrace_cases memory core with ⟨-, heq⟩ | ⟨-, heq⟩
  · rwa [heq] at h
  · rw [heq] at h
    unfold HasEmpty at h
    rwa [(clearTrace_frame _ _ _).1] at h

/-- The walk an event makes. -/
def Event.walk {κ : Type*} : Event M κ ι → Option (TracingCommand × WalkPlan M ι)
  | .start _ _ plan => some (.startTracing, plan)
  | .continueTrace _ _ plan => some (.continueTracing, plan)
  | .stop _ _ plan => some (.stopTracing, plan)
  | _ => none

variable {κ : Type*} [DecidableEq κ] {s s' t : System M κ ι} {e : Event M κ ι} {es : List (Event M κ ι)}

/-- No walk of the event comes to such a file. -/
def PagesFirst (s : System M κ ι) (e : Event M κ ι) : Prop :=
  ∀ command plan, e.walk = some (command, plan) → ¬ EmptyRecorded command plan s.core

/-- Every record that was ever put into the trace has a page in it. -/
def RecordsNonempty (s : System M κ ι) : Prop := ∀ r ∈ s.core.trace.history, 1 ≤ r.rangeLength.toNat

omit [DecidableEq ι] [DecidableEq κ] in
theorem recordsNonempty_iff : RecordsNonempty s ↔ ¬ HasEmpty s.core.trace := by
  simp [RecordsNonempty, HasEmpty, Nat.one_le_iff_ne_zero, ← BitVec.toNat_inj]

theorem prefetchStartTrace_hasEmpty {marker : TraceMarker}
    (h : HasEmpty (prefetchStartTrace plan marker core).core.trace) :
    HasEmpty core.trace ∨ EmptyRecorded .startTracing plan core := by
  simp only [prefetchStartTrace] at h
  by_cases henabled : core.enabled = true
  · rw [if_neg (not_not.2 henabled)] at h
    split_ifs at h
    · exact walkPages_hasEmpty henabled h
    · exact walkPages_hasEmpty henabled h
  · rw [if_pos henabled] at h
    exact .inl h

theorem prefetchContinueTrace_hasEmpty {marker : TraceMarker}
    (h : HasEmpty (prefetchContinueTrace plan marker core).core.trace) :
    HasEmpty core.trace ∨ EmptyRecorded .continueTracing plan core := by
  unfold prefetchContinueTrace at h
  by_cases henabled : core.enabled = true
  · rw [if_neg (not_not.2 henabled)] at h
    exact walkPages_hasEmpty henabled h
  · rw [if_pos henabled] at h
    exact .inl h

theorem prefetchStopTrace_hasEmpty {marker : TraceMarker}
    (h : HasEmpty (prefetchStopTrace plan marker core).core.trace) :
    HasEmpty core.trace ∨ EmptyRecorded .stopTracing plan core := by
  unfold prefetchStopTrace at h
  by_cases henabled : core.enabled = true
  · rw [if_neg (not_not.2 henabled)] at h
    exact walkPages_hasEmpty henabled h
  · rw [if_pos henabled] at h
    exact .inl h

/-- **A step leaves an empty record only if its walk comes to such a file.** -/
theorem step_hasEmpty (hstep : step s e = some s') (hfirst : PagesFirst s e)
    (h : HasEmpty s'.core.trace) : HasEmpty s.core.trace := by
  cases e with
  | start c marker plan =>
      simp only [step] at hstep
      split at hstep
      · cases hstep
        exact (prefetchStartTrace_hasEmpty h).resolve_right (hfirst _ _ rfl)
      · cases hstep
  | continueTrace c marker plan =>
      simp only [step] at hstep
      split at hstep
      · cases hstep
        exact (prefetchContinueTrace_hasEmpty h).resolve_right (hfirst _ _ rfl)
      · cases hstep
  | stop c marker plan =>
      simp only [step] at hstep
      split at hstep
      · cases hstep
        exact (prefetchStopTrace_hasEmpty h).resolve_right (hfirst _ _ rfl)
      · cases hstep
  | release c memory =>
      simp only [step] at hstep
      split at hstep
      · cases hstep
        exact prefetchReleaseTrace_hasEmpty h
      · cases hstep
  | env e =>
      obtain ⟨core', henv, rfl⟩ := Option.map_eq_some_iff.1 hstep
      exact envStep_hasEmpty henv h

/-- **And it does, if it does and the trace does not overflow.** -/
theorem hasEmpty_step (hclearing : s.core.clearingInProgress = false) (hstep : step s e = some s')
    (hfirst : ¬ PagesFirst s e) (hover : s'.core.trace.overflow = false) :
    HasEmpty s'.core.trace := by
  simp only [PagesFirst, not_forall, not_not] at hfirst
  obtain ⟨command, plan, hwalk, hgap⟩ := hfirst
  cases e with
  | start c marker plan =>
      cases hwalk
      simp only [step] at hstep
      split at hstep
      · cases hstep
        simp only [prefetchStartTrace, if_neg (not_not.2 hgap.enabled)] at hover ⊢
        split_ifs at hover ⊢
        · exact hasEmpty_walkPages hclearing hgap hover
        · exact hasEmpty_walkPages hclearing hgap hover
      · cases hstep
  | continueTrace c marker plan =>
      cases hwalk
      simp only [step] at hstep
      split at hstep
      · cases hstep
        simp only [prefetchContinueTrace, if_neg (not_not.2 hgap.enabled)] at hover ⊢
        exact hasEmpty_walkPages hclearing hgap hover
      · cases hstep
  | stop c marker plan =>
      cases hwalk
      simp only [step] at hstep
      split at hstep
      · cases hstep
        simp only [prefetchStopTrace, if_neg (not_not.2 hgap.enabled)] at hover ⊢
        exact hasEmpty_walkPages hclearing hgap hover
      · cases hstep
  | release c memory => cases hwalk
  | env e => cases hwalk

/-! ## §4 — runs -/

variable [Fintype κ] {memory enabled : Bool} {traceSizeKb : BitVec 32} {cache : ι → AddressSpace M}

/-- **No empty record is ever put into the trace as long as no walk that records comes, with room in the
trace, to a file on a block device whose first cached page has its bit set and is not at index 0, or whose
first cached page has its bit set at all where the two operations on the bit return different values.** In a
run in which the trace does not overflow that is what it takes. -/
theorem recordsNonempty_iff_pagesFirst
    (hrun : run step (boot memory enabled traceSizeKb cache : System M κ ι) es = some t) :
    (StepsMeet step PagesFirst (boot memory enabled traceSizeKb cache) es →
      Throughout step RecordsNonempty (boot memory enabled traceSizeKb cache) es) ∧
    (Throughout step (fun s => s.core.trace.overflow = false) (boot memory enabled traceSizeKb cache) es →
      (Throughout step RecordsNonempty (boot memory enabled traceSizeKb cache) es ↔
        StepsMeet step PagesFirst (boot memory enabled traceSizeKb cache) es)) := by
  have hboot : ¬ HasEmpty (boot memory enabled traceSizeKb cache : System M κ ι).core.trace := by
    have hhistory := (clearTrace_frame traceSizeKb memory ({} : PrefetchTrace M)).1
    rintro ⟨r, hr, -⟩
    exact List.not_mem_nil (hhistory ▸ hr)
  have hkeep : StepsMeet step PagesFirst (boot memory enabled traceSizeKb cache) es →
      Throughout step RecordsNonempty (boot memory enabled traceSizeKb cache) es := by
    intro hmeet
    apply throughout_of_stepsMeet (I := fun s => ¬ HasEmpty s.core.trace)
      (fun s => recordsNonempty_iff.2) ?_ hmeet hboot
    intro s e s' hfirst hs hstep h
    exact hs (step_hasEmpty hstep hfirst h)
  refine ⟨hkeep, fun hover => ⟨fun hthrough => ?_, hkeep⟩⟩
  by_contra hmeet
  obtain ⟨pre, e, post, s₁, s₂, rfl, hpre, hstep, hpost, hfirst⟩ := exists_not_meet hrun hmeet
  have hinv : Inv s₁ := run_invariant (fun s e s' _ hs hstep => step_inv hs hstep) hpre (inv_boot ..)
  have hbehind : run step (boot memory enabled traceSizeKb cache) (pre ++ [e]) = some s₂ :=
    run_trans hpre (run_step hstep rfl)
  have hsplit : pre ++ e :: post = (pre ++ [e]) ++ post := by simp
  have hempty := hasEmpty_step hinv.clearing hstep hfirst (hover _ _ _ hsplit hbehind)
  exact recordsNonempty_iff.1 (hthrough _ _ _ hsplit hbehind) hempty

end Walk

/-- A file with a page at index 0 and another one. -/
def twoPageCache : Unit → AddressSpace .bits32 := fun _ =>
  { host := some ⟨some 8, 7⟩
    pages := [{ index := 0 }, { index := 3 }]
    sorted := by decide
    index_lt := by decide }

/-- The page at index 3 is touched while a client traces. -/
theorem recordsNonempty_iff_pagesFirst_sample :
    Throughout step RecordsNonempty (boot true true 256 twoPageCache : System .bits32 Bool Unit)
      [.start false ⟨0, 0⟩ { order := [()] }, .env (.touch () 3),
        .stop false ⟨0, 0⟩ { order := [()] }] := by
  refine (recordsNonempty_iff_pagesFirst rfl).1 ?_
  refine (stepsMeet_cons rfl).2 ⟨?_, (stepsMeet_cons rfl).2 ⟨nofun, ?_⟩⟩
  · rintro command plan hwalk hgap
    cases hwalk
    exact hgap.recording rfl (by decide)
  refine (stepsMeet_cons rfl).2 ⟨?_, stepsMeet_nil⟩
  rintro command plan hwalk hgap
  cases hwalk
  obtain ⟨_, -, -, first, hfirst, hset, -⟩ := hgap.ahead
  cases hfirst
  exact absurd hset (by decide)

/-- The same in a file that has no other page in memory. -/
theorem gap_recorded_as_empty :
    ¬ Throughout step RecordsNonempty (boot true true 256 sampleCache : System .bits32 Bool Unit)
      [.start false ⟨0, 0⟩ { order := [()] }, .env (.touch () 3),
        .stop false ⟨0, 0⟩ { order := [()] }] := by
  intro hthrough
  have hlast := hthrough _ [] _ (List.append_nil _).symm rfl ⟨8, 7, 0, 0⟩ (by decide)
  exact absurd hlast (by decide)

end Prefetch.Core

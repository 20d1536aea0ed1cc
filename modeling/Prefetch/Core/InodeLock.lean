/-
# Prefetch.Core.InodeLock — `walk_pages` with its locks and allocations

The same function as in `Prefetch.Core.Tracing`, in the steps of the source: the session is created, the
walk is started, gone through and stopped, and `inode_lock` is counted as it is taken and released.
`walkPages_refines`: a call returns the same and leaves the same behind as `Core.walkPages`, over the inodes
`windows` says.

`proper_iff`: without a page for the inode vector `inode_walk_start` returns before it takes the lock, and
`NULL`, which is also the end of a walk; so the lock is released without being held, and the caller is not
told.
-/
import Prefetch.Core.InodeWalk
import Prefetch.Core.Tracing

namespace Prefetch.Core.InodeLock

open InodeWalkSession

variable {M : Machine} {ι : Type*} [DecidableEq ι]

/-! ## §1 — `walk_pages`, step by step -/

/-- The session of a call under way and how often `inode_lock` was taken and released. -/
structure LockedSession (M : Machine) (ι : Type*) where
  session : InodeWalkSession M ι
  acquired : ℕ := 0
  released : ℕ := 0

/-- `inode_walk_session_create`; `none` is the error pointer for `-ENOMEM`. -/
def inodeWalkSessionCreate (memory : Bool) : Option (LockedSession M ι) :=
  if memory then some { session := {} } else none

/-- `inode_walk_start`: the lock is taken behind the allocation. -/
def inodeWalkStart (lists : InodeLists M ι) (ivecSize : ℕ) (page : Bool) (s : LockedSession M ι) :
    LockedSession M ι × Option ι :=
  let started := s.session.inodeWalkStart lists ivecSize page 0
  if page then ({ s with session := started.1, acquired := s.acquired + 1 }, started.2)
  else ({ s with session := started.1 }, started.2)

/-- The loop over the inodes, while there is one. -/
def walkLoop (lists : InodeLists M ι) (ivecSize : ℕ) (plan : WalkPlan M ι) (s : LockedSession M ι)
    (first : Option ι) (core : CoreState M ι) : Option (LockedSession M ι × CoreState M ι) :=
  match first with
  | none => some (s, core)
  | some _ =>
      (s.session.inodeWalkLoop lists ivecSize (showInode plan) lists.cached.length 0 core).map
        fun walked => ({ s with session := walked.1 }, walked.2)

/-- `inode_walk_stop` -/
def inodeWalkStop (lists : InodeLists M ι) (s : LockedSession M ι) : LockedSession M ι :=
  { s with session := s.session.inodeWalkStop lists, released := s.released + 1 }

/-- What a call does: what it returns and leaves behind, and its session at the end, if it got one. -/
structure LockedResult (M : Machine) (ι : Type*) where
  result : CallResult M ι
  session : LockedSession M ι := { session := {} }

/-- Before the loop: a tracer more, and if it is the first one the bits are only cleared. -/
def beforeLoop (command : TracingCommand) (marker : TraceMarker) (core : CoreState M ι) :
    Bool × TraceMarker × CoreState M ι :=
  if command = .startTracing then
    let core := core.addTracers 1
    if core.trace.tracersCount = 1 then
      (true, getTraceMarker core.trace, { core with clearingInProgress := true })
    else (false, marker, core)
  else (false, marker, core)

/-- Behind the loop: a tracer less, and the caller's marker. -/
def afterLoop (command : TracingCommand) (marker : TraceMarker) (core : CoreState M ι) :
    TraceMarker × CoreState M ι :=
  if command = .stopTracing then
    let core := core.addTracers (-1)
    (getTraceMarker core.trace, core)
  else if command = .continueTracing then (getTraceMarker core.trace, core)
  else (marker, core)

/-- `walk_pages`; `none` when the walk takes more turns than there are inodes. The loop ends with `NULL`, so
`PTR_ERR` of it is 0. -/
def walkPages (command : TracingCommand) (lists : InodeLists M ι) (ivecSize : ℕ) (plan : WalkPlan M ι)
    (marker : TraceMarker) (core : CoreState M ι) : Option (LockedResult M ι) :=
  if core.trace.overflow ∧ ¬ core.trace.overflowReported then
    some { result := ⟨-ENOSPC, marker, if command = .stopTracing then
      core.reportOverflow.addTracers (-1) else core.reportOverflow⟩ }
  else
    match inodeWalkSessionCreate plan.session with
    | none => some { result := ⟨-ENOMEM, marker, core⟩ }
    | some s =>
        let started := inodeWalkStart lists ivecSize plan.ivec s
        let before := beforeLoop command marker core
        (walkLoop lists ivecSize plan started.1 started.2 before.2.2).map fun walked =>
          let after := afterLoop command before.2.1 walked.2
          let core := if before.1 then { after.2 with clearingInProgress := false } else after.2
          ⟨⟨0, after.1, core⟩, inodeWalkStop lists walked.1⟩

/-! ## §2 — what a call does -/

/-- The walk of a call with a page for its vector is that of a new session, under the lock. -/
theorem walkLoop_page (lists : InodeLists M ι) (ivecSize : ℕ) (plan : WalkPlan M ι)
    (core : CoreState M ι) :
    walkLoop lists ivecSize plan (inodeWalkStart lists ivecSize true { session := {} }).1
        (inodeWalkStart lists ivecSize true { session := {} }).2 core =
      (inodeWalk lists ivecSize true (showInode plan) core).map fun walked =>
        (⟨walked.1, 1, 0⟩, walked.2) := by
  unfold walkLoop inodeWalkStart inodeWalk
  cases ({} : InodeWalkSession M ι).inodeWalkStart lists ivecSize true 0 with
  | mk s first => cases first <;> rfl

/-- The inodes the walk of a call visits, put into its plan. -/
def planned (lists : InodeLists M ι) (ivecSize : ℕ) (plan : WalkPlan M ι) : WalkPlan M ι :=
  { plan with order := windows (clean lists) ivecSize lists.toShow 0 0 }

/-- **The walk under the lock**: it goes over the planned inodes, taking the lock if there is a page for
its vector, and uses no other. -/
theorem walkLoop_eq (lists : InodeLists M ι) {ivecSize : ℕ} (hpos : 0 < ivecSize)
    (plan : WalkPlan M ι) (core : CoreState M ι) :
    ∃ r : InodeWalkSession M ι, r.wild = false ∧ r.bug = false ∧
      walkLoop lists ivecSize plan (inodeWalkStart lists ivecSize plan.ivec { session := {} }).1
          (inodeWalkStart lists ivecSize plan.ivec { session := {} }).2 core =
        some (⟨r, if plan.ivec then 1 else 0, 0⟩, walkInodes (planned lists ivecSize plan) core) := by
  unfold walkInodes WalkPlan.visited planned
  cases hpage : plan.ivec with
  | true =>
      obtain ⟨r, hwalk, hr⟩ := inodeWalk_eq lists hpos (showInode plan) core
      refine ⟨r, hr.wild, hr.bug, ?_⟩
      rw [walkLoop_page, hwalk]
      rfl
  | false => exact ⟨{}, rfl, rfl, rfl⟩

/-- What goes before and behind the walk under the lock. -/
theorem walkLocked_eq (command : TracingCommand) (plan : WalkPlan M ι) (marker : TraceMarker)
    (core : CoreState M ι) :
    let before := beforeLoop command marker core
    let after := afterLoop command before.2.1 (walkInodes plan before.2.2)
    walkLocked plan marker core command =
      ⟨0, after.1, if before.1 then { after.2 with clearingInProgress := false } else after.2⟩ := by
  cases command with
  | startTracing =>
      simp only [walkLocked, beforeLoop, afterLoop, if_true, reduceCtorEq, if_false]
      split <;> rfl
  | stopTracing => rfl
  | continueTracing => rfl

/-- The overflow of the trace is still to be reported. -/
def OverflowPending (core : CoreState M ι) : Prop :=
  core.trace.overflow ∧ ¬ core.trace.overflowReported

instance (core : CoreState M ι) : Decidable (OverflowPending core) := by
  unfold OverflowPending
  infer_instance

/-- **A call does what `Core.walkPages` says**, over the inodes it walks; and without the overflow to
report and with memory for the session, it releases the lock once and takes it if there is a page. -/
theorem walkPages_refines (command : TracingCommand) (lists : InodeLists M ι) {ivecSize : ℕ}
    (hpos : 0 < ivecSize) (plan : WalkPlan M ι) (marker : TraceMarker) (core : CoreState M ι) :
    ∃ r, walkPages command lists ivecSize plan marker core = some r ∧
      r.result = Core.walkPages command (planned lists ivecSize plan) marker core ∧
      r.session.session.wild = false ∧ r.session.session.bug = false ∧
      if OverflowPending core ∨ ¬ plan.session then
        r.session.acquired = 0 ∧ r.session.released = 0 ∧ r.result.ret < 0
      else
        r.session.acquired = (if plan.ivec then 1 else 0) ∧ r.session.released = 1 ∧
          r.result.ret = 0 := by
  unfold walkPages Core.walkPages
  by_cases hover : core.trace.overflow ∧ ¬ core.trace.overflowReported
  · have hpending : OverflowPending core := hover
    rw [if_pos hover, if_pos hover]
    refine ⟨_, rfl, rfl, rfl, rfl, ?_⟩
    rw [if_pos (.inl hpending)]
    exact ⟨rfl, rfl, show -ENOSPC < 0 by decide⟩
  rw [if_neg hover, if_neg hover]
  cases hsession : plan.session with
  | false =>
      rw [if_pos (by simp [planned, hsession])]
      refine ⟨_, rfl, rfl, rfl, rfl, ?_⟩
      rw [if_pos (.inr Bool.false_ne_true)]
      exact ⟨rfl, rfl, show -ENOMEM < 0 by decide⟩
  | true =>
      have hnot : ¬ (OverflowPending core ∨ ¬ True) := by
        rintro (h | h)
        · exact hover h
        · exact h trivial
      obtain ⟨s, hwild, hbug, hwalk⟩ := walkLoop_eq lists hpos plan (beforeLoop command marker core).2.2
      rw [if_neg (by simp [planned, hsession]), walkLocked_eq]
      simp only [inodeWalkSessionCreate, if_true, hwalk, Option.map_some]
      refine ⟨_, rfl, rfl, hwild, hbug, ?_⟩
      rw [if_neg hnot]
      exact ⟨rfl, rfl, rfl⟩

/-! ## §3 — locks and errors -/

/-- A call is as it should be: `inode_lock` is released as often as it is taken, no vector is used that was
not allocated, and where an allocation failed an error is returned. -/
def Proper (command : TracingCommand) (lists : InodeLists M ι) (ivecSize : ℕ) (plan : WalkPlan M ι)
    (marker : TraceMarker) (core : CoreState M ι) : Prop :=
  ∃ r, walkPages command lists ivecSize plan marker core = some r ∧
    r.session.released = r.session.acquired ∧ r.session.session.wild = false ∧
    (¬ plan.session ∨ ¬ plan.ivec → r.result.ret < 0)

/-- **A call is as it should be unless just the page for its vector is missing.** -/
theorem proper_iff (command : TracingCommand) (lists : InodeLists M ι) (ivecSize : ℕ)
    (hpos : 0 < ivecSize) (plan : WalkPlan M ι) (marker : TraceMarker) (core : CoreState M ι) :
    Proper command lists ivecSize plan marker core ↔
      OverflowPending core ∨ ¬ plan.session ∨ plan.ivec := by
  obtain ⟨r, hr, -, hwild, -, hcounts⟩ := walkPages_refines command lists hpos plan marker core
  constructor
  · rintro ⟨r', hr', hlock, -, hret⟩
    cases hr.symm.trans hr'
    by_contra hnot
    rw [not_or, not_or, not_not] at hnot
    obtain ⟨hover, hsession, hpage⟩ := hnot
    rw [if_neg (by simp [hover, hsession])] at hcounts
    have hneg := hret (.inr hpage)
    rw [hcounts.2.2] at hneg
    exact absurd hneg (Int.lt_irrefl 0)
  · intro hcond
    refine ⟨r, hr, ?_⟩
    by_cases hearly : OverflowPending core ∨ ¬ plan.session
    · rw [if_pos hearly] at hcounts
      obtain ⟨hacq, hrel, hret⟩ := hcounts
      exact ⟨hrel.trans hacq.symm, hwild, fun _ => hret⟩
    · rw [if_neg hearly] at hcounts
      obtain ⟨hover, hsession⟩ := not_or.1 hearly
      have hpage : plan.ivec := (hcond.resolve_left hover).resolve_left hsession
      obtain ⟨hacq, hrel, -⟩ := hcounts
      refine ⟨?_, hwild, ?_⟩
      · rw [hrel, hacq, if_pos hpage]
      · rintro (h | h)
        · exact absurd h hsession
        · exact absurd hpage h

/-- A module with an empty trace, and files without pages. -/
def idleCore : CoreState .bits64 ℕ := { cache := fun _ => ⟨none, [], List.Pairwise.nil, nofun⟩ }

/-- A walk over four inodes, in windows of two. -/
theorem proper_twoDirty : Proper .startTracing twoDirty 2 { order := [] } ⟨0, 0⟩ idleCore :=
  (proper_iff .startTracing twoDirty 2 (by decide) { order := [] } ⟨0, 0⟩ idleCore).mpr (.inr (.inr rfl))

/-- Without a page for the vector the lock is released without having been taken. -/
theorem not_proper_no_page :
    ¬ ∀ (command : TracingCommand) (plan : WalkPlan .bits64 ℕ),
      Proper command twoDirty 512 plan ⟨0, 0⟩ idleCore := by
  intro h
  obtain ⟨r, hr, hlock, -⟩ := h .continueTracing { ivec := false, order := [] }
  cases hr
  exact absurd hlock (by decide)

end Prefetch.Core.InodeLock

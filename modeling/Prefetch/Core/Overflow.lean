/-
# Prefetch.Core.Overflow — who is told that the buffer overflowed

`prefetch_trace_add` drops a record there is no room for and raises `overflow`. The next call that gets
to `walk_pages` returns `-ENOSPC` and raises `overflow_reported`; until the trace is cleared no further
call does, whichever clients have lost records. So a stop that succeeds promises less than that no
record was dropped: `stop_success_reported` says that what was dropped before its check has been
reported to some call since the trace was last cleared, `swallowed_overflow` that the stop's own client
need not be told.
-/
import Prefetch.Core.Clients

namespace Prefetch.Core

open Function Runs

variable {M : Machine} {κ ι : Type*} [DecidableEq ι]

/-! ## §1 — what calls return -/

/-- The value a call returns in a state. -/
def callReturn (s : System M κ ι) : Event M κ ι → Option ℤ
  | .start _ marker plan => some (prefetchStartTrace plan marker s.core).ret
  | .continueTrace _ marker plan => some (prefetchContinueTrace plan marker s.core).ret
  | .stop _ marker plan => some (prefetchStopTrace plan marker s.core).ret
  | .release _ _ => some 0
  | .env _ => none

/-- `walk_pages` raises `overflow_reported` only where it returns `-ENOSPC`. -/
theorem walkPages_reported (command : TracingCommand) (plan : WalkPlan M ι) (marker : TraceMarker)
    (core : CoreState M ι) :
    (walkPages command plan marker core).ret = -ENOSPC ∨
      (walkPages command plan marker core).core.trace.overflowReported =
        core.trace.overflowReported := by
  unfold walkPages
  by_cases hover : core.trace.overflow ∧ ¬ core.trace.overflowReported
  · rw [if_pos hover]
    exact .inl rfl
  rw [if_neg hover]
  by_cases hsession : ¬ plan.session
  · rw [if_pos hsession]
    exact .inr rfl
  rw [if_neg hsession]
  right
  cases command with
  | startTracing =>
      unfold walkLocked
      dsimp only
      split
      · exact walkInodes_reported plan { core.addTracers 1 with clearingInProgress := true }
      · exact walkInodes_reported plan (core.addTracers 1)
  | stopTracing => exact walkInodes_reported plan core
  | continueTracing => exact walkInodes_reported plan core

theorem prefetchStartTrace_reported (plan : WalkPlan M ι) (marker : TraceMarker)
    (core : CoreState M ι) :
    (prefetchStartTrace plan marker core).ret = -ENOSPC ∨
      (prefetchStartTrace plan marker core).core.trace.overflowReported =
        core.trace.overflowReported := by
  unfold prefetchStartTrace
  by_cases henabled : ¬ core.enabled
  · rw [if_pos henabled]
    exact .inr rfl
  rw [if_neg henabled]
  dsimp only
  have hwalk := walkPages_reported .startTracing plan marker core
  split
  · exact hwalk
  · exact hwalk

/-- `prefetch_continue_trace` and `prefetch_stop_trace` walk in the enabled module only. -/
theorem guardedWalk_reported (command : TracingCommand) (plan : WalkPlan M ι) (marker : TraceMarker)
    {core disabled : CoreState M ι} {r : CallResult M ι}
    (hr : (if ¬ core.enabled then ⟨-ENODEV, marker, disabled⟩
      else walkPages command plan marker core) = r)
    (hsame : disabled.trace.overflowReported = core.trace.overflowReported) :
    r.ret = -ENOSPC ∨ r.core.trace.overflowReported = core.trace.overflowReported := by
  subst hr
  by_cases henabled : ¬ core.enabled
  · rw [if_pos henabled]
    exact .inr hsame
  · rw [if_neg henabled]
    exact walkPages_reported command plan marker core

theorem prefetchContinueTrace_reported (plan : WalkPlan M ι) (marker : TraceMarker)
    (core : CoreState M ι) :
    (prefetchContinueTrace plan marker core).ret = -ENOSPC ∨
      (prefetchContinueTrace plan marker core).core.trace.overflowReported =
        core.trace.overflowReported :=
  guardedWalk_reported .continueTracing plan marker rfl rfl

theorem prefetchStopTrace_reported (plan : WalkPlan M ι) (marker : TraceMarker)
    (core : CoreState M ι) :
    (prefetchStopTrace plan marker core).ret = -ENOSPC ∨
      (prefetchStopTrace plan marker core).core.trace.overflowReported =
        core.trace.overflowReported :=
  guardedWalk_reported .stopTracing plan marker rfl rfl

/-- A stop that succeeds found no overflow to report. -/
theorem prefetchStopTrace_success {plan : WalkPlan M ι} {marker : TraceMarker}
    {core : CoreState M ι} (h : 0 ≤ (prefetchStopTrace plan marker core).ret)
    (hover : core.trace.overflow = true) : core.trace.overflowReported = true := by
  unfold prefetchStopTrace at h
  by_cases henabled : ¬ core.enabled
  · rw [if_pos henabled] at h
    exact absurd h (by show ¬ 0 ≤ -ENODEV; decide)
  rw [if_neg henabled] at h
  by_contra hreported
  unfold walkPages at h
  rw [if_pos ⟨hover, hreported⟩] at h
  exact absurd h (by show ¬ 0 ≤ -ENOSPC; decide)

omit [DecidableEq ι] in
/-- A release that leaves the report up has not cleared the trace. -/
theorem prefetchReleaseTrace_reported {memory : Bool} {core : CoreState M ι}
    (h : (prefetchReleaseTrace memory core).trace.overflowReported = true) :
    core.trace.overflowReported = true ∧
      Appends core.trace (prefetchReleaseTrace memory core).trace [] := by
  rcases prefetchReleaseTrace_cases memory core with ⟨hmany, heq⟩ | ⟨-, heq⟩
  · refine ⟨?_, prefetchReleaseTrace_held memory hmany⟩
    rw [heq] at h
    exact h
  · rw [heq] at h ⊢
    unfold clearTrace at h ⊢
    dsimp only at h ⊢
    split at h
    · cases h
    split at h
    · cases h
    · next hnone halloc =>
      refine ⟨h, ?_⟩
      rw [if_neg halloc]
      apply Appends.of_fields <;> simp [CoreState.addUsers]

/-! ## §2 — where the report comes from -/

omit [DecidableEq ι] in
/-- A call that leaves the report up returned `-ENOSPC` or found it up. -/
theorem call_reported {core : CoreState M ι} {r : CallResult M ι}
    (hcall : r.ret = -ENOSPC ∨ r.core.trace.overflowReported = core.trace.overflowReported)
    (hreported : r.core.trace.overflowReported = true) :
    some r.ret = some (-ENOSPC) ∨ core.trace.overflowReported = true := by
  rcases hcall with hret | hsame
  · exact .inl (congrArg some hret)
  · exact .inr (hsame.symm.trans hreported)

variable [DecidableEq κ] {s s' t : System M κ ι} {e : Event M κ ι}

/-- **Where the report is up after a step**, the step's call returned `-ENOSPC` or the report was up
before, and the step has not cleared the trace. -/
theorem step_reported (hclearing : s.core.clearingInProgress = false) (h : step s e = some s')
    (hreported : s'.core.trace.overflowReported = true) :
    (callReturn s e = some (-ENOSPC) ∨ s.core.trace.overflowReported = true) ∧
      ∃ new, Appends s.core.trace s'.core.trace new := by
  cases e with
  | start c marker plan =>
      constructor
      · simp only [step] at h
        split at h
        · cases h
          exact call_reported (prefetchStartTrace_reported plan marker s.core) hreported
        · cases h
      · cases step_effect hclearing h with
        | started hidle heffect => exact heffect.appends
        | startFailed hidle heffect => exact heffect.appends
  | continueTrace c marker plan =>
      constructor
      · simp only [step] at h
        split at h
        · cases h
          exact call_reported (prefetchContinueTrace_reported plan marker s.core) hreported
        · cases h
      · cases step_effect hclearing h with
        | continued heffect => exact heffect.appends
  | stop c marker plan =>
      constructor
      · simp only [step] at h
        split at h
        · cases h
          exact call_reported (prefetchStopTrace_reported plan marker s.core) hreported
        · cases h
      · cases step_effect hclearing h with
        | stopped htracing heffect => exact heffect.appends
        | stopFailed htracing hd heffect => exact heffect.appends
  | release c memory =>
      cases step_effect hclearing h with
      | released hstopped =>
          -- the last release would have taken the report down
          obtain ⟨hbefore, happends⟩ := prefetchReleaseTrace_reported hreported
          exact ⟨.inr hbefore, [], happends⟩
  | env e =>
      cases step_effect hclearing h with
      | env henv =>
          obtain ⟨-, hcount, happends⟩ := envStep_frame henv
          exact ⟨.inr (hcount.overflowReported.symm.trans hreported), happends⟩

/-- Some call of the run from `s` to `t` returned `-ENOSPC`, and the trace has not been cleared since. -/
def OverflowReported (s : System M κ ι) (es : List (Event M κ ι)) (t : System M κ ι) : Prop :=
  ∃ before call after u u', es = before ++ call :: after ∧ run step s before = some u ∧
    callReturn u call = some (-ENOSPC) ∧ step u call = some u' ∧ run step u' after = some t ∧
    ∃ new, Appends u'.core.trace t.core.trace new

/-- A report found up at the end of a run was made in it. -/
theorem run_reported [Fintype κ] {es : List (Event M κ ι)} (hinv : Inv s)
    (hdown : s.core.trace.overflowReported = false) (h : run step s es = some t)
    (hreported : t.core.trace.overflowReported = true) : OverflowReported s es t := by
  induction es using List.reverseRecOn generalizing t with
  | nil =>
      cases h
      rw [hdown] at hreported
      cases hreported
  | append_singleton es e ih =>
      obtain ⟨u, hu, hlast⟩ := run_append_eq_some.1 h
      obtain ⟨t', hstep, hnil⟩ := run_cons_eq_some.1 hlast
      cases hnil
      -- the last call made the report, or it was up before
      obtain ⟨hcall | hbefore, new, hnew⟩ := step_reported (run_inv hinv hu).clearing hstep hreported
      · exact ⟨es, e, [], u, t, rfl, hu, hcall, hstep, rfl, [], .refl _⟩
      · obtain ⟨before, call, after, u₁, u₂, rfl, hpre, hret, hreport, hafter, new', hnew'⟩ :=
          ih hu hbefore
        exact ⟨before, call, after ++ [e], u₁, u₂, by simp, hpre, hret, hreport,
          run_trans hafter hlast, _, hnew'.trans hnew⟩

/-! ## §3 — what a successful stop promises -/

/-- **When a client's stop succeeds**, then no record was dropped from its start up to the check its
stop begins with, or the overflow was reported: some client's call returned `-ENOSPC`, and the trace
has not been cleared since. -/
theorem stop_success_reported [Fintype κ] {memory enabled : Bool} {traceSizeKb : BitVec 32}
    {cache : ι → AddressSpace M} {pre mid : List (Event M κ ι)} {s₁ s₂ : System M κ ι} {c : κ}
    {marker marker' startMarker : TraceMarker} {plan plan' : WalkPlan M ι} {ret : ℤ}
    (hpre : run step (boot memory enabled traceSizeKb cache) pre = some s)
    (hstart : step s (.start c marker plan) = some s₁)
    (hsuccess : s₁.clients c = .tracing startMarker)
    (hmid : run step s₁ mid = some s₂) (hquiet : ∀ marker plan, .stop c marker plan ∉ mid)
    (hstop : callReturn s₂ (.stop c marker' plan') = some ret) (hret : 0 ≤ ret) :
    s₂.core.trace.dropped = s.core.trace.dropped ∨
      OverflowReported (boot memory enabled traceSizeKb cache)
        (pre ++ .start c marker plan :: mid) s₂ := by
  have hboot : Inv (boot memory enabled traceSizeKb cache : System M κ ι) := inv_boot _ _ _ _
  have hinv := run_inv hboot hpre
  obtain ⟨-, hstarted⟩ := step_start_tracing hinv.clearing hstart hsuccess
  obtain ⟨new₁, hnew₁⟩ := hstarted.appends
  obtain ⟨new₂, hnew₂⟩ := run_tracing_appends (step_inv hinv hstart) hsuccess hquiet hmid
  cases hover : s₂.core.trace.overflow with
  | false => exact .inl ((hnew₁.trans hnew₂).dropped hover)
  | true =>
      right
      -- the stop's own check would have returned `-ENOSPC` for an overflow not reported yet
      have hsucceeds : 0 ≤ (prefetchStopTrace plan' marker' s₂.core).ret := by
        rwa [Option.some.inj hstop]
      apply run_reported hboot ?_ (run_trans hpre (run_step hstart hmid))
        (prefetchStopTrace_success hsucceeds hover)
      show (clearTrace traceSizeKb memory {}).overflowReported = false
      unfold clearTrace
      dsimp only
      split
      · rfl
      · rfl

/-- One file on a block device with 32 pages in the cache, no two of them adjacent. -/
def sparseCache : Unit → AddressSpace .bits64 := fun _ =>
  { host := some ⟨some 8, 7⟩
    pages := (List.range 32).map fun i => { index := BitVec.ofNat 64 (2 * i) }
    sorted := by decide
    index_lt := by decide }

/-- All its pages are touched. -/
def touchAll : List (Event .bits64 Bool Unit) :=
  (List.range 32).map fun i => .env (.touch () (BitVec.ofNat 64 (2 * i)))

set_option maxRecDepth 4000 in
/-- A second client's start walk finds more ranges than the buffer of one kilobyte holds; its next call is told
so before the stop of the first one succeeds. -/
theorem stop_success_reported_sample : ∃ s s₂ : System .bits64 Bool Unit,
    step (boot true true 1 sparseCache) (.start false ⟨0, 0⟩ { order := [()] }) = some s ∧
    run step s (touchAll ++ [.start true ⟨0, 0⟩ { order := [()] },
      .continueTrace true ⟨0, 0⟩ { order := [()] }]) = some s₂ ∧
    s₂.core.trace.dropped ≠ [] ∧
    (s₂.core.trace.dropped = [] ∨ OverflowReported (boot true true 1 sparseCache)
      (.start false ⟨0, 0⟩ { order := [()] } :: (touchAll ++ [.start true ⟨0, 0⟩ { order := [()] },
        .continueTrace true ⟨0, 0⟩ { order := [()] }])) s₂) := by
  refine ⟨_, _, rfl, rfl, by decide +kernel, ?_⟩
  have hpre : run step (boot true true 1 sparseCache : System .bits64 Bool Unit) [] = some _ := rfl
  have hstart : step (boot true true 1 sparseCache : System .bits64 Bool Unit)
      (.start false ⟨0, 0⟩ { order := [()] }) = some _ := rfl
  have hquiet : ∀ marker plan, Event.stop false marker plan ∉
      touchAll ++ [.start true ⟨0, 0⟩ { order := [()] }, .continueTrace true ⟨0, 0⟩ { order := [()] }] := by
    simp [touchAll]
  exact stop_success_reported hpre hstart (by decide +kernel : _ = Client.tracing ⟨0, 1⟩)
    (rfl : run step _ _ = some _) hquiet
    (by decide +kernel : callReturn _ (.stop false ⟨0, 0⟩ { order := [()] }) = some 0) (by decide)

set_option maxRecDepth 4000 in
/-- There the stop of the client that lost records succeeds. -/
theorem swallowed_overflow : ∃ s s₁ s₂ : System .bits64 Bool Unit,
    step (boot true true 1 sparseCache) (.start false ⟨0, 0⟩ { order := [()] }) = some s ∧
    s.clients false = .tracing ⟨0, 1⟩ ∧
    run step s (touchAll ++ [.start true ⟨0, 0⟩ { order := [()] }]) = some s₁ ∧
    callReturn s₁ (.continueTrace true ⟨0, 0⟩ { order := [()] }) = some (-ENOSPC) ∧
    step s₁ (.continueTrace true ⟨0, 0⟩ { order := [()] }) = some s₂ ∧
    callReturn s₂ (.stop false ⟨0, 0⟩ { order := [()] }) = some 0 ∧
    s₂.core.trace.dropped ≠ s.core.trace.dropped := by
  refine ⟨_, _, _, rfl, by decide +kernel, rfl, by decide +kernel, rfl, by decide +kernel,
    by decide +kernel⟩

end Prefetch.Core

/-
# Prefetch.Core.Tracers — what `tracers_count` counts

A start that succeeds adds to `tracers_count`, and a stop takes away again in three places: in the
disabled module, when `walk_pages` reports an overflow, and behind its walk. The exit `walk_pages` takes
when there is no memory for the walk session is not one of them: `tracersExact_iff`. A stop that takes
it leaves its client counted for good, and every later start finds a tracer that is not there
(`stop_without_session_leaks`).
-/
import Prefetch.Core.Clients

namespace Prefetch.Core

open Function Runs

variable {M : Machine} {κ ι : Type*} [DecidableEq ι]

/-- `tracers_count` is the number of clients whose start succeeded and that have not called stop. -/
def TracersExact [Fintype κ] (s : System M κ ι) : Prop :=
  s.core.trace.tracersCount = tally Client.isTracing s.clients

/-- A stop in the enabled module has memory for its walk session, unless an overflow is due to be
reported, which comes first. -/
def StopCounted (s : System M κ ι) : Event M κ ι → Prop
  | .stop _ _ plan => s.core.enabled = true →
      plan.session = true ∨ s.core.trace.overflow = true ∧ s.core.trace.overflowReported = false
  | _ => True

/-- What a stop does to `tracers_count`, whatever it returns. -/
theorem prefetchStopTrace_tracers (plan : WalkPlan M ι) (marker : TraceMarker)
    (core : CoreState M ι) :
    (prefetchStopTrace plan marker core).core.trace.tracersCount =
      if core.enabled = true → plan.session = true ∨
          core.trace.overflow = true ∧ core.trace.overflowReported = false
      then core.trace.tracersCount - 1 else core.trace.tracersCount := by
  unfold prefetchStopTrace
  by_cases henabled : core.enabled = true
  · rw [if_neg (not_not_intro henabled)]
    unfold walkPages
    by_cases hover : core.trace.overflow = true ∧ core.trace.overflowReported = false
    · rw [if_pos (by simpa using hover), if_pos (fun _ => .inr hover)]
      rfl
    -- past the overflow check only the session decides
    rw [if_neg (by simpa using hover)]
    by_cases hsession : plan.session = true
    · rw [if_neg (not_not_intro hsession), if_pos (fun _ => .inl hsession)]
      have hwalk := (walkInodes_effect plan core).tracersCount
      show (walkInodes plan core).trace.tracersCount + -1 = _
      omega
    · rw [if_pos hsession, if_neg]
      intro hcounted
      exact (hcounted henabled).elim hsession hover
  · rw [if_pos henabled, if_pos (fun h => absurd h henabled)]
    rfl

variable [DecidableEq κ] [Fintype κ] {s s' t : System M κ ι} {e : Event M κ ι}

/-- A stop moves the count with the number of tracing clients, or leaves it behind by one. -/
theorem step_stop_tracers {c : κ} {marker : TraceMarker} {plan : WalkPlan M ι}
    (hexact : TracersExact s) (h : step s (.stop c marker plan) = some s') :
    TracersExact s' ↔ StopCounted s (.stop c marker plan) := by
  simp only [step] at h
  split at h
  · next startMarker htracing =>
    cases h
    have hcount := prefetchStopTrace_tracers plan marker s.core
    unfold TracersExact at *
    dsimp only
    rw [hcount, tally_update, htracing, hexact]
    simp only [Client.isTracing, if_true, Bool.false_eq_true, if_false]
    split
    · next hcounted => exact iff_of_true (by omega) hcounted
    · next hcounted => exact iff_of_false (by omega) hcounted
  · cases h

/-- **A step keeps the count exact if and only if it is not a stop without a session.** -/
theorem step_tracers (hclearing : s.core.clearingInProgress = false) (hexact : TracersExact s)
    (h : step s e = some s') : TracersExact s' ↔ StopCounted s e := by
  cases e with
  | stop c marker plan => exact step_stop_tracers hexact h
  | start c marker plan =>
      apply iff_of_true ?_ trivial
      cases step_effect hclearing h with
      | started hidle heffect =>
          unfold TracersExact at *
          rw [heffect.tracersCount, hexact, tally_update, hidle]
          simp [Client.isTracing]
      | startFailed hidle heffect =>
          unfold TracersExact at *
          rw [heffect.tracersCount, hexact, Int.add_zero]
  | continueTrace c marker plan =>
      apply iff_of_true ?_ trivial
      cases step_effect hclearing h with
      | continued heffect =>
          unfold TracersExact at *
          rw [heffect.tracersCount, hexact, Int.add_zero]
  | release c memory =>
      apply iff_of_true ?_ trivial
      cases step_effect hclearing h with
      | released hstopped =>
          obtain ⟨-, -, htracers, -⟩ := prefetchReleaseTrace_frame memory s.core
          unfold TracersExact at *
          rw [htracers, hexact, tally_update, hstopped]
          simp [Client.isTracing]
  | env e =>
      apply iff_of_true ?_ trivial
      cases step_effect hclearing h with
      | env henv =>
          obtain ⟨-, hcount, -⟩ := envStep_frame henv
          unfold TracersExact at *
          rw [hcount.tracersCount, hexact]

/-- **`tracers_count` is the number of clients tracing in every state of a run, if and only if no stop
in the enabled module, with no overflow to report, lacks memory for its walk session.** -/
theorem tracersExact_iff {memory enabled : Bool} {traceSizeKb : BitVec 32}
    {cache : ι → AddressSpace M} {es : List (Event M κ ι)}
    (hrun : run step (boot memory enabled traceSizeKb cache) es = some t) :
    Throughout step TracersExact (boot memory enabled traceSizeKb cache : System M κ ι) es ↔
      StepsMeet step StopCounted (boot memory enabled traceSizeKb cache : System M κ ι) es := by
  have hboot : TracersExact (boot memory enabled traceSizeKb cache : System M κ ι) := by
    obtain ⟨-, htracers, -⟩ := clearTrace_frame traceSizeKb memory ({} : PrefetchTrace M)
    unfold TracersExact
    rw [tally_eq_zero (fun _ => rfl)]
    exact htracers
  apply throughout_iff_stepsMeet (I := fun s => Inv s ∧ TracersExact s) (fun _ h => h.2) ?_ ?_ hrun
    ⟨inv_boot memory enabled traceSizeKb cache, hboot⟩
  · rintro s e s' - hcounted ⟨hinv, hexact⟩ hstep
    exact ⟨step_inv hinv hstep, (step_tracers hinv.clearing hexact hstep).2 hcounted⟩
  · rintro s e s' hcounted ⟨hinv, hexact⟩ hstep hexact'
    exact hcounted ((step_tracers hinv.clearing hexact hstep).1 hexact')

/-- A stop in the module that has been disabled since the start. -/
theorem tracersExact_iff_sample :
    Throughout step TracersExact (boot true true 256 sampleCache : System .bits32 Bool Unit)
      [.start false ⟨0, 0⟩ { order := [()] }, .env (.control false),
        .stop false ⟨0, 0⟩ { session := false, order := [()] }] := by
  refine (tracersExact_iff rfl).2 ?_
  refine (stepsMeet_cons rfl).2 ⟨trivial, (stepsMeet_cons rfl).2 ⟨trivial, ?_⟩⟩
  refine (stepsMeet_cons rfl).2 ⟨?_, stepsMeet_nil⟩
  intro henabled
  cases henabled

/-- A stop that gets no memory for its session: nobody is tracing, and one tracer is counted. -/
theorem stop_without_session_leaks :
    ∃ t, run step (boot true true 256 sampleCache : System .bits32 Bool Unit)
        [.start false ⟨0, 0⟩ { order := [()] },
          .stop false ⟨0, 0⟩ { session := false, order := [()] }] = some t ∧
      ¬ TracersExact t := by
  refine ⟨_, rfl, ?_⟩
  unfold TracersExact
  decide

end Prefetch.Core

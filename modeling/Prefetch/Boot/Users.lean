/-
# Prefetch.Boot.Users — who uses the trace

`users_balanced`: in every run of boot and application tracing `trace_users` is the number of boot traces
and tracing jobs under way, each user's starts and releases alternate, and only the release of the last
one clears the trace.

`Turn` says what a step does to the users, one lemma for each kind of step; count, holders and log then
follow by the rules for a shared resource.
-/
import Prefetch.Boot.Kernel
import Prefetch.Core.Clients

namespace Prefetch.Boot

open Function Runs Leases Prefetch.Core Prefetch.App

variable {M : Machine} {ι : Type*} [DecidableEq ι] {config : Config}

/-! ## §1 — what a step does to the users -/

/-- Boot tracing's stop has begun and the trace is not released yet. -/
def BootStage.stopping : BootStage → Bool
  | .stopped _ => true
  | .saved => true
  | _ => false

@[simp] theorem stopping_ready : BootStage.ready.stopping = false := rfl

@[simp] theorem stopping_stopped (marker : TraceMarker) :
    (BootStage.stopped marker).stopping = true := rfl

@[simp] theorem stopping_saved : BootStage.saved.stopping = true := rfl

/-- A tracing job of that number is in memory. -/
def JobHolds (jobs : ℕ → Option TraceJob) (started : ℕ) : Prop :=
  ∃ job traceJob, jobs job = some traceJob ∧ traceJob.work = .finishTracing ∧
    traceJob.started = started

/-- Whose successful start has not been released yet. -/
def Kernel.Holds (s : Kernel M ι config) : User → Prop
  | .boot => s.boot.bootTracingRunning = true ∨ s.bootStage.stopping = true
  | .job started => JobHolds s.app.jobs started

/-- The user an event releases the trace for. -/
def Kernel.releasedBy (s : Kernel M ι config) : KernelEvent M ι → Option User
  | .bootRelease _ => some .boot
  | .jobRelease job _ => (s.tracingJob job).map (fun traceJob => .job traceJob.started)
  | _ => none

/-- Jobs are numbered as they are started. -/
structure Numbered (jobs : ℕ → Option TraceJob) (jobsStarted : ℕ) : Prop where
  fresh : ∀ job traceJob, jobs job = some traceJob → traceJob.started < jobsStarted
  distinct : ∀ job job' traceJob traceJob', jobs job = some traceJob → jobs job' = some traceJob' →
    traceJob.started = traceJob'.started → job = job'

section Jobs

variable {jobs : ℕ → Option TraceJob} {jobsStarted job n : ℕ} {traceJob : TraceJob}

theorem Numbered.schedule (h : Numbered jobs jobsStarted) (hstarted : traceJob.started = jobsStarted) :
    Numbered (update jobs job (some traceJob)) (jobsStarted + 1) := by
  constructor
  · intro job₁ traceJob₁ hjob₁
    by_cases hne : job₁ = job
    · rw [hne, update_self, Option.some.injEq] at hjob₁
      subst hjob₁
      omega
    · rw [update_of_ne hne] at hjob₁
      exact Nat.lt_succ_of_lt (h.fresh _ _ hjob₁)
  · intro job₁ job₂ traceJob₁ traceJob₂ hjob₁ hjob₂ heq
    by_cases hne₁ : job₁ = job <;> by_cases hne₂ : job₂ = job
    · exact hne₁.trans hne₂.symm
    · rw [hne₁, update_self, Option.some.injEq] at hjob₁
      subst hjob₁
      rw [update_of_ne hne₂] at hjob₂
      have := h.fresh _ _ hjob₂
      omega
    · rw [hne₂, update_self, Option.some.injEq] at hjob₂
      subst hjob₂
      rw [update_of_ne hne₁] at hjob₁
      have := h.fresh _ _ hjob₁
      omega
    · rw [update_of_ne hne₁] at hjob₁
      rw [update_of_ne hne₂] at hjob₂
      exact h.distinct _ _ _ _ hjob₁ hjob₂ heq

theorem Numbered.finish (h : Numbered jobs jobsStarted) :
    Numbered (update jobs job none) jobsStarted := by
  have hkeep : ∀ job₁ traceJob₁, update jobs job none job₁ = some traceJob₁ →
      jobs job₁ = some traceJob₁ := by
    intro job₁ traceJob₁ hjob₁
    by_cases hne : job₁ = job
    · rw [hne, update_self] at hjob₁
      cases hjob₁
    · rwa [update_of_ne hne] at hjob₁
  constructor
  · intro job₁ traceJob₁ hjob₁
    exact h.fresh _ _ (hkeep _ _ hjob₁)
  · intro job₁ job₂ traceJob₁ traceJob₂ hjob₁ hjob₂
    exact h.distinct _ _ _ _ (hkeep _ _ hjob₁) (hkeep _ _ hjob₂)

/-- A job comes into memory. -/
theorem jobHolds_schedule (hfree : jobs job = none) :
    JobHolds (update jobs job (some traceJob)) n ↔
      (traceJob.work = .finishTracing ∧ n = traceJob.started) ∨ JobHolds jobs n := by
  constructor
  · rintro ⟨job₁, traceJob₁, hjob₁, hwork, rfl⟩
    by_cases hne : job₁ = job
    · rw [hne, update_self, Option.some.injEq] at hjob₁
      subst hjob₁
      exact .inl ⟨hwork, rfl⟩
    · rw [update_of_ne hne] at hjob₁
      exact .inr ⟨job₁, traceJob₁, hjob₁, hwork, rfl⟩
  · rintro (⟨hwork, rfl⟩ | ⟨job₁, traceJob₁, hjob₁, hwork, rfl⟩)
    · exact ⟨job, traceJob, update_self _ _ _, hwork, rfl⟩
    · refine ⟨job₁, traceJob₁, ?_, hwork, rfl⟩
      rw [update_of_ne]
      · exact hjob₁
      · rintro rfl
        rw [hfree] at hjob₁
        cases hjob₁

/-- A job leaves memory. -/
theorem jobHolds_finish (h : Numbered jobs jobsStarted) (hjob : jobs job = some traceJob) :
    JobHolds (update jobs job none) n ↔
      JobHolds jobs n ∧ ¬ (traceJob.work = .finishTracing ∧ n = traceJob.started) := by
  constructor
  · rintro ⟨job₁, traceJob₁, hjob₁, hwork, rfl⟩
    by_cases hne : job₁ = job
    · rw [hne, update_self] at hjob₁
      cases hjob₁
    · rw [update_of_ne hne] at hjob₁
      refine ⟨⟨job₁, traceJob₁, hjob₁, hwork, rfl⟩, ?_⟩
      rintro ⟨-, heq⟩
      exact hne (h.distinct _ _ _ _ hjob₁ hjob heq)
  · rintro ⟨⟨job₁, traceJob₁, hjob₁, hwork, rfl⟩, hother⟩
    refine ⟨job₁, traceJob₁, ?_, hwork, rfl⟩
    rw [update_of_ne]
    · exact hjob₁
    · rintro rfl
      rw [hjob₁, Option.some.injEq] at hjob
      subst hjob
      exact hother ⟨hwork, rfl⟩

end Jobs

/-- A call that appends to the trace and moves `trace_users`. -/
structure Uses (core core' : CoreState M ι) (users : ℤ) : Prop where
  clearing : core'.clearingInProgress = core.clearingInProgress
  appends : ∃ new, Appends core.trace core'.trace new
  traceUsers : core'.trace.traceUsers = core.trace.traceUsers + users

omit [DecidableEq ι] in
theorem Uses.refl (core : CoreState M ι) : Uses core core 0 :=
  ⟨rfl, ⟨[], .refl _⟩, (Int.add_zero _).symm⟩

theorem uses_of_effect {recording : Prop} {visited : List ι} {a u : ℤ} {core core' : CoreState M ι}
    (h : Effect recording visited a u core core') : Uses core core' u :=
  ⟨h.clearing, h.appends, h.traceUsers⟩

/-- What a step did to the users: nothing, a successful start, or a release. -/
inductive Turn (s : Kernel M ι config) (e : KernelEvent M ι) (s' : Kernel M ι config) : Prop where
  | keep (hrelease : s.releasedBy e = none) (hlog : s'.log = s.log)
      (huses : Uses s.app.core s'.app.core 0) (hholds : ∀ u, s'.Holds u ↔ s.Holds u)
  | take (u : User) (hrelease : s.releasedBy e = none) (hlog : s'.log = s.log ++ [.take u])
      (huses : Uses s.app.core s'.app.core 1) (hfree : ¬ s.Holds u)
      (hholds : ∀ v, s'.Holds v ↔ v = u ∨ s.Holds v)
  | give (u : User) (memory : Bool) (hrelease : s.releasedBy e = some u)
      (hlog : s'.log = s.log ++ [.give u])
      (hcore : s'.app.core = prefetchReleaseTrace memory s.app.core)
      (hheld : s.Holds u) (hholds : ∀ v, s'.Holds v ↔ s.Holds v ∧ v ≠ u)

/-- A stage goes with whether boot tracing runs. -/
structure StageFits (stage : BootStage) (running : Bool) : Prop where
  continued : ∀ marker phaseName, stage = .continued marker phaseName → running = true
  stopping : stage.stopping = true → running = false

/-- What holds in every state reached. -/
structure KernelInv (s : Kernel M ι config) : Prop where
  clearing : s.app.core.clearingInProgress = false
  stage : StageFits s.bootStage s.boot.bootTracingRunning
  numbered : Numbered s.app.jobs s.app.jobsStarted
  balanced : Balanced s.Holds s.app.core.trace.traceUsers s.log

/-- What the first call of a phase start does. -/
theorem startPhaseCall_cases {plan : WalkPlan M ι} {marker : TraceMarker} {phaseName : String}
    {boot : BootState M} {core : CoreState M ι} {r : BootCall M ι}
    (hclearing : core.clearingInProgress = false)
    (hr : startPhaseCall plan marker phaseName boot core = r) :
    StageFits r.stage r.boot.bootTracingRunning ∧ r.stage.stopping = false ∧
      (r.boot.bootTracingRunning = boot.bootTracingRunning ∧ Uses core r.core 0 ∧
          ¬ (boot.bootTracingRunning = false ∧ 0 ≤ r.ret) ∨
        boot.bootTracingRunning = false ∧ r.boot.bootTracingRunning = true ∧ 0 ≤ r.ret ∧
          Uses core r.core 1) := by
  subst hr
  unfold startPhaseCall
  dsimp only
  by_cases hrunning : boot.bootTracingRunning = true
  · rw [if_pos hrunning]
    rcases prefetchContinueTrace_effect hclearing (rfl : prefetchContinueTrace plan marker core = _)
      with ⟨hret, -, heffect⟩ | ⟨hret, -, heffect⟩
    · rw [if_pos hret]
      exact ⟨⟨nofun, nofun⟩, rfl, .inl ⟨rfl, uses_of_effect heffect, by simp [hrunning]⟩⟩
    · rw [if_neg (by omega)]
      exact ⟨⟨fun _ _ _ => hrunning, nofun⟩, rfl,
        .inl ⟨rfl, uses_of_effect heffect, by simp [hrunning]⟩⟩
  · rw [if_neg hrunning]
    rw [Bool.not_eq_true] at hrunning
    rcases prefetchStartTrace_effect hclearing
        (rfl : prefetchStartTrace plan boot.bootStartMarker core = _) with
      ⟨hret, -, heffect⟩ | ⟨hret, -, heffect⟩
    · rw [if_pos hret]
      exact ⟨⟨nofun, nofun⟩, rfl, .inl ⟨rfl, uses_of_effect heffect, fun h => absurd hret (not_lt.2 h.2)⟩⟩
    · rw [if_neg (by omega)]
      exact ⟨⟨nofun, nofun⟩, rfl, .inr ⟨hrunning, rfl, hret.ge, uses_of_effect heffect⟩⟩

/-- What the first call of a stop does. -/
theorem stopBootCall_cases {plan : WalkPlan M ι} {marker : TraceMarker} {boot : BootState M}
    {core : CoreState M ι} {r : BootCall M ι} (hclearing : core.clearingInProgress = false)
    (hr : stopBootCall plan marker boot core = r) :
    StageFits r.stage r.boot.bootTracingRunning ∧ Uses core r.core 0 ∧
      (r.boot.bootTracingRunning = true ∨ r.stage.stopping = true ↔
        boot.bootTracingRunning = true) := by
  subst hr
  unfold stopBootCall
  by_cases hrunning : boot.bootTracingRunning = true
  · rw [if_neg (not_not_intro hrunning)]
    have huses : Uses core (prefetchStopTrace plan marker core).core 0 := by
      rcases prefetchStopTrace_effect hclearing (rfl : prefetchStopTrace plan marker core = _) with
        ⟨-, -, d, -, heffect⟩ | ⟨-, -, heffect⟩
      · exact uses_of_effect heffect
      · exact uses_of_effect heffect
    exact ⟨⟨nofun, fun _ => rfl⟩, huses, iff_of_true (.inr rfl) hrunning⟩
  · rw [if_pos hrunning]
    refine ⟨⟨nofun, nofun⟩, .refl core, ?_⟩
    simp

variable {s s' : Kernel M ι config} {e : KernelEvent M ι}

omit [DecidableEq ι] in
/-- Nobody's hold has changed. -/
theorem holds_congr (hboot : s'.Holds .boot ↔ s.Holds .boot)
    (hjobs : ∀ n, JobHolds s'.app.jobs n ↔ JobHolds s.app.jobs n) (u : User) :
    s'.Holds u ↔ s.Holds u := by
  cases u with
  | boot => exact hboot
  | job n => exact hjobs n

/-- A phase start: the first one takes the trace. -/
theorem startPhase_turn (hinv : KernelInv s) {plan : WalkPlan M ι} {marker : TraceMarker}
    {phaseName : String} (h : kernelStep s (.startPhase plan marker phaseName) = some s') :
    Turn s (.startPhase plan marker phaseName) s' ∧
      StageFits s'.bootStage s'.boot.bootTracingRunning := by
  simp only [kernelStep] at h
  split at h
  · next hready =>
    cases h
    obtain ⟨hstage, hstopping, hcase⟩ := startPhaseCall_cases hinv.clearing
      (rfl : startPhaseCall plan marker phaseName s.boot s.app.core = _)
    refine ⟨?_, hstage⟩
    rcases hcase with ⟨hsame, huses, hlog⟩ | ⟨hidle, hrunning, hret, huses⟩
    -- the trace was held already, or the start failed
    · refine .keep rfl ?_ huses (holds_congr ?_ fun _ => Iff.rfl)
      · dsimp only
        rw [if_neg hlog, List.append_nil]
      · simp [Kernel.Holds, hsame, hstopping, hready]
    -- the first phase
    · refine .take .boot rfl ?_ huses ?_ ?_
      · dsimp only
        rw [if_pos ⟨hidle, hret⟩]
      · simp [Kernel.Holds, hidle, hready]
      · intro v
        cases v with
        | boot => simp [Kernel.Holds, hrunning]
        | job n => simp [Kernel.Holds]
  · cases h

/-- A stop holds on to the trace. -/
theorem stopBoot_turn (hinv : KernelInv s) {plan : WalkPlan M ι} {marker : TraceMarker}
    (h : kernelStep s (.stopBoot plan marker) = some s') :
    Turn s (.stopBoot plan marker) s' ∧ StageFits s'.bootStage s'.boot.bootTracingRunning := by
  simp only [kernelStep] at h
  split at h
  · next hready =>
    cases h
    obtain ⟨hstage, huses, hholds⟩ := stopBootCall_cases hinv.clearing
      (rfl : stopBootCall plan marker s.boot s.app.core = _)
    refine ⟨.keep rfl rfl huses (holds_congr ?_ fun _ => Iff.rfl), hstage⟩
    show (_ ∨ _) ↔ (s.boot.bootTracingRunning = true ∨ s.bootStage.stopping = true)
    rw [hholds, hready]
    simp
  · cases h

/-- Saving in between changes nobody's hold. -/
theorem bootSave_turn (hinv : KernelInv s) (h : kernelStep s .bootSave = some s') :
    Turn s .bootSave s' ∧ StageFits s'.bootStage s'.boot.bootTracingRunning := by
  obtain ⟨r, hr, rfl⟩ := Option.map_eq_some_iff.1 h
  cases hstage : s.bootStage with
  | ready =>
      rw [hstage] at hr
      cases hr
  | continued marker phaseName =>
      rw [hstage] at hr
      cases hr
      -- the request of a phase: boot tracing goes on
      have hrunning := hinv.stage.continued _ _ hstage
      refine ⟨.keep rfl rfl (.refl _) (holds_congr ?_ fun _ => Iff.rfl), nofun, nofun⟩
      exact iff_of_true (.inl rfl) (.inl hrunning)
  | stopped marker =>
      rw [hstage] at hr
      cases hr
      -- the request of a stop: the hold lasts until the release
      have hidle := hinv.stage.stopping (by rw [hstage]; rfl)
      refine ⟨.keep rfl rfl (.refl _) (holds_congr ?_ fun _ => Iff.rfl), nofun, fun _ => hidle⟩
      exact iff_of_true (.inr rfl) (.inr (by rw [hstage]; rfl))
  | saved =>
      rw [hstage] at hr
      cases hr

/-- The end of a stop gives the trace back. -/
theorem bootRelease_turn (hinv : KernelInv s) {memory : Bool}
    (h : kernelStep s (.bootRelease memory) = some s') :
    Turn s (.bootRelease memory) s' ∧ StageFits s'.bootStage s'.boot.bootTracingRunning := by
  simp only [kernelStep] at h
  split at h
  · next hsaved =>
    cases h
    have hidle := hinv.stage.stopping (by rw [hsaved]; rfl)
    refine ⟨.give .boot memory rfl rfl rfl (.inr (by rw [hsaved]; rfl)) ?_, ?_⟩
    · intro v
      cases v with
      | boot => simp [Kernel.Holds, hidle]
      | job n => simp [Kernel.Holds]
    · constructor
      · intro marker phaseName hcontinued
        cases hcontinued
      · intro hstopping
        cases hstopping
  · cases h

omit [DecidableEq ι] in
theorem tracingJob_eq_some {job : ℕ} {traceJob : TraceJob} (h : s.tracingJob job = some traceJob) :
    s.app.jobs job = some traceJob ∧ traceJob.work = .finishTracing := by
  simpa [Kernel.tracingJob, Option.filter_eq_some_iff] using h

omit [DecidableEq ι] in
theorem doFinishMonitoring_core (s : AppState M ι config) (traceJob : TraceJob) (ticks : ℤ)
    (memory : Bool) : (doFinishMonitoring s traceJob ticks memory).core = s.core := by
  unfold doFinishMonitoring
  split
  · rfl
  split
  · split <;> rfl
  · rfl

omit [DecidableEq ι] in
theorem saveFragment_core (s : AppState M ι config) (traceJob : TraceJob) (finish : FinishPlan M ι)
    (endMarker : TraceMarker) : (saveFragment s traceJob finish endMarker).core = s.core := by
  unfold saveFragment
  split
  · split
    · rfl
    split <;> rfl
  · rfl

/-- A job's work on its way to the release. -/
theorem jobStop_turn (hinv : KernelInv s) {job : ℕ} {ticks : ℤ} {memory : Bool}
    {finish : FinishPlan M ι} (h : kernelStep s (.jobStop job ticks memory finish) = some s') :
    Turn s (.jobStop job ticks memory finish) s' ∧ SameJobs s.app s'.app ∧
      s'.boot = s.boot ∧ s'.bootStage = s.bootStage := by
  simp only [kernelStep] at h
  split at h
  · next traceJob hjob hstage =>
    cases h
    have hsame := doFinishMonitoring_same s.app traceJob ticks memory
    have hcore := doFinishMonitoring_core s.app traceJob ticks memory
    refine ⟨.keep rfl rfl ?_ (holds_congr Iff.rfl ?_), ⟨hsame.tracedPids, hsame.jobs,
      hsame.jobsStarted⟩, rfl, rfl⟩
    · show Uses s.app.core (prefetchStopTrace finish.plan finish.endMarker
        (doFinishMonitoring s.app traceJob ticks memory).core).core 0
      rw [hcore]
      rcases prefetchStopTrace_effect hinv.clearing
          (rfl : prefetchStopTrace finish.plan finish.endMarker s.app.core = _) with
        ⟨-, -, d, -, heffect⟩ | ⟨-, -, heffect⟩
      · exact uses_of_effect heffect
      · exact uses_of_effect heffect
    · intro n
      show JobHolds (doFinishMonitoring s.app traceJob ticks memory).jobs n ↔ _
      rw [hsame.jobs]
  · cases h

theorem jobCollect_turn {job : ℕ} {finish : FinishPlan M ι}
    (h : kernelStep s (.jobCollect job finish) = some s') :
    Turn s (.jobCollect job finish) s' ∧ SameJobs s.app s'.app ∧
      s'.boot = s.boot ∧ s'.bootStage = s.bootStage := by
  simp only [kernelStep] at h
  split at h
  · next traceJob endMarker hjob hstage =>
    cases h
    have hsame := saveFragment_same s.app traceJob finish endMarker
    have hcore := saveFragment_core s.app traceJob finish endMarker
    refine ⟨.keep rfl rfl ?_ (holds_congr Iff.rfl ?_), hsame, rfl, rfl⟩
    · show Uses s.app.core (saveFragment s.app traceJob finish endMarker).core 0
      rw [hcore]
      exact .refl _
    · intro n
      show JobHolds (saveFragment s.app traceJob finish endMarker).jobs n ↔ _
      rw [hsame.jobs]
  · cases h

/-- The end of a job's work gives the trace back and frees the job. -/
theorem jobRelease_turn (hinv : KernelInv s) {job : ℕ} {memory : Bool}
    (h : kernelStep s (.jobRelease job memory) = some s') :
    Turn s (.jobRelease job memory) s' ∧ Numbered s'.app.jobs s'.app.jobsStarted ∧
      s'.boot = s.boot ∧ s'.bootStage = s.bootStage := by
  simp only [kernelStep] at h
  split at h
  · next traceJob hjob hstage =>
    cases h
    obtain ⟨hmem, hwork⟩ := tracingJob_eq_some hjob
    refine ⟨.give (.job traceJob.started) memory (by simp [Kernel.releasedBy, hjob]) rfl rfl
      ⟨job, traceJob, hmem, hwork, rfl⟩ ?_, hinv.numbered.finish, rfl, rfl⟩
    intro v
    cases v with
    | boot => simp [Kernel.Holds]
    | job n =>
        show JobHolds (update s.app.jobs job none) n ↔ JobHolds s.app.jobs n ∧ _
        rw [jobHolds_finish hinv.numbered hmem]
        simp [hwork]
  · cases h

/-- An exec that does not get to its start makes none. -/
theorem appStarts_none {s : AppState M ι config} {filename : String} {pid job : ℕ}
    {memory : StartMemory} {plan : WalkPlan M ι}
    (h : ¬ (s.enabled ∧ ¬ filenameOnList filename s.prefetchAppsBlacklist ∧
      filenameOnList filename s.prefetchAppsList ∧ memory.job ∧ memory.filename)) :
    appStarts s (.exec filename pid job memory plan) = [] := by
  simp only [appStarts, startTracingRet, if_neg h]

/-- An exec starts tracing a job, starts monitoring one, or starts nothing. -/
theorem prefetchExecHook_cases {s : AppState M ι config} (filename : String) (pid job : ℕ)
    (memory : StartMemory) (plan : WalkPlan M ι) (hclearing : s.core.clearingInProgress = false) :
    (∃ marker core', appStarts s (.exec filename pid job memory plan) =
        [.take (.job s.jobsStarted)] ∧ Uses s.core core' 1 ∧
      prefetchExecHook s filename pid job memory plan = scheduleJob { s with core := core' } job
        memory.entry ⟨.finishTracing, filename, pid, marker, s.jobsStarted⟩) ∨
    appStarts s (.exec filename pid job memory plan) = [] ∧
      ((∃ core', Uses s.core core' 0 ∧
          prefetchExecHook s filename pid job memory plan = { s with core := core' }) ∨
        prefetchExecHook s filename pid job memory plan = scheduleJob s job memory.entry
          ⟨.finishMonitoring, filename, pid, ⟨0, 0⟩, s.jobsStarted⟩) := by
  by_cases hstarts : s.enabled ∧ ¬ filenameOnList filename s.prefetchAppsBlacklist ∧
      filenameOnList filename s.prefetchAppsList ∧ memory.job ∧ memory.filename
  · obtain ⟨henabled, hblack, hlist, hjob, hname⟩ := id hstarts
    have hhook : prefetchExecHook s filename pid job memory plan =
        startTracingJob s filename pid job memory plan := by
      simp only [prefetchExecHook, henabled, not_true, if_false, if_neg hblack, if_pos hlist]
    rw [hhook]
    unfold startTracingJob
    rw [if_neg (not_not_intro hjob), if_neg (not_not_intro hname)]
    simp only [appStarts, startTracingRet, if_pos hstarts]
    rcases prefetchStartTrace_effect hclearing
        (rfl : prefetchStartTrace plan ⟨0, 0⟩ s.core = _) with
      ⟨hret, -, heffect⟩ | ⟨hret, -, heffect⟩
    -- `prefetch_start_trace` failed: no job is scheduled
    · right
      refine ⟨if_neg (by omega), .inl ⟨_, uses_of_effect heffect, if_pos hret⟩⟩
    · left
      exact ⟨_, _, if_pos (by omega), uses_of_effect heffect, if_neg (by omega)⟩
  -- the tests on the way to the start, one after the other
  · refine .inr ⟨appStarts_none hstarts, ?_⟩
    unfold prefetchExecHook
    split
    · exact .inl ⟨s.core, .refl _, rfl⟩
    split
    · exact .inl ⟨s.core, .refl _, rfl⟩
    split
    · next henabled hblack hlist =>
      unfold startTracingJob
      split
      · exact .inl ⟨s.core, .refl _, rfl⟩
      split
      · exact .inl ⟨s.core, .refl _, rfl⟩
      next hjob hname =>
      exact absurd ⟨not_not.1 henabled, hblack, hlist, not_not.1 hjob, not_not.1 hname⟩ hstarts
    · unfold startMonitoringJob
      split
      · exact .inl ⟨s.core, .refl _, rfl⟩
      split
      · exact .inl ⟨s.core, .refl _, rfl⟩
      · exact .inr rfl

/-- An exec: the start of a tracing job holds on to the trace. -/
theorem exec_turn (hinv : KernelInv s) {filename : String} {pid job : ℕ} {memory : StartMemory}
    {plan : WalkPlan M ι} {app : AppState M ι config}
    (h : App.step s.app (.exec filename pid job memory plan) = some app) :
    Turn s (.app (.exec filename pid job memory plan))
        { s with app := app, log := s.log ++ appStarts s.app (.exec filename pid job memory plan) } ∧
      Numbered app.jobs app.jobsStarted := by
  simp only [App.step] at h
  split at h
  · cases h
  next hfree =>
  cases h
  have hnone : s.app.jobs job = none := by simpa using hfree
  rcases prefetchExecHook_cases filename pid job memory plan hinv.clearing with
    ⟨marker, core', hlog, huses, heq⟩ | ⟨hlog, ⟨core', huses, heq⟩ | heq⟩
  · rw [heq]
    have hjobs : ∀ n, JobHolds (update s.app.jobs job (some (⟨.finishTracing, filename, pid,
        marker, s.app.jobsStarted⟩ : TraceJob))) n ↔ n = s.app.jobsStarted ∨
        JobHolds s.app.jobs n := by
      intro n
      rw [jobHolds_schedule hnone]
      simp
    refine ⟨.take (.job s.app.jobsStarted) rfl (by rw [hlog]) huses ?_ ?_,
      hinv.numbered.schedule rfl⟩
    · -- the number is fresh
      rintro ⟨job', traceJob, hjob', -, hstarted⟩
      exact (hinv.numbered.fresh _ _ hjob').ne hstarted
    · intro v
      cases v with
      | boot => simp [Kernel.Holds]
      | job n =>
          rw [User.job.injEq]
          exact hjobs n
  · rw [heq]
    exact ⟨.keep rfl (by rw [hlog, List.append_nil]) huses
      (holds_congr Iff.rfl fun _ => Iff.rfl), hinv.numbered⟩
  · rw [heq]
    refine ⟨.keep rfl (by rw [hlog, List.append_nil]) (.refl _) (holds_congr Iff.rfl ?_),
      hinv.numbered.schedule rfl⟩
    intro n
    show JobHolds (update s.app.jobs job (some _)) n ↔ _
    rw [jobHolds_schedule hnone]
    simp

/-- An exit judges the job of the process and changes nobody's hold. -/
theorem exit_turn (hinv : KernelInv s) {pid : ℕ} {ticks : ℤ} {memory : Bool}
    {app : AppState M ι config} (h : App.step s.app (.exit pid ticks memory) = some app) :
    Turn s (.app (.exit pid ticks memory))
        { s with app := app, log := s.log ++ appStarts s.app (.exit pid ticks memory) } ∧
      Numbered app.jobs app.jobsStarted := by
  have hkeep : app.core = s.app.core ∧ SameJobs s.app app := by
    simp only [App.step, prefetchExitHook] at h
    split at h
    · cases h
      exact ⟨rfl, .refl _⟩
    split at h
    · cases h
      exact ⟨rfl, .refl _⟩
    · obtain ⟨traceJob, -, rfl⟩ := Option.map_eq_some_iff.1 h
      exact ⟨doFinishMonitoring_core _ _ _ _, doFinishMonitoring_same _ _ _ _⟩
  obtain ⟨hcore, hsame⟩ := hkeep
  refine ⟨.keep rfl (List.append_nil _) ?_ (holds_congr Iff.rfl ?_), ?_⟩
  · show Uses s.app.core app.core 0
    rw [hcore]
    exact .refl _
  · intro n
    show JobHolds app.jobs n ↔ _
    rw [hsame.jobs]
  · rw [hsame.jobs, hsame.jobsStarted]
    exact hinv.numbered

/-- The work of a monitoring job changes nobody's hold; that of a tracing job is not taken here. -/
theorem expire_turn (hinv : KernelInv s) {job : ℕ} {ticks : ℤ} {memory : Bool}
    {finish : FinishPlan M ι} {app : AppState M ι config}
    (hsplits : ¬ s.splits (.expire job ticks memory finish))
    (h : App.step s.app (.expire job ticks memory finish) = some app) :
    Turn s (.app (.expire job ticks memory finish))
        { s with app := app, log := s.log ++ appStarts s.app (.expire job ticks memory finish) } ∧
      Numbered app.jobs app.jobsStarted := by
  simp only [App.step] at h
  split at h
  · cases h
  next traceJob hjob =>
  split at h
  · next hwork =>
    cases h
    have hsame := doFinishMonitoring_same s.app traceJob ticks memory
    have hjobs : (finishMonitoring s.app job traceJob ticks memory).jobs =
        update s.app.jobs job none := by
      show update (doFinishMonitoring s.app traceJob ticks memory).jobs job none = _
      rw [hsame.jobs]
    refine ⟨.keep rfl (List.append_nil _) ?_ (holds_congr Iff.rfl ?_), ?_⟩
    · show Uses s.app.core (doFinishMonitoring s.app traceJob ticks memory).core 0
      rw [doFinishMonitoring_core]
      exact .refl _
    · intro n
      show JobHolds (finishMonitoring s.app job traceJob ticks memory).jobs n ↔ _
      rw [hjobs, jobHolds_finish hinv.numbered hjob]
      simp [hwork]
    · show Numbered (finishMonitoring s.app job traceJob ticks memory).jobs
        (doFinishMonitoring s.app traceJob ticks memory).jobsStarted
      rw [hjobs, hsame.jobsStarted]
      exact hinv.numbered.finish
  · next hwork =>
    exact absurd (by simp [Kernel.splits, Kernel.tracingJob, hjob, hwork]) hsplits

/-- The other events of the application module. -/
theorem app_turn (hinv : KernelInv s) {e : AppEvent M ι} (h : kernelStep s (.app e) = some s') :
    Turn s (.app e) s' ∧ Numbered s'.app.jobs s'.app.jobsStarted ∧
      s'.boot = s.boot ∧ s'.bootStage = s.bootStage := by
  simp only [kernelStep] at h
  split at h
  · cases h
  next hsplits =>
  obtain ⟨app, happ, rfl⟩ := Option.map_eq_some_iff.1 h
  cases e with
  | exec filename pid job memory plan =>
      obtain ⟨hturn, hnumbered⟩ := exec_turn hinv happ
      exact ⟨hturn, hnumbered, rfl, rfl⟩
  | exit pid ticks memory =>
      obtain ⟨hturn, hnumbered⟩ := exit_turn hinv happ
      exact ⟨hturn, hnumbered, rfl, rfl⟩
  | expire job ticks memory finish =>
      obtain ⟨hturn, hnumbered⟩ := expire_turn hinv hsplits happ
      exact ⟨hturn, hnumbered, rfl, rfl⟩
  | control enabled =>
      cases happ
      exact ⟨.keep rfl (List.append_nil _) (.refl _) (holds_congr Iff.rfl fun _ => Iff.rfl),
        hinv.numbered, rfl, rfl⟩
  | env e =>
      obtain ⟨core', henv, rfl⟩ := Option.map_eq_some_iff.1 happ
      obtain ⟨hclearing, hcounters, happends⟩ := envStep_frame henv
      refine ⟨.keep rfl (List.append_nil _) ⟨hclearing, happends, ?_⟩
        (holds_congr Iff.rfl fun _ => Iff.rfl), hinv.numbered, rfl, rfl⟩
      rw [Int.add_zero]
      exact hcounters.traceUsers

/-! ## §2 — over whole runs -/

/-- **Every step is a turn of at most one user**, and keeps the stages and the numbers in order. -/
theorem step_turn (hinv : KernelInv s) (h : kernelStep s e = some s') :
    Turn s e s' ∧ StageFits s'.bootStage s'.boot.bootTracingRunning ∧
      Numbered s'.app.jobs s'.app.jobsStarted := by
  have hkeep : s'.boot = s.boot → s'.bootStage = s.bootStage →
      StageFits s'.bootStage s'.boot.bootTracingRunning := by
    intro hboot hstage
    rw [hboot, hstage]
    exact hinv.stage
  have hsame : SameJobs s.app s'.app → Numbered s'.app.jobs s'.app.jobsStarted := by
    intro hsame
    rw [hsame.jobs, hsame.jobsStarted]
    exact hinv.numbered
  -- a boot command leaves the jobs alone, a job's work the boot trace
  cases e with
  | startPhase plan marker phaseName =>
      obtain ⟨hturn, hstage⟩ := startPhase_turn hinv h
      refine ⟨hturn, hstage, hsame ?_⟩
      simp only [kernelStep] at h
      split at h <;> cases h
      exact ⟨rfl, rfl, rfl⟩
  | stopBoot plan marker =>
      obtain ⟨hturn, hstage⟩ := stopBoot_turn hinv h
      refine ⟨hturn, hstage, hsame ?_⟩
      simp only [kernelStep] at h
      split at h <;> cases h
      exact ⟨rfl, rfl, rfl⟩
  | bootSave =>
      obtain ⟨hturn, hstage⟩ := bootSave_turn hinv h
      refine ⟨hturn, hstage, hsame ?_⟩
      obtain ⟨r, -, rfl⟩ := Option.map_eq_some_iff.1 h
      exact .refl _
  | bootRelease memory =>
      obtain ⟨hturn, hstage⟩ := bootRelease_turn hinv h
      refine ⟨hturn, hstage, hsame ?_⟩
      simp only [kernelStep] at h
      split at h <;> cases h
      exact ⟨rfl, rfl, rfl⟩
  | jobStop job ticks memory finish =>
      obtain ⟨hturn, hjobs, hboot, hstage⟩ := jobStop_turn hinv h
      exact ⟨hturn, hkeep hboot hstage, hsame hjobs⟩
  | jobCollect job finish =>
      obtain ⟨hturn, hjobs, hboot, hstage⟩ := jobCollect_turn h
      exact ⟨hturn, hkeep hboot hstage, hsame hjobs⟩
  | jobRelease job memory =>
      obtain ⟨hturn, hnumbered, hboot, hstage⟩ := jobRelease_turn hinv h
      exact ⟨hturn, hkeep hboot hstage, hnumbered⟩
  | app e =>
      obtain ⟨hturn, hnumbered, hboot, hstage⟩ := app_turn hinv h
      exact ⟨hturn, hkeep hboot hstage, hnumbered⟩

/-- **Every step keeps the invariant.** -/
theorem step_kernelInv (hinv : KernelInv s) (h : kernelStep s e = some s') : KernelInv s' := by
  obtain ⟨hturn, hstage, hnumbered⟩ := step_turn hinv h
  cases hturn with
  | keep hrelease hlog huses hholds =>
      refine ⟨huses.clearing.trans hinv.clearing, hstage, hnumbered, ?_⟩
      rw [hlog, huses.traceUsers, Int.add_zero]
      exact hinv.balanced.congr hholds
  | take u hrelease hlog huses hfree hholds =>
      refine ⟨huses.clearing.trans hinv.clearing, hstage, hnumbered, ?_⟩
      rw [hlog, huses.traceUsers]
      exact hinv.balanced.take hfree hholds
  | give u memory hrelease hlog hcore hheld hholds =>
      obtain ⟨hclearing, -, -, husers, -⟩ := prefetchReleaseTrace_frame memory s.app.core
      refine ⟨?_, hstage, hnumbered, ?_⟩
      · rw [hcore, hclearing]
        exact hinv.clearing
      · rw [hlog, hcore, husers]
        exact hinv.balanced.give hheld hholds

omit [DecidableEq ι] in
theorem kernelInv_load (config : Config) (memory coreEnabled appEnabled : Bool)
    (traceSizeKb : BitVec 32) (cache : ι → AddressSpace M) :
    KernelInv (loadKernel config memory coreEnabled appEnabled traceSizeKb cache) := by
  obtain ⟨-, -, husers⟩ := clearTrace_frame traceSizeKb memory ({} : PrefetchTrace M)
  refine ⟨rfl, ⟨nofun, nofun⟩, ⟨nofun, nofun⟩, ?_⟩
  have hzero : (loadKernel config memory coreEnabled appEnabled traceSizeKb cache).app.core.trace.traceUsers
      = 0 := husers
  rw [hzero]
  -- nobody holds the trace after loading
  apply balanced_init
  rintro (_ | n)
  · simp [Kernel.Holds, loadKernel]
  · rintro ⟨job, traceJob, hjob, -⟩
    cases hjob

/-- Boot traces under way: none or one. -/
def Kernel.bootTraces (s : Kernel M ι config) : ℕ :=
  if s.boot.bootTracingRunning ∨ s.bootStage.stopping then 1 else 0

/-- The tracing jobs started and not finished, by their addresses. -/
def Kernel.tracingJobs (s : Kernel M ι config) : Set ℕ :=
  {job | (s.tracingJob job).isSome}

omit [DecidableEq ι] in
/-- Counting the users by kind. -/
theorem ncard_holds (hnumbered : Numbered s.app.jobs s.app.jobsStarted)
    (hfinite : {u | s.Holds u}.Finite) :
    {u | s.Holds u}.ncard = s.bootTraces + s.tracingJobs.ncard := by
  let number (job : ℕ) : User := .job (((s.app.jobs job).map TraceJob.started).getD 0)
  let bootHold : Set User := if s.boot.bootTracingRunning ∨ s.bootStage.stopping then {.boot} else ∅
  have hmem : ∀ {job traceJob}, s.tracingJob job = some traceJob →
      number job = .job traceJob.started := by
    intro job traceJob hjob
    simp [number, (tracingJob_eq_some hjob).1]
  -- two jobs under way have different numbers
  have hinj : Set.InjOn number s.tracingJobs := by
    intro job hjob job' hjob' heq
    obtain ⟨traceJob, htraceJob⟩ := Option.isSome_iff_exists.1 hjob
    obtain ⟨traceJob', htraceJob'⟩ := Option.isSome_iff_exists.1 hjob'
    rw [hmem htraceJob, hmem htraceJob', User.job.injEq] at heq
    exact hnumbered.distinct _ _ _ _ (tracingJob_eq_some htraceJob).1
      (tracingJob_eq_some htraceJob').1 heq
  have hsplit : {u | s.Holds u} = bootHold ∪ number '' s.tracingJobs := by
    ext u
    cases u with
    | boot =>
        have hnot : User.boot ∉ number '' s.tracingJobs := by
          rintro ⟨job, -, hjob⟩
          cases hjob
        simp only [Set.mem_ofPred_eq, Set.mem_union, hnot, or_false, Kernel.Holds, bootHold]
        split <;> simp_all
    | job n =>
        have hnot : User.job n ∉ bootHold := by
          simp only [bootHold]
          split <;> simp
        simp only [Set.mem_ofPred_eq, Set.mem_union, hnot, false_or]
        constructor
        · rintro ⟨job, traceJob, hjob, hwork, rfl⟩
          have htracing : s.tracingJob job = some traceJob := by
            simp [Kernel.tracingJob, hjob, hwork]
          exact ⟨job, Option.isSome_iff_exists.2 ⟨_, htracing⟩, hmem htracing⟩
        · rintro ⟨job, hjob, hn⟩
          obtain ⟨traceJob, htracing⟩ := Option.isSome_iff_exists.1 hjob
          rw [hmem htracing, User.job.injEq] at hn
          obtain ⟨hjobs, hwork⟩ := tracingJob_eq_some htracing
          exact ⟨job, traceJob, hjobs, hwork, hn⟩
  have hdisjoint : Disjoint bootHold (number '' s.tracingJobs) := by
    rw [Set.disjoint_right]
    rintro u ⟨job, -, rfl⟩
    simp only [bootHold, number]
    split <;> simp
  have hboot : bootHold.ncard = s.bootTraces := by
    simp only [bootHold, Kernel.bootTraces]
    split <;> simp
  rw [hsplit] at hfinite ⊢
  rw [Set.ncard_union_eq hdisjoint (hfinite.subset Set.subset_union_left)
    (hfinite.subset Set.subset_union_right), hinj.ncard_image, hboot]

/-- **In every run `trace_users` counts the boot traces and the tracing jobs under way.** Every start that
succeeded is matched by one release, or its user still holds the trace; the releases are made for users
that hold it, and a release finds `trace_users` at one exactly if its user is the last. Nothing else
clears the trace: any other step appends to it at most. -/
theorem users_balanced {memory coreEnabled appEnabled : Bool} {traceSizeKb : BitVec 32}
    {cache : ι → AddressSpace M} {es : List (KernelEvent M ι)}
    (hrun : run kernelStep (loadKernel config memory coreEnabled appEnabled traceSizeKb cache) es =
      some s) :
    s.app.core.trace.traceUsers = (s.bootTraces + s.tracingJobs.ncard : ℕ) ∧
    0 ≤ s.app.core.trace.traceUsers ∧
    (∀ u, ∃ b, (b = true ↔ s.Holds u) ∧ holding u s.log = some b ∧
      s.log.count (.take u) = s.log.count (.give u) + if b then 1 else 0) ∧
    ∀ e s', kernelStep s e = some s' →
      (∀ u, s.releasedBy e = some u → s.Holds u ∧
        (∃ memory, s'.app.core = prefetchReleaseTrace memory s.app.core) ∧
        (s.app.core.trace.traceUsers = 1 ↔ ∀ v, s.Holds v ↔ v = u)) ∧
      (s.releasedBy e = none ∨ s.app.core.trace.traceUsers ≠ 1 →
        ∃ new, Appends s.app.core.trace s'.app.core.trace new) := by
  have hinv : KernelInv s := run_invariant (fun _ _ _ _ hi hstep => step_kernelInv hi hstep) hrun
    (kernelInv_load config memory coreEnabled appEnabled traceSizeKb cache)
  refine ⟨?_, hinv.balanced.count_nonneg, ?_, ?_⟩
  · rw [hinv.balanced.count_eq, ncard_holds hinv.numbered hinv.balanced.finite]
  · intro u
    obtain ⟨b, hb, hholds⟩ := hinv.balanced.turns u
    exact ⟨b, hholds, hb, count_of_holding hb⟩
  · intro e s' hstep
    obtain ⟨hturn, -, -⟩ := step_turn hinv hstep
    cases hturn with
    | keep hrelease hlog huses hholds =>
        exact ⟨fun u hu => by simp [hrelease] at hu, fun _ => huses.appends⟩
    | take u hrelease hlog huses hfree hholds =>
        exact ⟨fun u hu => by simp [hrelease] at hu, fun _ => huses.appends⟩
    | give u memory hrelease hlog hcore hheld hholds =>
        constructor
        · intro u' hu'
          rw [hrelease, Option.some.injEq] at hu'
          subst hu'
          exact ⟨hheld, ⟨memory, hcore⟩, hinv.balanced.count_eq_one_iff hheld⟩
        · rintro (hnone | hne)
          · simp [hrelease] at hnone
          · rw [hcore]
            exact ⟨[], prefetchReleaseTrace_held memory hne⟩

/-- A boot trace that is being stopped, and an application traced since it has shown enough IO. -/
def twoUsers : List (KernelEvent .bits32 Unit) :=
  [.startPhase { order := [()] } ⟨0, 0⟩ "boot",
    .app (.exec "/bin/ls" 7 1 {} { order := [()] }),
    .app (.expire 1 5 true { endMarker := ⟨0, 0⟩, plan := { order := [()] } }),
    .app (.exec "/bin/ls" 8 1 {} { order := [()] }),
    .stopBoot { order := [()] } ⟨0, 0⟩]

theorem users_balanced_sample : ∃ s : Kernel .bits32 Unit smallConfig,
    run kernelStep (loadKernel smallConfig true true true 256 sampleCache) twoUsers = some s ∧
    s.log = [.take .boot, .take (.job 1)] ∧
    s.app.core.trace.traceUsers = 2 ∧
    s.app.core.trace.traceUsers = (s.bootTraces + s.tracingJobs.ncard : ℕ) :=
  ⟨_, rfl, by decide, by decide, (users_balanced
    (rfl : run kernelStep (loadKernel smallConfig true true true 256 sampleCache) twoUsers =
      some _)).1⟩

end Prefetch.Boot

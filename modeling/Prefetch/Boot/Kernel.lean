/-
# Prefetch.Boot.Kernel — boot and application tracing over one core

Each call to the core is a step of its own, so a boot command and the work of a tracing job may stop
between their calls and let the other go on: `BootStage` and `FinishStage` say how far they have come.
`stopBoot_split`, `startPhase_split` and `finishTracing_split` put the steps together to the functions of
the two modules again.

`log` has no counterpart in C: it lists the calls to `prefetch_start_trace` that succeeded and the calls
to `prefetch_release_trace`, each with the user it was made for.
-/
import Prefetch.App.JobTable
import Prefetch.Boot.Boot
import Prefetch.Lib.Leases
import Prefetch.Lib.Runs

namespace Prefetch.Boot

open Function Runs Leases Prefetch.Core Prefetch.App

variable {M : Machine} {ι : Type*} [DecidableEq ι] {config : Config}

/-! ## §1 — commands call by call -/

/-- How far a boot command has come: behind `prefetch_continue_trace`, or in a stop behind
`prefetch_stop_trace` or the request to save. -/
inductive BootStage where
  | ready
  | continued (marker : TraceMarker) (phaseName : String)
  | stopped (marker : TraceMarker)
  | saved
  deriving DecidableEq, Repr

/-- A boot command's call, and how far it has come with it. -/
structure BootCall (M : Machine) (ι : Type*) extends BootResult M ι where
  stage : BootStage

/-- The first call of `prefetch_start_boot_tracing_phase`. -/
def startPhaseCall (plan : WalkPlan M ι) (marker : TraceMarker) (phaseName : String)
    (boot : BootState M) (core : CoreState M ι) : BootCall M ι :=
  if boot.bootTracingRunning then
    let r := prefetchContinueTrace plan marker core
    if r.ret < 0 then ⟨⟨r.ret, boot, r.core⟩, .ready⟩
    else ⟨⟨r.ret, boot, r.core⟩, .continued r.marker phaseName⟩
  else
    let r := prefetchStartTrace plan boot.bootStartMarker core
    let boot := { boot with bootStartMarker := r.marker }
    if r.ret < 0 then ⟨⟨r.ret, boot, r.core⟩, .ready⟩
    else ⟨⟨r.ret, enterPhase phaseName boot, r.core⟩, .ready⟩

/-- The first call of `prefetch_stop_boot_tracing`. -/
def stopBootCall (plan : WalkPlan M ι) (marker : TraceMarker) (boot : BootState M)
    (core : CoreState M ι) : BootCall M ι :=
  if ¬ boot.bootTracingRunning then ⟨⟨-EINVAL, boot, core⟩, .ready⟩
  else
    let r := prefetchStopTrace plan marker core
    ⟨⟨r.ret, { boot with bootTracingRunning := false }, r.core⟩, .stopped r.marker⟩

/-- Both commands read the trace to save it; what follows differs. -/
def saveCall (t : PrefetchTrace M) (boot : BootState M) : BootStage → Option (BootState M × BootStage)
  | .continued marker phaseName =>
      let boot := prefetchSaveBootTrace boot t boot.bootTracingPhase marker
      some (enterPhase phaseName { boot with bootStartMarker := marker }, .ready)
  | .stopped marker => some (prefetchSaveBootTrace boot t boot.bootTracingPhase marker, .saved)
  | _ => none

/-- How far `finish_tracing` has come for a job: its work is still pending, behind a successful
`prefetch_stop_trace`, or at `out_release`. -/
inductive FinishStage where
  | pending
  | stopped (endMarker : TraceMarker)
  | collected
  deriving DecidableEq, Repr

/-- The first call of `finish_tracing`. -/
def finishStop (s : AppState M ι config) (traceJob : TraceJob) (ticks : ℤ) (memory : Bool)
    (finish : FinishPlan M ι) : AppState M ι config × FinishStage :=
  let s := doFinishMonitoring s traceJob ticks memory
  let stopped := prefetchStopTrace finish.plan finish.endMarker s.core
  ({ s with core := stopped.core }, if stopped.ret < 0 then .collected else .stopped stopped.marker)

/-- The last call of `finish_tracing`. -/
def finishRelease (s : AppState M ι config) (job : ℕ) (traceJob : TraceJob) (memory : Bool) :
    AppState M ι config :=
  finishTraceJob { s with core := prefetchReleaseTrace memory s.core } job traceJob

/-- What `prefetch_start_trace` returns to an exec, if it gets that far. -/
def startTracingRet (s : AppState M ι config) (filename : String) (memory : StartMemory)
    (plan : WalkPlan M ι) : Option ℤ :=
  if s.enabled ∧ ¬ filenameOnList filename s.prefetchAppsBlacklist ∧
      filenameOnList filename s.prefetchAppsList ∧ memory.job ∧ memory.filename then
    some (prefetchStartTrace plan ⟨0, 0⟩ s.core).ret
  else none

/-! ## §2 — the system -/

/-- Who starts tracing: boot tracing, or the job started as the given one. -/
inductive User where
  | boot
  | job (started : ℕ)
  deriving DecidableEq, Repr

/-- Both modules, the core among the application module's state. -/
structure Kernel (M : Machine) (ι : Type*) (config : Config) where
  app : AppState M ι config
  boot : BootState M := {}
  bootStage : BootStage := .ready
  finishing : ℕ → FinishStage := fun _ => .pending
  log : List (Entry User) := []

/-- The tracing job at an address. -/
def Kernel.tracingJob (s : Kernel M ι config) (job : ℕ) : Option TraceJob :=
  (s.app.jobs job).filter (fun traceJob => traceJob.work = .finishTracing)

/-- The steps; `app` is for those of the application module that make at most one call. -/
inductive KernelEvent (M : Machine) (ι : Type*) where
  | startPhase (plan : WalkPlan M ι) (marker : TraceMarker) (phaseName : String)
  | stopBoot (plan : WalkPlan M ι) (marker : TraceMarker)
  | bootSave
  | bootRelease (memory : Bool)
  | jobStop (job : ℕ) (ticks : ℤ) (memory : Bool) (finish : FinishPlan M ι)
  | jobCollect (job : ℕ) (finish : FinishPlan M ι)
  | jobRelease (job : ℕ) (memory : Bool)
  | app (e : AppEvent M ι)

/-- A successful start an event of the application module makes. -/
def appStarts (s : AppState M ι config) : AppEvent M ι → List (Entry User)
  | .exec filename _ _ memory plan =>
      match startTracingRet s filename memory plan with
      | some ret => if 0 ≤ ret then [.take (.job s.jobsStarted)] else []
      | none => []
  | _ => []

/-- The event is the work of a tracing job, which is taken call by call. -/
def Kernel.splits (s : Kernel M ι config) : AppEvent M ι → Bool
  | .expire job _ _ _ => (s.tracingJob job).isSome
  | _ => false

/-- One step. `boot_prefetch_mutex` keeps boot commands apart. -/
def kernelStep (s : Kernel M ι config) : KernelEvent M ι → Option (Kernel M ι config)
  | .startPhase plan marker phaseName =>
      match s.bootStage with
      | .ready =>
          let r := startPhaseCall plan marker phaseName s.boot s.app.core
          some { s with
            app := { s.app with core := r.core }
            boot := r.boot
            bootStage := r.stage
            log := s.log ++
              if s.boot.bootTracingRunning = false ∧ 0 ≤ r.ret then [.take .boot] else [] }
      | _ => none
  | .stopBoot plan marker =>
      match s.bootStage with
      | .ready =>
          let r := stopBootCall plan marker s.boot s.app.core
          some { s with app := { s.app with core := r.core }, boot := r.boot, bootStage := r.stage }
      | _ => none
  | .bootSave =>
      (saveCall s.app.core.trace s.boot s.bootStage).map (fun r =>
        { s with boot := r.1, bootStage := r.2 })
  | .bootRelease memory =>
      match s.bootStage with
      | .saved => some { s with
          app := { s.app with core := prefetchReleaseTrace memory s.app.core }
          bootStage := .ready
          log := s.log ++ [.give .boot] }
      | _ => none
  | .jobStop job ticks memory finish =>
      match s.tracingJob job, s.finishing job with
      | some traceJob, .pending =>
          let r := finishStop s.app traceJob ticks memory finish
          some { s with app := r.1, finishing := update s.finishing job r.2 }
      | _, _ => none
  | .jobCollect job finish =>
      match s.tracingJob job, s.finishing job with
      | some traceJob, .stopped endMarker => some { s with
          app := saveFragment s.app traceJob finish endMarker
          finishing := update s.finishing job .collected }
      | _, _ => none
  | .jobRelease job memory =>
      match s.tracingJob job, s.finishing job with
      | some traceJob, .collected => some { s with
          app := finishRelease s.app job traceJob memory
          finishing := update s.finishing job .pending
          log := s.log ++ [.give (.job traceJob.started)] }
      | _, _ => none
  | .app e =>
      if s.splits e then none
      else (App.step s.app e).map (fun app => { s with app := app, log := s.log ++ appStarts s.app e })

/-- The modules when they have been initialised. -/
def loadKernel (config : Config) (memory coreEnabled appEnabled : Bool) (traceSizeKb : BitVec 32)
    (cache : ι → AddressSpace M) : Kernel M ι config where
  app := App.boot config (prefetchCoreInit memory
    { enabled := coreEnabled, traceSizeKb := traceSizeKb, cache := cache }) appEnabled

section Split

variable {s : Kernel M ι config}

/-- The steps of a stop, one after the other, are `prefetch_stop_boot_tracing`. -/
theorem stopBoot_split (hready : s.bootStage = .ready) (hrunning : s.boot.bootTracingRunning = true)
    (plan : WalkPlan M ι) (marker : TraceMarker) (memory : Bool) :
    ∃ t, run kernelStep s [.stopBoot plan marker, .bootSave, .bootRelease memory] = some t ∧
      t.bootStage = .ready ∧
      t.boot = (prefetchStopBootTracing plan marker memory s.boot s.app.core).boot ∧
      t.app.core = (prefetchStopBootTracing plan marker memory s.boot s.app.core).core := by
  simp [kernelStep, hready, stopBootCall, hrunning, saveCall, prefetchStopBootTracing]

/-- The steps of a phase start are `prefetch_start_boot_tracing_phase`. -/
theorem startPhase_split (hready : s.bootStage = .ready) (plan : WalkPlan M ι) (marker : TraceMarker)
    (phaseName : String) :
    ∃ rest t, run kernelStep s (.startPhase plan marker phaseName :: rest) = some t ∧
      t.bootStage = .ready ∧
      t.boot = (prefetchStartBootTracingPhase plan marker phaseName s.boot s.app.core).boot ∧
      t.app.core = (prefetchStartBootTracingPhase plan marker phaseName s.boot s.app.core).core := by
  unfold prefetchStartBootTracingPhase
  dsimp only
  by_cases hrunning : s.boot.bootTracingRunning = true
  · rw [if_pos hrunning]
    by_cases hret : (prefetchContinueTrace plan marker s.app.core).ret < 0
    · refine ⟨[], ?_⟩
      simp [kernelStep, hready, startPhaseCall, hrunning, hret]
    · refine ⟨[.bootSave], ?_⟩
      simp [kernelStep, hready, startPhaseCall, hrunning, hret, saveCall]
  · rw [if_neg hrunning]
    refine ⟨[], ?_⟩
    by_cases hret : (prefetchStartTrace plan s.boot.bootStartMarker s.app.core).ret < 0
    · simp [kernelStep, hready, startPhaseCall, hrunning, hret]
    · simp [kernelStep, hready, startPhaseCall, hrunning, hret]

omit [DecidableEq ι] in
theorem tracingJob_congr {t : Kernel M ι config} (h : t.app.jobs = s.app.jobs) (job : ℕ) :
    t.tracingJob job = s.tracingJob job := by
  unfold Kernel.tracingJob
  rw [h]

theorem step_jobRelease {job : ℕ} {traceJob : TraceJob} (hjob : s.tracingJob job = some traceJob)
    (hstage : s.finishing job = .collected) (memory : Bool) :
    kernelStep s (.jobRelease job memory) = some { s with
      app := finishRelease s.app job traceJob memory
      finishing := update s.finishing job .pending
      log := s.log ++ [.give (.job traceJob.started)] } := by
  simp only [kernelStep, hjob, hstage]

/-- The steps of a tracing job's work are `finish_tracing`. -/
theorem finishTracing_split {job : ℕ} {traceJob : TraceJob} (hjob : s.tracingJob job = some traceJob)
    (hpending : s.finishing job = .pending) (ticks : ℤ) (memory : Bool) (finish : FinishPlan M ι) :
    ∃ mid t, run kernelStep s (.jobStop job ticks memory finish ::
        (mid ++ [.jobRelease job finish.bufferMemory])) = some t ∧
      t.app = finishTracing s.app job traceJob ticks memory finish := by
  have hmonitor := (doFinishMonitoring_same s.app traceJob ticks memory).jobs
  let stopped := prefetchStopTrace finish.plan finish.endMarker
    (doFinishMonitoring s.app traceJob ticks memory).core
  let r := finishStop s.app traceJob ticks memory finish
  let s₁ : Kernel M ι config := { s with app := r.1, finishing := update s.finishing job r.2 }
  have hstop : kernelStep s (.jobStop job ticks memory finish) = some s₁ := by
    simp only [kernelStep, hjob, hpending]
    rfl
  have hjob₁ : s₁.tracingJob job = some traceJob := (tracingJob_congr hmonitor job).trans hjob
  have hstage₁ : s₁.finishing job = if stopped.ret < 0 then .collected else .stopped stopped.marker :=
    update_self _ _ _
  by_cases hret : stopped.ret < 0
  · rw [if_pos hret] at hstage₁
    refine ⟨[], _, run_step hstop (run_step (step_jobRelease hjob₁ hstage₁ _) rfl), ?_⟩
    unfold finishTracing
    dsimp only
    rw [if_pos hret]
    rfl
  · rw [if_neg hret] at hstage₁
    let s₂ : Kernel M ι config := { s₁ with
      app := saveFragment s₁.app traceJob finish stopped.marker
      finishing := update s₁.finishing job .collected }
    have hcollect : kernelStep s₁ (.jobCollect job finish) = some s₂ := by
      simp only [kernelStep, hjob₁, hstage₁]
      rfl
    have hsave := saveFragment_same s₁.app traceJob finish stopped.marker
    have hjob₂ : s₂.tracingJob job = some traceJob := (tracingJob_congr hsave.jobs job).trans hjob₁
    have hstage₂ : s₂.finishing job = .collected := update_self _ _ _
    refine ⟨[.jobCollect job finish], _, run_step hstop (run_step hcollect
      (run_step (step_jobRelease hjob₂ hstage₂ _) rfl)), ?_⟩
    unfold finishTracing
    dsimp only
    rw [if_neg hret]
    rfl

end Split

end Prefetch.Boot

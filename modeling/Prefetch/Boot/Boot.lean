/-
# Prefetch.Boot.Boot — boot tracing, `prefetch_boot.c`

Boot is divided into phases, named by the boot scripts. Starting the first phase starts tracing; every
later one, and the stop, hands the interval since the last start to be saved under the name of the phase
that ends. The module's own state is the marker that interval begins at, the phase and whether tracing
is running.

`saveRequests` has no counterpart in C: it collects what `prefetch_save_boot_trace` is asked for. Whether
a request then succeeds only decides a warning.
-/
import Prefetch.Core.Tracing

namespace Prefetch.Boot

open Prefetch.Core

variable {M : Machine} {ι : Type*} [DecidableEq ι]

/-- `PHASE_NAME_MAX`, in bytes; a phase name has a character for each. -/
def phaseNameMax : ℕ := 10

/-- `strncpy` to `boot_tracing_phase`. -/
def copyPhaseName (phaseName : String) : String :=
  String.ofList (phaseName.toList.take phaseNameMax)

/-- An interval handed on to be saved; `held` is what the trace holds between its markers by then. -/
structure SaveRequest (M : Machine) where
  phaseName : String
  startMarker : TraceMarker
  endMarker : TraceMarker
  held : FragmentResult M
  deriving DecidableEq, Repr

/-- The globals of `prefetch_boot.c` that boot tracing uses. -/
structure BootState (M : Machine) where
  bootStartMarker : TraceMarker := ⟨0, 0⟩
  bootTracingPhase : String := "init"
  bootTracingRunning : Bool := false
  saveRequests : List (SaveRequest M) := []

/-- The interval from the start of the phase to a marker. -/
def BootState.request (boot : BootState M) (t : PrefetchTrace M) (phaseName : String)
    (endPhaseMarker : TraceMarker) : SaveRequest M :=
  ⟨phaseName, boot.bootStartMarker, endPhaseMarker,
    getPrefetchTraceFragment t boot.bootStartMarker endPhaseMarker true⟩

/-- `prefetch_save_boot_trace` -/
def prefetchSaveBootTrace (boot : BootState M) (t : PrefetchTrace M) (phaseName : String)
    (endPhaseMarker : TraceMarker) : BootState M :=
  { boot with saveRequests := boot.saveRequests ++ [boot.request t phaseName endPhaseMarker] }

/-- What a boot command leaves. -/
structure BootResult (M : Machine) (ι : Type*) where
  ret : ℤ
  boot : BootState M
  core : CoreState M ι

/-- The lines behind both branches of `prefetch_start_boot_tracing_phase`. -/
def enterPhase (phaseName : String) (boot : BootState M) : BootState M :=
  { boot with bootTracingPhase := copyPhaseName phaseName, bootTracingRunning := true }

/-- `prefetch_start_boot_tracing_phase`; `marker` is what its local variable holds before the call. -/
def prefetchStartBootTracingPhase (plan : WalkPlan M ι) (marker : TraceMarker) (phaseName : String)
    (boot : BootState M) (core : CoreState M ι) : BootResult M ι :=
  if boot.bootTracingRunning then
    -- boot tracing was already running
    let r := prefetchContinueTrace plan marker core
    if r.ret < 0 then ⟨r.ret, boot, r.core⟩
    else
      let boot := prefetchSaveBootTrace boot r.core.trace boot.bootTracingPhase r.marker
      ⟨r.ret, enterPhase phaseName { boot with bootStartMarker := r.marker }, r.core⟩
  else
    -- first phase of tracing
    let r := prefetchStartTrace plan boot.bootStartMarker core
    let boot := { boot with bootStartMarker := r.marker }
    if r.ret < 0 then ⟨r.ret, boot, r.core⟩
    else ⟨r.ret, enterPhase phaseName boot, r.core⟩

/-- `prefetch_stop_boot_tracing`; a failed stop leaves `marker` as it is, and the rest runs all the
same. -/
def prefetchStopBootTracing (plan : WalkPlan M ι) (marker : TraceMarker) (memory : Bool)
    (boot : BootState M) (core : CoreState M ι) : BootResult M ι :=
  if ¬ boot.bootTracingRunning then ⟨-EINVAL, boot, core⟩
  else
    let r := prefetchStopTrace plan marker core
    let boot := { boot with bootTracingRunning := false }
    let boot := prefetchSaveBootTrace boot r.core.trace boot.bootTracingPhase r.marker
    ⟨0, boot, prefetchReleaseTrace memory r.core⟩

end Prefetch.Boot

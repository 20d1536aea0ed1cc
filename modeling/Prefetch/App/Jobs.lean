/-
# Prefetch.App.Jobs — application tracing and monitoring, `prefetch_app.c`

The module keeps two hash tables of file names (applications to trace, applications never to trace)
and a hash table of traced pids, whose entries point to trace jobs. An exec starts a job; after the
tracing timeout the job's work runs, finishes it and frees it; an exiting process is judged at once.

Jobs live in kernel memory: `jobs` maps an address to the job allocated there, and an allocation may
return any free address. Reading a job that has been freed has no outcome here. Whether allocations
succeed, how many IO ticks a process has and what the walks of the core meet come with the events.
-/
import Prefetch.Core.Tracing
import Prefetch.Lib.ChainedTable

namespace Prefetch.App

open Function ChainedTable Prefetch.Core

/-! ## §1 — file name tables -/

/-- What the module is built and loaded with: `filename_hash` (the CRC of the name), the sizes and the
threshold of its parameters. -/
structure Config where
  filenameHash : String → ℕ
  filenameHashtableSize : ℕ
  size_pos : 0 < filenameHashtableSize
  tracingTicksThreshold : ℤ

/-- A table of file names. -/
abbrev FilenameTable (config : Config) := Table config.filenameHashtableSize String

variable {config : Config}

/-- `filename_hashtable_index` -/
def filenameHashtableIndex (config : Config) (filename : String) :
    Fin config.filenameHashtableSize :=
  ⟨config.filenameHash filename % config.filenameHashtableSize, Nat.mod_lt _ config.size_pos⟩

/-- `filename_on_list` -/
def filenameOnList (filename : String) (list : FilenameTable config) : Bool :=
  (findFirst list (filenameHashtableIndex config filename) (· = filename)).isSome

/-- `__add_filename_to_list` -/
def addFilenameToList (filename : String) (memory : Bool) (list : FilenameTable config) :
    FilenameTable config :=
  if memory then addHead list (filenameHashtableIndex config filename) filename else list

/-- `remove_filename_from_list` -/
def removeFilenameFromList (filename : String) (list : FilenameTable config) :
    FilenameTable config :=
  removeFirst list (filenameHashtableIndex config filename) (· = filename)

/-! ## §2 — traced pids -/

/-- `TRACED_HASH_SIZE` -/
abbrev tracedHashSize : ℕ := 16

/-- `struct traced_pid_entry`; `traceJob` is the address of a job. -/
structure TracedPidEntry where
  pid : ℕ
  traceJob : ℕ
  deriving DecidableEq, Repr

/-- The table `traced_pids`. -/
abbrev TracedPids := Table tracedHashSize TracedPidEntry

/-- `traced_pid_hash` -/
def tracedPidHash (pid : ℕ) : Fin tracedHashSize :=
  ⟨pid % tracedHashSize, Nat.mod_lt _ (by decide)⟩

/-- `add_traced_pid` -/
def addTracedPid (pid job : ℕ) (memory : Bool) (hashtable : TracedPids) : TracedPids :=
  if memory then addHead hashtable (tracedPidHash pid) ⟨pid, job⟩ else hashtable

/-- `remove_traced_pid` -/
def removeTracedPid (pid : ℕ) (hashtable : TracedPids) : TracedPids :=
  removeFirst hashtable (tracedPidHash pid) (·.pid = pid)

/-- `find_traced_pid` -/
def findTracedPid (pid : ℕ) (hashtable : TracedPids) : Option TracedPidEntry :=
  findFirst hashtable (tracedPidHash pid) (·.pid = pid)

/-! ## §3 — jobs -/

/-- The function a job's delayed work calls. -/
inductive Work where
  | finishMonitoring
  | finishTracing
  deriving DecidableEq, Repr

/-- `struct trace_job`. `started` counts the jobs started before it; no function reads it. -/
structure TraceJob where
  work : Work
  filename : String
  pid : ℕ
  startMarker : TraceMarker
  started : ℕ
  deriving DecidableEq, Repr

variable {M : Machine} {ι : Type*} [DecidableEq ι]

/-- The module, the jobs in memory and the tracing core. `saveRequests` are the fragments handed on to
be sorted and saved, under the application's name. -/
structure AppState (M : Machine) (ι : Type*) (config : Config) where
  core : CoreState M ι
  enabled : Bool := true
  initialized : Bool := true
  prefetchAppsBlacklist : FilenameTable config := empty
  prefetchAppsList : FilenameTable config := empty
  tracedPids : TracedPids := empty
  jobs : ℕ → Option TraceJob := fun _ => none
  jobsStarted : ℕ := 0
  saveRequests : List (String × FragmentResult M) := []

/-- `do_finish_monitoring`, less the search of the process: `ticks` are those of the process with the
job's pid, -1 if it has been terminated. -/
def doFinishMonitoring (s : AppState M ι config) (traceJob : TraceJob) (ticks : ℤ)
    (memory : Bool) : AppState M ι config :=
  if ticks = -1 then s
  else if ticks > config.tracingTicksThreshold then
    if filenameOnList traceJob.filename s.prefetchAppsList then s
    else { s with
      prefetchAppsList := addFilenameToList traceJob.filename memory s.prefetchAppsList }
  else { s with
    prefetchAppsList := removeFilenameFromList traceJob.filename s.prefetchAppsList }

/-- `finish_trace_job` for the job at address `job`. -/
def finishTraceJob (s : AppState M ι config) (job : ℕ) (traceJob : TraceJob) :
    AppState M ι config :=
  { s with
    tracedPids := removeTracedPid traceJob.pid s.tracedPids
    jobs := update s.jobs job none }

/-- `finish_monitoring` -/
def finishMonitoring (s : AppState M ι config) (job : ℕ) (traceJob : TraceJob) (ticks : ℤ)
    (memory : Bool) : AppState M ι config :=
  finishTraceJob (doFinishMonitoring s traceJob ticks memory) job traceJob

/-- What the calls of `finish_tracing` meet: the contents of its local `end_marker`, the stop's walk,
memory for the fragment, the name of the trace file and the buffer. -/
structure FinishPlan (M : Machine) (ι : Type*) where
  endMarker : TraceMarker
  plan : WalkPlan M ι
  fragmentMemory : Bool := true
  traceFilename : Bool := true
  bufferMemory : Bool := true

/-- The fragment of a successful stop is saved unless it cannot be had, is empty or has no name. -/
def saveFragment (s : AppState M ι config) (traceJob : TraceJob) (finish : FinishPlan M ι)
    (endMarker : TraceMarker) : AppState M ι config :=
  match getPrefetchTraceFragment s.core.trace traceJob.startMarker endMarker
      finish.fragmentMemory with
  | .ok fragment size =>
      if size ≤ 0 then s
      else if ¬ finish.traceFilename then s
      else { s with saveRequests := s.saveRequests ++ [(traceJob.filename, .ok fragment size)] }
  | _ => s

/-- `finish_tracing`; every way through it ends in a release. -/
def finishTracing (s : AppState M ι config) (job : ℕ) (traceJob : TraceJob) (ticks : ℤ)
    (memory : Bool) (finish : FinishPlan M ι) : AppState M ι config :=
  let s := doFinishMonitoring s traceJob ticks memory
  let stopped := prefetchStopTrace finish.plan finish.endMarker s.core
  let s := { s with core := stopped.core }
  let s := if stopped.ret < 0 then s else saveFragment s traceJob finish stopped.marker
  let s := { s with core := prefetchReleaseTrace finish.bufferMemory s.core }
  finishTraceJob s job traceJob

/-- Which allocations of a start succeed: the job, its file name and its table entry. -/
structure StartMemory where
  job : Bool := true
  filename : Bool := true
  entry : Bool := true

/-- A job is put into memory and into the table, and its work is scheduled. -/
def scheduleJob (s : AppState M ι config) (job : ℕ) (entryMemory : Bool) (traceJob : TraceJob) :
    AppState M ι config :=
  { s with
    tracedPids := addTracedPid traceJob.pid job entryMemory s.tracedPids
    jobs := update s.jobs job (some traceJob)
    jobsStarted := s.jobsStarted + 1 }

/-- `start_tracing_job` in process `pid`, its job allocated at `job`; `kzalloc` zeroes the marker. -/
def startTracingJob (s : AppState M ι config) (filename : String) (pid job : ℕ)
    (memory : StartMemory) (plan : WalkPlan M ι) : AppState M ι config :=
  if ¬ memory.job then s
  else if ¬ memory.filename then s
  else
    let started := prefetchStartTrace plan ⟨0, 0⟩ s.core
    let s := { s with core := started.core }
    if started.ret < 0 then s
    else scheduleJob s job memory.entry
      ⟨.finishTracing, filename, pid, started.marker, s.jobsStarted⟩

/-- `start_monitoring_job` -/
def startMonitoringJob (s : AppState M ι config) (filename : String) (pid job : ℕ)
    (memory : StartMemory) : AppState M ι config :=
  if ¬ memory.job then s
  else if ¬ memory.filename then s
  else scheduleJob s job memory.entry ⟨.finishMonitoring, filename, pid, ⟨0, 0⟩, s.jobsStarted⟩

/-! ## §4 — hooks and work -/

/-- `prefetch_exec_hook`, which is `try_app_prefetch`. Prefetching itself, after the start of tracing,
touches neither jobs nor tables. -/
def prefetchExecHook (s : AppState M ι config) (filename : String) (pid job : ℕ)
    (memory : StartMemory) (plan : WalkPlan M ι) : AppState M ι config :=
  if ¬ s.enabled then s
  else if filenameOnList filename s.prefetchAppsBlacklist then s
  else if filenameOnList filename s.prefetchAppsList then
    startTracingJob s filename pid job memory plan
  else startMonitoringJob s filename pid job memory

/-- `prefetch_exit_hook`; it reads the job the entry points to. -/
def prefetchExitHook (s : AppState M ι config) (pid : ℕ) (ticks : ℤ) (memory : Bool) :
    Option (AppState M ι config) :=
  if ¬ s.initialized ∨ ¬ s.enabled then some s
  else match findTracedPid pid s.tracedPids with
    | none => some s
    | some entry => (s.jobs entry.traceJob).map (fun traceJob =>
        doFinishMonitoring s traceJob ticks memory)

/-- What happens to the module: a process calls exec (its job would be allocated at `job`) or exits,
the work of the job at an address runs, the module is switched on or off, something happens around
the core. -/
inductive AppEvent (M : Machine) (ι : Type*) where
  | exec (filename : String) (pid job : ℕ) (memory : StartMemory) (plan : WalkPlan M ι)
  | exit (pid : ℕ) (ticks : ℤ) (memory : Bool)
  | expire (job : ℕ) (ticks : ℤ) (memory : Bool) (finish : FinishPlan M ι)
  | control (enabled : Bool)
  | env (e : EnvEvent M ι)

/-- One event. The allocator returns free memory; a job's work is pending as long as the job is. -/
def step (s : AppState M ι config) : AppEvent M ι → Option (AppState M ι config)
  | .exec filename pid job memory plan =>
      if (s.jobs job).isSome then none
      else some (prefetchExecHook s filename pid job memory plan)
  | .exit pid ticks memory => prefetchExitHook s pid ticks memory
  | .expire job ticks memory finish =>
      match s.jobs job with
      | none => none
      | some traceJob =>
          match traceJob.work with
          | .finishMonitoring => some (finishMonitoring s job traceJob ticks memory)
          | .finishTracing => some (finishTracing s job traceJob ticks memory finish)
  | .control enabled => some { s with enabled := enabled }
  | .env e => (envStep s.core e).map (fun core => { s with core := core })

/-- The module after its initialisation, the core in any state. -/
def boot (config : Config) (core : CoreState M ι) (enabled : Bool) : AppState M ι config :=
  { core := core, enabled := enabled }

end Prefetch.App

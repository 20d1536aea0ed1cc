/-
# Prefetch.App.Hooks — the hooks of exec and exit while the module is initialised (`prefetch_app.c`)

The kernel calls `prefetch_exec_hook` and `prefetch_exit_hook` from its first exec on, whatever
`app_prefetch_init` has come to. The steps of the initialisation are events like the calls of the hooks
here; each of its three allocations may fail, and then it goes no further.

`searches` has no counterpart in C: it lists the hash tables the hooks searched, and whether they were
there. A hook that comes upon a table that is not there ends. The exit hook asks whether the module has been
initialised; the exec hook does not, and `searchesSafe_iff` says what that takes.
-/
import Prefetch.App.FileList

namespace Prefetch.App

open Function ChainedTable Runs Prefetch.Core

variable {M : Machine} {ι : Type*} {config : Config}

namespace Hooks

/-! ## §1 — the module being loaded -/

inductive HashTable where
  | blacklist
  | appsList
  | tracedPids
  deriving DecidableEq, Repr

/-- How far `app_prefetch_init` has come: the next table to be initialised, the entries in `/proc` or the
flag to be set, or it has returned. -/
inductive InitStage where
  | table (next : HashTable)
  | procEntries
  | initialized
  | returned
  deriving DecidableEq, Repr

/-- The module, where its initialisation is, which tables there are, whether `/proc` has its entries, and
the tables the hooks searched. -/
structure Loading (M : Machine) (ι : Type*) (config : Config) where
  proc : AppProc M ι config
  stage : InitStage := .table .blacklist
  ready : HashTable → Bool := fun _ => false
  procEntries : Bool := false
  searches : List (HashTable × Bool) := []

/-- The module as it is linked into the kernel. -/
def load (config : Config) (core : CoreState M ι) (enabled : Bool) : Loading M ι config where
  proc := { app := { core := core, enabled := enabled, initialized := false } }

def Loading.setApp (s : Loading M ι config) (app : AppState M ι config) : Loading M ι config :=
  { s with proc := { s.proc with app := app } }

/-- A hook comes to search a table. -/
def Loading.search (s : Loading M ι config) (table : HashTable) : Loading M ι config :=
  { s with searches := s.searches ++ [(table, s.ready table)] }

@[simp] theorem search_ready (s : Loading M ι config) (table : HashTable) :
    (s.search table).ready = s.ready := rfl

@[simp] theorem search_proc (s : Loading M ι config) (table : HashTable) :
    (s.search table).proc = s.proc := rfl

@[simp] theorem setApp_app (s : Loading M ι config) (app : AppState M ι config) :
    (s.setApp app).proc.app = app := rfl

/-- The stage behind a table. -/
def InitStage.behind : HashTable → InitStage
  | .blacklist => .table .appsList
  | .appsList => .table .tracedPids
  | .tracedPids => .procEntries

/-- The next step of `app_prefetch_init`; `memory` is for a table and `procDir` for `prefetch_proc_dir`. -/
def initStep (s : Loading M ι config) (memory procDir : Bool) : Option (Loading M ι config) :=
  match s.stage with
  | .table next =>
      if memory then some { s with ready := update s.ready next true, stage := .behind next }
      else some { s with stage := .returned }
  | .procEntries => some { s with procEntries := procDir, stage := .initialized }
  | .initialized =>
      some { s.setApp { s.proc.app with initialized := true } with stage := .returned }
  | .returned => none

/-! ## §2 — the initialisation as an invariant -/

/-- No hook searched a table that was not there. -/
def SearchesSafe (s : Loading M ι config) : Prop := ∀ search ∈ s.searches, search.2 = true

def AllReady (ready : HashTable → Bool) : Prop := ∀ table, ready table = true

/-- The tables that are there when the initialisation comes to a stage. -/
def InitStage.reached : InitStage → List HashTable
  | .table .blacklist | .returned => []
  | .table .appsList => [.blacklist]
  | .table .tracedPids => [.blacklist, .appsList]
  | .procEntries | .initialized => [.blacklist, .appsList, .tracedPids]

/-- The tables become ready in their order; the entries in `/proc` and the flag come after all of them.
Until the list of applications is there, no command has been taken, and the blacklist is empty. -/
structure Inv (s : Loading M ι config) : Prop where
  searched : SearchesSafe s
  appsList_first : s.ready .tracedPids = true → s.ready .appsList = true
  blacklist_first : s.ready .appsList = true → s.ready .blacklist = true
  reached : ∀ table ∈ s.stage.reached, s.ready table = true
  initialized : s.proc.app.initialized = true → AllReady s.ready
  procEntries : s.procEntries = true → AllReady s.ready
  blacklist_empty : s.ready .appsList = false → s.proc.app.prefetchAppsBlacklist = empty

variable {s s' t : Loading M ι config}

theorem inv_load (config : Config) (core : CoreState M ι) (enabled : Bool) :
    Inv (load config core enabled) where
  searched := by simp [SearchesSafe, load]
  appsList_first := by simp [load]
  blacklist_first := by simp [load]
  reached := by simp [load, InitStage.reached]
  initialized := by simp [load]
  procEntries := by simp [load]
  blacklist_empty _ := rfl

theorem Inv.allReady_of_tracedPids (h : Inv s) (hpids : s.ready .tracedPids = true) :
    AllReady s.ready := by
  intro table
  cases table with
  | blacklist => exact h.blacklist_first (h.appsList_first hpids)
  | appsList => exact h.appsList_first hpids
  | tracedPids => exact hpids

/-- With all tables there, whatever becomes of the rest of the module. -/
theorem Inv.setProc (h : Inv s) (hready : AllReady s.ready) (proc : AppProc M ι config) :
    Inv { s with proc := proc } where
  searched := h.searched
  appsList_first := h.appsList_first
  blacklist_first := h.blacklist_first
  reached := h.reached
  initialized _ := hready
  procEntries _ := hready
  blacklist_empty hlist := absurd (hlist.symm.trans (hready .appsList)) Bool.false_ne_true

/-- A change of the module that leaves the flag and the blacklist as they are. -/
theorem Inv.setApp (h : Inv s) {app : AppState M ι config}
    (hinit : app.initialized = s.proc.app.initialized)
    (hlist : app.prefetchAppsBlacklist = s.proc.app.prefetchAppsBlacklist) : Inv (s.setApp app) where
  searched := h.searched
  appsList_first := h.appsList_first
  blacklist_first := h.blacklist_first
  reached := h.reached
  initialized hi := h.initialized (hinit.symm.trans hi)
  procEntries := h.procEntries
  blacklist_empty hl := hlist.trans (h.blacklist_empty hl)

/-- The search of a table that is there. -/
theorem Inv.search (h : Inv s) {table : HashTable} (hready : s.ready table = true) :
    Inv (s.search table) where
  searched := by
    intro search hmem
    rcases List.mem_append.1 hmem with hmem | hmem
    · exact h.searched search hmem
    · rw [List.mem_singleton.1 hmem]
      exact hready
  appsList_first := h.appsList_first
  blacklist_first := h.blacklist_first
  reached := h.reached
  initialized := h.initialized
  procEntries := h.procEntries
  blacklist_empty := h.blacklist_empty

theorem ready_update {ready : HashTable → Bool} {next table : HashTable}
    (h : ready table = true) : update ready next true table = true := by
  by_cases heq : table = next
  · rw [heq, update_self]
  · rw [update_of_ne heq, h]

theorem reached_behind {next table : HashTable} (h : table ∈ (InitStage.behind next).reached) :
    table = next ∨ table ∈ (InitStage.table next).reached := by
  revert h
  cases next <;> cases table <;> decide

/-- The table of a stage gets its memory. -/
theorem Inv.tableReady (h : Inv s) {next : HashTable} (hstage : s.stage = .table next) :
    Inv { s with ready := update s.ready next true, stage := .behind next } := by
  have hreached := h.reached
  rw [hstage] at hreached
  refine ⟨h.searched, ?_, ?_, ?_, ?_, ?_, ?_⟩
  · intro hpids
    cases next with
    | blacklist => exact h.appsList_first hpids
    | appsList => rfl
    | tracedPids => exact hreached .appsList (by decide)
  · intro hlist
    cases next with
    | blacklist => rfl
    | appsList => exact hreached .blacklist (by decide)
    | tracedPids => exact h.blacklist_first hlist
  · intro table hmem
    rcases reached_behind hmem with rfl | hmem
    · exact update_self ..
    · exact ready_update (hreached table hmem)
  · intro hi table
    exact ready_update (h.initialized hi table)
  · intro hentries table
    exact ready_update (h.procEntries hentries table)
  · intro hlist
    apply h.blacklist_empty
    by_contra hready
    rw [Bool.not_eq_false] at hready
    exact Bool.false_ne_true (hlist.symm.trans (ready_update hready))

/-- **A step of the initialisation, whether it succeeds or not.** -/
theorem inv_initStep (h : Inv s) {memory procDir : Bool}
    (hstep : initStep s memory procDir = some s') : Inv s' := by
  unfold initStep at hstep
  cases hstage : s.stage with
  | table next =>
      simp only [hstage] at hstep
      split_ifs at hstep <;> cases hstep
      · exact h.tableReady hstage
      · exact ⟨h.searched, h.appsList_first, h.blacklist_first, by simp [InitStage.reached],
          h.initialized, h.procEntries, h.blacklist_empty⟩
  | procEntries =>
      simp only [hstage] at hstep
      cases hstep
      have hready : AllReady s.ready :=
        h.allReady_of_tracedPids (h.reached _ (by simp [hstage, InitStage.reached]))
      exact ⟨h.searched, h.appsList_first, h.blacklist_first, fun table _ => hready table, h.initialized,
        fun _ => hready, h.blacklist_empty⟩
  | initialized =>
      simp only [hstage] at hstep
      cases hstep
      have hready : AllReady s.ready :=
        h.allReady_of_tracedPids (h.reached _ (by simp [hstage, InitStage.reached]))
      have hset := h.setProc hready { s.proc with app := { s.proc.app with initialized := true } }
      exact ⟨hset.searched, hset.appsList_first, hset.blacklist_first, by simp [InitStage.reached],
        hset.initialized, hset.procEntries, hset.blacklist_empty⟩
  | returned => simp [hstage] at hstep

/-! ## §3 — the hooks -/

variable [DecidableEq ι]

/-- A job is started. `add_traced_pid` puts its entry into the table without a search; if the table is not there,
it writes through a null pointer, and there is no outcome. -/
def Loading.start (s : Loading M ι config) (entryMemory : Bool) (started : AppState M ι config) :
    Option (Loading M ι config) :=
  if s.ready .tracedPids ∨ ¬ entryMemory ∨ started.jobsStarted = s.proc.app.jobsStarted then
    some (s.setApp started)
  else none

/-- `prefetch_exec_hook` -/
def prefetchExecHook (s : Loading M ι config) (filename : String) (pid job : ℕ) (memory : StartMemory)
    (plan : WalkPlan M ι) : Option (Loading M ι config) :=
  if ¬ s.proc.app.enabled then some s
  else if ¬ s.ready .blacklist then some (s.search .blacklist)
  else if filenameOnList filename s.proc.app.prefetchAppsBlacklist then some (s.search .blacklist)
  else
    let s := (s.search .blacklist).search .appsList
    if ¬ s.ready .appsList then some s
    else if filenameOnList filename s.proc.app.prefetchAppsList then
      s.start memory.entry (startTracingJob s.proc.app filename pid job memory plan)
    else s.start memory.entry (startMonitoringJob s.proc.app filename pid job memory)

/-- `prefetch_exit_hook` -/
def prefetchExitHook (s : Loading M ι config) (pid : ℕ) (ticks : ℤ) (memory : Bool) :
    Option (Loading M ι config) :=
  if ¬ s.proc.app.initialized ∨ ¬ s.proc.app.enabled then some s
  else
    let s := s.search .tracedPids
    if ¬ s.ready .tracedPids then some s
    else match findTracedPid pid s.proc.app.tracedPids with
      | none => some s
      | some entry => (s.proc.app.jobs entry.traceJob).map fun traceJob =>
          if ticks = -1 then s
          else
            let s := s.search .appsList
            if ¬ s.ready .appsList then s
            else s.setApp (doFinishMonitoring s.proc.app traceJob ticks memory)

/-- What happens: a step of the initialisation, the hooks are called, a command is written to `/proc`, the
work of a job runs, something happens around the core. -/
inductive Event (M : Machine) (ι : Type*) where
  | init (memory procDir : Bool)
  | exec (filename : String) (pid job : ℕ) (memory : StartMemory) (plan : WalkPlan M ι)
  | exit (pid : ℕ) (ticks : ℤ) (memory : Bool)
  | command (memory : CommandMemory) (buffer : List Char)
  | expire (job : ℕ) (ticks : ℤ) (memory : Bool) (finish : FinishPlan M ι)
  | env (e : EnvEvent M ι)

variable (ctype : Ctype)

/-- One event. Work that comes to a table that is not there has no outcome. -/
def step (s : Loading M ι config) : Event M ι → Option (Loading M ι config)
  | .init memory procDir => initStep s memory procDir
  | .exec filename pid job memory plan =>
      if (s.proc.app.jobs job).isSome then none
      else prefetchExecHook s filename pid job memory plan
  | .exit pid ticks memory => prefetchExitHook s pid ticks memory
  | .command memory buffer =>
      if ¬ s.procEntries then none
      else (appPrefetchProcWrite ctype memory s.proc buffer).map fun r => { s with proc := r.2 }
  | .expire job ticks memory finish =>
      if ¬ (s.ready .appsList ∧ s.ready .tracedPids) then none
      else (App.step s.proc.app (.expire job ticks memory finish)).map s.setApp
  | .env e => (App.step s.proc.app (.env e)).map s.setApp

/-! ## §4 — once the module has been initialised -/

/-- With all tables there the exec hook is the one of the module. -/
theorem prefetchExecHook_of_ready (hready : AllReady s.ready) (filename : String) (pid job : ℕ)
    (memory : StartMemory) (plan : WalkPlan M ι) :
    (prefetchExecHook s filename pid job memory plan).map (·.proc.app) =
      some (App.prefetchExecHook s.proc.app filename pid job memory plan) := by
  unfold prefetchExecHook App.prefetchExecHook Loading.start
  simp only [hready _, Loading.search, Loading.setApp, true_or, if_true, not_true_eq_false, if_false]
  split_ifs <;> rfl

omit [DecidableEq ι] in
/-- The exit hook, with the module initialised and enabled and all tables there. -/
theorem prefetchExitHook_on (hready : AllReady s.ready) (hinit : s.proc.app.initialized = true)
    (henabled : s.proc.app.enabled = true) (pid : ℕ) (ticks : ℤ) (memory : Bool) :
    prefetchExitHook s pid ticks memory =
      match findTracedPid pid s.proc.app.tracedPids with
      | none => some (s.search .tracedPids)
      | some entry => (s.proc.app.jobs entry.traceJob).map fun traceJob =>
          if ticks = -1 then s.search .tracedPids
          else ((s.search .tracedPids).search .appsList).setApp
            (doFinishMonitoring s.proc.app traceJob ticks memory) := by
  unfold prefetchExitHook
  simp only [hinit, henabled, search_ready, search_proc, hready _, not_true_eq_false, or_self, if_false]

omit [DecidableEq ι] in
/-- It is the one of the module, too. -/
theorem prefetchExitHook_of_ready (hready : AllReady s.ready) (pid : ℕ) (ticks : ℤ) (memory : Bool) :
    (prefetchExitHook s pid ticks memory).map (·.proc.app) =
      App.prefetchExitHook s.proc.app pid ticks memory := by
  by_cases hoff : ¬ s.proc.app.initialized ∨ ¬ s.proc.app.enabled
  · unfold prefetchExitHook App.prefetchExitHook
    rw [if_pos hoff, if_pos hoff, Option.map_some]
  · have hon : s.proc.app.initialized = true ∧ s.proc.app.enabled = true := by simpa using hoff
    rw [prefetchExitHook_on hready hon.1 hon.2, App.prefetchExitHook, if_neg hoff]
    cases findTracedPid pid s.proc.app.tracedPids with
    | none => rfl
    | some entry =>
        simp only [Option.map_map]
        congr 1
        funext traceJob
        by_cases hticks : ticks = -1
        · simp [hticks, doFinishMonitoring]
        · simp [hticks]

/-! ## §5 — the searches -/

variable {ctype : Ctype} {e : Event M ι} {es : List (Event M ι)}

/-- An exec finds the module disabled or the list of applications there. -/
def ExecReady (s : Loading M ι config) : Event M ι → Prop
  | .exec .. => s.proc.app.enabled = true → s.ready .appsList = true
  | _ => True

theorem startTracingJob_frame (s : AppState M ι config) (filename : String) (pid job : ℕ)
    (memory : StartMemory) (plan : WalkPlan M ι) :
    (startTracingJob s filename pid job memory plan).initialized = s.initialized ∧
      (startTracingJob s filename pid job memory plan).prefetchAppsBlacklist =
        s.prefetchAppsBlacklist := by
  simp only [startTracingJob, scheduleJob]
  split_ifs <;> exact ⟨rfl, rfl⟩

omit [DecidableEq ι] in
theorem startMonitoringJob_frame (s : AppState M ι config) (filename : String) (pid job : ℕ)
    (memory : StartMemory) :
    (startMonitoringJob s filename pid job memory).initialized = s.initialized ∧
      (startMonitoringJob s filename pid job memory).prefetchAppsBlacklist =
        s.prefetchAppsBlacklist := by
  unfold startMonitoringJob scheduleJob
  split_ifs <;> exact ⟨rfl, rfl⟩

omit [DecidableEq ι] in
/-- A start, if its entry finds its table. -/
theorem Inv.start (h : Inv s) {entryMemory : Bool} {started : AppState M ι config}
    (hframe : started.initialized = s.proc.app.initialized ∧
      started.prefetchAppsBlacklist = s.proc.app.prefetchAppsBlacklist)
    (hstart : s.start entryMemory started = some s') : Inv s' := by
  unfold Loading.start at hstart
  split_ifs at hstart
  cases hstart
  exact h.setApp hframe.1 hframe.2

theorem inv_prefetchExecHook (h : Inv s) (hready : s.proc.app.enabled = true → s.ready .appsList = true)
    {filename : String} {pid job : ℕ} {memory : StartMemory} {plan : WalkPlan M ι}
    (hstep : prefetchExecHook s filename pid job memory plan = some s') : Inv s' := by
  unfold prefetchExecHook at hstep
  by_cases henabled : s.proc.app.enabled = true
  · have hlist := hready henabled
    have hblack := h.blacklist_first hlist
    have hsearched : Inv ((s.search .blacklist).search .appsList) := (h.search hblack).search hlist
    simp only [henabled, hblack, hlist, search_ready, not_true_eq_false, if_false] at hstep
    split_ifs at hstep
    · cases hstep
      exact h.search hblack
    · exact hsearched.start (startTracingJob_frame ..) hstep
    · exact hsearched.start (startMonitoringJob_frame ..) hstep
  · rw [if_pos henabled] at hstep
    cases hstep
    exact h

/-- **An enabled exec that comes before the list of applications searches a table that is not there**: the
blacklist, or, the blacklist being empty, the list itself. -/
theorem prefetchExecHook_breaks (h : Inv s) (henabled : s.proc.app.enabled = true)
    (hlist : s.ready .appsList = false) {filename : String} {pid job : ℕ} {memory : StartMemory}
    {plan : WalkPlan M ι} (hstep : prefetchExecHook s filename pid job memory plan = some s') :
    ¬ SearchesSafe s' := by
  have hempty : filenameOnList filename s.proc.app.prefetchAppsBlacklist = false := by
    rw [h.blacklist_empty hlist]
    rfl
  intro hsafe
  cases hblack : s.ready .blacklist with
  | false =>
      obtain rfl : s.search .blacklist = s' := by
        simpa [prefetchExecHook, henabled, hblack] using hstep
      have hsearched := hsafe (.blacklist, s.ready .blacklist) (by simp [Loading.search])
      exact Bool.false_ne_true (hblack.symm.trans hsearched)
  | true =>
      obtain rfl : (s.search .blacklist).search .appsList = s' := by
        simpa [prefetchExecHook, henabled, hblack, hempty, hlist] using hstep
      have hsearched := hsafe (.appsList, s.ready .appsList) (by simp [Loading.search])
      exact Bool.false_ne_true (hlist.symm.trans hsearched)

omit [DecidableEq ι] in
theorem doFinishMonitoring_frame (s : AppState M ι config) (traceJob : TraceJob) (ticks : ℤ)
    (memory : Bool) :
    (doFinishMonitoring s traceJob ticks memory).initialized = s.initialized ∧
      (doFinishMonitoring s traceJob ticks memory).prefetchAppsBlacklist =
        s.prefetchAppsBlacklist := by
  unfold doFinishMonitoring
  split_ifs <;> exact ⟨rfl, rfl⟩

omit [DecidableEq ι] in
/-- The exit hook asks for the flag, and the flag stands for all tables. -/
theorem inv_prefetchExitHook (h : Inv s) {pid : ℕ} {ticks : ℤ} {memory : Bool}
    (hstep : prefetchExitHook s pid ticks memory = some s') : Inv s' := by
  by_cases hoff : ¬ s.proc.app.initialized ∨ ¬ s.proc.app.enabled
  · rw [prefetchExitHook, if_pos hoff] at hstep
    cases hstep
    exact h
  · have hon : s.proc.app.initialized = true ∧ s.proc.app.enabled = true := by simpa using hoff
    have hready : AllReady s.ready := h.initialized hon.1
    have hsearched : Inv (s.search .tracedPids) := h.search (hready _)
    rw [prefetchExitHook_on hready hon.1 hon.2] at hstep
    split at hstep
    · cases hstep
      exact hsearched
    · obtain ⟨traceJob, -, rfl⟩ := Option.map_eq_some_iff.1 hstep
      split_ifs
      · exact hsearched
      · have hframe := doFinishMonitoring_frame s.proc.app traceJob ticks memory
        exact (hsearched.search (hready _)).setApp hframe.1 hframe.2

/-- **Every event keeps the invariant, an exec if it finds the list of applications there.** -/
theorem step_inv (h : Inv s) (hexec : ExecReady s e) (hstep : step ctype s e = some s') : Inv s' := by
  cases e with
  | init memory procDir => exact inv_initStep h hstep
  | exec filename pid job memory plan =>
      simp only [step] at hstep
      split_ifs at hstep
      exact inv_prefetchExecHook h hexec hstep
  | exit pid ticks memory => exact inv_prefetchExitHook h hstep
  -- commands and work come after the tables
  | command memory buffer =>
      simp only [step] at hstep
      split_ifs at hstep with hentries
      obtain ⟨r, -, rfl⟩ := Option.map_eq_some_iff.1 hstep
      exact h.setProc (h.procEntries hentries) r.2
  | expire job ticks memory finish =>
      simp only [step] at hstep
      split_ifs at hstep with htables
      obtain ⟨app, -, rfl⟩ := Option.map_eq_some_iff.1 hstep
      exact h.setProc (h.allReady_of_tracedPids htables.2) _
  | env e =>
      obtain ⟨app, happ, rfl⟩ := Option.map_eq_some_iff.1 hstep
      obtain ⟨core, -, rfl⟩ := Option.map_eq_some_iff.1 happ
      exact h.setApp rfl rfl

/-- An exec that does not is one with the module enabled and the list not there. -/
theorem step_breaks (h : Inv s) (hexec : ¬ ExecReady s e) (hstep : step ctype s e = some s') :
    ¬ SearchesSafe s' := by
  cases e with
  | exec filename pid job memory plan =>
      simp only [ExecReady, Classical.not_imp, Bool.not_eq_true] at hexec
      simp only [step] at hstep
      split_ifs at hstep
      exact prefetchExecHook_breaks h hexec.1 hexec.2 hstep
  | _ => exact absurd trivial hexec

/-- **In every order of initialisation steps, execs, exits and commands the hooks search only tables that
are there, if and only if every exec finds the module disabled or the list of applications there.** -/
theorem searchesSafe_iff (ctype : Ctype) {core : CoreState M ι} {enabled : Bool}
    (hrun : run (step ctype) (load config core enabled) es = some t) :
    Throughout (step ctype) SearchesSafe (load config core enabled) es ↔
      StepsMeet (step ctype) ExecReady (load config core enabled) es := by
  apply throughout_iff_stepsMeet (Q := SearchesSafe) (fun _ => Inv.searched) ?_ ?_ hrun
    (inv_load config core enabled)
  · intro s e s' _ hexec hs hstep
    exact step_inv hs hexec hstep
  · intro s e s' hexec hs hstep
    exact step_breaks hs hexec hstep

/-- The module linked into a kernel whose core has its buffer. -/
def smallLoad : Loading .bits32 Unit smallConfig := load smallConfig smallBoot.core true

/-- The initialisation takes its steps and memory runs out at none of them. -/
def initialise : List (Event .bits32 Unit) := List.replicate 5 (.init true true)

def execGimp : Event .bits32 Unit := .exec "/usr/bin/gimp" 7 1 {} { order := [()] }

/-- A program that is executed once the module has been initialised. -/
theorem searchesSafe_iff_sample :
    Throughout (step kernelCtype) SearchesSafe smallLoad (initialise ++ [execGimp, .exit 7 3 true]) := by
  apply (searchesSafe_iff kernelCtype rfl).2
  iterate 5 refine (stepsMeet_cons rfl).2 ⟨trivial, ?_⟩
  refine (stepsMeet_cons rfl).2 ⟨fun _ => rfl, ?_⟩
  exact (stepsMeet_cons rfl).2 ⟨trivial, stepsMeet_nil⟩

/-- A program that is executed before the module is initialised, and one that is when memory for the list of
applications could not be had. -/
theorem exec_before_list_unsafe :
    ¬ Throughout (step kernelCtype) SearchesSafe smallLoad [execGimp] ∧
      ¬ Throughout (step kernelCtype) SearchesSafe smallLoad
        [.init true true, .init false true, execGimp] := by
  constructor
  · intro hsafe
    have hfirst := hsafe [execGimp] [] _ rfl rfl (.blacklist, false) (by decide)
    exact Bool.false_ne_true hfirst
  · intro hsafe
    have hlast := hsafe [.init true true, .init false true, execGimp] [] _ rfl rfl
      (.appsList, false) (by decide)
    exact Bool.false_ne_true hlast

end Hooks

end Prefetch.App

/-
# Prefetch.Boot.Commands — the commands of `/proc/prefetch/boot` (`prefetch_boot.c`)

The init scripts write a line for each phase of a boot: it is traced, prefetched, or both. Where a phase is traced
that was not the first one, the trace of the phase before it is saved under the name of that phase; where a phase
is prefetched, the file of its name is read.

A command is read off its line (`command`) and then carried out on the module and the files it leaves
(`execute`). To the core it is one of the two calls of `Prefetch.Boot.Boot`, or none (`procStep_sys`), and only a
tracing command leaves a file, that of the phase it ends (`procStep_files`).
-/
import Prefetch.App.FileList
import Prefetch.Boot.Intervals
import Prefetch.Boot.StopMarker
import Prefetch.Core.Readahead

namespace Prefetch.Boot

open Prefetch.Core Prefetch.TraceFile Words Transfers Runs
open Prefetch.App (scanFormat paramMatch paramMatchPrefix cString stripNewline kernelCtype pathMax ENAMETOOLONG)

/-! ## §1 — reading a command -/

/-- `CMD_NAME_MAX` -/
def cmdNameMax : ℕ := 10

/-- What is left of a line behind a word that was converted. -/
def behindWord (line word : List Char) : List Char := (line.dropWhile kernelCtype.isspace).drop word.length

/-- `sscanf(name, "start %10s phase %10s", cmd_name, phase_name)`, where it converts both. -/
def scanStart (name : List Char) : Option (List Char × List Char) := do
  let text ← scanFormat kernelCtype "start ".toList name
  let cmdName ← scanWord kernelCtype.isspace cmdNameMax text
  let text ← scanFormat kernelCtype " phase ".toList (behindWord text cmdName)
  let phaseName ← scanWord kernelCtype.isspace phaseNameMax text
  some (cmdName, phaseName)

/-- What a line asks for: a call, or no more than to return. -/
inductive BootCommand where
  | returns (ret : ℤ)
  | setPrefetch (on : Bool)
  | start (cmdName phaseName : String)
  | stop
  deriving DecidableEq, Repr

/-- What reading a command meets: memory for the line and the two names, and whether the line can be copied
from the process. -/
structure ReadEnv where
  nameMemory : Bool := true
  copied : Bool := true
  phaseNameMemory : Bool := true
  cmdNameMemory : Bool := true

def EFAULT : ℤ := 14

/-- `boot_prefetch_proc_write`, up to what it calls. -/
def command (env : ReadEnv) (buffer : List Char) : BootCommand :=
  let count := buffer.length
  if pathMax ≤ count then .returns (-ENAMETOOLONG)
  else if ¬ env.nameMemory then .returns (-ENOMEM)
  else if ¬ env.copied then .returns (-EFAULT)
  else
    let name := cString (stripNewline buffer)
    if paramMatch name "prefetch enable" then .setPrefetch true
    else if paramMatch name "prefetch disable" then .setPrefetch false
    else if paramMatchPrefix name "start " then
      -- without memory for the names nothing is done, and no error returned
      if ¬ env.phaseNameMemory then .returns count
      else if ¬ env.cmdNameMemory then .returns count
      else
        match scanStart name with
        | none => .returns (-EINVAL)
        | some (cmdName, phaseName) => .start (String.ofList cmdName) (String.ofList phaseName)
    else if paramMatch name "boot tracing stop" then .stop
    else .returns count

theorem scanStart_eq_some {name cmdName phaseName : List Char} (h : scanStart name = some (cmdName, phaseName)) :
    phaseName.length ≤ phaseNameMax := by
  unfold scanStart at h
  obtain ⟨_, -, h⟩ := Option.bind_eq_some_iff.mp h
  obtain ⟨_, -, h⟩ := Option.bind_eq_some_iff.mp h
  obtain ⟨_, -, h⟩ := Option.bind_eq_some_iff.mp h
  obtain ⟨word, hword, h⟩ := Option.bind_eq_some_iff.mp h
  cases h
  exact (scanWord_eq_some hword).1.length_le

/-- What is started was read off the line. -/
theorem command_eq_start {env : ReadEnv} {buffer : List Char} {cmdName phaseName : String}
    (h : command env buffer = .start cmdName phaseName) : ∃ cmd phase,
      scanStart (cString (stripNewline buffer)) = some (cmd, phase) ∧ String.ofList phase = phaseName := by
  unfold command at h
  dsimp only at h
  generalize cString (stripNewline buffer) = name at h ⊢
  by_cases hlong : pathMax ≤ buffer.length
  · rw [if_pos hlong] at h
    cases h
  rw [if_neg hlong] at h
  by_cases hmemory : ¬ env.nameMemory = true
  · rw [if_pos hmemory] at h
    cases h
  rw [if_neg hmemory] at h
  by_cases hcopied : ¬ env.copied = true
  · rw [if_pos hcopied] at h
    cases h
  rw [if_neg hcopied] at h
  by_cases henable : paramMatch name "prefetch enable" = true
  · rw [if_pos henable] at h
    cases h
  rw [if_neg henable] at h
  by_cases hdisable : paramMatch name "prefetch disable" = true
  · rw [if_pos hdisable] at h
    cases h
  rw [if_neg hdisable] at h
  by_cases hstart : paramMatchPrefix name "start " = true
  swap
  · rw [if_neg hstart] at h
    by_cases hstop : paramMatch name "boot tracing stop" = true
    · rw [if_pos hstop] at h
      cases h
    · rw [if_neg hstop] at h
      cases h
  rw [if_pos hstart] at h
  by_cases hphase : ¬ env.phaseNameMemory = true
  · rw [if_pos hphase] at h
    cases h
  rw [if_neg hphase] at h
  by_cases hcmd : ¬ env.cmdNameMemory = true
  · rw [if_pos hcmd] at h
    cases h
  rw [if_neg hcmd] at h
  cases hscan : scanStart name with
  | none =>
      rw [hscan] at h
      cases h
  | some names =>
      rw [hscan] at h
      cases h
      exact ⟨names.1, names.2, rfl, rfl⟩

/-- **A phase name is never cut again**: what is read is what is kept. -/
theorem copyPhaseName_command {env : ReadEnv} {buffer : List Char} {cmdName phaseName : String}
    (h : command env buffer = .start cmdName phaseName) : copyPhaseName phaseName = phaseName := by
  obtain ⟨cmd, phase, hscan, rfl⟩ := command_eq_start h
  rw [copyPhaseName, String.toList_ofList, List.take_of_length_le (scanStart_eq_some hscan)]

/-- What is written to the file for a phase. -/
def startLine (cmdName phaseName : List Char) : List Char :=
  "start ".toList ++ (cmdName ++ (" phase ".toList ++ phaseName)) ++ ['\n']

theorem length_startLine (cmdName phaseName : List Char) :
    (startLine cmdName phaseName).length = 14 + cmdName.length + phaseName.length := by
  unfold startLine
  generalize hstart : "start ".toList = start
  generalize hphase : " phase ".toList = phase
  have hstartLength : start.length = 6 := hstart ▸ rfl
  have hphaseLength : phase.length = 7 := hphase ▸ rfl
  simp only [List.length_append, List.length_singleton]
  omega

/-- A word does not begin with white space. -/
theorem dropWhile_word {width : ℕ} {word : List Char} (hword : IsWord kernelCtype.isspace width word)
    (rest : List Char) : (word ++ rest).dropWhile kernelCtype.isspace = word ++ rest := by
  obtain ⟨c, cs, rfl⟩ := List.exists_cons_of_ne_nil hword.ne_nil
  exact List.dropWhile_cons_of_neg (by simp [hword.not_space c List.mem_cons_self])

/-- Letters of a format stand for themselves. -/
theorem scanFormat_append {word : List Char} (hword : (word.all fun c => !kernelCtype.isspace c) = true)
    (format str : List Char) :
    scanFormat kernelCtype (word ++ format) (word ++ str) = scanFormat kernelCtype format str := by
  induction word with
  | nil => rfl
  | cons c cs ih =>
      rw [List.all_cons, Bool.and_eq_true, Bool.not_eq_true'] at hword
      rw [List.cons_append, List.cons_append, scanFormat, if_neg (by simp [hword.1])]
      exact (if_pos rfl).trans (ih hword.2)

/-- White space of a format stands for any. -/
theorem scanFormat_space (format str : List Char) :
    scanFormat kernelCtype (' ' :: format) str =
      scanFormat kernelCtype format (str.dropWhile kernelCtype.isspace) := by
  show (if kernelCtype.isspace ' ' = true then scanFormat kernelCtype format (str.dropWhile kernelCtype.isspace)
    else _) = _
  exact if_pos kernelCtype.isspace_space

theorem scanFormat_start (str : List Char) :
    scanFormat kernelCtype "start ".toList ("start ".toList ++ str) = some (str.dropWhile kernelCtype.isspace) := by
  have hletters := @scanFormat_append "start".toList (by decide) [' '] (' ' :: str)
  rw [scanFormat_space, List.dropWhile_cons_of_pos kernelCtype.isspace_space] at hletters
  exact hletters

theorem scanFormat_phase (str : List Char) :
    scanFormat kernelCtype " phase ".toList (" phase ".toList ++ str) =
      some (str.dropWhile kernelCtype.isspace) := by
  have hletters := @scanFormat_append "phase".toList (by decide) [' '] (' ' :: str)
  rw [scanFormat_space, List.dropWhile_cons_of_pos kernelCtype.isspace_space] at hletters
  exact (scanFormat_space _ _).trans hletters

/-- The two names are read back. -/
theorem scanStart_line {cmdName phaseName : List Char} (hcmd : IsWord kernelCtype.isspace cmdNameMax cmdName)
    (hphase : IsWord kernelCtype.isspace phaseNameMax phaseName) :
    scanStart ("start ".toList ++ (cmdName ++ (" phase ".toList ++ phaseName))) = some (cmdName, phaseName) := by
  have hspace : kernelCtype.isspace ' ' = true := kernelCtype.isspace_space
  have hfirst : scanWord kernelCtype.isspace cmdNameMax (cmdName ++ (" phase ".toList ++ phaseName)) =
      some cmdName := scanWord_append_space hcmd hspace ("phase ".toList ++ phaseName)
  have hbehind : behindWord (cmdName ++ (" phase ".toList ++ phaseName)) cmdName =
      " phase ".toList ++ phaseName := by
    rw [behindWord, dropWhile_word hcmd, List.drop_left]
  have hsecond : scanWord kernelCtype.isspace phaseNameMax phaseName = some phaseName := by
    have hnoBlank : ∀ c ∈ ([] : List Char), kernelCtype.isspace c = true := by simp
    exact scanWord_append hphase hnoBlank
  unfold scanStart
  rw [scanFormat_start, dropWhile_word hcmd]
  simp only [Option.bind_eq_bind, Option.bind_some, hfirst, hbehind, scanFormat_phase, scanWord_dropWhile, hsecond]

theorem stripNewline_concat (text : List Char) : stripNewline (text ++ ['\n']) = text := by
  rw [stripNewline, List.getLast?_concat, if_pos rfl, List.dropLast_concat]

/-- **The line of a phase is read as it is meant.** -/
theorem command_startLine {cmdName phaseName : List Char} (hcmd : IsWord kernelCtype.isspace cmdNameMax cmdName)
    (hphase : IsWord kernelCtype.isspace phaseNameMax phaseName) (hcmdNul : '\x00' ∉ cmdName)
    (hphaseNul : '\x00' ∉ phaseName) :
    command {} (startLine cmdName phaseName) = .start (String.ofList cmdName) (String.ofList phaseName) := by
  have hshort : ¬ pathMax ≤ (startLine cmdName phaseName).length := by
    have hcmdLength := hcmd.length_le
    have hphaseLength := hphase.length_le
    rw [length_startLine]
    unfold pathMax
    unfold cmdNameMax at hcmdLength
    unfold phaseNameMax at hphaseLength
    omega
  have hstrip : stripNewline (startLine cmdName phaseName) =
      "start ".toList ++ (cmdName ++ (" phase ".toList ++ phaseName)) := stripNewline_concat _
  have hname : cString (stripNewline (startLine cmdName phaseName)) =
      "start ".toList ++ (cmdName ++ (" phase ".toList ++ phaseName)) := by
    rw [hstrip, cString, List.takeWhile_eq_self_iff]
    intro c hc
    have hne : c ≠ '\x00' := by
      rintro rfl
      simp only [List.mem_append] at hc
      rcases hc with hc | hc | hc | hc
      · exact absurd hc (by decide)
      · exact hcmdNul hc
      · exact absurd hc (by decide)
      · exact hphaseNul hc
    simpa using hne
  -- no other command begins like this one
  have hother : ∀ s : String, s.toList.head? ≠ some 's' →
      paramMatch ("start ".toList ++ (cmdName ++ (" phase ".toList ++ phaseName))) s = false := by
    intro s hs
    apply decide_eq_false
    intro heq
    apply hs
    rw [← heq]
    rfl
  have hprefix : paramMatchPrefix ("start ".toList ++ (cmdName ++ (" phase ".toList ++ phaseName))) "start " =
      true := List.isPrefixOf_iff_prefix.mpr (List.prefix_append _ _)
  unfold command
  simp only [hname]
  rw [if_neg hshort, if_neg (by decide), if_neg (by decide), hother "prefetch enable" (by decide),
    hother "prefetch disable" (by decide), hprefix, scanStart_line hcmd hphase]
  rfl

/-! ## §2 — the module and its files -/

variable {M : Machine} {κ ι σ ν : Type*}

/-- The trace files, by name. -/
abbrev TraceFiles : Type := String → Option (List UInt8)

/-- A file that a save opened takes the place of the one before. -/
def storeSaved (files : TraceFiles) (saved : Option StopMarker.SavedTrace) : TraceFiles :=
  match saved with
  | none => files
  | some saved => Function.update files saved.filename (some saved.file)

/-- The module with its parameters and files, next to the other clients of the core. -/
structure BootProc (M : Machine) (κ ι : Type*) where
  sys : BootSystem M κ ι
  prefetchEnabled : Bool := true
  filenameTemplate : String → String := fun phaseName => "/.prefetch-boot-trace." ++ phaseName
  files : TraceFiles

/-- What prefetching a phase meets: memory for the name of its file, whether the file can be opened, memory for
the trace, the reads, and the lookups of the prefetching. -/
structure PrefetchEnv (M : Machine) (σ ν : Type*) where
  filenameMemory : Bool := true
  opened : Option Errno := none
  traceMemory : Option ℕ := some 0
  endian : Codec.Endian := .little
  reads : ℕ → Outcome Errno
  lookups : Lookups M σ ν

/-- What carrying out a command meets; `marker` is what the local variable of a function holds at first, and
`fuel` bounds the calls that write a trace. -/
structure CommandEnv (M : Machine) (ι σ ν : Type*) where
  read : ReadEnv := {}
  plan : WalkPlan M ι
  marker : TraceMarker
  save : StopMarker.SaveEnv M
  fuel : ℕ
  releaseMemory : Bool := true
  prefetch : PrefetchEnv M σ ν

/-- What a save meets, the template being that of the module. -/
def BootProc.saveEnv (p : BootProc M κ ι) (env : CommandEnv M ι σ ν) : StopMarker.SaveEnv M :=
  { env.save with filenameTemplate := p.filenameTemplate }

/-- What a command leaves, with the readaheads it asked for. -/
structure Executed (M : Machine) (κ ι ν : Type*) where
  ret : ℤ
  proc : BootProc M κ ι
  readaheads : List (Readahead M ν)

/-! ## §3 — prefetching -/

def ENOENT : ℤ := 2

/-- The records of a trace in memory, one after the other. -/
def recordAt (e : Codec.Endian) (trace : List UInt8) (i : ℕ) : Record M :=
  (recordsIn e M trace).getD i ⟨0, 0, 0, 0⟩

/-- `prefetch_start_prefetch`, not asynchronous. -/
def startPrefetch (env : PrefetchEnv M σ ν) (enabled : Bool) (trace : List UInt8) (traceSize : BitVec 32) :
    PrefetchState M σ ν :=
  prefetchDoPrefetch env.lookups enabled (recordAt env.endian trace) traceSize.toInt

/-- `do_prefetch_from_file`, with the readaheads; there may be no file. -/
def prefetchFromFile (env : PrefetchEnv M σ ν) (enabled : Bool) (file : Option (List UInt8)) :
    ℤ × List (Readahead M ν) :=
  match file with
  | none => (-ENOENT, [])
  | some file =>
      match (Buffers.prefetchLoadTraceFragment env.endian env.opened env.traceMemory file env.reads).result with
      | .error ret => (ret, [])
      | .ok (traceSize, trace) =>
          let done := startPrefetch env enabled trace traceSize
          (done.ret, done.readaheads)

/-- What it returns is what `do_prefetch_from_file` returns that frees its memory. -/
theorem prefetchFromFile_ret (env : PrefetchEnv M σ ν) (enabled : Bool) (file : List UInt8) :
    (prefetchFromFile env enabled (some file)).1 =
      (Buffers.doPrefetchFromFile env.endian env.opened env.traceMemory file env.reads fun trace traceSize =>
        (startPrefetch env enabled trace traceSize).ret).result := by
  unfold prefetchFromFile Buffers.doPrefetchFromFile
  cases hload : (Buffers.prefetchLoadTraceFragment env.endian env.opened env.traceMemory file env.reads).result with
  | error ret => simp only [hload]
  | ok loaded => simp only [hload]

/-- `prefetch_start_boot_prefetching_phase` -/
def prefetchStartBootPrefetchingPhase (env : PrefetchEnv M σ ν) (p : BootProc M κ ι) (phaseName : String) :
    ℤ × List (Readahead M ν) :=
  if ¬ p.prefetchEnabled then (0, [])
  else if ¬ env.filenameMemory then (-ENOMEM, [])
  else prefetchFromFile env p.sys.core.enabled (p.files (p.filenameTemplate phaseName))

/-! ## §4 — carrying out a command -/

section Execute

variable [DecidableEq κ] [DecidableEq ι]

/-- `prefetch_start_boot_tracing_phase` with the file of the phase that ends, if there is one. What it returns
is not looked at. -/
def startBootTracingPhase (env : CommandEnv M ι σ ν) (p : BootProc M κ ι) (phaseName : String) :
    Option (BootProc M κ ι) :=
  let boot := p.sys.boot
  let done := prefetchStartBootTracingPhase env.plan env.marker phaseName boot p.sys.core
  let started := { p with sys := { p.sys with core := done.core, boot := done.boot } }
  let r := prefetchContinueTrace env.plan env.marker p.sys.core
  if boot.bootTracingRunning ∧ 0 ≤ r.ret then
    (StopMarker.prefetchSaveBootTrace (p.saveEnv env) boot r.core.trace boot.bootTracingPhase r.marker
      env.fuel).map fun saved => { started with files := storeSaved p.files saved.2 }
  else some started

/-- `prefetch_start_boot_phase` -/
def prefetchStartBootPhase (env : CommandEnv M ι σ ν) (p : BootProc M κ ι) (cmdName phaseName : String) :
    Option (Executed M κ ι ν) :=
  let prefetch := fun p : BootProc M κ ι =>
    let r := prefetchStartBootPrefetchingPhase env.prefetch p phaseName
    (⟨r.1, p, r.2⟩ : Executed M κ ι ν)
  if cmdName = "prefetch" then some (prefetch p)
  else if cmdName = "trace" then (startBootTracingPhase env p phaseName).map fun p => ⟨0, p, []⟩
  else if cmdName = "both" then (startBootTracingPhase env p phaseName).map prefetch
  else some ⟨-EINVAL, p, []⟩

/-- `prefetch_stop_boot_tracing` with the file it leaves. -/
def stopBootTracing (env : CommandEnv M ι σ ν) (p : BootProc M κ ι) : Option (Executed M κ ι ν) :=
  let done := prefetchStopBootTracing env.plan env.marker env.releaseMemory p.sys.boot p.sys.core
  (StopMarker.prefetchStopBootTracing (p.saveEnv env) env.plan env.releaseMemory p.sys.boot p.sys.core env.fuel
    env.marker).map fun result =>
      ⟨result.ret, { p with
        sys := { p.sys with core := done.core, boot := done.boot }
        files := storeSaved p.files result.saved }, []⟩

/-- The calls of `boot_prefetch_proc_write`. -/
def execute (env : CommandEnv M ι σ ν) (p : BootProc M κ ι) : BootCommand → Option (Executed M κ ι ν)
  | .returns ret => some ⟨ret, p, []⟩
  | .setPrefetch on => some ⟨0, { p with prefetchEnabled := on }, []⟩
  | .start cmdName phaseName => prefetchStartBootPhase env p cmdName phaseName
  | .stop => stopBootTracing env p

/-- `boot_prefetch_proc_write`; `none` where a write of a trace takes more than `fuel` calls. -/
def bootPrefetchProcWrite (env : CommandEnv M ι σ ν) (p : BootProc M κ ι) (buffer : List Char) :
    Option (Executed M κ ι ν) :=
  (execute env p (command env.read buffer)).map fun done =>
    { done with ret := if done.ret ≠ 0 then done.ret else buffer.length }

/-- A line written to the file, or a step of the core with its other clients. -/
inductive ProcEvent (M : Machine) (κ ι σ ν : Type*) where
  | write (buffer : List Char) (env : CommandEnv M ι σ ν)
  | client (e : Event M κ ι)

/-- One event. -/
def procStep (p : BootProc M κ ι) : ProcEvent M κ ι σ ν → Option (BootProc M κ ι)
  | .write buffer env => (bootPrefetchProcWrite env p buffer).map Executed.proc
  | .client e => (step p.sys (.client e)).map fun sys => { p with sys := sys }

end Execute

/-! ## §5 — what an event is to the core, and to the files -/

/-- A command that traces the phase it names. -/
def TracesPhase (cmdName : String) : Prop := cmdName = "trace" ∨ cmdName = "both"

instance (cmdName : String) : Decidable (TracesPhase cmdName) := by
  unfold TracesPhase
  infer_instance

/-- The call of the core that an event makes, if it makes one. -/
def ProcEvent.bootEvents : ProcEvent M κ ι σ ν → List (BootEvent M κ ι)
  | .write buffer env =>
      match command env.read buffer with
      | .start cmdName phaseName =>
          if TracesPhase cmdName then [.startPhase env.plan env.marker phaseName] else []
      | .stop => [.stopBoot env.plan env.marker env.releaseMemory]
      | _ => []
  | .client e => [.client e]

section Events

variable [DecidableEq κ] [DecidableEq ι] {env : CommandEnv M ι σ ν} {p q : BootProc M κ ι}
  {phaseName cmdName : String} {done : Executed M κ ι ν} {e : ProcEvent M κ ι σ ν}

/-- A file is the one before, or that of the phase that ended. -/
def FilesKept (p q : BootProc M κ ι) : Prop :=
  q.filenameTemplate = p.filenameTemplate ∧ ∀ name, q.files name = p.files name ∨
    p.sys.boot.bootTracingRunning = true ∧ name = p.filenameTemplate p.sys.boot.bootTracingPhase

omit [DecidableEq ι] [DecidableEq κ] in
theorem filesKept_refl (p : BootProc M κ ι) : FilesKept p p := ⟨rfl, fun _ => .inl rfl⟩

/-- A file that is saved is named by the template. -/
theorem saved_filename {env : StopMarker.SaveEnv M} {boot : BootState M} {t : PrefetchTrace M}
    {endMarker : TraceMarker} {fuel : ℕ} {ret : ℤ} {saved : StopMarker.SavedTrace}
    (h : StopMarker.prefetchSaveBootTrace env boot t phaseName endMarker fuel = some (ret, some saved)) :
    saved.filename = env.filenameTemplate phaseName := by
  unfold StopMarker.prefetchSaveBootTrace StopMarker.prefetchSaveTraceBetweenMarkers at h
  by_cases hname : env.filenameMemory = true
  swap
  · rw [if_pos hname] at h
    cases h
  rw [if_neg (not_not.mpr hname)] at h
  cases hget : getPrefetchTraceFragment t boot.bootStartMarker endMarker env.fragmentMemory with
  | error err =>
      rw [hget] at h
      cases h
  | bug =>
      rw [hget] at h
      cases h
  | ok fragment size =>
      rw [hget] at h
      obtain ⟨written, -, heq⟩ := Option.map_eq_some_iff.mp h
      have hsaved := congrArg Prod.snd heq
      dsimp only at hsaved
      split_ifs at hsaved
      cases hsaved
      rfl

theorem storeSaved_other {files : TraceFiles} {saved : Option StopMarker.SavedTrace} {name : String}
    (h : ∀ s, saved = some s → s.filename ≠ name) : storeSaved files saved name = files name := by
  cases saved with
  | none => rfl
  | some s => exact Function.update_of_ne (h s rfl).symm _ _

/-- What a save leaves of the files. -/
theorem storeSaved_kept {env : StopMarker.SaveEnv M} {boot : BootState M} {t : PrefetchTrace M}
    {endMarker : TraceMarker} {fuel : ℕ} {saved : ℤ × Option StopMarker.SavedTrace} (files : TraceFiles)
    (h : StopMarker.prefetchSaveBootTrace env boot t phaseName endMarker fuel = some saved) (name : String) :
    storeSaved files saved.2 name = files name ∨ name = env.filenameTemplate phaseName := by
  by_cases hname : name = env.filenameTemplate phaseName
  · exact .inr hname
  · refine .inl (storeSaved_other fun s hs hfile => hname ?_)
    obtain ⟨ret, rest⟩ := saved
    subst hs
    rw [← hfile, saved_filename h]

/-- **What starting to trace a phase does**: the call of the core, and perhaps the file of the phase before. -/
theorem startBootTracingPhase_kept (h : startBootTracingPhase env p phaseName = some q) :
    step p.sys (.startPhase env.plan env.marker phaseName) = some q.sys ∧ FilesKept p q := by
  unfold startBootTracingPhase at h
  dsimp only at h
  split_ifs at h with hsaves
  · obtain ⟨saved, hsaved, rfl⟩ := Option.map_eq_some_iff.mp h
    refine ⟨rfl, rfl, fun name => ?_⟩
    exact (storeSaved_kept p.files hsaved name).imp_right fun hname => ⟨hsaves.1, hname⟩
  · cases h
    exact ⟨rfl, filesKept_refl p⟩

/-- What the stop does. -/
theorem stopBootTracing_kept (h : stopBootTracing env p = some done) :
    step p.sys (.stopBoot env.plan env.marker env.releaseMemory) = some done.proc.sys ∧
      FilesKept p done.proc := by
  unfold stopBootTracing at h
  obtain ⟨result, hresult, rfl⟩ := Option.map_eq_some_iff.mp h
  refine ⟨rfl, rfl, fun name => ?_⟩
  unfold StopMarker.prefetchStopBootTracing at hresult
  by_cases hrunning : p.sys.boot.bootTracingRunning = true
  swap
  · rw [if_pos hrunning] at hresult
    cases hresult
    exact .inl rfl
  rw [if_neg (not_not.mpr hrunning)] at hresult
  obtain ⟨saved, hsaved, rfl⟩ := Option.map_eq_some_iff.mp hresult
  exact (storeSaved_kept p.files hsaved name).imp_right fun hname => ⟨hrunning, hname⟩

omit [DecidableEq ι] [DecidableEq κ] in
/-- The call that a line makes. -/
theorem bootEvents_write (buffer : List Char) (env : CommandEnv M ι σ ν) :
    (ProcEvent.write buffer env : ProcEvent M κ ι σ ν).bootEvents =
      match command env.read buffer with
      | .start cmdName phaseName =>
          if TracesPhase cmdName then [.startPhase env.plan env.marker phaseName] else []
      | .stop => [.stopBoot env.plan env.marker env.releaseMemory]
      | _ => [] := rfl

/-- **What a phase's command does.** -/
theorem prefetchStartBootPhase_kept (h : prefetchStartBootPhase env p cmdName phaseName = some done) :
    run step p.sys (if TracesPhase cmdName then [.startPhase env.plan env.marker phaseName] else []) =
        some done.proc.sys ∧
      FilesKept p done.proc := by
  unfold prefetchStartBootPhase at h
  dsimp only at h
  by_cases hprefetch : cmdName = "prefetch"
  · subst hprefetch
    cases h
    exact ⟨rfl, filesKept_refl p⟩
  rw [if_neg hprefetch] at h
  by_cases htrace : cmdName = "trace"
  · subst htrace
    obtain ⟨q, hq, rfl⟩ := Option.map_eq_some_iff.mp h
    obtain ⟨hstep, hfiles⟩ := startBootTracingPhase_kept hq
    exact ⟨by rw [if_pos (.inl rfl), run_cons, hstep]; rfl, hfiles⟩
  rw [if_neg htrace] at h
  by_cases hboth : cmdName = "both"
  · subst hboth
    obtain ⟨q, hq, rfl⟩ := Option.map_eq_some_iff.mp h
    obtain ⟨hstep, hfiles⟩ := startBootTracingPhase_kept hq
    exact ⟨by rw [if_pos (.inr rfl), run_cons, hstep]; rfl, hfiles⟩
  rw [if_neg hboth] at h
  cases h
  refine ⟨?_, filesKept_refl p⟩
  rw [if_neg (fun htraces => htraces.elim htrace hboth)]
  rfl

/-- **To the core an event is the call it makes**, if it makes one, and the files stay but for that of a phase
that ends. -/
theorem procStep_kept (h : procStep p e = some q) : run step p.sys e.bootEvents = some q.sys ∧ FilesKept p q := by
  cases e with
  | client e =>
      obtain ⟨sys, hsys, rfl⟩ := Option.map_eq_some_iff.mp h
      exact ⟨by rw [ProcEvent.bootEvents, run_cons, hsys]; rfl, filesKept_refl p⟩
  | write buffer env =>
      obtain ⟨written, hwritten, rfl⟩ := Option.map_eq_some_iff.mp h
      obtain ⟨done, hdone, rfl⟩ := Option.map_eq_some_iff.mp hwritten
      rw [bootEvents_write]
      cases hcommand : command env.read buffer with
      | returns ret =>
          rw [hcommand] at hdone
          cases hdone
          exact ⟨rfl, filesKept_refl p⟩
      | setPrefetch on =>
          rw [hcommand] at hdone
          cases hdone
          exact ⟨rfl, rfl, fun _ => .inl rfl⟩
      | start cmdName phaseName =>
          rw [hcommand] at hdone
          have hphase : prefetchStartBootPhase env p cmdName phaseName = some done := hdone
          obtain ⟨hrun, hfiles⟩ := prefetchStartBootPhase_kept hphase
          exact ⟨hrun, hfiles⟩
      | stop =>
          rw [hcommand] at hdone
          obtain ⟨hstep, hfiles⟩ := stopBootTracing_kept hdone
          exact ⟨by rw [run_cons, hstep]; rfl, hfiles⟩

end Events

end Prefetch.Boot

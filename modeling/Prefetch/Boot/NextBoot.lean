/-
# Prefetch.Boot.NextBoot — what a boot traced is prefetched in the next one (`prefetch_boot.c`, `prefetch_core.c`)

A phase is traced from the command that starts it to the command that starts the next one, or stops. Its records
are read out of the buffer between two markers, written behind a header, and read back in the next boot by the
command that prefetches the phase (`next_boot_prefetches`). In between any number of commands may be carried out
and other clients may trace, as long as the phase itself is not traced again.

The file is the one thing that is handed on. `Since` says what is due for it while the phase is traced,
`FileHolds` what is in it, and `Elsewhere` that nobody is about to replace it.
-/
import Prefetch.Boot.Commands

namespace Prefetch.Boot

open Prefetch.Core Prefetch.TraceFile Words Transfers Runs
open Prefetch.App (kernelCtype)

variable {M : Machine} {κ ι σ ν : Type*}

/-! ## §1 — a file is written -/

/-- A complete trace file: a header, and behind it the records as they lie in memory. -/
def FileHolds (e : Codec.Endian) (file : Option (List UInt8)) (rs : List (Record M)) : Prop :=
  ∃ trace, file = some (headerBytes e ++ trace) ∧ trace.length = rs.length * M.sizeofRecord ∧
    recordsIn e M trace = rs

/-- A save meets nothing that goes wrong: the header is written by one call, and every other call moves on. -/
structure SaveWorks (env : StopMarker.SaveEnv M) : Prop where
  filenameMemory : env.filenameMemory = true
  fragmentMemory : env.fragmentMemory = true
  opened : env.opened = none
  header : (env.writes 0).moved sizeofHeader = sizeofHeader
  writes : ∀ i, (env.writes i).Moves

/-- More fuel than enough changes nothing. -/
theorem writeFragment_add {fragment : List UInt8} {dataStart : ℕ} {writes : ℕ → Outcome Errno}
    {fuel call written : ℕ} {ret : ℤ} {file : List UInt8} {done : ℤ × List UInt8} (more : ℕ)
    (h : writeFragment fragment dataStart writes fuel call written ret file = some done) :
    writeFragment fragment dataStart writes (fuel + more) call written ret file = some done := by
  induction fuel generalizing call written ret file with
  | zero => cases h
  | succ fuel ih =>
      rw [Nat.add_right_comm]
      unfold writeFragment at h ⊢
      by_cases hleft : written < fragment.length
      · rw [if_pos hleft] at h ⊢
        dsimp only at h ⊢
        by_cases hneg : (kernelWrite file (writes call) (dataStart + written) (fragment.drop written)).1 < 0
        · rw [if_pos hneg] at h ⊢
          exact h
        · rw [if_neg hneg] at h ⊢
          exact ih h
      · rw [if_neg hleft] at h ⊢
        exact h

/-- A write that returns leaves the whole file, where its calls move on. -/
theorem saved_file {env : StopMarker.SaveEnv M} (hworks : SaveWorks env) {fragment : List UInt8} {fuel : ℕ}
    {done : ℤ × List UInt8}
    (h : prefetchSaveTraceFragment env.endian none [] fragment env.writes fuel = some done) :
    done.2 = headerBytes env.endian ++ fragment := by
  rw [save_header_full env.endian [] hworks.header] at h
  obtain ⟨last, -, enough, hrun⟩ := writeFragment_completes (length_headerBytes env.endian)
    (Int.natCast_nonneg sizeofHeader) (completes_of_moves fragment.length fun i => hworks.writes (i + 1))
  have hmore := writeFragment_add enough h
  rw [hrun (fuel + enough) (Nat.le_add_left enough fuel)] at hmore
  rw [← Option.some.inj hmore]

/-- The fragment that is handed out, in bytes. -/
theorem ofRecords_eq (rs : List (Record M)) :
    ∃ cells, FragmentResult.ofRecords rs = .ok cells ((rs.length * M.sizeofRecord : ℕ) : ℤ) := by
  unfold FragmentResult.ofRecords
  by_cases hnone : rs = []
  · rw [if_pos hnone, hnone]
    exact ⟨none, by simp⟩
  · rw [if_neg hnone]
    exact ⟨_, rfl⟩

/-- **A save leaves the records appended since the marker**, where nothing goes wrong. -/
theorem saved_holds {env : StopMarker.SaveEnv M} (hworks : SaveWorks env) {boot : BootState M}
    {t₁ t : PrefetchTrace M} {live current : List (Record M)} (hlive : Live t₁ live)
    (happends : Appends t₁ t current) (hmarker : boot.bootStartMarker = getTraceMarker t₁) {phaseName : String}
    {fuel : ℕ} {saved : ℤ × Option StopMarker.SavedTrace}
    (h : StopMarker.prefetchSaveBootTrace env boot t phaseName (getTraceMarker t) fuel = some saved)
    (files : TraceFiles) :
    FileHolds env.endian (storeSaved files saved.2 (env.filenameTemplate phaseName)) current := by
  have hget := happends.fragment hlive (.refl t)
  obtain ⟨cells, hcells⟩ := ofRecords_eq current
  rw [hcells] at hget
  unfold StopMarker.prefetchSaveBootTrace StopMarker.prefetchSaveTraceBetweenMarkers at h
  rw [if_neg (not_not.mpr hworks.filenameMemory), hworks.fragmentMemory, hmarker, hget, hworks.opened] at h
  obtain ⟨done, hdone, rfl⟩ := Option.map_eq_some_iff.mp h
  have hfile := saved_file hworks hdone
  rw [Int.toNat_natCast] at hfile
  refine ⟨StopMarker.fragmentBytes env.endian env.buffer t (getTraceMarker t₁).position.toNat
    (current.length * M.sizeofRecord), ?_, StopMarker.length_fragmentBytes _ _,
    StopMarker.recordsIn_between hlive happends (.refl t)⟩
  show Function.update files (env.filenameTemplate phaseName) (some done.2) (env.filenameTemplate phaseName) = _
  rw [Function.update_self, hfile]

/-! ## §2 — a file is read -/

/-- Prefetching a phase meets nothing that goes wrong: the header is read by one call, every other call moves on,
and the lookups succeed. -/
structure PrefetchWorks (env : PrefetchEnv M σ ν) : Prop where
  filenameMemory : env.filenameMemory = true
  opened : env.opened = none
  traceMemory : env.traceMemory.isSome = true
  header : (env.reads 0).moved sizeofHeader = sizeofHeader
  reads : ∀ i, (env.reads i).Moves
  lookups : env.lookups.Succeed

/-- The size that is loaded is that of the data. -/
theorem loaded_size {e : Codec.Endian} {opened : Option Errno} {memory : Option ℕ} {file data : List UInt8}
    {reads : ℕ → Outcome Errno} {size : BitVec 32}
    (h : (Buffers.prefetchLoadTraceFragment e opened memory file reads).result = .ok (size, data)) :
    size.toInt = data.length := by
  obtain ⟨-, ret, heq⟩ | ⟨-, heq⟩ := Buffers.prefetchLoadTraceFragment_cases e opened memory file reads
  · rw [heq] at h
    cases h
  rw [heq] at h
  unfold Buffers.loadData at h
  generalize BitVec.ofNat 32 file.length - (headerOf e file).dataStart.setWidth 32 = rawDataSize at h
  dsimp only at h
  by_cases hneg : rawDataSize.toInt < 0
  · rw [if_pos hneg] at h
    cases h
  rw [if_neg hneg] at h
  by_cases hzero : rawDataSize = 0
  · rw [if_pos hzero] at h
    cases h
  rw [if_neg hzero] at h
  cases halloc : Buffers.allocBuffer rawDataSize memory with
  | none =>
      rw [halloc] at h
      cases h
  | some buffer =>
      rw [halloc] at h
      dsimp only at h
      split at h
      · cases h
      · next whole hread =>
        by_cases hall : whole.length = rawDataSize.toNat
        · rw [if_pos hall] at h
          cases h
          rw [BitVec.toInt_eq_toNat_cond] at hneg ⊢
          split_ifs at hneg ⊢ <;> omega
        · rw [if_neg hall] at h
          cases h

/-- The records of a trace in memory, one after the other. -/
theorem map_recordAt {e : Codec.Endian} {trace : List UInt8} {rs : List (Record M)}
    (h : recordsIn e M trace = rs) {n : ℕ} (hn : n ≤ rs.length) :
    (List.range n).map (recordAt e trace) = rs.take n := by
  apply List.ext_getElem
  · rw [List.length_map, List.length_range, List.length_take, min_eq_left hn]
  · intro i hi _
    rw [List.length_map, List.length_range] at hi
    have hlt : i < rs.length := by omega
    rw [List.getElem_map, List.getElem_range, List.getElem_take, recordAt, h, List.getD_eq_getElem?_getD,
      List.getElem?_eq_getElem hlt, Option.getD_some]

/-- The readaheads that are made: one for each of the records, in order, with its range. -/
def AskedFor (readaheads : List (Readahead M ν)) (rs : List (Record M)) : Prop :=
  readaheads.map Readahead.record = rs ∧
    ∀ r ∈ readaheads, r.start = r.record.rangeStart ∧ r.length = r.record.rangeLength

/-- **A trace in memory is prefetched** but for its last records, as many as a record has bytes less one. -/
theorem startPrefetch_asks {env : PrefetchEnv M σ ν} (hlookups : env.lookups.Succeed) {trace : List UInt8}
    {size : BitVec 32} {rs : List (Record M)} (hsize : size.toInt = ((rs.length * M.sizeofRecord : ℕ) : ℤ))
    (hrecords : recordsIn env.endian M trace = rs) :
    AskedFor (startPrefetch env true trace size).readaheads (rs.take (rs.length + 1 - M.sizeofRecord)) := by
  have hpos := M.sizeofRecord_pos
  have hreached : recordsReached M size.toInt = rs.length + 1 - M.sizeofRecord := by
    apply recordsReached_of_complete
    · rw [hsize]
    · rw [hsize, Nat.add_mul]
      omega
  have hranges := prefetchDoPrefetch_ranges hlookups (recordAt env.endian trace) size.toInt
  obtain ⟨hsub, hright, -⟩ := prefetch_handles env.lookups true (recordAt env.endian trace) size.toInt
  have hlength := congrArg List.length hranges
  rw [List.length_map, List.length_map] at hlength
  rw [hreached] at hsub hlength
  rw [map_recordAt hrecords (by omega)] at hsub
  refine ⟨hsub.eq_of_length ?_, fun r hr => ⟨(hright r hr).start, (hright r hr).length⟩⟩
  rw [List.length_map, List.length_take, min_eq_left (by omega)]
  exact hlength.trans List.length_range

/-- **A file that holds records is prefetched.** -/
theorem prefetchFromFile_asks {env : PrefetchEnv M σ ν} (hworks : PrefetchWorks env) {file : Option (List UInt8)}
    {rs : List (Record M)} (hfile : FileHolds env.endian file rs)
    (hsize : sizeofHeader + rs.length * M.sizeofRecord < 2 ^ 31) :
    AskedFor (prefetchFromFile env true file).2 (rs.take (rs.length + 1 - M.sizeofRecord)) := by
  obtain ⟨trace, rfl, hlength, hrecords⟩ := hfile
  have hresult := Buffers.prefetchLoadTraceFragment_result env.endian env.opened env.traceMemory
    (headerBytes env.endian ++ trace) env.reads
  rw [hworks.traceMemory] at hresult
  unfold prefetchFromFile
  dsimp only
  cases hload : (Buffers.prefetchLoadTraceFragment env.endian env.opened env.traceMemory
      (headerBytes env.endian ++ trace) env.reads).result with
  | error ret =>
      -- only an empty trace is not loaded
      have hnone : trace = [] := by
        by_contra hne
        rw [hload, hworks.opened, load_saved env.endian hne (by omega) hworks.header hworks.reads] at hresult
        cases hresult
      rw [hnone, List.length_nil] at hlength
      have hzero : rs.length = 0 := by
        rcases Nat.mul_eq_zero.mp hlength.symm with hzero | hzero
        · exact hzero
        · exact absurd hzero M.sizeofRecord_pos.ne'
      rw [List.length_eq_zero_iff.mp hzero, List.take_nil]
      exact ⟨rfl, fun r hr => absurd hr List.not_mem_nil⟩
  | ok loaded =>
      obtain ⟨size, data⟩ := loaded
      have hdata : data = trace := by
        rw [hload, hworks.opened] at hresult
        have hwhole : (headerBytes env.endian ++ trace).length = sizeofHeader + trace.length := by
          rw [List.length_append, length_headerBytes]
        obtain ⟨-, -, -, hdata⟩ :=
          (load_eq_ok_iff env.endian (by omega) (by omega) hworks.header hworks.reads).mp hresult.symm
        rw [headerOf_saved] at hdata
        exact hdata.trans (List.drop_left' (length_headerBytes env.endian))
      subst hdata
      apply startPrefetch_asks hworks.lookups _ hrecords
      rw [loaded_size hload, hlength]

/-! ## §3 — a file that nobody replaces -/

/-- The event starts tracing the phase. -/
def ProcEvent.Traces (phaseName : String) : ProcEvent M κ ι σ ν → Prop
  | .write buffer env => ∃ cmdName, command env.read buffer = .start cmdName phaseName ∧ TracesPhase cmdName
  | .client _ => False

/-- Boot tracing, if it runs, is in another phase. -/
def Elsewhere (phaseName : String) (s : BootSystem M κ ι) : Prop :=
  s.boot.bootTracingRunning = true → s.boot.bootTracingPhase ≠ phaseName

section Kept

variable [DecidableEq κ] [DecidableEq ι] {p q : BootProc M κ ι} {s s' : BootSystem M κ ι} {phaseName : String}
  {e : ProcEvent M κ ι σ ν} {es : List (ProcEvent M κ ι σ ν)}

omit [DecidableEq κ] [DecidableEq ι] in
theorem elsewhere_load (memory enabled : Bool) (traceSizeKb : BitVec 32) (cache : ι → AddressSpace M) :
    Elsewhere phaseName (load memory enabled traceSizeKb cache : BootSystem M κ ι) := fun h => by cases h

/-- A call leaves boot tracing elsewhere, unless it starts the phase. -/
theorem step_elsewhere {b : BootEvent M κ ι} (h : Elsewhere phaseName s)
    (hb : ∀ plan marker next, b = .startPhase plan marker next → copyPhaseName next ≠ phaseName)
    (hstep : step s b = some s') : Elsewhere phaseName s' := by
  cases step_effect hstep with
  | continueFailed => exact h
  | continued => exact fun _ => hb _ _ _ rfl
  | startFailed hidle =>
      intro hrunning
      exact absurd hrunning (by simp [hidle])
  | started => exact fun _ => hb _ _ _ rfl
  | notRunning => exact h
  | stopped => exact fun hrunning => by cases hrunning
  | client => exact h

omit [DecidableEq κ] [DecidableEq ι] in
/-- What an event starts is what its command says. -/
theorem startPhase_mem_bootEvents {plan : WalkPlan M ι} {marker : TraceMarker} {next : String}
    (h : .startPhase plan marker next ∈ e.bootEvents) : copyPhaseName next = next ∧ e.Traces next := by
  cases e with
  | client e =>
      rw [ProcEvent.bootEvents, List.mem_singleton] at h
      cases h
  | write buffer env =>
      rw [bootEvents_write] at h
      cases hcommand : command env.read buffer with
      | returns ret => simp [hcommand] at h
      | setPrefetch on => simp [hcommand] at h
      | stop => simp [hcommand] at h
      | start cmdName phaseName =>
          simp only [hcommand] at h
          by_cases htraces : TracesPhase cmdName
          · rw [if_pos htraces, List.mem_singleton] at h
            cases h
            exact ⟨copyPhaseName_command hcommand, cmdName, hcommand, htraces⟩
          · rw [if_neg htraces] at h
            cases h

/-- An event that does not start the phase leaves boot tracing elsewhere. -/
theorem procStep_elsewhere (h : Elsewhere phaseName p.sys) (he : ¬ e.Traces phaseName)
    (hstep : procStep p e = some q) : Elsewhere phaseName q.sys := by
  refine run_invariant (fun s b s' hb hs hstep => step_elsewhere hs ?_ hstep) (procStep_kept hstep).1 h
  rintro plan marker next rfl
  obtain ⟨hcopy, htraces⟩ := startPhase_mem_bootEvents hb
  intro hphase
  exact he (hphase ▸ hcopy.symm ▸ htraces)

/-- **The file of a phase is kept** by every run that does not trace the phase. -/
theorem run_files (h : Elsewhere phaseName p.sys) (hes : ∀ e ∈ es, ¬ e.Traces phaseName)
    (hinjective : Function.Injective p.filenameTemplate) (hrun : run procStep p es = some q) :
    Elsewhere phaseName q.sys ∧ q.filenameTemplate = p.filenameTemplate ∧
      q.files (p.filenameTemplate phaseName) = p.files (p.filenameTemplate phaseName) := by
  induction es generalizing p with
  | nil =>
      cases hrun
      exact ⟨h, rfl, rfl⟩
  | cons e es ih =>
      obtain ⟨u, hstep, hes'⟩ := run_cons_eq_some.1 hrun
      obtain ⟨-, htemplate, hfiles⟩ := procStep_kept hstep
      have hu := procStep_elsewhere h (hes e List.mem_cons_self) hstep
      have hsame : u.files (p.filenameTemplate phaseName) = p.files (p.filenameTemplate phaseName) := by
        rcases hfiles (p.filenameTemplate phaseName) with hkept | ⟨hrunning, hname⟩
        · exact hkept
        · exact absurd (hinjective hname).symm (h hrunning)
      obtain ⟨hq, htemplate', hfiles'⟩ := ih hu (fun f hf => hes f (List.mem_cons_of_mem e hf))
        (htemplate ▸ hinjective) hes'
      rw [htemplate] at htemplate' hfiles'
      exact ⟨hq, htemplate', hfiles'.trans hsame⟩

/-- To the core a run is the run of the calls it makes. -/
theorem run_calls (hrun : run procStep p es = some q) :
    run step p.sys (es.flatMap ProcEvent.bootEvents) = some q.sys := by
  induction es generalizing p with
  | nil =>
      cases hrun
      rfl
  | cons e es ih =>
      obtain ⟨u, hstep, hes⟩ := run_cons_eq_some.1 hrun
      rw [List.flatMap_cons]
      exact run_trans (procStep_kept hstep).1 (ih hes)

end Kept

/-! ## §4 — a phase that is traced -/

/-- The phase has been traced since its marker was taken at `t`, and `current` appended. -/
structure Since (phaseName : String) (t : PrefetchTrace M) (current : List (Record M)) (s : BootSystem M κ ι) :
    Prop where
  running : s.boot.bootTracingRunning = true
  phase : s.boot.bootTracingPhase = phaseName
  marker : s.boot.bootStartMarker = getTraceMarker t
  live : ∃ live, Live t live
  appends : Appends t s.core.trace current

/-- The event makes no call of boot tracing. -/
def ProcEvent.SamePhase (e : ProcEvent M κ ι σ ν) : Prop := ∀ b ∈ e.bootEvents, ∃ c, b = .client c

/-- The core does its part where a command starts the phase: the walk succeeds, and where it is the first phase
boot tracing gets its marker. -/
def Begins [DecidableEq ι] (env : CommandEnv M ι σ ν) (p : BootProc M κ ι) : Prop :=
  if p.sys.boot.bootTracingRunning then 0 ≤ (prefetchContinueTrace env.plan env.marker p.sys.core).ret
  else
    0 ≤ (prefetchStartTrace env.plan p.sys.boot.bootStartMarker p.sys.core).ret ∧
      (p.sys.core.trace.tracersCount = 0 ∨ p.sys.boot.bootStartMarker = getTraceMarker p.sys.core.trace)

/-- Where the records of the phase begin in the history: a walk belongs to the phase before, if there is one. -/
def phaseStart (p q : BootProc M κ ι) : ℕ :=
  if p.sys.boot.bootTracingRunning then q.sys.core.trace.history.length else p.sys.core.trace.history.length

/-- The command ends the phase, and the core does its part. -/
def Ends [DecidableEq ι] (env : CommandEnv M ι σ ν) (p : BootProc M κ ι) (phaseName : String) :
    BootCommand → Prop
  | .start cmdName next =>
      TracesPhase cmdName ∧ next ≠ phaseName ∧ 0 ≤ (prefetchContinueTrace env.plan env.marker p.sys.core).ret
  | .stop => 0 ≤ (prefetchStopTrace env.plan env.marker p.sys.core).ret
  | _ => False

section Traced

variable [DecidableEq κ] [DecidableEq ι] [Fintype κ] {p q : BootProc M κ ι} {s s' : BootSystem M κ ι}
  {phaseName cmdName : String} {env : CommandEnv M ι σ ν} {buffer : List Char} {t : PrefetchTrace M}
  {current : List (Record M)} {es : List (ProcEvent M κ ι σ ν)}

/-- **While a phase is traced its records are appended**, whatever others do. -/
theorem run_since {bs : List (BootEvent M κ ι)} (hinv : Inv s) (h : Since phaseName t current s)
    (hbs : ∀ b ∈ bs, ∃ c, b = .client c) (hrun : run step s bs = some s') :
    ∃ new, Since phaseName t (current ++ new) s' := by
  induction bs generalizing s current with
  | nil =>
      cases hrun
      exact ⟨[], by rwa [List.append_nil]⟩
  | cons b bs ih =>
      obtain ⟨u, hstep, hrest⟩ := run_cons_eq_some.1 hrun
      obtain ⟨c, rfl⟩ := hbs b List.mem_cons_self
      obtain ⟨-, new, hnew⟩ := step_appends hinv h.running (fun _ _ _ heq => by cases heq) hstep
      have hu : Since phaseName t (current ++ new) u := by
        cases step_effect hstep
        exact ⟨h.running, h.phase, h.marker, h.live, h.appends.trans hnew⟩
      obtain ⟨more, hmore⟩ := ih (step_inv hinv hstep) hu (fun b hb => hbs b (List.mem_cons_of_mem _ hb)) hrest
      exact ⟨new ++ more, by rwa [← List.append_assoc]⟩

omit [Fintype κ] in
/-- A tracing command is one call. -/
theorem step_of_traces (hcommand : command env.read buffer = .start cmdName phaseName)
    (htraces : TracesPhase cmdName) (hstep : procStep p (.write buffer env) = some q) :
    step p.sys (.startPhase env.plan env.marker phaseName) = some q.sys := by
  have hrun := (procStep_kept hstep).1
  rw [bootEvents_write, hcommand] at hrun
  simp only [if_pos htraces] at hrun
  obtain ⟨u, hu, hrest⟩ := run_cons_eq_some.1 hrun
  cases hrest
  exact hu

/-- Starting a phase neither enables nor disables the core. -/
theorem step_enabled {plan : WalkPlan M ι} {marker : TraceMarker} (hinv : Inv s)
    (hstep : step s (.startPhase plan marker phaseName) = some s') : s'.core.enabled = s.core.enabled := by
  have hcontinue : ∀ r, prefetchContinueTrace plan marker s.core = r → r.core.enabled = s.core.enabled := by
    intro r hr
    rcases prefetchContinueTrace_effect hinv.clearing hr with ⟨-, -, heffect⟩ | ⟨-, -, heffect⟩
    · exact heffect.enabled
    · exact heffect.enabled
  have hstart : ∀ r, prefetchStartTrace plan s.boot.bootStartMarker s.core = r →
      r.core.enabled = s.core.enabled := by
    intro r hr
    rcases prefetchStartTrace_effect hinv.clearing hr with ⟨-, -, heffect⟩ | ⟨-, -, heffect⟩
    · exact heffect.enabled
    · exact heffect.enabled
  cases step_effect hstep with
  | continueFailed hrunning hr => exact hcontinue _ hr
  | continued hrunning hr => exact hcontinue _ hr
  | startFailed hrunning hr => exact hstart _ hr
  | started hrunning hr => exact hstart _ hr

omit [DecidableEq κ] [Fintype κ] in
theorem startBootTracingPhase_prefetchEnabled (h : startBootTracingPhase env p phaseName = some q) :
    q.prefetchEnabled = p.prefetchEnabled := by
  unfold startBootTracingPhase at h
  dsimp only at h
  split_ifs at h
  · obtain ⟨saved, -, rfl⟩ := Option.map_eq_some_iff.mp h
    rfl
  · cases h
    rfl

/-- **The start of a phase.** -/
theorem begins_since (hinv : Inv p.sys) (hcommand : command env.read buffer = .start cmdName phaseName)
    (htraces : TracesPhase cmdName) (hbegins : Begins env p) (hstep : procStep p (.write buffer env) = some q) :
    ∃ t current, Since phaseName t current q.sys ∧ t.history.length = phaseStart p q := by
  have hcall := step_of_traces hcommand htraces hstep
  have hcopy := copyPhaseName_command hcommand
  have hinv' := step_inv hinv hcall
  unfold Begins at hbegins
  unfold phaseStart
  generalize q.sys = s' at hcall hinv' ⊢
  cases step_effect hcall with
  | @continueFailed _ _ _ r hrunning hr hret =>
      rw [if_pos hrunning, hr] at hbegins
      omega
  | @continued _ _ _ r hrunning hr hret =>
      rcases prefetchContinueTrace_effect hinv.clearing hr with ⟨hneg, -⟩ | ⟨-, hmarker, -⟩
      · omega
      refine ⟨r.core.trace, [], ⟨rfl, hcopy, hmarker, hinv'.live, .refl _⟩, ?_⟩
      rw [if_pos hrunning]
  | @startFailed _ _ _ r hrunning hr hret =>
      rw [if_neg (by simp [hrunning]), hr] at hbegins
      omega
  | @started _ _ _ r hrunning hr hret =>
      rw [if_neg (by simp [hrunning])] at hbegins
      rcases prefetchStartTrace_effect hinv.clearing hr with ⟨hneg, -⟩ | ⟨-, hmarker, heffect⟩
      · omega
      obtain ⟨new, hnew⟩ := heffect.appends
      have hset : r.marker = getTraceMarker p.sys.core.trace := by
        rw [hmarker]
        split
        · rfl
        · next hcounted => exact hbegins.2.resolve_left hcounted
      refine ⟨p.sys.core.trace, new, ⟨rfl, hcopy, hset, hinv.live, hnew⟩, ?_⟩
      rw [if_neg (by simp [hrunning])]

omit [DecidableEq κ] [DecidableEq ι] [Fintype κ] in
/-- The template of the module does not matter. -/
theorem SaveWorks.saveEnv (h : SaveWorks env.save) (p : BootProc M κ ι) : SaveWorks (p.saveEnv env) :=
  ⟨h.filenameMemory, h.fragmentMemory, h.opened, h.header, h.writes⟩

omit [DecidableEq κ] [Fintype κ] in
/-- A tracing command leaves what starting to trace leaves. -/
theorem startBootTracingPhase_of_traces {done : Executed M κ ι ν} (htraces : TracesPhase cmdName)
    (h : prefetchStartBootPhase env p cmdName phaseName = some done) :
    startBootTracingPhase env p phaseName = some done.proc := by
  unfold prefetchStartBootPhase at h
  dsimp only at h
  rcases htraces with rfl | rfl
  · obtain ⟨u, hu, rfl⟩ := Option.map_eq_some_iff.mp h
    exact hu
  · obtain ⟨u, hu, rfl⟩ := Option.map_eq_some_iff.mp h
    exact hu

/-- **Another phase starts**: the file holds what was appended up to its marker. -/
theorem continued_holds {next : String} (hinv : Inv p.sys) (h : Since phaseName t current p.sys)
    (hworks : SaveWorks env.save) (hret : 0 ≤ (prefetchContinueTrace env.plan env.marker p.sys.core).ret)
    (hstart : startBootTracingPhase env p next = some q) :
    ∃ new, q.sys.core.trace.history = p.sys.core.trace.history ++ new ∧
      FileHolds env.save.endian (q.files (p.filenameTemplate phaseName)) (current ++ new) := by
  rcases prefetchContinueTrace_effect hinv.clearing (rfl : prefetchContinueTrace env.plan env.marker p.sys.core = _)
    with ⟨hneg, -⟩ | ⟨-, hmarker, heffect⟩
  · omega
  obtain ⟨new, hnew⟩ := heffect.appends
  obtain ⟨live, hlive⟩ := h.live
  have hcore : q.sys.core = (prefetchContinueTrace env.plan env.marker p.sys.core).core := by
    have hcall := (startBootTracingPhase_kept hstart).1
    generalize q.sys = s' at hcall ⊢
    cases step_effect hcall with
    | continueFailed hrunning hr hneg => rw [← hr]
    | continued hrunning hr => rw [← hr]
    | startFailed hidle => simp [h.running] at hidle
    | started hidle => simp [h.running] at hidle
  refine ⟨new, by rw [hcore]; exact hnew.history, ?_⟩
  unfold startBootTracingPhase at hstart
  dsimp only at hstart
  rw [if_pos ⟨h.running, hret⟩, h.phase, hmarker] at hstart
  obtain ⟨saved, hsaved, rfl⟩ := Option.map_eq_some_iff.mp hstart
  exact saved_holds (hworks.saveEnv p) hlive (h.appends.trans hnew) h.marker hsaved p.files

/-- **Boot tracing stops**: the file holds what was appended up to the stop. -/
theorem stopped_holds {done : Executed M κ ι ν} (hinv : Inv p.sys) (h : Since phaseName t current p.sys)
    (hworks : SaveWorks env.save) (hret : 0 ≤ (prefetchStopTrace env.plan env.marker p.sys.core).ret)
    (hstop : stopBootTracing env p = some done) :
    ∃ new, done.proc.sys.core.trace.history = p.sys.core.trace.history ++ new ∧
      FileHolds env.save.endian (done.proc.files (p.filenameTemplate phaseName)) (current ++ new) := by
  rcases prefetchStopTrace_effect hinv.clearing (rfl : prefetchStopTrace env.plan env.marker p.sys.core = _)
    with ⟨hneg, -⟩ | ⟨-, hmarker, heffect⟩
  · omega
  obtain ⟨new, hnew⟩ := heffect.appends
  obtain ⟨live, hlive⟩ := h.live
  have hcall := (stopBootTracing_kept hstop).1
  unfold stopBootTracing at hstop
  obtain ⟨result, hresult, rfl⟩ := Option.map_eq_some_iff.mp hstop
  unfold StopMarker.prefetchStopBootTracing at hresult
  rw [if_neg (not_not.mpr h.running)] at hresult
  dsimp only at hresult
  rw [h.phase, hmarker] at hresult
  obtain ⟨saved, hsaved, rfl⟩ := Option.map_eq_some_iff.mp hresult
  refine ⟨new, ?_, saved_holds (hworks.saveEnv p) hlive (h.appends.trans hnew) h.marker hsaved p.files⟩
  -- the release keeps the history
  have hcore : (prefetchStopBootTracing env.plan env.marker env.releaseMemory p.sys.boot p.sys.core).core =
      prefetchReleaseTrace env.releaseMemory (prefetchStopTrace env.plan env.marker p.sys.core).core := by
    unfold prefetchStopBootTracing
    rw [if_neg (not_not.mpr h.running)]
  show (prefetchStopBootTracing env.plan env.marker env.releaseMemory p.sys.boot p.sys.core).core.trace.history = _
  rw [hcore, prefetchReleaseTrace_history, hnew.history]

/-- **The end of a phase**: its file holds its records, and boot tracing is elsewhere. -/
theorem ends_holds (hinv : Inv p.sys) (h : Since phaseName t current p.sys) (hworks : SaveWorks env.save)
    (hends : Ends env p phaseName (command env.read buffer)) (hstep : procStep p (.write buffer env) = some q) :
    FileHolds env.save.endian (q.files (p.filenameTemplate phaseName))
        (q.sys.core.trace.history.drop t.history.length) ∧
      Elsewhere phaseName q.sys := by
  have hhistory := h.appends.history
  obtain ⟨written, hwritten, rfl⟩ := Option.map_eq_some_iff.mp hstep
  obtain ⟨done, hdone, rfl⟩ := Option.map_eq_some_iff.mp hwritten
  cases hcommand : command env.read buffer with
  | returns ret =>
      rw [hcommand] at hends
      exact hends.elim
  | setPrefetch on =>
      rw [hcommand] at hends
      exact hends.elim
  | start cmdName next =>
      rw [hcommand] at hends hdone
      obtain ⟨htraces, hother, hret⟩ := hends
      have hstart := startBootTracingPhase_of_traces htraces hdone
      obtain ⟨new, hnew, hholds⟩ := continued_holds hinv h hworks hret hstart
      refine ⟨?_, ?_⟩
      · rw [hnew, hhistory, List.append_assoc, List.drop_left]
        exact hholds
      · have hcall := (startBootTracingPhase_kept hstart).1
        have hcopy := copyPhaseName_command hcommand
        show Elsewhere phaseName done.proc.sys
        generalize done.proc.sys = s' at hcall ⊢
        cases step_effect hcall with
        | continueFailed hrunning hr hneg =>
            rw [hr] at hret
            omega
        | continued => exact fun _ hphase => hother (hcopy.symm.trans hphase)
        | startFailed hidle => simp [h.running] at hidle
        | started hidle => simp [h.running] at hidle
  | stop =>
      rw [hcommand] at hends hdone
      obtain ⟨new, hnew, hholds⟩ := stopped_holds hinv h hworks hends hdone
      refine ⟨?_, ?_⟩
      · rw [hnew, hhistory, List.append_assoc, List.drop_left]
        exact hholds
      · have hcall := (stopBootTracing_kept hdone).1
        show Elsewhere phaseName done.proc.sys
        generalize done.proc.sys = s' at hcall ⊢
        cases step_effect hcall with
        | notRunning hidle => simp [h.running] at hidle
        | stopped => exact fun hrunning => by cases hrunning

end Traced

/-! ## §5 — the next boot -/

/-- A command that prefetches the phase it names. -/
def PrefetchesPhase (cmdName : String) : Prop := cmdName = "prefetch" ∨ cmdName = "both"

section Boots

variable [DecidableEq κ] [DecidableEq ι] [Fintype κ] {p q : BootProc M κ ι} {phaseName cmdName : String}
  {env : CommandEnv M ι σ ν} {buffer : List Char} {rs : List (Record M)}

/-- What a phase's command prefetches is the file of the phase, also where it traces the phase, too. -/
theorem readaheads_of_prefetches {done : Executed M κ ι ν} (hinv : Inv p.sys) (helse : Elsewhere phaseName p.sys)
    (hinjective : Function.Injective p.filenameTemplate)
    (hcommand : command env.read buffer = .start cmdName phaseName) (hprefetches : PrefetchesPhase cmdName)
    (hdone : bootPrefetchProcWrite env p buffer = some done) (hon : p.prefetchEnabled = true)
    (hmemory : env.prefetch.filenameMemory = true) :
    done.readaheads =
      (prefetchFromFile env.prefetch p.sys.core.enabled (p.files (p.filenameTemplate phaseName))).2 := by
  obtain ⟨done, hphase, rfl⟩ := Option.map_eq_some_iff.mp hdone
  rw [hcommand] at hphase
  have hread : ∀ u : BootProc M κ ι, u.prefetchEnabled = true →
      (prefetchStartBootPrefetchingPhase env.prefetch u phaseName).2 =
        (prefetchFromFile env.prefetch u.sys.core.enabled (u.files (u.filenameTemplate phaseName))).2 := by
    intro u hu
    unfold prefetchStartBootPrefetchingPhase
    rw [if_neg (not_not.mpr hu), if_neg (not_not.mpr hmemory)]
  have hphase : prefetchStartBootPhase env p cmdName phaseName = some done := hphase
  unfold prefetchStartBootPhase at hphase
  dsimp only at hphase
  rcases hprefetches with rfl | rfl
  · cases hphase
    exact hread p hon
  · rw [if_neg (by decide), if_neg (by decide), if_pos rfl] at hphase
    obtain ⟨u, hu, rfl⟩ := Option.map_eq_some_iff.mp hphase
    obtain ⟨hcall, htemplate, hfiles⟩ := startBootTracingPhase_kept hu
    have hfile : u.files (p.filenameTemplate phaseName) = p.files (p.filenameTemplate phaseName) := by
      rcases hfiles (p.filenameTemplate phaseName) with hkept | ⟨hrunning, hname⟩
      · exact hkept
      · exact absurd (hinjective hname).symm (helse hrunning)
    have henabled : u.sys.core.enabled = p.sys.core.enabled := step_enabled hinv hcall
    have hsame : u.prefetchEnabled = p.prefetchEnabled := startBootTracingPhase_prefetchEnabled hu
    show (prefetchStartBootPrefetchingPhase env.prefetch u phaseName).2 = _
    rw [hread u (hsame.trans hon), henabled, htemplate, hfile]

omit [Fintype κ] in
/-- The template is the same in a whole run. -/
theorem run_template {es : List (ProcEvent M κ ι σ ν)} (hrun : run procStep p es = some q) :
    q.filenameTemplate = p.filenameTemplate :=
  run_invariant (I := fun u => u.filenameTemplate = p.filenameTemplate)
    (fun _ _ _ _ hu hstep => (procStep_kept hstep).2.1.trans hu) hrun rfl

/-- The records of a phase that starts from `p` with `p₁`: those appended until `q`. -/
def phaseRecords (p p₁ q : BootProc M κ ι) : List (Record M) :=
  q.sys.core.trace.history.drop (phaseStart p p₁)

section Traced

variable {p₀ p₁ p₂ p₃ p₄ : BootProc M κ ι} {pre mid rest : List (ProcEvent M κ ι σ ν)} {memory enabled : Bool}
  {traceSizeKb : BitVec 32} {cache : ι → AddressSpace M} {startLine stopLine : List Char}
  {startEnv stopEnv : CommandEnv M ι σ ν}

/-- **What a boot leaves of a phase**: a file with its records, and nobody about to replace it. -/
theorem traced_holds (hboot : p₀.sys = load memory enabled traceSizeKb cache) (hpre : run procStep p₀ pre = some p)
    (hcommand : command startEnv.read startLine = .start cmdName phaseName) (htraces : TracesPhase cmdName)
    (hbegins : Begins startEnv p) (hstart : procStep p (.write startLine startEnv) = some p₁)
    (hsame : ∀ e ∈ mid, e.SamePhase) (hmid : run procStep p₁ mid = some p₂)
    (hends : Ends stopEnv p₂ phaseName (command stopEnv.read stopLine)) (hsave : SaveWorks stopEnv.save)
    (hstop : procStep p₂ (.write stopLine stopEnv) = some p₃) (hlast : ∀ e ∈ rest, ¬ e.Traces phaseName)
    (hrest : run procStep p₃ rest = some p₄) (hinjective : Function.Injective p₀.filenameTemplate) :
    p₄.filenameTemplate = p₀.filenameTemplate ∧
      FileHolds stopEnv.save.endian (p₄.files (p₀.filenameTemplate phaseName)) (phaseRecords p p₁ p₃) := by
  have hinv₀ : Inv p₀.sys := hboot ▸ inv_load memory enabled traceSizeKb cache
  have hinv := run_inv hinv₀ (run_calls hpre)
  have hinv₁ := run_inv hinv (procStep_kept hstart).1
  have hinv₂ := run_inv hinv₁ (run_calls hmid)
  obtain ⟨t, current, hsince, hfrom⟩ := begins_since hinv hcommand htraces hbegins hstart
  have hquiet : ∀ b ∈ mid.flatMap ProcEvent.bootEvents, ∃ c, b = .client c := by
    intro b hb
    obtain ⟨e, he, hbe⟩ := List.mem_flatMap.mp hb
    exact hsame e he b hbe
  obtain ⟨new, hsince₂⟩ := run_since hinv₁ hsince hquiet (run_calls hmid)
  obtain ⟨hholds, helse⟩ := ends_holds hinv₂ hsince₂ hsave hends hstop
  have htemplate₂ : p₂.filenameTemplate = p₀.filenameTemplate :=
    (run_template hmid).trans ((procStep_kept hstart).2.1.trans (run_template hpre))
  have htemplate₃ : p₃.filenameTemplate = p₀.filenameTemplate := (procStep_kept hstop).2.1.trans htemplate₂
  obtain ⟨-, htemplate, hfile⟩ := run_files helse hlast (htemplate₃ ▸ hinjective) hrest
  rw [htemplate₂, hfrom] at hholds
  rw [htemplate₃] at htemplate hfile
  exact ⟨htemplate, by rw [hfile]; exact hholds⟩

variable {q₀ : BootProc M κ ι} {before : List (ProcEvent M κ ι σ ν)} {memory' enabled' : Bool}
  {traceSizeKb' : BitVec 32} {cache' : ι → AddressSpace M} {line : List Char} {cmdName' : String}
  {done : Executed M κ ι ν}

/-- **What was traced in one boot is prefetched in the next.** A phase is started, other commands and clients do
what they like, and the phase ends with its trace saved; it is not traced again in that boot. In the next boot,
before it is traced, a command that prefetches it asks for a readahead for each of its records, in order and with
its range, but for the last ones: as many as a record has bytes, less one. -/
theorem next_boot_prefetches (hboot : p₀.sys = load memory enabled traceSizeKb cache)
    (hpre : run procStep p₀ pre = some p) (hcommand : command startEnv.read startLine = .start cmdName phaseName)
    (htraces : TracesPhase cmdName) (hbegins : Begins startEnv p)
    (hstart : procStep p (.write startLine startEnv) = some p₁) (hsame : ∀ e ∈ mid, e.SamePhase)
    (hmid : run procStep p₁ mid = some p₂) (hends : Ends stopEnv p₂ phaseName (command stopEnv.read stopLine))
    (hsave : SaveWorks stopEnv.save) (hstop : procStep p₂ (.write stopLine stopEnv) = some p₃)
    (hlast : ∀ e ∈ rest, ¬ e.Traces phaseName) (hrest : run procStep p₃ rest = some p₄)
    (hinjective : Function.Injective p₀.filenameTemplate)
    (hreboot : q₀.sys = load memory' enabled' traceSizeKb' cache') (hfiles : q₀.files = p₄.files)
    (htemplate : q₀.filenameTemplate = p₄.filenameTemplate) (hfirst : ∀ e ∈ before, ¬ e.Traces phaseName)
    (hbefore : run procStep q₀ before = some q)
    (hcommand' : command env.read line = .start cmdName' phaseName) (hprefetches : PrefetchesPhase cmdName')
    (hworks : PrefetchWorks env.prefetch) (hendian : env.prefetch.endian = stopEnv.save.endian)
    (hon : q.prefetchEnabled = true) (henabled : q.sys.core.enabled = true)
    (hsize : sizeofHeader + (phaseRecords p p₁ p₃).length * M.sizeofRecord < 2 ^ 31)
    (hdone : bootPrefetchProcWrite env q line = some done) :
    AskedFor done.readaheads
      ((phaseRecords p p₁ p₃).take ((phaseRecords p p₁ p₃).length + 1 - M.sizeofRecord)) := by
  obtain ⟨htemplate₄, hholds⟩ := traced_holds hboot hpre hcommand htraces hbegins hstart hsame hmid hends hsave hstop
    hlast hrest hinjective
  have htemplate₀ : q₀.filenameTemplate = p₀.filenameTemplate := htemplate.trans htemplate₄
  have helse₀ : Elsewhere phaseName q₀.sys := hreboot ▸ elsewhere_load memory' enabled' traceSizeKb' cache'
  have hinv₀ : Inv q₀.sys := hreboot ▸ inv_load memory' enabled' traceSizeKb' cache'
  obtain ⟨helse, htemplateq, hfile⟩ := run_files helse₀ hfirst (htemplate₀ ▸ hinjective) hbefore
  have hinv := run_inv hinv₀ (run_calls hbefore)
  rw [htemplate₀] at htemplateq hfile
  rw [readaheads_of_prefetches hinv helse (htemplateq ▸ hinjective) hcommand' hprefetches hdone hon
    hworks.filenameMemory, henabled, htemplateq, hfile, hfiles]
  rw [← hendian] at hholds
  exact prefetchFromFile_asks hworks hholds hsize

end Traced

end Boots

/-! ## §6 — a page that is read again and again -/

section Sample

def sampleBootEnv : CommandEnv .bits32 Unit Unit Unit where
  plan := { order := [()] }
  marker := ⟨0, 0⟩
  save := StopMarker.sampleEnv
  fuel := 2
  prefetch := { reads := fun _ => .full, lookups := Lookups.always }

/-- The system comes up with these files. -/
def sampleBoot (files : TraceFiles) : BootProc .bits32 Unit Unit where
  sys := load true true 256 sampleCache
  files := files

/-- The page is touched, leaves the cache and comes back. -/
def rereads (n : ℕ) : List (ProcEvent .bits32 Unit Unit Unit Unit) :=
  (List.replicate n [.client (.env (.touch () 3)), .client (.env (.evict () 3 false)),
    .client (.env (.insert () 3))]).flatten

/-- The three lines that are written. -/
def traceLine : List Char := startLine "trace".toList "boot".toList
def prefetchLine : List Char := startLine "prefetch".toList "boot".toList
def stopLine : List Char := "boot tracing stop\n".toList

/-- What the run of the sample comes to: the stop succeeds, and there is a record for each time. -/
def sampleOutcome (p₁ p₂ p₃ : BootProc .bits32 Unit Unit) : Bool :=
  decide (0 ≤ (prefetchStopTrace sampleBootEnv.plan sampleBootEnv.marker p₂.sys.core).ret) &&
    (phaseRecords (sampleBoot fun _ => none) p₁ p₃).length == 16

theorem sampleRun_outcome :
    ((procStep (sampleBoot fun _ => none) (.write traceLine sampleBootEnv)).bind fun p₁ =>
      (run procStep p₁ (rereads 16)).bind fun p₂ =>
        (procStep p₂ (.write stopLine sampleBootEnv)).map fun p₃ => sampleOutcome p₁ p₂ p₃) = some true := by
  decide +kernel

theorem rereads_samePhase (n : ℕ) : ∀ e ∈ rereads n, e.SamePhase := by
  intro e he b hb
  obtain ⟨turn, hturn, he⟩ := List.mem_flatten.mp he
  rw [List.eq_of_mem_replicate hturn] at he
  simp only [List.mem_cons, List.not_mem_nil, or_false] at he
  rcases he with rfl | rfl | rfl <;> exact ⟨_, List.mem_singleton.mp hb⟩

theorem sampleBoot_injective (files : TraceFiles) : Function.Injective (sampleBoot files).filenameTemplate := by
  intro a b h
  exact (String.append_right_inj _).mp h

theorem sampleRun : ∃ p₁ p₂ p₃ : BootProc .bits32 Unit Unit,
    procStep (sampleBoot fun _ => none) (.write traceLine sampleBootEnv) = some p₁ ∧
    run procStep p₁ (rereads 16) = some p₂ ∧
    procStep p₂ (.write stopLine sampleBootEnv) = some p₃ ∧
    0 ≤ (prefetchStopTrace sampleBootEnv.plan sampleBootEnv.marker p₂.sys.core).ret ∧
    (phaseRecords (sampleBoot fun _ => none) p₁ p₃).length = 16 := by
  obtain ⟨p₁, hstart, hrun⟩ := Option.bind_eq_some_iff.mp sampleRun_outcome
  obtain ⟨p₂, hmid, hrun⟩ := Option.bind_eq_some_iff.mp hrun
  obtain ⟨p₃, hstop, houtcome⟩ := Option.map_eq_some_iff.mp hrun
  rw [sampleOutcome, Bool.and_eq_true, decide_eq_true_iff, beq_iff_eq] at houtcome
  exact ⟨p₁, p₂, p₃, hstart, hmid, hstop, houtcome⟩

theorem next_boot_prefetches_sample :
    ∃ (p₁ p₂ p₃ : BootProc .bits32 Unit Unit) (done : Executed .bits32 Unit Unit Unit),
      procStep (sampleBoot fun _ => none) (.write traceLine sampleBootEnv) = some p₁ ∧
      run procStep p₁ (rereads 16) = some p₂ ∧ procStep p₂ (.write stopLine sampleBootEnv) = some p₃ ∧
      bootPrefetchProcWrite sampleBootEnv (sampleBoot p₃.files) prefetchLine = some done ∧
      (phaseRecords (sampleBoot fun _ => none) p₁ p₃).length = 16 ∧
      AskedFor done.readaheads ((phaseRecords (sampleBoot fun _ => none) p₁ p₃).take 1) := by
  obtain ⟨p₁, p₂, p₃, hstart, hmid, hstop, hret, hlength⟩ := sampleRun
  have hletters : ∀ word : List Char, (word.all fun c => !kernelCtype.isspace c) = true →
      ∀ c ∈ word, kernelCtype.isspace c = false := fun word hall c hc => by simpa using List.all_eq_true.mp hall c hc
  have hphase : IsWord kernelCtype.isspace phaseNameMax "boot".toList :=
    ⟨by decide, by decide, hletters _ (by decide)⟩
  have htrace : command {} traceLine = .start "trace" "boot" :=
    command_startLine ⟨by decide, by decide, hletters _ (by decide)⟩ hphase (by decide) (by decide)
  have hprefetch : command {} prefetchLine = .start "prefetch" "boot" :=
    command_startLine ⟨by decide, by decide, hletters _ (by decide)⟩ hphase (by decide) (by decide)
  have hstopped : command {} stopLine = .stop := by decide +kernel
  have hboot : (sampleBoot fun _ => none).sys = load true true 256 sampleCache := rfl
  have hreboot : (sampleBoot p₃.files).sys = load true true 256 sampleCache := rfl
  have hbegins : Begins sampleBootEnv (sampleBoot fun _ => none) := ⟨by decide, .inl rfl⟩
  have hends : Ends sampleBootEnv p₂ "boot" (command {} stopLine) := by
    rw [hstopped]
    exact hret
  have htemplate : p₃.filenameTemplate = (sampleBoot fun _ => none).filenameTemplate :=
    (procStep_kept hstop).2.1.trans ((run_template hmid).trans (procStep_kept hstart).2.1)
  obtain ⟨done, hdone⟩ : ∃ done,
      bootPrefetchProcWrite sampleBootEnv (sampleBoot p₃.files) prefetchLine = some done := by
    unfold bootPrefetchProcWrite
    rw [show command sampleBootEnv.read prefetchLine = _ from hprefetch]
    exact ⟨_, rfl⟩
  have hnothing : ∀ e ∈ ([] : List (ProcEvent .bits32 Unit Unit Unit Unit)), ¬ e.Traces "boot" := by simp
  have hsave : SaveWorks sampleBootEnv.save := ⟨rfl, rfl, rfl, rfl, fun _ => trivial⟩
  have hworks : PrefetchWorks sampleBootEnv.prefetch :=
    ⟨rfl, rfl, rfl, rfl, fun _ => trivial, Lookups.always_succeed⟩
  refine ⟨p₁, p₂, p₃, done, hstart, hmid, hstop, hdone, hlength, ?_⟩
  have hasks := next_boot_prefetches hboot run_nil htrace (.inl rfl) hbegins hstart (rereads_samePhase 16) hmid hends
    hsave hstop hnothing run_nil (sampleBoot_injective _) hreboot rfl htemplate.symm hnothing run_nil hprefetch
    (.inl rfl) hworks rfl rfl rfl (by rw [hlength]; decide) hdone
  rw [hlength] at hasks
  exact hasks

end Sample

end Prefetch.Boot

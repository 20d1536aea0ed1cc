/-
# Prefetch.Boot.StopMarker — the end marker of a boot trace (`prefetch_boot.c`)

`prefetch_stop_boot_tracing` keeps the end marker in a local variable that `prefetch_stop_trace` sets only
where it succeeds. Where it fails the command warns and saves the trace all the same, up to whatever the
variable held; the application module gives the trace up there.

A boot command is followed here to the file it leaves: `prefetch_save_trace_between_markers` reads the
fragment out of the buffer and writes it behind a header.
-/
import Prefetch.Boot.Boot
import Prefetch.TraceFile.Buffers

namespace Prefetch.Boot.StopMarker

open Prefetch.Core Prefetch.TraceFile Codec Transfers

variable {M : Machine} {ι : Type*} [DecidableEq ι]

/-! ## §1 — the bytes of a fragment -/

/-- What is in the memory of the buffer besides the records: the padding of the one in each cell, and the
bytes where none was written yet. -/
structure BufferMemory (M : Machine) where
  padding : ℕ → Fin (paddingBytes M) → UInt8
  unwritten : ℕ → UInt8

/-- The byte of the buffer at an offset. -/
def bufferByte (e : Endian) (memory : BufferMemory M) (t : PrefetchTrace M) (offset : ℕ) : UInt8 :=
  let cell := offset / M.sizeofRecord
  match t.buffer.bind fun mem => mem (cell * M.sizeofRecord) with
  | some r => ((recordCodec e M).encode ⟨r, memory.padding cell⟩).getD (offset % M.sizeofRecord) 0
  | none => memory.unwritten offset

/-- `memcpy` out of the buffer, byte by byte. -/
def fragmentBytes (e : Endian) (memory : BufferMemory M) (t : PrefetchTrace M) (start len : ℕ) :
    List UInt8 :=
  (List.range len).map fun i => bufferByte e memory t (start + i)

section Fragment

variable {e : Endian} {memory : BufferMemory M} {t : PrefetchTrace M}

@[simp] theorem length_fragmentBytes (start len : ℕ) :
    (fragmentBytes e memory t start len).length = len := by
  simp [fragmentBytes]

theorem fragmentBytes_add (start len more : ℕ) :
    fragmentBytes e memory t start (len + more) =
      fragmentBytes e memory t start len ++ fragmentBytes e memory t (start + len) more := by
  simp [fragmentBytes, List.range_add, Nat.add_assoc]

/-- The bytes of one cell. -/
theorem fragmentBytes_cell {cell : ℕ} {r : Record M}
    (hcell : t.buffer.bind (fun mem => mem (cell * M.sizeofRecord)) = some r) :
    fragmentBytes e memory t (cell * M.sizeofRecord) M.sizeofRecord =
      (recordCodec e M).encode ⟨r, memory.padding cell⟩ := by
  have hsize := M.sizeofRecord_pos
  have hlength := (recordCodec e M).length_encode ⟨r, memory.padding cell⟩
  rw [recordCodec_width] at hlength
  apply List.ext_getElem
  · rw [length_fragmentBytes, hlength]
  · intro i hi _
    rw [length_fragmentBytes] at hi
    have hdiv : (cell * M.sizeofRecord + i) / M.sizeofRecord = cell := by
      rw [Nat.add_comm, Nat.add_mul_div_right _ _ hsize, Nat.div_eq_of_lt hi, Nat.zero_add]
    have hmod : (cell * M.sizeofRecord + i) % M.sizeofRecord = i := by
      rw [Nat.add_comm, Nat.add_mul_mod_self_right, Nat.mod_eq_of_lt hi]
    have hi' : i < ((recordCodec e M).encode ⟨r, memory.padding cell⟩).length := by
      rw [hlength]
      exact hi
    have hbyte : bufferByte e memory t (cell * M.sizeofRecord + i) =
        ((recordCodec e M).encode ⟨r, memory.padding cell⟩).getD i 0 := by
      simp only [bufferByte, hdiv, hmod, hcell]
    rw [List.getD_eq_getElem?_getD, List.getElem?_eq_getElem hi', Option.getD_some] at hbyte
    simp only [fragmentBytes, List.getElem_map, List.getElem_range, hbyte]

/-- **A stretch of cells is the records in them, as they lie in memory.** -/
theorem recordsIn_fragmentBytes {live : List (Record M)} (hlive : Live t live) (first count : ℕ)
    (hcount : first + count ≤ live.length) :
    recordsIn e M (fragmentBytes e memory t (first * M.sizeofRecord) (count * M.sizeofRecord)) =
      (live.drop first).take count := by
  have hbytes : ∀ count, first + count ≤ live.length →
      fragmentBytes e memory t (first * M.sizeofRecord) (count * M.sizeofRecord) =
        (recordCodec e M).encodeAll
          (recordImages (fun i => memory.padding (first + i)) ((live.drop first).take count)) := by
    intro count
    induction count with
    | zero => intro _; simp [fragmentBytes, recordImages, encodeAll]
    | succ count ih =>
        intro hle
        have hlt : first + count < live.length := by omega
        have hcell : fragmentBytes e memory t ((first + count) * M.sizeofRecord) M.sizeofRecord =
            (recordCodec e M).encode ⟨live[first + count], memory.padding (first + count)⟩ :=
          fragmentBytes_cell (hlive.cells (first + count) hlt)
        have hdrop : count < (live.drop first).length := by
          rw [List.length_drop]
          omega
        have hlength : ((live.drop first).take count).length = count := by
          rw [List.length_take, min_eq_left hdrop.le]
        have himages : recordImages (fun i => memory.padding (first + i))
              ((live.drop first).take count ++ [(live.drop first)[count]]) =
            recordImages (fun i => memory.padding (first + i)) ((live.drop first).take count) ++
              [⟨live[first + count], memory.padding (first + count)⟩] := by
          simp [recordImages, List.mapIdx_append, hlength]
        rw [Nat.succ_mul, fragmentBytes_add, ih (by omega), ← Nat.add_mul, hcell,
          List.take_succ_eq_append_getElem hdrop, himages, encodeAll, encodeAll, List.flatMap_append]
        simp
  rw [hbytes count hcount, recordsIn_encodeAll, record_recordImages]

/-- The bytes between two markers handed out since the last clear are the records added between them. -/
theorem recordsIn_between {t₁ t₃ t₄ : PrefetchTrace M} {live new more : List (Record M)}
    (hlive : Live t₁ live) (h : Appends t₁ t₃ new) (h' : Appends t₃ t₄ more) :
    recordsIn e M (fragmentBytes e memory t₄ (getTraceMarker t₁).position.toNat
      (new.length * M.sizeofRecord)) = new := by
  have hlive₄ := h'.live _ (h.live live hlive)
  rw [getTraceMarker_position, hlive.used, recordsIn_fragmentBytes hlive₄]
  · simp
  · simp only [List.length_append]
    omega

end Fragment

/-! ## §2 — saving -/

/-- What a save meets: memory for the filename and for the fragment, what is in the buffer, the file it
opens and the calls that write it. `filenameTemplate` is the parameter of the module, filled in. -/
structure SaveEnv (M : Machine) where
  filenameTemplate : String → String := fun phaseName => "/.prefetch-boot-trace." ++ phaseName
  filenameMemory : Bool := true
  fragmentMemory : Bool := true
  endian : Endian := .little
  buffer : BufferMemory M
  opened : Option Errno := none
  writes : ℕ → Outcome Errno

/-- A file that a save opened: the interval it is about and the bytes it was left with. -/
structure SavedTrace where
  filename : String
  startMarker : TraceMarker
  endMarker : TraceMarker
  file : List UInt8
  deriving DecidableEq

/-- `prefetch_save_trace_between_markers`: what it returns and the file it opened, if it came to that. A
`BUG_ON` does not return. -/
def prefetchSaveTraceBetweenMarkers (env : SaveEnv M) (t : PrefetchTrace M) (filename : String)
    (startMarker endMarker : TraceMarker) (fuel : ℕ) : Option (ℤ × Option SavedTrace) :=
  match getPrefetchTraceFragment t startMarker endMarker env.fragmentMemory with
  | .error ret => some (ret, none)
  | .bug => none
  | .ok _ fragmentSize =>
      let fragment := fragmentBytes env.endian env.buffer t startMarker.position.toNat fragmentSize.toNat
      (prefetchSaveTraceFragment env.endian env.opened [] fragment env.writes fuel).map fun done =>
        (done.1,
          if env.opened.isSome then none else some ⟨filename, startMarker, endMarker, done.2⟩)

/-- `prefetch_save_boot_trace` -/
def prefetchSaveBootTrace (env : SaveEnv M) (boot : BootState M) (t : PrefetchTrace M)
    (phaseName : String) (endPhaseMarker : TraceMarker) (fuel : ℕ) : Option (ℤ × Option SavedTrace) :=
  if ¬ env.filenameMemory then some (-ENOMEM, none)
  else
    prefetchSaveTraceBetweenMarkers env t (env.filenameTemplate phaseName) boot.bootStartMarker
      endPhaseMarker fuel

/-- What a stop leaves, the file included. -/
structure StopResult (M : Machine) (ι : Type*) extends BootResult M ι where
  saved : Option SavedTrace

/-- `prefetch_stop_boot_tracing`, or `none` if the writes take more than `fuel` calls; `marker` is what its
local variable holds before the call. -/
def prefetchStopBootTracing (env : SaveEnv M) (plan : WalkPlan M ι) (memory : Bool) (boot : BootState M)
    (core : CoreState M ι) (fuel : ℕ) (marker : TraceMarker) : Option (StopResult M ι) :=
  if ¬ boot.bootTracingRunning then some ⟨⟨-EINVAL, boot, core⟩, none⟩
  else
    let r := prefetchStopTrace plan marker core
    let boot := { boot with bootTracingRunning := false }
    -- a failed save is worth a warning, and what is returned is the result of the release
    (prefetchSaveBootTrace env boot r.core.trace boot.bootTracingPhase r.marker fuel).map fun saved =>
      ⟨⟨0, boot, prefetchReleaseTrace memory r.core⟩, saved.2⟩

/-- **Where it returns, it leaves what the command leaves that only collects requests.** -/
theorem prefetchStopBootTracing_result {env : SaveEnv M} {plan : WalkPlan M ι} {memory : Bool}
    {boot : BootState M} {core : CoreState M ι} {fuel : ℕ} {marker : TraceMarker}
    {result : StopResult M ι}
    (h : prefetchStopBootTracing env plan memory boot core fuel marker = some result) :
    Boot.prefetchStopBootTracing plan marker memory boot core =
      { result.toBootResult with
        boot := { result.boot with
          saveRequests :=
            (Boot.prefetchStopBootTracing plan marker memory boot core).boot.saveRequests } } := by
  unfold prefetchStopBootTracing at h
  unfold Boot.prefetchStopBootTracing
  by_cases hrunning : boot.bootTracingRunning = true
  · rw [if_neg (not_not.mpr hrunning)] at h ⊢
    obtain ⟨saved, -, rfl⟩ := Option.map_eq_some_iff.mp h
    rfl
  · rw [if_pos hrunning] at h ⊢
    cases h
    rfl

/-! ## §3 — what the stop makes of the marker -/

/-- `prefetch_stop_trace` comes to set the marker: the module is enabled, there is no overflow to report and
there is memory for the walk. -/
structure SetsMarker (plan : WalkPlan M ι) (core : CoreState M ι) : Prop where
  enabled : core.enabled = true
  reported : core.trace.overflow = true → core.trace.overflowReported = true
  session : plan.session = true

/-- **The stop sets the marker whatever it was, or leaves it as it was.** Apart from it, the same
happens. -/
theorem prefetchStopTrace_marker (plan : WalkPlan M ι) (core : CoreState M ι) :
    (SetsMarker plan core ∧ ∃ m core', ∀ marker, prefetchStopTrace plan marker core = ⟨0, m, core'⟩) ∨
    (¬ SetsMarker plan core ∧ ∃ ret < 0, ∃ core', ∀ marker,
      prefetchStopTrace plan marker core = ⟨ret, marker, core'⟩) := by
  unfold prefetchStopTrace walkPages
  by_cases henabled : core.enabled = true
  swap
  · exact .inr ⟨fun h => henabled h.enabled, -ENODEV, by decide, _, fun marker => if_pos henabled⟩
  simp only [if_neg (not_not.mpr henabled)]
  by_cases hover : core.trace.overflow = true ∧ ¬ core.trace.overflowReported = true
  · exact .inr ⟨fun h => hover.2 (h.reported hover.1), -ENOSPC, by decide, _, fun marker => if_pos hover⟩
  simp only [if_neg hover]
  by_cases hsession : plan.session = true
  · simp only [if_neg (not_not.mpr hsession)]
    refine .inl ⟨⟨henabled, fun hoverflow => ?_, hsession⟩, _, _, fun marker => rfl⟩
    exact not_not.mp fun hreported => hover ⟨hoverflow, hreported⟩
  · exact .inr ⟨fun h => hsession h.session, -ENOMEM, by decide, _, fun marker => if_pos hsession⟩

/-! ## §4 — two runs of the command -/

/-- The command does the same whatever its variable holds, and a file it leaves is about an interval up to a
marker that the core set. -/
structure StopsAlike (env : SaveEnv M) (plan : WalkPlan M ι) (memory : Bool) (boot : BootState M)
    (core : CoreState M ι) : Prop where
  same : ∀ fuel marker marker',
    prefetchStopBootTracing env plan memory boot core fuel marker =
      prefetchStopBootTracing env plan memory boot core fuel marker'
  set : ∀ fuel marker result saved,
    prefetchStopBootTracing env plan memory boot core fuel marker = some result →
    result.saved = some saved →
      ∀ marker', (prefetchStopTrace plan marker' core).marker = saved.endMarker

section TwoRuns

variable {env : SaveEnv M} {plan : WalkPlan M ι} {memory : Bool} {boot : BootState M}
  {core : CoreState M ι}

/-- A file that is saved ends at the marker the save was asked for. -/
theorem saved_endMarker {t : PrefetchTrace M} {phaseName : String} {endMarker : TraceMarker} {fuel : ℕ}
    {ret : ℤ} {saved : SavedTrace}
    (h : prefetchSaveBootTrace env boot t phaseName endMarker fuel = some (ret, some saved)) :
    saved.endMarker = endMarker := by
  unfold prefetchSaveBootTrace prefetchSaveTraceBetweenMarkers at h
  by_cases hname : env.filenameMemory = true
  swap
  · rw [if_pos hname] at h
    cases h
  rw [if_neg (not_not.mpr hname)] at h
  cases hget : getPrefetchTraceFragment t boot.bootStartMarker endMarker env.fragmentMemory with
  | error err =>
      rw [hget] at h
      cases h
  | bug =>
      rw [hget] at h
      cases h
  | ok fragment size =>
      rw [hget] at h
      obtain ⟨done, -, heq⟩ := Option.map_eq_some_iff.mp h
      have hsaved := congrArg Prod.snd heq
      dsimp only at hsaved
      split_ifs at hsaved
      cases hsaved
      rfl

/-- **A save that comes to no file returns without one**, whatever it is asked for. -/
theorem save_no_file (hnone : env.filenameMemory = false ∨ env.opened.isSome = true)
    (boot : BootState M) (t : PrefetchTrace M) (phaseName : String) (endMarker : TraceMarker) (fuel : ℕ) :
    ∃ ret, prefetchSaveBootTrace env boot t phaseName endMarker fuel = some (ret, none) := by
  unfold prefetchSaveBootTrace
  by_cases hname : env.filenameMemory = true
  swap
  · exact ⟨-ENOMEM, if_pos hname⟩
  rw [if_neg (not_not.mpr hname)]
  unfold prefetchSaveTraceBetweenMarkers
  cases hget : getPrefetchTraceFragment t boot.bootStartMarker endMarker env.fragmentMemory with
  | error err => exact ⟨err, rfl⟩
  | bug => exact absurd hget (Buffers.getPrefetchTraceFragment_ne_bug _ _ _ _)
  | ok fragment size =>
      cases hopened : env.opened with
      | none => simp [hname, hopened] at hnone
      | some err => exact ⟨err.code, rfl⟩

/-- A save that can open its file leaves one for the interval from a marker to itself. -/
theorem save_empty_interval (hname : env.filenameMemory = true) (hopened : env.opened = none)
    (boot : BootState M) (t : PrefetchTrace M) (phaseName : String) :
    ∃ ret saved,
      prefetchSaveBootTrace env boot t phaseName boot.bootStartMarker 1 = some (ret, some saved) := by
  have hempty : getPrefetchTraceFragment t boot.bootStartMarker boot.bootStartMarker env.fragmentMemory =
      .ok none 0 := by
    have hsize : prefetchTraceFragmentSize boot.bootStartMarker boot.bootStartMarker = 0 := by
      simp [prefetchTraceFragmentSize]
    unfold getPrefetchTraceFragment
    simp only [hsize]
    rfl
  -- no call of the loop is needed
  have hreturns : ∃ done, prefetchSaveTraceFragment env.endian none [] [] env.writes 1 = some done := by
    unfold prefetchSaveTraceFragment
    dsimp only
    split_ifs with hheader
    · exact ⟨_, rfl⟩
    · exact ⟨_, rfl⟩
  obtain ⟨done, hdone⟩ := hreturns
  unfold prefetchSaveBootTrace prefetchSaveTraceBetweenMarkers
  rw [if_neg (not_not.mpr hname), hempty, hopened]
  have hfragment : fragmentBytes env.endian env.buffer t boot.bootStartMarker.position.toNat
      (0 : ℤ).toNat = [] := rfl
  simp only [hfragment, hdone]
  exact ⟨_, _, rfl⟩

/-- A save up to a marker of another generation leaves none. -/
theorem save_other_generation (env : SaveEnv M) {boot : BootState M} {endMarker : TraceMarker}
    (hgeneration : boot.bootStartMarker.generation ≠ endMarker.generation) (t : PrefetchTrace M)
    (phaseName : String) (fuel : ℕ) :
    ∃ ret, prefetchSaveBootTrace env boot t phaseName endMarker fuel = some (ret, none) := by
  unfold prefetchSaveBootTrace
  by_cases hname : env.filenameMemory = true
  swap
  · exact ⟨-ENOMEM, if_pos hname⟩
  have hsize : prefetchTraceFragmentSize boot.bootStartMarker endMarker = -EINVAL := if_pos hgeneration
  have hget : getPrefetchTraceFragment t boot.bootStartMarker endMarker env.fragmentMemory =
      .error (-EINVAL) := by
    unfold getPrefetchTraceFragment
    simp only [hsize]
    rfl
  rw [if_neg (not_not.mpr hname)]
  unfold prefetchSaveTraceBetweenMarkers
  rw [hget]
  exact ⟨-EINVAL, rfl⟩

/-- The command, once boot tracing is known to run. -/
theorem stop_running (hrunning : boot.bootTracingRunning = true) {fuel : ℕ} {marker m : TraceMarker}
    {ret : ℤ} {core' : CoreState M ι} (hstop : prefetchStopTrace plan marker core = ⟨ret, m, core'⟩) :
    prefetchStopBootTracing env plan memory boot core fuel marker =
      (prefetchSaveBootTrace env { boot with bootTracingRunning := false } core'.trace
        boot.bootTracingPhase m fuel).map fun saved =>
          ⟨⟨0, { boot with bootTracingRunning := false }, prefetchReleaseTrace memory core'⟩, saved.2⟩ := by
  unfold prefetchStopBootTracing
  rw [if_neg (not_not.mpr hrunning), hstop]

/-- A stop that sets the variable. -/
theorem stopsAlike_of_sets (hrunning : boot.bootTracingRunning = true) (hsets : SetsMarker plan core) :
    StopsAlike env plan memory boot core := by
  rcases prefetchStopTrace_marker plan core with ⟨-, m, core', hstop⟩ | ⟨hnot, -⟩
  swap
  · exact absurd hsets hnot
  constructor
  · intro fuel marker marker'
    rw [stop_running hrunning (hstop marker), stop_running hrunning (hstop marker')]
  · intro fuel marker result saved hresult hsaved marker'
    rw [stop_running hrunning (hstop marker)] at hresult
    obtain ⟨done, hdone, rfl⟩ := Option.map_eq_some_iff.mp hresult
    obtain ⟨ret, file⟩ := done
    cases hsaved
    rw [hstop marker', saved_endMarker hdone]

/-- A save that comes to no file. -/
theorem stopsAlike_of_no_file (hrunning : boot.bootTracingRunning = true)
    (hnone : env.filenameMemory = false ∨ env.opened.isSome = true) :
    StopsAlike env plan memory boot core := by
  -- what the stop leaves of the core does not depend on the variable either way
  obtain ⟨core', hcore⟩ : ∃ core', ∀ marker, ∃ ret m,
      prefetchStopTrace plan marker core = ⟨ret, m, core'⟩ := by
    rcases prefetchStopTrace_marker plan core with ⟨-, m, core', hstop⟩ | ⟨-, ret, -, core', hstop⟩
    · exact ⟨core', fun marker => ⟨0, m, hstop marker⟩⟩
    · exact ⟨core', fun marker => ⟨ret, marker, hstop marker⟩⟩
  have hrun : ∀ fuel marker, prefetchStopBootTracing env plan memory boot core fuel marker =
      some ⟨⟨0, { boot with bootTracingRunning := false }, prefetchReleaseTrace memory core'⟩, none⟩ := by
    intro fuel marker
    obtain ⟨ret, m, hstop⟩ := hcore marker
    obtain ⟨err, hsave⟩ := save_no_file hnone { boot with bootTracingRunning := false } core'.trace
      boot.bootTracingPhase m fuel
    rw [stop_running hrunning hstop, hsave]
    rfl
  constructor
  · intro fuel marker marker'
    rw [hrun, hrun]
  · intro fuel marker result saved hresult hsaved
    rw [hrun] at hresult
    cases hresult
    cases hsaved

/-- **The command does the same whatever its variable holds, if and only if boot tracing is not running, the
stop comes to set the variable, or no file can be opened for the trace.** -/
theorem stopsAlike_iff (env : SaveEnv M) (plan : WalkPlan M ι) (memory : Bool) (boot : BootState M)
    (core : CoreState M ι) :
    StopsAlike env plan memory boot core ↔
      boot.bootTracingRunning = false ∨ SetsMarker plan core ∨ env.filenameMemory = false ∨
        env.opened.isSome = true := by
  cases hrunning : boot.bootTracingRunning with
  | false =>
      have hrun : ∀ fuel marker, prefetchStopBootTracing env plan memory boot core fuel marker =
          some ⟨⟨-EINVAL, boot, core⟩, none⟩ := fun fuel marker => if_pos (by simp [hrunning])
      refine iff_of_true ⟨fun fuel marker marker' => by rw [hrun, hrun], ?_⟩ (.inl rfl)
      intro fuel marker result saved hresult hsaved
      rw [hrun] at hresult
      cases hresult
      cases hsaved
  | true =>
  rw [or_iff_right (by simp : ¬ true = false)]
  constructor
  · intro halike
    by_contra hcondition
    simp only [not_or, Bool.not_eq_false, Bool.not_eq_true, Option.isSome_eq_false_iff,
      Option.isNone_iff_eq_none] at hcondition
    obtain ⟨hunset, hname, hopened⟩ := hcondition
    rcases prefetchStopTrace_marker plan core with ⟨hsets, -⟩ | ⟨-, ret, -, core', hstop⟩
    · exact hunset hsets
    -- the variable may hold the marker tracing started at, or one of another generation
    obtain ⟨ret, saved, hsave⟩ := save_empty_interval hname hopened
      { boot with bootTracingRunning := false } core'.trace boot.bootTracingPhase
    have hother : boot.bootStartMarker.generation ≠ boot.bootStartMarker.generation + 1 := by simp
    obtain ⟨ret', hsave'⟩ : ∃ ret', prefetchSaveBootTrace env { boot with bootTracingRunning := false }
        core'.trace boot.bootTracingPhase ⟨0, boot.bootStartMarker.generation + 1⟩ 1 =
          some (ret', none) :=
      save_other_generation env hother core'.trace boot.bootTracingPhase 1
    have hsame := halike.same 1 boot.bootStartMarker ⟨0, boot.bootStartMarker.generation + 1⟩
    rw [stop_running hrunning (hstop _), stop_running hrunning (hstop _), hsave, hsave'] at hsame
    have hfiles := congrArg StopResult.saved (Option.some.inj hsame)
    cases hfiles
  · rintro (hsets | hnone)
    · exact stopsAlike_of_sets hrunning hsets
    · exact stopsAlike_of_no_file hrunning hnone

end TwoRuns

/-- A save that everything goes well for. -/
def sampleEnv : SaveEnv .bits32 where
  buffer := ⟨fun _ _ => 0, fun _ => 0⟩
  writes := fun _ => .full

/-- The module was disabled while boot was traced. -/
def disabledCore : CoreState .bits32 Unit where
  trace := { generation := 1, tracersCount := 1, traceUsers := 1 }
  enabled := false
  cache := fun _ => ⟨none, [], AddressSpace.sorted_nil, AddressSpace.index_lt_nil⟩

def samplePlan : WalkPlan .bits32 Unit where
  order := [()]

def tracedBoot : BootState .bits32 where
  bootStartMarker := ⟨0, 1⟩
  bootTracingRunning := true

/-- Where the module was disabled, the stop leaves an empty trace or none, as its variable has it. -/
theorem disabled_stop_saves_unset :
    (prefetchStopBootTracing sampleEnv samplePlan true tracedBoot disabledCore 1 ⟨0, 1⟩).map
        (fun result => result.saved.map SavedTrace.file) = some (some (headerBytes .little)) ∧
      (prefetchStopBootTracing sampleEnv samplePlan true tracedBoot disabledCore 1 ⟨0, 0⟩).map
        (fun result => result.saved.map SavedTrace.file) = some none ∧
      ¬ StopsAlike sampleEnv samplePlan true tracedBoot disabledCore := by
  have hempty : (prefetchStopBootTracing sampleEnv samplePlan true tracedBoot disabledCore 1 ⟨0, 1⟩).map
      (fun result => result.saved.map SavedTrace.file) = some (some (headerBytes .little)) := rfl
  have hnone : (prefetchStopBootTracing sampleEnv samplePlan true tracedBoot disabledCore 1 ⟨0, 0⟩).map
      (fun result => result.saved.map SavedTrace.file) = some none := rfl
  refine ⟨hempty, hnone, fun halike => ?_⟩
  rw [halike.same 1 ⟨0, 1⟩ ⟨0, 0⟩, hnone] at hempty
  cases hempty

end Prefetch.Boot.StopMarker

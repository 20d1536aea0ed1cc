/-
# Prefetch.App.FilenameSet — the tables of file names are sets (`prefetch_app.c`)

Names come to a table by commands and by what `do_finish_monitoring` finds about a program, and leave it
the same way or with all others. Only `add_filename_to_list_unique` and `do_finish_monitoring` look before
they add; that is enough, as nothing else adds. `filenameTable_set`: whatever the operations and the
allocations, a table holds the names last added rather than removed or cleared, each once and in its
bucket.
-/
import Prefetch.App.FileList

namespace Prefetch.App

open Function ChainedTable Runs Prefetch.Core

variable {config : Config}

/-! ## §1 — the operations -/

/-- `__clear_hashtable` -/
def clearHashtable (list : FilenameTable config) : FilenameTable config :=
  (List.finRange config.filenameHashtableSize).foldl (fun list i => update list i []) list

/-- What `do_finish_monitoring` does to the list of applications. -/
def judgeFilename (filename : String) (ticks : ℤ) (memory : Bool) (list : FilenameTable config) :
    FilenameTable config :=
  if ticks = -1 then list
  else if ticks > config.tracingTicksThreshold then
    if filenameOnList filename list then list else addFilenameToList filename memory list
  else removeFilenameFromList filename list

/-- An operation on a table, under its mutex: `add_filename_to_list_unique`, `remove_filename_from_list`,
`clear_hashtable` or `do_finish_monitoring`. -/
inductive ListOp where
  | add (filename : String) (memory : Bool)
  | remove (filename : String)
  | clear
  | judge (filename : String) (ticks : ℤ) (memory : Bool)
  deriving DecidableEq, Repr

def applyOp (list : FilenameTable config) : ListOp → FilenameTable config
  | .add filename memory => (addFilenameToListUnique filename memory list).2
  | .remove filename => removeFilenameFromList filename list
  | .clear => clearHashtable list
  | .judge filename ticks memory => judgeFilename filename ticks memory list

/-- Whether an operation puts a name on the list or takes it off, if it does either. -/
def ListOp.decides (config : Config) (filename : String) : ListOp → Option Bool
  | .add other memory => if filename = other ∧ memory then some true else none
  | .remove other => if filename = other then some false else none
  | .clear => some false
  | .judge other ticks memory =>
      if filename ≠ other ∨ ticks = -1 then none
      else if ticks > config.tracingTicksThreshold then if memory then some true else none
      else some false

/-- The table is a set: each name in its bucket, and none twice. -/
abbrev IsNameSet (list : FilenameTable config) : Prop := IsSet (filenameHashtableIndex config) list

variable {list : FilenameTable config} {filename : String} {memory : Bool}

theorem filenameOnList_iff (h : IsNameSet list) :
    filenameOnList filename list = true ↔ filename ∈ members list := h.findFirst_isSome

theorem isNameSet_addFilenameToList (h : IsNameSet list) (hnew : filename ∉ members list)
    (memory : Bool) : IsNameSet (addFilenameToList filename memory list) := by
  unfold addFilenameToList
  split
  · exact h.addHead hnew
  · exact h

theorem members_addFilenameToList (filename : String) (memory : Bool) (list : FilenameTable config) :
    members (addFilenameToList filename memory list) =
      if memory then insert filename (members list) else members list := by
  unfold addFilenameToList
  split
  · exact members_addHead
  · rfl

/-- Looking first and adding then keeps a set, and adds to it. -/
theorem addUnlessOnList (h : IsNameSet list) (filename : String) (memory : Bool) :
    IsNameSet (if filenameOnList filename list then list else addFilenameToList filename memory list) ∧
      members (if filenameOnList filename list then list
        else addFilenameToList filename memory list) =
          if memory then insert filename (members list) else members list := by
  by_cases hon : filenameOnList filename list = true
  · have hmem := (filenameOnList_iff h).mp hon
    rw [if_pos hon, Set.insert_eq_of_mem hmem, ite_self]
    exact ⟨h, rfl⟩
  · rw [if_neg hon, members_addFilenameToList]
    exact ⟨isNameSet_addFilenameToList h (fun hmem => hon ((filenameOnList_iff h).mpr hmem)) memory, rfl⟩

theorem addFilenameToListUnique_table (filename : String) (memory : Bool) (list : FilenameTable config) :
    (addFilenameToListUnique filename memory list).2 =
      if filenameOnList filename list then list else addFilenameToList filename memory list := by
  unfold addFilenameToListUnique
  split <;> rfl

theorem clearHashtable_eq (list : FilenameTable config) : clearHashtable list = empty :=
  foldl_finRange_clear list

/-- Whether a name is on a list after names were put on it and taken off. -/
theorem filenameOnList_eq {before after : FilenameTable config} (h : IsNameSet before)
    (h' : IsNameSet after) {decision : Option Bool}
    (hmem : filename ∈ members after ↔
      match decision with
      | none => filename ∈ members before
      | some onList => onList = true) :
    filenameOnList filename after = decision.getD (filenameOnList filename before) := by
  rw [Bool.eq_iff_iff, filenameOnList_iff h', hmem]
  cases decision with
  | none => exact (filenameOnList_iff h).symm
  | some onList => rfl

/-- **What an operation does to a set of names.** -/
theorem applyOp_set (h : IsNameSet list) (op : ListOp) :
    IsNameSet (applyOp list op) ∧ ∀ filename, filenameOnList filename (applyOp list op) =
      (op.decides config filename).getD (filenameOnList filename list) := by
  cases op with
  | add other memory =>
      obtain ⟨hset, hmembers⟩ := addUnlessOnList h other memory
      rw [← addFilenameToListUnique_table] at hset hmembers
      refine ⟨hset, fun filename => filenameOnList_eq h hset ?_⟩
      show filename ∈ members (addFilenameToListUnique other memory list).2 ↔ _
      rw [hmembers]
      cases memory <;> by_cases heq : filename = other <;> simp [ListOp.decides, heq]
  | remove other =>
      have hset : IsNameSet (removeFilenameFromList other list) := h.removeFirst
      refine ⟨hset, fun filename => filenameOnList_eq h hset ?_⟩
      show filename ∈ members (removeFirst list _ _) ↔ _
      rw [h.members_removeFirst]
      by_cases heq : filename = other <;> simp [ListOp.decides, heq]
  | clear =>
      have hset : IsNameSet (clearHashtable list) := by
        rw [clearHashtable_eq]
        exact isSet_empty _
      refine ⟨hset, fun filename => filenameOnList_eq h hset ?_⟩
      show filename ∈ members (clearHashtable list) ↔ _
      rw [clearHashtable_eq, members_empty]
      simp [ListOp.decides]
  | judge other ticks memory =>
      show IsNameSet (judgeFilename other ticks memory list) ∧ ∀ filename,
        filenameOnList filename (judgeFilename other ticks memory list) = _
      unfold judgeFilename
      by_cases hgone : ticks = -1
      · rw [if_pos hgone]
        exact ⟨h, fun filename => by simp [ListOp.decides, hgone]⟩
      rw [if_neg hgone]
      by_cases hticks : ticks > config.tracingTicksThreshold
      · rw [if_pos hticks]
        obtain ⟨hset, hmembers⟩ := addUnlessOnList h other memory
        refine ⟨hset, fun filename => filenameOnList_eq h hset ?_⟩
        rw [hmembers]
        cases memory <;> by_cases heq : filename = other <;> simp [ListOp.decides, heq, hgone, hticks]
      · rw [if_neg hticks]
        have hset : IsNameSet (removeFilenameFromList other list) := h.removeFirst
        refine ⟨hset, fun filename => filenameOnList_eq h hset ?_⟩
        show filename ∈ members (removeFirst list _ _) ↔ _
        rw [h.members_removeFirst]
        by_cases heq : filename = other <;> simp [ListOp.decides, heq, hgone, hticks]

/-! ## §4 — every table is a set -/

variable {M : Machine} {ι : Type*} {s : AppState M ι config}

theorem doFinishMonitoring_list (s : AppState M ι config) (traceJob : TraceJob) (ticks : ℤ)
    (memory : Bool) : (doFinishMonitoring s traceJob ticks memory).prefetchAppsList =
      judgeFilename traceJob.filename ticks memory s.prefetchAppsList := by
  unfold doFinishMonitoring judgeFilename
  split_ifs <;> rfl

/-- The list of applications comes from another one by operations. -/
def ListReached (list list' : FilenameTable config) : Prop := ∃ ops : List ListOp, list' = ops.foldl applyOp list

theorem ListReached.refl (list : FilenameTable config) : ListReached list list := ⟨[], rfl⟩

theorem ListReached.set {list' : FilenameTable config} (h : ListReached list list')
    (hset : IsNameSet list) : IsNameSet list' := by
  obtain ⟨ops, rfl⟩ := h
  induction ops generalizing list with
  | nil => exact hset
  | cons op ops ih => exact ih (applyOp_set hset op).1

theorem doFinishMonitoring_reached (s : AppState M ι config) (traceJob : TraceJob) (ticks : ℤ)
    (memory : Bool) :
    ListReached s.prefetchAppsList (doFinishMonitoring s traceJob ticks memory).prefetchAppsList :=
  ⟨[.judge traceJob.filename ticks memory], doFinishMonitoring_list s traceJob ticks memory⟩

variable [DecidableEq ι]

/-- **What events do to the list of applications** are operations on it. -/
theorem step_list {s' : AppState M ι config} {e : AppEvent M ι} (h : step s e = some s') :
    ListReached s.prefetchAppsList s'.prefetchAppsList := by
  cases e with
  | exec filename pid job memory plan =>
      simp only [step] at h
      split at h
      · cases h
      · cases h
        unfold prefetchExecHook startTracingJob startMonitoringJob
        dsimp only
        split_ifs <;> exact .refl _
  | exit pid ticks memory =>
      simp only [step, prefetchExitHook] at h
      split at h
      · cases h
        exact .refl _
      split at h
      · cases h
        exact .refl _
      · obtain ⟨traceJob, -, rfl⟩ := Option.map_eq_some_iff.mp h
        exact doFinishMonitoring_reached s traceJob ticks memory
  | expire job ticks memory finish =>
      simp only [step] at h
      split at h
      · cases h
      · next traceJob hjob =>
        have hjudge := doFinishMonitoring_reached s traceJob ticks memory
        split at h
        · cases h
          exact hjudge
        · cases h
          unfold finishTracing saveFragment
          dsimp only
          split
          · exact hjudge
          · split
            · split_ifs <;> exact hjudge
            · exact hjudge
  | control enabled =>
      cases h
      exact .refl _
  | env e =>
      obtain ⟨core', -, rfl⟩ := Option.map_eq_some_iff.mp h
      exact .refl _

/-- In every run of the module the list of applications is a set. -/
theorem run_list {t : AppState M ι config} {es : List (AppEvent M ι)} (h : run step s es = some t)
    (hset : IsNameSet s.prefetchAppsList) : IsNameSet t.prefetchAppsList :=
  run_invariant (I := fun s => IsNameSet s.prefetchAppsList)
    (fun _ _ _ _ hset hstep => (step_list hstep).set hset) h hset

/-- What a command returns, if it returns, comes with tables reached by operations. -/
def Reaches (p : AppProc M ι config) (r : Option (ℤ × AppProc M ι config)) : Prop :=
  ∀ q ∈ r, ListReached p.app.prefetchAppsList q.2.app.prefetchAppsList ∧
    ListReached p.app.prefetchAppsBlacklist q.2.app.prefetchAppsBlacklist

omit [DecidableEq ι] in
theorem Reaches.ite {p : AppProc M ι config} {c : Prop} [Decidable c]
    {a b : Option (ℤ × AppProc M ι config)} (ha : Reaches p a) (hb : Reaches p b) :
    Reaches p (if c then a else b) := by
  split
  · exact ha
  · exact hb

omit [DecidableEq ι] in
/-- A command that leaves the tables as they are. -/
theorem Reaches.same {p q : AppProc M ι config} (ret : ℤ)
    (hlist : q.app.prefetchAppsList = p.app.prefetchAppsList)
    (hblack : q.app.prefetchAppsBlacklist = p.app.prefetchAppsBlacklist) :
    Reaches p (some (ret, q)) := by
  intro r hr
  cases hr
  show ListReached _ q.app.prefetchAppsList ∧ ListReached _ q.app.prefetchAppsBlacklist
  rw [hlist, hblack]
  exact ⟨.refl _, .refl _⟩

omit [DecidableEq ι] in
/-- **What commands do to the tables** are operations on them, too. -/
theorem appPrefetchProcWrite_reaches (ctype : Ctype) (memory : CommandMemory) (p : AppProc M ι config)
    (buffer : List Char) : Reaches p (appPrefetchProcWrite ctype memory p buffer) := by
  have hclear : ∀ list : FilenameTable config, ListReached list empty := fun list =>
    ⟨[.clear], (clearHashtable_eq list).symm⟩
  have hadd : ∀ (filename : String) (list : FilenameTable config),
      ListReached list (addFilenameToListUnique filename memory.entry list).2 := fun filename list =>
    ⟨[.add filename memory.entry], rfl⟩
  unfold appPrefetchProcWrite
  refine .ite (.same _ rfl rfl) (.ite (.same _ rfl rfl) ?_)
  refine .ite (.same _ rfl rfl) (.ite (.same _ rfl rfl) (.ite (.same _ rfl rfl)
    (.ite (.same _ rfl rfl) (.ite ?_ (.ite ?_ (.ite (.ite (.same _ rfl rfl) ?_) (.ite ?_
      (.ite (.ite (.same _ rfl rfl) ?_) (.same _ rfl rfl)))))))))
  -- set tracing timeout
  · split
    · exact .same _ rfl rfl
    · exact .ite (.same _ rfl rfl) (.same _ rfl rfl)
  -- clear app-list
  · rintro r ⟨⟩
    exact ⟨hclear _, .refl _⟩
  -- add app-list
  · split
    · exact .same _ rfl rfl
    · rintro r ⟨⟩
      exact ⟨hadd _ _, .refl _⟩
  -- clear app-blacklist
  · rintro r ⟨⟩
    exact ⟨.refl _, hclear _⟩
  -- add app-blacklist
  · split
    · exact .same _ rfl rfl
    · next word hword =>
      split
      · rintro r ⟨⟩
      · rintro r ⟨⟩
        exact ⟨.refl _, hadd _ _⟩

end Prefetch.App

/-
# Prefetch.App.JobTable — the table of traced pids and the jobs it points to

Entries are added for a job and removed by its pid: `remove_traced_pid` takes the first entry of the
pid, which is the newest. So the table stays matched with the jobs in memory as long as the jobs of a
pid finish newest first, and no longer: `tables_match_iff`. Two programs executed by one process within
the tracing timeout finish oldest first; the older job then takes the entry of the newer one with it
and leaves its own behind, pointing to freed memory (`older_job_first_dangles`).
-/
import Prefetch.App.Jobs
import Prefetch.Lib.Runs

namespace Prefetch.App

open Function ChainedTable Prefetch.Core Runs

variable {config : Config} {M : Machine} {ι : Type*}

/-! ## §1 — what must match -/

/-- How many entries point to the job at an address. -/
def targets (job : ℕ) (t : TracedPids) : ℕ := count (fun e => e.traceJob = job) t

/-- Every entry points to a job that has been started and not yet freed, and every pending job is the
target of exactly one entry. -/
structure TableMatches (s : AppState M ι config) : Prop where
  live : ∀ i, ∀ e ∈ s.tracedPids i, (s.jobs e.traceJob).isSome
  target : ∀ job, (s.jobs job).isSome → targets job s.tracedPids = 1

/-- A job whose work runs is the one started last among the pending jobs of its pid. -/
def NewestFirst (s : AppState M ι config) : AppEvent M ι → Prop
  | .expire job _ _ _ => ∀ traceJob, s.jobs job = some traceJob →
      ∀ job' traceJob', job' ≠ job → s.jobs job' = some traceJob' → traceJob'.pid = traceJob.pid →
        traceJob'.started < traceJob.started
  | _ => True

/-- The event's allocation of a table entry succeeds. -/
def AppEvent.EntryAllocated : AppEvent M ι → Prop
  | .exec _ _ _ memory _ => memory.entry = true
  | _ => True

/-! ## §2 — what a step does to jobs and table -/

/-- The table of traced pids and the jobs are as they were. -/
structure SameJobs (s s' : AppState M ι config) : Prop where
  tracedPids : s'.tracedPids = s.tracedPids
  jobs : s'.jobs = s.jobs
  jobsStarted : s'.jobsStarted = s.jobsStarted

theorem SameJobs.refl (s : AppState M ι config) : SameJobs s s := ⟨rfl, rfl, rfl⟩

theorem SameJobs.trans {s s' s'' : AppState M ι config} (h : SameJobs s s')
    (h' : SameJobs s' s'') : SameJobs s s'' :=
  ⟨h'.tracedPids.trans h.tracedPids, h'.jobs.trans h.jobs, h'.jobsStarted.trans h.jobsStarted⟩

theorem doFinishMonitoring_same (s : AppState M ι config) (traceJob : TraceJob) (ticks : ℤ)
    (memory : Bool) : SameJobs s (doFinishMonitoring s traceJob ticks memory) := by
  unfold doFinishMonitoring
  split
  · exact .refl s
  split
  · split
    · exact .refl s
    · exact ⟨rfl, rfl, rfl⟩
  · exact ⟨rfl, rfl, rfl⟩

theorem saveFragment_same (s : AppState M ι config) (traceJob : TraceJob)
    (finish : FinishPlan M ι) (endMarker : TraceMarker) :
    SameJobs s (saveFragment s traceJob finish endMarker) := by
  unfold saveFragment
  split
  · split
    · exact .refl s
    split
    · exact .refl s
    · exact ⟨rfl, rfl, rfl⟩
  · exact .refl s

/-- What a step did to jobs and table: nothing, a job was scheduled, or a job was finished. -/
inductive TableStep (s : AppState M ι config) : AppEvent M ι → AppState M ι config → Prop where
  | kept {e s'} (hexpire : ∀ job ticks memory finish, e ≠ .expire job ticks memory finish)
      (hsame : SameJobs s s') : TableStep s e s'
  | scheduled {filename pid job memory plan t traceJob} (hfree : s.jobs job = none)
      (hsame : SameJobs s t) (hpid : traceJob.pid = pid)
      (hstarted : traceJob.started = s.jobsStarted) :
      TableStep s (.exec filename pid job memory plan) (scheduleJob t job memory.entry traceJob)
  | finished {job ticks memory finish t traceJob} (hjob : s.jobs job = some traceJob)
      (hsame : SameJobs s t) :
      TableStep s (.expire job ticks memory finish) (finishTraceJob t job traceJob)

variable [DecidableEq ι]

/-- An exec schedules a job or leaves the table alone. -/
theorem prefetchExecHook_table {s : AppState M ι config} {job : ℕ} (hnone : s.jobs job = none)
    (filename : String) (pid : ℕ) (memory : StartMemory) (plan : WalkPlan M ι) :
    TableStep s (.exec filename pid job memory plan)
      (prefetchExecHook s filename pid job memory plan) := by
  have hexec : ∀ job' ticks memory' finish,
      AppEvent.exec filename pid job memory plan ≠ .expire job' ticks memory' finish := nofun
  unfold prefetchExecHook
  split
  · exact .kept hexec (.refl s)
  split
  · exact .kept hexec (.refl s)
  split
  · unfold startTracingJob
    split
    · exact .kept hexec (.refl s)
    split
    · exact .kept hexec (.refl s)
    dsimp only
    split
    · exact .kept hexec ⟨rfl, rfl, rfl⟩
    · exact .scheduled hnone ⟨rfl, rfl, rfl⟩ rfl rfl
  · unfold startMonitoringJob
    split
    · exact .kept hexec (.refl s)
    split
    · exact .kept hexec (.refl s)
    · exact .scheduled hnone (.refl s) rfl rfl

/-- The work of a tracing job touches no job but its own. -/
theorem finishTracing_table {s : AppState M ι config} {job : ℕ} {traceJob : TraceJob}
    (hjob : s.jobs job = some traceJob) (ticks : ℤ) (memory : Bool) (finish : FinishPlan M ι) :
    TableStep s (.expire job ticks memory finish)
      (finishTracing s job traceJob ticks memory finish) := by
  unfold finishTracing
  dsimp only
  refine .finished hjob ((doFinishMonitoring_same s traceJob ticks memory).trans ?_)
  split
  · exact ⟨rfl, rfl, rfl⟩
  · have hsave := saveFragment_same { doFinishMonitoring s traceJob ticks memory with
      core := (prefetchStopTrace finish.plan finish.endMarker
        (doFinishMonitoring s traceJob ticks memory).core).core } traceJob finish
      (prefetchStopTrace finish.plan finish.endMarker
        (doFinishMonitoring s traceJob ticks memory).core).marker
    exact ⟨hsave.tracedPids, hsave.jobs, hsave.jobsStarted⟩

/-- **Every step is one of these.** -/
theorem step_table {s s' : AppState M ι config} {e : AppEvent M ι} (h : step s e = some s') :
    TableStep s e s' := by
  cases e with
  | exec filename pid job memory plan =>
      simp only [step] at h
      split at h
      · cases h
      · next hfree =>
        cases h
        exact prefetchExecHook_table (by simpa using hfree) filename pid memory plan
  | exit pid ticks memory =>
      have hexit : ∀ job ticks' memory' finish,
          (AppEvent.exit pid ticks memory : AppEvent M ι) ≠ .expire job ticks' memory' finish := nofun
      simp only [step, prefetchExitHook] at h
      split at h
      · cases h
        exact .kept hexit (.refl s)
      split at h
      · cases h
        exact .kept hexit (.refl s)
      · obtain ⟨traceJob, -, rfl⟩ := Option.map_eq_some_iff.1 h
        exact .kept hexit (doFinishMonitoring_same s traceJob ticks memory)
  | expire job ticks memory finish =>
      simp only [step] at h
      split at h
      · cases h
      · next traceJob hjob =>
        split at h
        · cases h
          exact .finished hjob (doFinishMonitoring_same s traceJob ticks memory)
        · cases h
          exact finishTracing_table hjob ticks memory finish
  | control enabled =>
      cases h
      exact .kept nofun ⟨rfl, rfl, rfl⟩
  | env e =>
      obtain ⟨core', -, rfl⟩ := Option.map_eq_some_iff.1 h
      exact .kept nofun ⟨rfl, rfl, rfl⟩

/-! ## §3 — the invariant -/

/-- What holds as long as jobs finish newest first: entries point to jobs of their pid, one entry to
each job, and in every bucket the newer jobs come first. -/
structure Inv (s : AppState M ι config) : Prop where
  entries : ∀ i, ∀ e ∈ s.tracedPids i, ∃ traceJob, s.jobs e.traceJob = some traceJob ∧
    traceJob.pid = e.pid ∧ tracedPidHash e.pid = i
  target : ∀ job, (s.jobs job).isSome → targets job s.tracedPids = 1
  order : ∀ i, (s.tracedPids i).Pairwise (fun e e' => ∀ traceJob traceJob',
    s.jobs e.traceJob = some traceJob → s.jobs e'.traceJob = some traceJob' →
      traceJob'.started < traceJob.started)
  fresh : ∀ job traceJob, s.jobs job = some traceJob → traceJob.started < s.jobsStarted

variable {s s' t : AppState M ι config} {job : ℕ} {traceJob : TraceJob}

omit [DecidableEq ι] in
theorem Inv.matches (h : Inv s) : TableMatches s where
  live := by
    intro i e he
    obtain ⟨traceJob, hjob, -⟩ := h.entries i e he
    rw [hjob]
    rfl
  target := h.target

omit [DecidableEq ι] in
theorem Inv.same (h : Inv s) (hsame : SameJobs s t) : Inv t := by
  constructor
  · rw [hsame.tracedPids, hsame.jobs]
    exact h.entries
  · rw [hsame.tracedPids, hsame.jobs]
    exact h.target
  · rw [hsame.tracedPids, hsame.jobs]
    exact h.order
  · rw [hsame.jobs, hsame.jobsStarted]
    exact h.fresh

omit [DecidableEq ι] in
theorem inv_boot (config : Config) (core : CoreState M ι) (enabled : Bool) :
    Inv (boot config core enabled) where
  entries := by simp [boot, empty]
  target := by simp [boot]
  order := by simp [boot, empty]
  fresh := by simp [boot]

omit [DecidableEq ι] in
/-- No entry points to free memory. -/
theorem Inv.ne_of_free (h : Inv s) (hfree : s.jobs job = none) {i : Fin tracedHashSize}
    {e : TracedPidEntry} (he : e ∈ s.tracedPids i) : e.traceJob ≠ job := by
  rintro rfl
  obtain ⟨traceJob, hjob, -⟩ := h.entries i e he
  rw [hfree] at hjob
  cases hjob

omit [DecidableEq ι] in
/-- **Scheduling a job keeps the invariant**: its entry goes to the head of its bucket. -/
theorem Inv.schedule (h : Inv s) (hfree : s.jobs job = none)
    (hstarted : traceJob.started = s.jobsStarted) : Inv (scheduleJob s job true traceJob) := by
  have hkeep : ∀ {i : Fin tracedHashSize} {e : TracedPidEntry}, e ∈ s.tracedPids i →
      update s.jobs job (some traceJob) e.traceJob = s.jobs e.traceJob := by
    intro i e he
    exact update_of_ne (h.ne_of_free hfree he) _ _
  have htable : (scheduleJob s job true traceJob).tracedPids =
      addHead s.tracedPids (tracedPidHash traceJob.pid) ⟨traceJob.pid, job⟩ := rfl
  have hjobs : (scheduleJob s job true traceJob).jobs = update s.jobs job (some traceJob) := rfl
  constructor
  · intro i e he
    rw [htable, mem_addHead] at he
    rw [hjobs]
    rcases he with ⟨rfl, rfl⟩ | he
    · exact ⟨traceJob, update_self _ _ _, rfl, rfl⟩
    · rw [hkeep he]
      exact h.entries i e he
  · intro job' hjob'
    rw [hjobs] at hjob'
    unfold targets
    rw [htable, count_addHead]
    by_cases hne : job' = job
    · -- nothing pointed to the free address
      have hnone : count (fun e => decide (e.traceJob = job')) s.tracedPids = 0 := by
        apply count_eq_zero
        intro i e he
        exact decide_eq_false (hne ▸ h.ne_of_free hfree he)
      rw [hnone, hne, if_pos (decide_eq_true rfl)]
    · rw [update_of_ne hne] at hjob'
      rw [if_neg (by simpa using fun heq => hne heq.symm), Nat.add_zero]
      exact h.target job' hjob'
  · intro i
    rw [hjobs]
    have hold : (s.tracedPids i).Pairwise (fun e e' => ∀ traceJob₁ traceJob₂,
        update s.jobs job (some traceJob) e.traceJob = some traceJob₁ →
        update s.jobs job (some traceJob) e'.traceJob = some traceJob₂ →
          traceJob₂.started < traceJob₁.started) := by
      apply (h.order i).imp_of_mem
      intro e e' he he'
      rw [hkeep he, hkeep he']
      exact id
    by_cases hi : i = tracedPidHash traceJob.pid
    · subst hi
      rw [htable, addHead, update_self, List.pairwise_cons]
      -- the new job is the newest of all
      refine ⟨?_, hold⟩
      intro e he traceJob₁ traceJob₂ hnew hjob
      rw [update_self] at hnew
      cases hnew
      rw [hkeep he] at hjob
      rw [hstarted]
      exact h.fresh _ _ hjob
    · rw [htable, addHead, update_of_ne hi]
      exact hold
  · intro job' traceJob' hjob'
    rw [hjobs] at hjob'
    show traceJob'.started < s.jobsStarted + 1
    by_cases hne : job' = job
    · subst hne
      rw [update_self] at hjob'
      cases hjob'
      omega
    · rw [update_of_ne hne] at hjob'
      have := h.fresh job' traceJob' hjob'
      omega

omit [DecidableEq ι] in
/-- The entry that finishing a pending job removes, the first of its pid: the job's own or a newer
one's. -/
theorem Inv.first_entry (h : Inv s) (hjob : s.jobs job = some traceJob) :
    ∃ first, findTracedPid traceJob.pid s.tracedPids = some first ∧ first.pid = traceJob.pid ∧
      ∀ job' traceJob', job' ≠ first.traceJob → s.jobs job' = some traceJob' →
        traceJob'.pid = traceJob.pid → ∀ firstJob, s.jobs first.traceJob = some firstJob →
          traceJob'.started < firstJob.started := by
  -- every job of the pid has its entry in the pid's bucket
  have hentry : ∀ job' traceJob', s.jobs job' = some traceJob' → traceJob'.pid = traceJob.pid →
      ∃ e ∈ s.tracedPids (tracedPidHash traceJob.pid), e.pid = traceJob.pid ∧
        e.traceJob = job' := by
    intro job' traceJob' hjob' hpid
    have hone := h.target job' (by rw [hjob']; rfl)
    obtain ⟨i, e, he, hpoints⟩ := exists_mem_of_count_pos
      (hone ▸ Nat.one_pos : 0 < targets job' s.tracedPids)
    have hpoints' : e.traceJob = job' := by simpa using hpoints
    obtain ⟨traceJob'', hjob'', hepid, hbucket⟩ := h.entries i e he
    rw [hpoints', hjob'] at hjob''
    cases hjob''
    have hepid' : e.pid = traceJob.pid := hepid.symm.trans hpid
    rw [hepid'] at hbucket
    exact ⟨e, hbucket ▸ he, hepid', hpoints'⟩
  obtain ⟨own, hown, hownpid, -⟩ := hentry job traceJob hjob rfl
  obtain ⟨first, hfirst⟩ : ∃ first, findTracedPid traceJob.pid s.tracedPids = some first := by
    apply Option.isSome_iff_exists.1
    exact List.find?_isSome.2 ⟨own, hown, decide_eq_true hownpid⟩
  obtain ⟨hpid, front, back, hsplit, hfront, -⟩ := findFirst_split hfirst
  refine ⟨first, hfirst, by simpa using hpid, ?_⟩
  intro job' traceJob' hne hjob' hpid' firstJob hfirstJob
  obtain ⟨e, he, hepid, hpoints⟩ := hentry job' traceJob' hjob' hpid'
  rw [hsplit] at he
  rcases List.mem_append.1 he with he | he
  · have := hfront e he
    simp [hepid] at this
  rcases List.mem_cons.1 he with rfl | he
  · exact absurd hpoints.symm hne
  · -- behind the first entry the jobs are older
    have horder := h.order (tracedPidHash traceJob.pid)
    rw [hsplit, List.pairwise_append, List.pairwise_cons] at horder
    exact horder.2.1.1 e he firstJob traceJob' hfirstJob (by rw [hpoints, hjob'])

omit [DecidableEq ι] in
/-- **Finishing the newest job of a pid keeps the invariant.** -/
theorem Inv.finish (h : Inv s) (hjob : s.jobs job = some traceJob)
    (hnewest : ∀ job' traceJob', job' ≠ job → s.jobs job' = some traceJob' →
      traceJob'.pid = traceJob.pid → traceJob'.started < traceJob.started) :
    Inv (finishTraceJob s job traceJob) := by
  obtain ⟨first, hfirst, hpid, hnewer⟩ := h.first_entry hjob
  have hown : first.traceJob = job := by
    by_contra hne
    obtain ⟨firstJob, hfirstJob, hfirstPid, -⟩ :=
      h.entries _ first (mem_of_findFirst hfirst).1
    have hless := hnewest first.traceJob firstJob hne hfirstJob (hfirstPid.trans hpid)
    have hgreater := hnewer job traceJob (Ne.symm hne) hjob rfl firstJob hfirstJob
    omega
  have htable : (finishTraceJob s job traceJob).tracedPids =
      removeTracedPid traceJob.pid s.tracedPids := rfl
  have hjobs : (finishTraceJob s job traceJob).jobs = update s.jobs job none := rfl
  -- the job's only entry is gone
  have hgone : targets job (removeTracedPid traceJob.pid s.tracedPids) = 0 := by
    have hcount := count_removeFirst (p := fun e => decide (e.traceJob = job)) hfirst
    rw [if_pos (decide_eq_true hown)] at hcount
    have hone : targets job s.tracedPids = 1 := h.target job (by rw [hjob]; rfl)
    unfold targets removeTracedPid at *
    omega
  -- so no entry left points to it
  have hkeep : ∀ {i : Fin tracedHashSize} {e : TracedPidEntry},
      e ∈ removeTracedPid traceJob.pid s.tracedPids i → e.traceJob ≠ job := by
    intro i e he
    unfold targets at hgone
    have hfalse := eq_false_of_count_eq_zero (i := i) (a := e) hgone
    exact of_decide_eq_false (hfalse he)
  constructor
  · intro i e he
    rw [htable] at he
    rw [hjobs, update_of_ne (hkeep he)]
    exact h.entries i e (mem_of_mem_removeFirst he)
  · intro job' hjob'
    rw [hjobs] at hjob'
    have hne : job' ≠ job := by
      rintro rfl
      simp at hjob'
    rw [update_of_ne hne] at hjob'
    rw [htable]
    have hcount := count_removeFirst (p := fun e => decide (e.traceJob = job')) hfirst
    rw [if_neg (by simpa [hown] using hne.symm), Nat.add_zero] at hcount
    exact hcount.trans (h.target job' hjob')
  · intro i
    rw [htable, hjobs]
    apply ((h.order i).sublist removeFirst_sublist).imp_of_mem
    intro e e' he he'
    rw [update_of_ne (hkeep he), update_of_ne (hkeep he')]
    exact id
  · intro job' traceJob' hjob'
    rw [hjobs] at hjob'
    have hne : job' ≠ job := by
      rintro rfl
      simp at hjob'
    rw [update_of_ne hne] at hjob'
    exact h.fresh job' traceJob' hjob'

omit [DecidableEq ι] in
/-- **Finishing any other job breaks the match**: the entry of the pid's newest job goes, and that job
stays. -/
theorem Inv.finish_breaks (h : Inv s) (hjob : s.jobs job = some traceJob) {job' : ℕ}
    {traceJob' : TraceJob} (hne : job' ≠ job) (hjob' : s.jobs job' = some traceJob')
    (hpid' : traceJob'.pid = traceJob.pid) (hnewer' : traceJob.started ≤ traceJob'.started) :
    ¬ TableMatches (finishTraceJob s job traceJob) := by
  intro hmatch
  obtain ⟨first, hfirst, -, hnewer⟩ := h.first_entry hjob
  obtain ⟨firstJob, hfirstJob, -⟩ := h.entries _ first (mem_of_findFirst hfirst).1
  have hother : first.traceJob ≠ job := by
    rintro rfl
    rw [hjob] at hfirstJob
    cases hfirstJob
    have := hnewer job' traceJob' hne hjob' hpid' traceJob hjob
    omega
  -- the job the first entry belongs to stays, without an entry
  have hpending : ((finishTraceJob s job traceJob).jobs first.traceJob).isSome := by
    show (update s.jobs job none first.traceJob).isSome
    rw [update_of_ne hother, hfirstJob]
    rfl
  have hone := hmatch.target first.traceJob hpending
  have hbefore := h.target first.traceJob (by rw [hfirstJob]; rfl)
  have hcount := count_removeFirst (p := fun e => decide (e.traceJob = first.traceJob)) hfirst
  rw [if_pos (decide_eq_true rfl)] at hcount
  have htable : (finishTraceJob s job traceJob).tracedPids =
      removeTracedPid traceJob.pid s.tracedPids := rfl
  rw [htable] at hone
  unfold targets removeTracedPid at *
  omega

/-! ## §4 — steps and runs -/

/-- **A step that meets the condition keeps the invariant.** -/
theorem step_inv {e : AppEvent M ι} (h : Inv s) (hmem : e.EntryAllocated) (hnewest : NewestFirst s e)
    (hstep : step s e = some s') : Inv s' := by
  cases step_table hstep with
  | kept hexpire hsame => exact h.same hsame
  | scheduled hfree hsame hpid hstarted =>
      have hentry : _ = true := hmem
      rw [hentry]
      apply (h.same hsame).schedule
      · rw [hsame.jobs, hfree]
      · rw [hstarted, hsame.jobsStarted]
  | finished hjob hsame =>
      apply (h.same hsame).finish
      · rw [hsame.jobs, hjob]
      · rw [hsame.jobs]
        exact hnewest _ hjob

/-- **A step that does not meet it breaks the match.** -/
theorem step_breaks {e : AppEvent M ι} (h : Inv s) (hnewest : ¬ NewestFirst s e)
    (hstep : step s e = some s') : ¬ TableMatches s' := by
  cases step_table hstep with
  | kept hexpire hsame =>
      cases e with
      | expire job ticks memory finish => exact absurd rfl (hexpire job ticks memory finish)
      | _ => exact absurd trivial hnewest
  | scheduled hfree hsame hpid hstarted => exact absurd trivial hnewest
  | finished hjob hsame =>
      simp only [NewestFirst, not_forall, not_lt] at hnewest
      obtain ⟨traceJob, hjob₁, job', traceJob', hne, hjob', hpid', hnewer⟩ := hnewest
      rw [hjob] at hjob₁
      cases hjob₁
      apply (h.same hsame).finish_breaks ?_ hne ?_ hpid' hnewer
      · rw [hsame.jobs, hjob]
      · rw [hsame.jobs, hjob']

/-- The table matches the jobs in every state of a run. -/
def MatchesThroughout (s : AppState M ι config) (es : List (AppEvent M ι)) : Prop :=
  ∀ pre post t, es = pre ++ post → run step s pre = some t → TableMatches t

/-- From a state with the invariant, the match lasts as long as the condition is met. -/
theorem Inv.matches_iff {es : List (AppEvent M ι)} (h : Inv s)
    (hmem : ∀ e ∈ es, e.EntryAllocated) (hrun : run step s es = some t) :
    MatchesThroughout s es ↔ StepsMeet step NewestFirst s es := by
  apply throughout_iff_stepsMeet (Q := TableMatches) (fun _ => Inv.matches) ?_ ?_ hrun h
  · intro s e s' he hnewest hs hstep
    exact step_inv hs (hmem e he) hnewest hstep
  · intro s e s' hnewest hs hstep
    exact step_breaks hs hnewest hstep

/-- **In every run without allocation failure the table of traced pids matches the jobs in every state,
if and only if every job whose work runs is the one started last among the pending jobs of its
pid.** -/
theorem tables_match_iff {core : CoreState M ι} {enabled : Bool} {es : List (AppEvent M ι)}
    (hmem : ∀ e ∈ es, e.EntryAllocated)
    (hrun : run step (boot config core enabled) es = some t) :
    MatchesThroughout (boot config core enabled) es ↔
      StepsMeet step NewestFirst (boot config core enabled) es :=
  (inv_boot config core enabled).matches_iff hmem hrun

/-- One bucket for file names, a threshold of two ticks. -/
def smallConfig : Config where
  filenameHash := String.length
  filenameHashtableSize := 1
  size_pos := Nat.one_pos
  tracingTicksThreshold := 2

/-- The module on a core that has its buffer, with one empty file in the page cache. -/
def smallBoot : AppState .bits32 Unit smallConfig :=
  boot smallConfig (prefetchCoreInit true
    { cache := fun _ => { host := none, pages := [], sorted := by decide, index_lt := by decide } })
    true

/-- The work of the job at an address runs while its process uses no IO. -/
def expireIdle (job : ℕ) : AppEvent .bits32 Unit :=
  .expire job 0 true { endMarker := ⟨0, 0⟩, plan := { order := [()] } }

/-- Process 7 executes two programs; the jobs are at 1 and 2. -/
def twoPrograms : List (AppEvent .bits32 Unit) :=
  [.exec "/bin/sh" 7 1 {} { order := [()] }, .exec "/bin/ls" 7 2 {} { order := [()] }]

/-- The newer job finishes first. -/
theorem tables_match_iff_sample : MatchesThroughout smallBoot (twoPrograms ++ [expireIdle 2]) := by
  refine (tables_match_iff (by simp [twoPrograms, expireIdle, AppEvent.EntryAllocated]) rfl).2 ?_
  refine (stepsMeet_cons rfl).2 ⟨trivial, (stepsMeet_cons rfl).2 ⟨trivial, ?_⟩⟩
  refine (stepsMeet_cons rfl).2 ⟨?_, stepsMeet_nil⟩
  intro traceJob hjob job' traceJob' hne hjob' _
  have hnewer : some ⟨.finishMonitoring, "/bin/ls", 7, ⟨0, 0⟩, 1⟩ = some traceJob := hjob
  by_cases hone : job' = 1
  · subst hone
    have holder : some ⟨.finishMonitoring, "/bin/sh", 7, ⟨0, 0⟩, 0⟩ = some traceJob' := hjob'
    cases hnewer
    cases holder
    exact Nat.zero_lt_one
  · have hfree : update (update (fun _ => none) 1 (some _)) 2 (some _) job' = some traceJob' := hjob'
    rw [update_of_ne hne, update_of_ne hone] at hfree
    cases hfree

/-- The older job finishes first: the newer one is left without an entry, the entry left points to
freed memory, and the exit of the process reads it. -/
theorem older_job_first_dangles :
    (∀ e ∈ twoPrograms ++ [expireIdle 1], e.EntryAllocated) ∧
      ∃ t, run step smallBoot (twoPrograms ++ [expireIdle 1]) = some t ∧ ¬ TableMatches t ∧
        step t (.exit 7 0 true) = none := by
  refine ⟨by simp [twoPrograms, expireIdle, AppEvent.EntryAllocated], _, rfl, ?_, rfl⟩
  intro hmatch
  have hlive := hmatch.live (tracedPidHash 7) ⟨7, 1⟩ (by decide)
  exact absurd hlive (by decide)

end Prefetch.App

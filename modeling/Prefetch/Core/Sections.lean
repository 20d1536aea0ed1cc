/-
# Prefetch.Core.Sections — clients interleaved at the core's critical sections

`prefetch_start_trace` is two critical sections: the walk under `inode_lock`, then, under
`prefetch_trace_mutex`, the increment of `trace_users`. Other clients' sections may come in between.
Here a start is two events, `startWalk` and `countUser`; stopping and releasing are one section each.

`sessionsSafe_iff`: the trace is never cleared inside a client's session, from its start walk to its
release, if and only if no release takes `trace_users` from 1 to 0 while some client is between its
walk and its increment.
-/
import Prefetch.Core.WalkEffect
import Prefetch.Lib.Runs

namespace Prefetch.Core.Sections

open Function Runs

/-! ## §1 — the system -/

/-- Where a client stands: after its start walk it is not yet counted as a user. -/
inductive Phase where
  | idle
  | walked
  | tracing
  | stopped
  deriving DecidableEq, Repr

/-- The core and its clients. -/
structure System (M : Machine) (κ ι : Type*) where
  core : CoreState M ι
  clients : κ → Phase

/-- The critical sections of the clients, and the events around the module. -/
inductive Event (M : Machine) (κ ι : Type*) where
  | startWalk (c : κ) (marker : TraceMarker) (plan : WalkPlan M ι)
  | countUser (c : κ)
  | continueTrace (c : κ) (marker : TraceMarker) (plan : WalkPlan M ι)
  | stop (c : κ) (marker : TraceMarker) (plan : WalkPlan M ι)
  | release (c : κ) (memory : Bool)
  | env (e : EnvEvent M ι)

variable {M : Machine} {κ ι : Type*} [DecidableEq κ] [DecidableEq ι]

/-- One critical section. `prefetch_start_trace` is cut after `walk_pages`; a start walk that fails,
or finds the module disabled, returns to the client at once. -/
def step (s : System M κ ι) : Event M κ ι → Option (System M κ ι)
  | .startWalk c marker plan =>
      if s.clients c = .idle then
        if ¬ s.core.enabled then some s
        else
          let r := walkPages .startTracing plan marker s.core
          some ⟨r.core, if r.ret ≥ 0 then update s.clients c .walked else s.clients⟩
      else none
  | .countUser c =>
      if s.clients c = .walked then some ⟨s.core.addUsers 1, update s.clients c .tracing⟩
      else none
  | .continueTrace c marker plan =>
      if s.clients c = .tracing then
        some ⟨(prefetchContinueTrace plan marker s.core).core, s.clients⟩
      else none
  | .stop c marker plan =>
      if s.clients c = .tracing then
        some ⟨(prefetchStopTrace plan marker s.core).core, update s.clients c .stopped⟩
      else none
  | .release c memory =>
      if s.clients c = .stopped then
        some ⟨prefetchReleaseTrace memory s.core, update s.clients c .idle⟩
      else none
  | .env e => (envStep s.core e).map (fun core => ⟨core, s.clients⟩)

/-- The system when the module has been initialised: nobody is tracing. -/
def boot (memory enabled : Bool) (traceSizeKb : BitVec 32) (cache : ι → AddressSpace M) :
    System M κ ι where
  core := prefetchCoreInit memory
    { enabled := enabled, traceSizeKb := traceSizeKb, cache := cache }
  clients := fun _ => .idle

/-! ## §2 — what a step does -/

/-- What a section did, without the text of the calls: only a release may do more than append. -/
inductive StepEffect (s : System M κ ι) : Event M κ ι → System M κ ι → Prop where
  | appended {e core' new} (hcall : ∀ c memory, e ≠ .release c memory)
      (hclearing : core'.clearingInProgress = false)
      (hnew : Appends s.core.trace core'.trace new)
      (husers : core'.trace.traceUsers = s.core.trace.traceUsers) :
      StepEffect s e ⟨core', s.clients⟩
  | walked {c marker plan core' new} (hidle : s.clients c = .idle)
      (hclearing : core'.clearingInProgress = false)
      (hnew : Appends s.core.trace core'.trace new)
      (husers : core'.trace.traceUsers = s.core.trace.traceUsers) :
      StepEffect s (.startWalk c marker plan) ⟨core', update s.clients c .walked⟩
  | counted {c} (hwalked : s.clients c = .walked) :
      StepEffect s (.countUser c) ⟨s.core.addUsers 1, update s.clients c .tracing⟩
  | stopped {c marker plan core' new} (htracing : s.clients c = .tracing)
      (hclearing : core'.clearingInProgress = false)
      (hnew : Appends s.core.trace core'.trace new)
      (husers : core'.trace.traceUsers = s.core.trace.traceUsers) :
      StepEffect s (.stop c marker plan) ⟨core', update s.clients c .stopped⟩
  | released {c memory} (hstopped : s.clients c = .stopped) :
      StepEffect s (.release c memory)
        ⟨prefetchReleaseTrace memory s.core, update s.clients c .idle⟩

/-- **Every step is one of these.** -/
theorem step_effect {s s' : System M κ ι} {e : Event M κ ι}
    (hclearing : s.core.clearingInProgress = false) (h : step s e = some s') :
    StepEffect s e s' := by
  have hcall : ∀ {recording : Prop} {visited : List ι} {a u : ℤ} {core' : CoreState M ι},
      Effect recording visited a u s.core core' → core'.clearingInProgress = false ∧
        core'.trace.traceUsers = s.core.trace.traceUsers + u ∧
        ∃ new, Appends s.core.trace core'.trace new := by
    intro recording visited a u core' heffect
    obtain ⟨new, hnew, -⟩ := heffect.pages
    exact ⟨heffect.clearing.trans hclearing, heffect.traceUsers, new, hnew⟩
  cases e with
  | startWalk c marker plan =>
      simp only [step] at h
      split at h
      · next hidle =>
        split at h
        · cases h
          exact .appended nofun hclearing (.refl _) rfl
        · cases h
          rcases walkPages_start hclearing
              (rfl : walkPages .startTracing plan marker s.core = _) with
            ⟨hret, -, heffect⟩ | ⟨hret, -, heffect⟩
          · obtain ⟨hclearing', husers, new, hnew⟩ := hcall heffect
            rw [if_neg (by omega)]
            exact .appended nofun hclearing' hnew (by omega)
          · obtain ⟨hclearing', husers, new, hnew⟩ := hcall heffect
            rw [if_pos (by omega)]
            exact .walked hidle hclearing' hnew (by omega)
      · cases h
  | countUser c =>
      simp only [step] at h
      split at h
      · next hwalked =>
        cases h
        exact .counted hwalked
      · cases h
  | continueTrace c marker plan =>
      simp only [step] at h
      split at h
      · cases h
        rcases prefetchContinueTrace_effect hclearing
            (rfl : prefetchContinueTrace plan marker s.core = _) with
          ⟨-, -, heffect⟩ | ⟨-, -, heffect⟩
        · obtain ⟨hclearing', husers, new, hnew⟩ := hcall heffect
          exact .appended nofun hclearing' hnew (by omega)
        · obtain ⟨hclearing', husers, new, hnew⟩ := hcall heffect
          exact .appended nofun hclearing' hnew (by omega)
      · cases h
  | stop c marker plan =>
      simp only [step] at h
      split at h
      · next htracing =>
        cases h
        rcases prefetchStopTrace_effect hclearing
            (rfl : prefetchStopTrace plan marker s.core = _) with
          ⟨-, -, d, -, heffect⟩ | ⟨-, -, heffect⟩
        · obtain ⟨hclearing', husers, new, hnew⟩ := hcall heffect
          exact .stopped htracing hclearing' hnew (by omega)
        · obtain ⟨hclearing', husers, new, hnew⟩ := hcall heffect
          exact .stopped htracing hclearing' hnew (by omega)
      · cases h
  | release c memory =>
      simp only [step] at h
      split at h
      · next hstopped =>
        cases h
        exact .released hstopped
      · cases h
  | env e =>
      obtain ⟨core', henv, rfl⟩ := Option.map_eq_some_iff.1 h
      obtain ⟨hclearing', ⟨-, husers, -⟩, new, hnew⟩ := envStep_frame henv
      exact .appended nofun (hclearing'.trans hclearing) hnew husers

/-! ## §3 — the invariant -/

/-- The client is counted in `trace_users`. -/
def Phase.counted : Phase → Bool
  | .tracing => true
  | .stopped => true
  | _ => false

/-- The client is in a session: its start walk is done and its own release is not. -/
def Phase.inSession : Phase → Bool
  | .idle => false
  | _ => true

variable [Fintype κ]

/-- What holds in every state reached: no walk is under way, the buffer is in order, and
`trace_users` counts the clients whose start is complete. -/
structure Inv (s : System M κ ι) : Prop where
  clearing : s.core.clearingInProgress = false
  live : ∃ live, Live s.core.trace live
  users : s.core.trace.traceUsers = tally Phase.counted s.clients

omit [DecidableEq κ] [DecidableEq ι] in
theorem inv_boot (memory enabled : Bool) (traceSizeKb : BitVec 32) (cache : ι → AddressSpace M) :
    Inv (boot memory enabled traceSizeKb cache : System M κ ι) := by
  obtain ⟨-, -, husers⟩ := clearTrace_frame traceSizeKb memory ({} : PrefetchTrace M)
  refine ⟨rfl, live_init.clearTrace traceSizeKb memory, ?_⟩
  rw [tally_eq_zero (fun _ => rfl)]
  exact husers

/-- **The invariant is kept by every step.** -/
theorem step_inv {s s' : System M κ ι} {e : Event M κ ι} (hinv : Inv s) (h : step s e = some s') :
    Inv s' := by
  obtain ⟨live, hlive⟩ := hinv.live
  cases step_effect hinv.clearing h with
  | appended hcall hclearing hnew husers =>
      exact ⟨hclearing, ⟨_, hnew.live live hlive⟩, husers.trans hinv.users⟩
  | walked hidle hclearing hnew husers =>
      refine ⟨hclearing, ⟨_, hnew.live live hlive⟩, ?_⟩
      rw [husers, hinv.users, tally_update, hidle]
      simp [Phase.counted]
  | @counted c hwalked =>
      obtain ⟨new, hnew, -⟩ := (addUsers_effect True s.core 1).pages
      refine ⟨hinv.clearing, ⟨_, hnew.live live hlive⟩, ?_⟩
      rw [tally_update, hwalked, ← hinv.users]
      simp [Phase.counted, CoreState.addUsers]
  | stopped htracing hclearing hnew husers =>
      refine ⟨hclearing, ⟨_, hnew.live live hlive⟩, ?_⟩
      rw [husers, hinv.users, tally_update, htracing]
      simp [Phase.counted]
  | @released c memory hstopped =>
      obtain ⟨hclearing, -, -, husers, hkeep⟩ := prefetchReleaseTrace_frame memory s.core
      refine ⟨hclearing.trans hinv.clearing, hkeep live hlive, ?_⟩
      rw [husers, hinv.users, tally_update, hstopped]
      simp [Phase.counted]

theorem run_inv {s s' : System M κ ι} {es : List (Event M κ ι)} (hinv : Inv s)
    (h : run step s es = some s') : Inv s' :=
  run_invariant (fun _ _ _ _ hi hstep => step_inv hi hstep) h hinv

/-! ## §4 — sessions -/

/-- No release finds itself the last user while some client has walked and is not yet counted. -/
def Undisturbed (s : System M κ ι) : Event M κ ι → Prop
  | .release _ _ => s.core.trace.traceUsers = 1 → ∀ d, s.clients d ≠ .walked
  | _ => True

/-- In every session of the run, from a start walk that succeeded up to any point before the client's
own release, the generation is the same and `buffer_used` has not gone back. -/
def SessionsSafe (s₀ : System M κ ι) (es : List (Event M κ ι)) : Prop :=
  ∀ pre c marker plan mid post s s₁ s₂, es = pre ++ .startWalk c marker plan :: (mid ++ post) →
    run step s₀ pre = some s → step s (.startWalk c marker plan) = some s₁ →
    s₁.clients c = .walked → (∀ memory, .release c memory ∉ mid) → run step s₁ mid = some s₂ →
    s₂.core.trace.generation = s₁.core.trace.generation ∧
      s₁.core.trace.bufferUsed.toNat ≤ s₂.core.trace.bufferUsed.toNat

/-- **An undisturbed step inside a session only appends.** -/
theorem step_appends {s s' : System M κ ι} {e : Event M κ ι} {c : κ} (hinv : Inv s)
    (hmeet : Undisturbed s e) (hc : (s.clients c).inSession)
    (hheld : ∀ memory, e ≠ .release c memory) (h : step s e = some s') :
    (s'.clients c).inSession ∧ ∃ new, Appends s.core.trace s'.core.trace new := by
  cases step_effect hinv.clearing h with
  | appended hcall hclearing hnew husers => exact ⟨hc, _, hnew⟩
  | @walked d _ _ _ _ hidle hclearing hnew husers =>
      refine ⟨?_, _, hnew⟩
      by_cases hd : c = d
      · subst hd
        simp [Phase.inSession]
      · simpa [update_of_ne hd] using hc
  | @counted d hwalked =>
      obtain ⟨new, hnew, -⟩ := (addUsers_effect True s.core 1).pages
      refine ⟨?_, new, hnew⟩
      by_cases hd : c = d
      · subst hd
        simp [Phase.inSession]
      · simpa [update_of_ne hd] using hc
  | @stopped d _ _ _ _ htracing hclearing hnew husers =>
      refine ⟨?_, _, hnew⟩
      by_cases hd : c = d
      · subst hd
        simp [Phase.inSession]
      · simpa [update_of_ne hd] using hc
  | @released d memory hstopped =>
      have hd : c ≠ d := by
        rintro rfl
        exact hheld memory rfl
      refine ⟨by simpa [update_of_ne hd] using hc, [], prefetchReleaseTrace_held memory ?_⟩
      intro hone
      -- the only user releases, so `c` is not counted: it has just walked
      have hwalked : s.clients c ≠ .walked := hmeet hone c
      have htwo : 2 ≤ tally Phase.counted s.clients := by
        apply two_le_tally (c := c) _ _ hd
        · cases hphase : s.clients c with
          | idle => simp [hphase, Phase.inSession] at hc
          | walked => exact absurd hphase hwalked
          | tracing => rfl
          | stopped => rfl
        · rw [hstopped]
          rfl
      rw [← hinv.users] at htwo
      omega

/-- Over the part of a run inside a session. -/
theorem run_appends {s s' : System M κ ι} {es : List (Event M κ ι)} {c : κ} (hinv : Inv s)
    (hmeet : StepsMeet step Undisturbed s es) (hc : (s.clients c).inSession)
    (hheld : ∀ memory, .release c memory ∉ es) (h : run step s es = some s') :
    ∃ new, Appends s.core.trace s'.core.trace new := by
  induction es generalizing s with
  | nil =>
      cases h
      exact ⟨[], .refl _⟩
  | cons e es ih =>
      obtain ⟨s₁, hstep, hrun⟩ := run_cons_eq_some.1 h
      obtain ⟨hfirst, hrest⟩ := (stepsMeet_cons hstep).1 hmeet
      have hne : ∀ memory, e ≠ .release c memory := by
        rintro memory rfl
        exact hheld memory List.mem_cons_self
      obtain ⟨hc₁, new, hnew⟩ := step_appends hinv hfirst hc hne hstep
      obtain ⟨more, hmore⟩ := ih (step_inv hinv hstep) hrest hc₁
        (fun memory hmem => hheld memory (List.mem_cons_of_mem _ hmem)) hrun
      exact ⟨new ++ more, hnew.trans hmore⟩

theorem sessionsSafe_of_meet {s₀ : System M κ ι} {es : List (Event M κ ι)} (hinv : Inv s₀)
    (hmeet : StepsMeet step Undisturbed s₀ es) : SessionsSafe s₀ es := by
  intro pre c marker plan mid post s s₁ s₂ hes hpre hstart hwalked hheld hmid
  subst hes
  have hinv₁ := step_inv (run_inv hinv hpre) hstart
  have hmeet₁ := ((stepsMeet_cons hstart).1 ((stepsMeet_append hpre).1 hmeet).2).2
  have hsession : (s₁.clients c).inSession := by
    rw [hwalked]
    rfl
  obtain ⟨new, hnew⟩ := run_appends hinv₁ ((stepsMeet_append hmid).1 hmeet₁).1 hsession hheld hmid
  obtain ⟨live, hlive⟩ := hinv₁.live
  have hused := hnew.bufferUsed hlive
  exact ⟨hnew.generation, by omega⟩

/-! ## §5 — the other direction -/

omit [DecidableEq κ] [Fintype κ] [DecidableEq ι] in
theorem isSome_clearTrace {t : PrefetchTrace M} (traceSizeKb : BitVec 32) (memory : Bool)
    (h : t.buffer.isSome) : (clearTrace traceSizeKb memory t).buffer.isSome ∧
      (clearTrace traceSizeKb memory t).generation = t.generation + 1 := by
  obtain ⟨mem, hmem⟩ := Option.isSome_iff_exists.1 h
  unfold clearTrace
  rw [hmem]
  exact ⟨h, rfl⟩

/-- The buffer, once there, stays. -/
theorem step_present {s s' : System M κ ι} {e : Event M κ ι} (hinv : Inv s)
    (hbuffer : s.core.trace.buffer.isSome) (h : step s e = some s') :
    s'.core.trace.buffer.isSome := by
  cases step_effect hinv.clearing h with
  | appended hcall hclearing hnew husers => rwa [hnew.present]
  | walked hidle hclearing hnew husers => rwa [hnew.present]
  | counted hwalked => exact hbuffer
  | stopped htracing hclearing hnew husers => rwa [hnew.present]
  | @released c memory hstopped =>
      rcases prefetchReleaseTrace_cases memory s.core with ⟨-, heq⟩ | ⟨-, heq⟩
      · rw [heq]
        exact hbuffer
      · rw [heq]
        exact (isSome_clearTrace (t := (s.core.addUsers (-1)).trace) _ memory hbuffer).1

/-- **A client that has walked and is not counted yet** made its start walk somewhere in the run, and
has not released since. -/
theorem exists_startWalk {s₀ s : System M κ ι} {es : List (Event M κ ι)} {d : κ} (hinv : Inv s₀)
    (hidle : s₀.clients d = .idle) (hrun : run step s₀ es = some s)
    (hwalked : s.clients d = .walked) :
    ∃ pre marker plan mid u u₁, es = pre ++ .startWalk d marker plan :: mid ∧
      run step s₀ pre = some u ∧ step u (.startWalk d marker plan) = some u₁ ∧
      u₁.clients d = .walked ∧ (∀ memory, .release d memory ∉ mid) ∧ run step u₁ mid = some s := by
  induction es using List.reverseRecOn generalizing s with
  | nil =>
      cases hrun
      rw [hidle] at hwalked
      cases hwalked
  | append_singleton es e ih =>
      obtain ⟨t, ht, hstep⟩ := run_append_eq_some.1 hrun
      obtain ⟨s', hstep, hnil⟩ := run_cons_eq_some.1 hstep
      cases hnil
      by_cases hbefore : t.clients d = .walked
      · -- it had walked before this step, which is not its release
        obtain ⟨pre, marker, plan, mid, u, u₁, rfl, hpre, hstart, hu₁, hheld, hmid⟩ := ih ht hbefore
        refine ⟨pre, marker, plan, mid ++ [e], u, u₁, by simp, hpre, hstart, hu₁, ?_,
          run_trans hmid (run_step hstep rfl)⟩
        intro memory hmem
        rcases List.mem_append.1 hmem with hmem | hmem
        · exact hheld memory hmem
        · rw [← List.mem_singleton.1 hmem] at hstep
          simp [step, hbefore] at hstep
      · -- this step is its start walk
        cases step_effect (run_inv hinv ht).clearing hstep with
        | appended hcall hclearing hnew husers => exact absurd hwalked hbefore
        | @walked c marker plan _ _ hidle' hclearing hnew husers =>
            by_cases hc : d = c
            · subst hc
              exact ⟨es, marker, plan, [], t, _, rfl, ht, hstep, hwalked, by simp, rfl⟩
            · exact absurd (by simpa [update_of_ne hc] using hwalked) hbefore
        | @counted c hwalked' =>
            by_cases hc : d = c
            · subst hc
              exact absurd hwalked' hbefore
            · exact absurd (by simpa [update_of_ne hc] using hwalked) hbefore
        | @stopped c _ _ _ _ htracing hclearing hnew husers =>
            by_cases hc : d = c
            · subst hc
              simp at hwalked
            · exact absurd (by simpa [update_of_ne hc] using hwalked) hbefore
        | @released c memory hstopped =>
            by_cases hc : d = c
            · subst hc
              simp at hwalked
            · exact absurd (by simpa [update_of_ne hc] using hwalked) hbefore

/-- **The trace is never cleared inside a session, if and only if no last release falls between a
client's start walk and its increment of `trace_users`**, in every run of any number of clients
interleaved at the core's critical sections; the module got its buffer when it was initialised. -/
theorem sessionsSafe_iff {memory enabled : Bool} {traceSizeKb : BitVec 32}
    {cache : ι → AddressSpace M} {es : List (Event M κ ι)} {t : System M κ ι}
    (halloc : allocTraceBuffer (prefetchTraceSize traceSizeKb) memory = true)
    (hrun : run step (boot memory enabled traceSizeKb cache) es = some t) :
    SessionsSafe (boot memory enabled traceSizeKb cache) es ↔
      StepsMeet step Undisturbed (boot memory enabled traceSizeKb cache : System M κ ι) es := by
  have hinv : Inv (boot memory enabled traceSizeKb cache : System M κ ι) := inv_boot _ _ _ _
  constructor
  · intro hsafe
    by_contra hmeet
    obtain ⟨pre, e, post, s, s', rfl, hpre, hstep, -, hdisturbed⟩ := exists_not_meet hrun hmeet
    have hinv_s := run_inv hinv hpre
    have hbuffer : s.core.trace.buffer.isSome := by
      refine (run_invariant (I := fun u => Inv u ∧ u.core.trace.buffer.isSome) ?_ hpre
        ⟨hinv, ?_⟩).2
      · intro u e u' _ ⟨hu, hub⟩ hstep
        exact ⟨step_inv hu hstep, step_present hu hub hstep⟩
      · simp [boot, prefetchCoreInit, clearTrace, halloc, resetTrace]
    cases e with
    | release c memory' =>
        simp only [Undisturbed, not_forall, not_not] at hdisturbed
        obtain ⟨hone, d, hd⟩ := hdisturbed
        obtain ⟨pre₁, marker, plan, mid, u, u₁, rfl, hpre₁, hstart, hu₁, hheld, hmid⟩ :=
          exists_startWalk hinv rfl hpre hd
        have hne : d ≠ c := by
          rintro rfl
          simp [step, hd] at hstep
        -- up to the release the generation is the same, and so it is said to be after it
        have hbefore := hsafe pre₁ d marker plan mid (.release c memory' :: post) u u₁ s
          (by simp) hpre₁ hstart hu₁ hheld hmid
        have hafter := hsafe pre₁ d marker plan (mid ++ [.release c memory']) post u u₁ s'
          (by simp) hpre₁ hstart hu₁ (by simpa [hne] using hheld)
          (run_trans hmid (run_step hstep rfl))
        have hcleared : s'.core.trace.generation = s.core.trace.generation + 1 := by
          cases step_effect hinv_s.clearing hstep with
          | appended hcall hclearing hnew husers => exact absurd rfl (hcall c memory')
          | released hstopped =>
              rcases prefetchReleaseTrace_cases memory' s.core with ⟨hmany, -⟩ | ⟨-, heq⟩
              · exact absurd hone hmany
              · rw [heq]
                exact (isSome_clearTrace (t := (s.core.addUsers (-1)).trace) _ memory' hbuffer).2
        rw [hcleared, ← hbefore.1] at hafter
        have hwrap := hafter.1
        simp at hwrap
    | _ => exact absurd trivial hdisturbed
  · exact sessionsSafe_of_meet hinv

/-- An empty page cache. -/
def emptyCache : Unit → AddressSpace .bits32 := fun _ =>
  { host := none, pages := [], sorted := AddressSpace.sorted_nil, index_lt := AddressSpace.index_lt_nil }

/-- Two clients whose sessions overlap, each counted before anybody releases. -/
theorem sessionsSafe_iff_sample :
    SessionsSafe (boot true true 256 emptyCache : System .bits32 Bool Unit)
      [.startWalk false ⟨0, 0⟩ { order := [()] }, .countUser false,
        .startWalk true ⟨0, 0⟩ { order := [()] }, .countUser true,
        .stop false ⟨0, 0⟩ { order := [()] }, .release false true] := by
  refine (sessionsSafe_iff (by decide) rfl).2 ?_
  refine (stepsMeet_cons rfl).2 ⟨trivial, (stepsMeet_cons rfl).2 ⟨trivial, ?_⟩⟩
  refine (stepsMeet_cons rfl).2 ⟨trivial, (stepsMeet_cons rfl).2 ⟨trivial, ?_⟩⟩
  refine (stepsMeet_cons rfl).2 ⟨trivial, (stepsMeet_cons rfl).2 ⟨?_, stepsMeet_nil⟩⟩
  intro hone
  exact absurd hone (by decide)

/-- The last user releases after another client's start walk and before that client is counted: the
trace the walk has just begun is cleared. -/
theorem release_in_start_clears :
    ¬ SessionsSafe (boot true true 256 emptyCache : System .bits32 Bool Unit)
      [.startWalk false ⟨0, 0⟩ { order := [()] }, .countUser false,
        .stop false ⟨0, 0⟩ { order := [()] }, .startWalk true ⟨0, 0⟩ { order := [()] },
        .release false true] := by
  intro hsafe
  have hsession := hsafe [.startWalk false ⟨0, 0⟩ { order := [()] }, .countUser false,
    .stop false ⟨0, 0⟩ { order := [()] }] true ⟨0, 0⟩ { order := [()] } [.release false true] []
    _ _ _ rfl rfl rfl (by decide) (by simp) rfl
  exact absurd hsession.1 (by decide)

end Prefetch.Core.Sections

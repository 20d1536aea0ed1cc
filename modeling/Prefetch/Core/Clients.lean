/-
# Prefetch.Core.Clients — any number of clients tracing at the same time

The tracing core as a system: its state, a finite family of clients, and events, each API call being
one step. A client starts tracing, may continue, stops and releases, in that order; whatever its calls
return, it goes on as the callers in the boot and application modules do (a failed start leaves it
idle, a failed stop is still followed by a release). Every other client does the same in any order.

`fragment_exact_iff`: between a client's successful start and its release, the fragment between its two
markers holds exactly the records appended since its start, if and only if its start found no tracer
or was handed a marker variable that already held the current place. The start of a client that finds
others tracing never sets the marker.
-/
import Prefetch.Core.WalkEffect
import Prefetch.Lib.Runs

namespace Prefetch.Core

open Function Runs

/-! ## §1 — the system -/

/-- Where a client stands, with the markers its calls left it. -/
inductive Client where
  | idle
  | tracing (startMarker : TraceMarker)
  | stopped (startMarker endMarker : TraceMarker) (success : Bool)
  deriving DecidableEq, Repr

/-- The core and its clients. -/
structure System (M : Machine) (κ ι : Type*) where
  core : CoreState M ι
  clients : κ → Client

/-- The calls of clients, each with the contents of the marker variable it is given, and the events
around the module. -/
inductive Event (M : Machine) (κ ι : Type*) where
  | start (c : κ) (marker : TraceMarker) (plan : WalkPlan M ι)
  | continueTrace (c : κ) (marker : TraceMarker) (plan : WalkPlan M ι)
  | stop (c : κ) (marker : TraceMarker) (plan : WalkPlan M ι)
  | release (c : κ) (memory : Bool)
  | env (e : EnvEvent M ι)

variable {M : Machine} {κ ι : Type*} [DecidableEq κ] [DecidableEq ι]

/-- One event, each call atomic. -/
def step (s : System M κ ι) : Event M κ ι → Option (System M κ ι)
  | .start c marker plan =>
      match s.clients c with
      | .idle =>
          let r := prefetchStartTrace plan marker s.core
          some ⟨r.core,
            if r.ret ≥ 0 then update s.clients c (.tracing r.marker) else s.clients⟩
      | _ => none
  | .continueTrace c marker plan =>
      match s.clients c with
      | .tracing _ => some ⟨(prefetchContinueTrace plan marker s.core).core, s.clients⟩
      | _ => none
  | .stop c marker plan =>
      match s.clients c with
      | .tracing startMarker =>
          let r := prefetchStopTrace plan marker s.core
          some ⟨r.core, update s.clients c (.stopped startMarker r.marker (decide (r.ret ≥ 0)))⟩
      | _ => none
  | .release c memory =>
      match s.clients c with
      | .stopped _ _ _ => some ⟨prefetchReleaseTrace memory s.core, update s.clients c .idle⟩
      | _ => none
  | .env e => (envStep s.core e).map (fun core => ⟨core, s.clients⟩)

/-- The system when the module has been initialised: nobody is tracing. -/
def boot (memory enabled : Bool) (traceSizeKb : BitVec 32) (cache : ι → AddressSpace M) :
    System M κ ι where
  core := prefetchCoreInit memory
    { enabled := enabled, traceSizeKb := traceSizeKb, cache := cache }
  clients := fun _ => .idle

/-! ## §2 — what a step does -/

/-- What a step did, without the text of the calls. -/
inductive StepEffect (s : System M κ ι) : Event M κ ι → System M κ ι → Prop where
  | started {c marker plan core'} (hidle : s.clients c = .idle)
      (heffect : Effect (s.core.trace.tracersCount ≠ 0) plan.visited 1 1 s.core core') :
      StepEffect s (.start c marker plan) ⟨core', update s.clients c (.tracing
        (if s.core.trace.tracersCount = 0 then getTraceMarker s.core.trace else marker))⟩
  | startFailed {c marker plan core'} (hidle : s.clients c = .idle)
      (heffect : Effect True [] 0 0 s.core core') :
      StepEffect s (.start c marker plan) ⟨core', s.clients⟩
  | continued {c marker plan core' visited} (heffect : Effect True visited 0 0 s.core core') :
      StepEffect s (.continueTrace c marker plan) ⟨core', s.clients⟩
  | stopped {c marker plan core' startMarker} (htracing : s.clients c = .tracing startMarker)
      (heffect : Effect True plan.visited (-1) 0 s.core core') :
      StepEffect s (.stop c marker plan)
        ⟨core', update s.clients c (.stopped startMarker (getTraceMarker core'.trace) true)⟩
  | stopFailed {c marker plan core' startMarker d} (htracing : s.clients c = .tracing startMarker)
      (hd : d = 0 ∨ d = -1) (heffect : Effect True [] d 0 s.core core') :
      StepEffect s (.stop c marker plan)
        ⟨core', update s.clients c (.stopped startMarker marker false)⟩
  | released {c memory startMarker endMarker success}
      (hstopped : s.clients c = .stopped startMarker endMarker success) :
      StepEffect s (.release c memory)
        ⟨prefetchReleaseTrace memory s.core, update s.clients c .idle⟩
  | env {e core'} (henv : envStep s.core e = some core') :
      StepEffect s (.env e) ⟨core', s.clients⟩

/-- **Every step is one of these.** -/
theorem step_effect {s s' : System M κ ι} {e : Event M κ ι}
    (hclearing : s.core.clearingInProgress = false) (h : step s e = some s') :
    StepEffect s e s' := by
  cases e with
  | start c marker plan =>
      simp only [step] at h
      split at h
      · next hidle =>
        cases h
        rcases prefetchStartTrace_effect hclearing
            (rfl : prefetchStartTrace plan marker s.core = _) with
          ⟨hret, -, heffect⟩ | ⟨hret, hmarker, heffect⟩
        · rw [if_neg (by omega)]
          exact .startFailed hidle heffect
        · rw [if_pos (by omega), hmarker]
          exact .started hidle heffect
      · cases h
  | continueTrace c marker plan =>
      simp only [step] at h
      split at h
      · cases h
        rcases prefetchContinueTrace_effect hclearing
            (rfl : prefetchContinueTrace plan marker s.core = _) with
          ⟨-, -, heffect⟩ | ⟨-, -, heffect⟩
        · exact .continued heffect
        · exact .continued heffect
      · cases h
  | stop c marker plan =>
      simp only [step] at h
      split at h
      · next startMarker htracing =>
        cases h
        rcases prefetchStopTrace_effect hclearing
            (rfl : prefetchStopTrace plan marker s.core = _) with
          ⟨hret, hmarker, d, hd, heffect⟩ | ⟨hret, hmarker, heffect⟩
        · rw [hmarker, decide_eq_false (by omega)]
          exact .stopFailed htracing hd heffect
        · rw [hmarker, decide_eq_true (by omega)]
          exact .stopped htracing heffect
      · cases h
  | release c memory =>
      simp only [step] at h
      split at h
      · next hstopped =>
        cases h
        exact .released hstopped
      · cases h
  | env e =>
      obtain ⟨core', henv, rfl⟩ := Option.map_eq_some_iff.1 h
      exact .env henv

/-! ## §3 — the invariant -/

/-- The client is between a successful start and its stop. -/
def Client.isTracing : Client → Bool
  | .tracing _ => true
  | _ => false

/-- The client is between a successful start and its release. -/
def Client.holds : Client → Bool
  | .idle => false
  | _ => true

variable [Fintype κ]

/-- What holds in every state reached: no walk is under way, the buffer is in order, `trace_users`
counts the clients that hold the trace and `tracers_count` at least those that trace. -/
structure Inv (s : System M κ ι) : Prop where
  clearing : s.core.clearingInProgress = false
  live : ∃ live, Live s.core.trace live
  users : s.core.trace.traceUsers = tally Client.holds s.clients
  tracers : tally Client.isTracing s.clients ≤ s.core.trace.tracersCount

omit [DecidableEq κ] [DecidableEq ι] in
theorem inv_boot (memory enabled : Bool) (traceSizeKb : BitVec 32) (cache : ι → AddressSpace M) :
    Inv (boot memory enabled traceSizeKb cache : System M κ ι) := by
  obtain ⟨-, htracers, husers⟩ := clearTrace_frame traceSizeKb memory ({} : PrefetchTrace M)
  refine ⟨rfl, live_init.clearTrace traceSizeKb memory, ?_, ?_⟩
  · rw [tally_eq_zero (fun _ => rfl)]
    exact husers
  · rw [tally_eq_zero (fun _ => rfl)]
    exact htracers.ge

omit [DecidableEq κ] in
theorem Effect.inv {recording : Prop} {visited : List ι} {a u : ℤ} {s : System M κ ι}
    {core' : CoreState M ι} {clients' : κ → Client} (hinv : Inv s)
    (h : Effect recording visited a u s.core core')
    (husers : tally Client.holds clients' = tally Client.holds s.clients + u)
    (htracers : tally Client.isTracing clients' ≤ tally Client.isTracing s.clients + a) :
    Inv (⟨core', clients'⟩ : System M κ ι) := by
  obtain ⟨live, hlive⟩ := hinv.live
  obtain ⟨new, hnew, -⟩ := h.pages
  have htracers' := hinv.tracers
  refine ⟨h.clearing.trans hinv.clearing, ⟨live ++ new, hnew.live live hlive⟩, ?_, ?_⟩
  · rw [h.traceUsers, hinv.users, husers]
  · rw [h.tracersCount]
    show tally Client.isTracing clients' ≤ _
    omega

/-- **The invariant is kept by every step.** -/
theorem step_inv {s s' : System M κ ι} {e : Event M κ ι} (hinv : Inv s) (h : step s e = some s') :
    Inv s' := by
  cases step_effect hinv.clearing h with
  | started hidle heffect =>
      apply heffect.inv hinv
      · rw [tally_update, hidle]
        simp [Client.holds]
      · rw [tally_update, hidle]
        simp [Client.isTracing]
  | startFailed hidle heffect => exact heffect.inv hinv (by omega) (by omega)
  | continued heffect => exact heffect.inv hinv (by omega) (by omega)
  | stopped htracing heffect =>
      apply heffect.inv hinv
      · rw [tally_update, htracing]
        simp [Client.holds]
      · rw [tally_update, htracing]
        simp [Client.isTracing]
  | stopFailed htracing hd heffect =>
      apply heffect.inv hinv
      · rw [tally_update, htracing]
        simp [Client.holds]
      · rw [tally_update, htracing]
        -- the count may stay up where the stop failed: the invariant is only a bound
        simp only [Client.isTracing, if_true, Bool.false_eq_true, if_false]
        omega
  | @released _ memory _ _ _ hstopped =>
      obtain ⟨hclearing, -, htracers, husers, hlive⟩ := prefetchReleaseTrace_frame memory s.core
      obtain ⟨live, hl⟩ := hinv.live
      refine ⟨hclearing.trans hinv.clearing, hlive live hl, ?_, ?_⟩
      · rw [husers, hinv.users, tally_update, hstopped]
        simp [Client.holds]
      · rw [htracers, tally_update, hstopped]
        simpa [Client.isTracing] using hinv.tracers
  | env henv =>
      obtain ⟨hclearing, ⟨htracers, husers, -⟩, new, hnew⟩ := envStep_frame henv
      obtain ⟨live, hlive⟩ := hinv.live
      refine ⟨hclearing.trans hinv.clearing, ⟨live ++ new, hnew.live live hlive⟩, ?_, ?_⟩
      · exact husers.trans hinv.users
      · rw [htracers]
        exact hinv.tracers

/-! ## §4 — while a client holds the trace -/

omit [Fintype κ] in
/-- A step of a client that leaves it holding the trace takes the trace from nobody. -/
theorem holds_update {clients : κ → Client} {c : κ} (d : κ) {client : Client} (h : client.holds)
    (hc : (clients c).holds) : (update clients d client c).holds := by
  by_cases hd : c = d
  · rw [hd, update_self]
    exact h
  · rw [update_of_ne hd]
    exact hc

/-- **While a client holds the trace it is only appended to**, whatever the others do: another
client's release is not the last one. -/
theorem step_appends {s s' : System M κ ι} {e : Event M κ ι} {c : κ} (hinv : Inv s)
    (hc : (s.clients c).holds) (hheld : ∀ memory, e ≠ .release c memory)
    (h : step s e = some s') :
    (s'.clients c).holds ∧ ∃ new, Appends s.core.trace s'.core.trace new := by
  cases step_effect hinv.clearing h with
  | @started d _ _ _ hidle heffect =>
      exact ⟨holds_update d rfl hc, heffect.appends⟩
  | startFailed hidle heffect => exact ⟨hc, heffect.appends⟩
  | continued heffect => exact ⟨hc, heffect.appends⟩
  | @stopped d _ _ _ _ htracing heffect =>
      exact ⟨holds_update d rfl hc, heffect.appends⟩
  | @stopFailed d _ _ _ _ _ htracing hd heffect =>
      exact ⟨holds_update d rfl hc, heffect.appends⟩
  | @released d memory _ _ _ hstopped =>
      have hd : c ≠ d := by
        rintro rfl
        exact hheld memory rfl
      -- `c` and the client that releases are two users
      have htwo : 2 ≤ tally Client.holds s.clients := by
        apply two_le_tally hc _ hd
        rw [hstopped]
        rfl
      rw [← hinv.users] at htwo
      refine ⟨?_, [], prefetchReleaseTrace_held memory (by omega)⟩
      simpa [update_of_ne hd] using hc
  | env henv =>
      obtain ⟨-, -, hnew⟩ := envStep_frame henv
      exact ⟨hc, hnew⟩

theorem run_inv {s s' : System M κ ι} {es : List (Event M κ ι)} (hinv : Inv s)
    (h : run step s es = some s') : Inv s' :=
  run_invariant (fun _ _ _ _ hi hstep => step_inv hi hstep) h hinv

/-- Over a whole run. -/
theorem run_appends {s s' : System M κ ι} {es : List (Event M κ ι)} {c : κ} (hinv : Inv s)
    (hc : (s.clients c).holds) (hheld : ∀ memory, .release c memory ∉ es)
    (h : run step s es = some s') : ∃ new, Appends s.core.trace s'.core.trace new := by
  have hrun : Inv s' ∧ (s'.clients c).holds ∧ ∃ new, Appends s.core.trace s'.core.trace new := by
    refine run_invariant (I := fun t => Inv t ∧ (t.clients c).holds ∧
      ∃ new, Appends s.core.trace t.core.trace new) ?_ h ⟨hinv, hc, [], .refl _⟩
    rintro t e t' he ⟨hti, htc, new, hnew⟩ hstep
    have hne : ∀ memory, e ≠ .release c memory := by
      rintro memory rfl
      exact hheld memory he
    obtain ⟨htc', new', hnew'⟩ := step_appends hti htc hne hstep
    exact ⟨step_inv hti hstep, htc', new ++ new', hnew.trans hnew'⟩
  exact hrun.2.2

omit [Fintype κ] in
/-- A tracing client goes on tracing until it stops. -/
theorem step_tracing {s s' : System M κ ι} {e : Event M κ ι} {c : κ} {startMarker : TraceMarker}
    (hclearing : s.core.clearingInProgress = false) (hc : s.clients c = .tracing startMarker)
    (hquiet : ∀ marker plan, e ≠ .stop c marker plan) (h : step s e = some s') :
    s'.clients c = .tracing startMarker := by
  cases step_effect hclearing h with
  | @started d _ _ _ hidle heffect =>
      have hd : c ≠ d := by
        rintro rfl
        rw [hc] at hidle
        cases hidle
      simpa [update_of_ne hd] using hc
  | startFailed hidle heffect => exact hc
  | continued heffect => exact hc
  | @stopped d marker plan _ _ htracing heffect =>
      have hd : c ≠ d := by
        rintro rfl
        exact hquiet marker plan rfl
      simpa [update_of_ne hd] using hc
  | @stopFailed d marker plan _ _ _ htracing hd heffect =>
      have hd : c ≠ d := by
        rintro rfl
        exact hquiet marker plan rfl
      simpa [update_of_ne hd] using hc
  | @released d memory _ _ _ hstopped =>
      have hd : c ≠ d := by
        rintro rfl
        rw [hc] at hstopped
        cases hstopped
      simpa [update_of_ne hd] using hc
  | env henv => exact hc

theorem run_tracing {s s' : System M κ ι} {es : List (Event M κ ι)} {c : κ}
    {startMarker : TraceMarker} (hinv : Inv s) (hc : s.clients c = .tracing startMarker)
    (hquiet : ∀ marker plan, .stop c marker plan ∉ es) (h : run step s es = some s') :
    s'.clients c = .tracing startMarker := by
  have hrun : Inv s' ∧ s'.clients c = .tracing startMarker := by
    refine run_invariant (I := fun t => Inv t ∧ t.clients c = .tracing startMarker) ?_ h
      ⟨hinv, hc⟩
    rintro t e t' he ⟨hti, htc⟩ hstep
    have hne : ∀ marker plan, e ≠ .stop c marker plan := by
      rintro marker plan rfl
      exact hquiet marker plan he
    exact ⟨step_inv hti hstep, step_tracing hti.clearing htc hne hstep⟩
  exact hrun.2

/-- While a client traces, the trace is only appended to: it does not release before it stops. -/
theorem run_tracing_appends {s s' : System M κ ι} {es : List (Event M κ ι)} {c : κ}
    {startMarker : TraceMarker} (hinv : Inv s) (hc : s.clients c = .tracing startMarker)
    (hquiet : ∀ marker plan, .stop c marker plan ∉ es) (h : run step s es = some s') :
    ∃ new, Appends s.core.trace s'.core.trace new := by
  refine (run_invariant (I := fun t => (Inv t ∧ t.clients c = .tracing startMarker) ∧
    ∃ new, Appends s.core.trace t.core.trace new) ?_ h ⟨⟨hinv, hc⟩, [], .refl _⟩).2
  rintro t e t' he ⟨⟨hti, htc⟩, new, hnew⟩ hstep
  have hne : ∀ marker plan, e ≠ .stop c marker plan := by
    rintro marker plan rfl
    exact hquiet marker plan he
  -- a tracing client cannot release
  have hne' : ∀ memory, e ≠ .release c memory := by
    rintro memory rfl
    simp [step, htc] at hstep
  have hholds : (t.clients c).holds := by
    rw [htc]
    rfl
  obtain ⟨-, new', hnew'⟩ := step_appends hti hholds hne' hstep
  exact ⟨⟨step_inv hti hstep, step_tracing hti.clearing htc hne hstep⟩, new ++ new',
    hnew.trans hnew'⟩

omit [Fintype κ] in
/-- A client that traces has not released, nor can it before it stops. -/
theorem step_start_tracing {s s₁ : System M κ ι} {c : κ} {marker startMarker : TraceMarker}
    {plan : WalkPlan M ι} (hclearing : s.core.clearingInProgress = false)
    (h : step s (.start c marker plan) = some s₁) (hc : s₁.clients c = .tracing startMarker) :
    startMarker =
        (if s.core.trace.tracersCount = 0 then getTraceMarker s.core.trace else marker) ∧
      Effect (s.core.trace.tracersCount ≠ 0) plan.visited 1 1 s.core s₁.core := by
  cases step_effect hclearing h with
  | started hidle heffect =>
      simp only [update_self, Client.tracing.injEq] at hc
      exact ⟨hc.symm, heffect⟩
  | startFailed hidle heffect =>
      rw [hidle] at hc
      cases hc

omit [Fintype κ] in
/-- What a successful stop leaves. -/
theorem step_stop_stopped {s s₁ : System M κ ι} {c : κ}
    {marker startMarker startMarker' endMarker : TraceMarker} {plan : WalkPlan M ι}
    (hclearing : s.core.clearingInProgress = false) (hc : s.clients c = .tracing startMarker)
    (h : step s (.stop c marker plan) = some s₁)
    (hc₁ : s₁.clients c = .stopped startMarker' endMarker true) :
    startMarker' = startMarker ∧ endMarker = getTraceMarker s₁.core.trace ∧
      Effect True plan.visited (-1) 0 s.core s₁.core := by
  cases step_effect hclearing h with
  | stopped htracing heffect =>
      rw [hc, Client.tracing.injEq] at htracing
      simp only [update_self, Client.stopped.injEq] at hc₁
      exact ⟨hc₁.1.symm.trans htracing.symm, hc₁.2.1.symm, heffect⟩
  | stopFailed htracing hd heffect =>
      simp only [update_self, Client.stopped.injEq, Bool.false_eq_true, and_false] at hc₁

/-! ## §5 — a client's fragment -/

/-- The fragment between two markers, read at `now`, holds exactly the records appended from `start`
to `stop`. -/
def FragmentExact (start stop now : PrefetchTrace M) (startMarker endMarker : TraceMarker) : Prop :=
  ∃ appended, stop.history = start.history ++ appended ∧
    getPrefetchTraceFragment now startMarker endMarker true = .ofRecords appended

section Session

variable {memory enabled : Bool} {traceSizeKb : BitVec 32} {cache : ι → AddressSpace M}
  {pre mid post : List (Event M κ ι)} {s s₁ s₂ s₃ s₄ : System M κ ι} {c : κ}
  {marker marker' startMarker endMarker : TraceMarker} {plan plan' : WalkPlan M ι}

/-- From a client's start to its release the trace is appended to, and the stop hands out the marker
behind the records appended so far. -/
theorem session_appends (hinv : Inv s) (hstart : step s (.start c marker plan) = some s₁)
    (hsuccess : s₁.clients c = .tracing startMarker)
    (hmid : run step s₁ mid = some s₂) (hquiet : ∀ marker plan, .stop c marker plan ∉ mid)
    (hstop : step s₂ (.stop c marker' plan') = some s₃)
    (hsuccess' : s₃.clients c = .stopped startMarker endMarker true)
    (hpost : run step s₃ post = some s₄) (hheld : ∀ memory, .release c memory ∉ post) :
    endMarker = getTraceMarker s₃.core.trace ∧
      ∃ new more, Appends s.core.trace s₃.core.trace new ∧
        Appends s₃.core.trace s₄.core.trace more := by
  have hinv₁ := step_inv hinv hstart
  have htracing := run_tracing hinv₁ hsuccess hquiet hmid
  have hinv₂ := run_inv hinv₁ hmid
  have hinv₃ := step_inv hinv₂ hstop
  obtain ⟨-, hstarted⟩ := step_start_tracing hinv.clearing hstart hsuccess
  obtain ⟨-, hend, hstopped⟩ := step_stop_stopped hinv₂.clearing htracing hstop hsuccess'
  -- the start's walk, the run up to the stop, the stop's walk
  obtain ⟨new₁, hnew₁, -⟩ := hstarted.pages
  obtain ⟨new₃, hnew₃, -⟩ := hstopped.pages
  obtain ⟨new₂, hnew₂⟩ := run_tracing_appends hinv₁ hsuccess hquiet hmid
  have hholds : (s₃.clients c).holds := by
    rw [hsuccess']
    rfl
  obtain ⟨more, hmore⟩ := run_appends hinv₃ hholds hheld hpost
  exact ⟨hend, _, more, (hnew₁.trans hnew₂).trans hnew₃, hmore⟩

/-- **A client reads exactly the records appended between its start and its stop, if and only if its
start set the marker**: it found no tracer, or the marker variable it was given held the current place
already. Any run leads to the start, any other events lie in between and after, and the client has
not released the trace yet. -/
theorem fragment_exact_iff (hpre : run step (boot memory enabled traceSizeKb cache) pre = some s)
    (hstart : step s (.start c marker plan) = some s₁)
    (hsuccess : s₁.clients c = .tracing startMarker)
    (hmid : run step s₁ mid = some s₂) (hquiet : ∀ marker plan, .stop c marker plan ∉ mid)
    (hstop : step s₂ (.stop c marker' plan') = some s₃)
    (hsuccess' : s₃.clients c = .stopped startMarker endMarker true)
    (hpost : run step s₃ post = some s₄) (hheld : ∀ memory, .release c memory ∉ post) :
    FragmentExact s.core.trace s₃.core.trace s₄.core.trace startMarker endMarker ↔
      s.core.trace.tracersCount = 0 ∨ marker = getTraceMarker s.core.trace := by
  have hinv := run_inv (inv_boot memory enabled traceSizeKb cache) hpre
  obtain ⟨live, hlive⟩ := hinv.live
  obtain ⟨hmarker, -⟩ := step_start_tracing hinv.clearing hstart hsuccess
  obtain ⟨rfl, new, more, hnew, hmore⟩ := session_appends hinv hstart hsuccess hmid hquiet hstop
    hsuccess' hpost hheld
  have hread := getPrefetchTraceFragment_exact hlive hnew hmore startMarker
  calc FragmentExact s.core.trace s₃.core.trace s₄.core.trace startMarker
        (getTraceMarker s₃.core.trace)
      ↔ startMarker = getTraceMarker s.core.trace := by
        rw [← hread]
        constructor
        · rintro ⟨appended, hhistory, hget⟩
          rwa [List.append_cancel_left (hnew.history.symm.trans hhistory)]
        · intro hget
          exact ⟨new, hnew.history, hget⟩
    _ ↔ s.core.trace.tracersCount = 0 ∨ marker = getTraceMarker s.core.trace := by
        rw [hmarker]
        split
        · next hzero => simp [hzero]
        · next hne => simp [hne]

end Session

/-- One file on a block device, its page 3 in the cache. -/
def sampleCache : Unit → AddressSpace .bits32 := fun _ =>
  { host := some ⟨some 8, 7⟩
    pages := [{ index := 3 }]
    sorted := by decide
    index_lt := by decide }

/-- The first tracer reads back the page touched while it traced, behind an empty range: a walk whose
first page is referenced reports what it has collected before that page. -/
theorem fragment_exact_iff_sample : ∃ s₁ s₂ s₃ : System .bits32 Bool Unit,
    step (boot true true 256 sampleCache) (.start false ⟨0, 0⟩ { order := [()] }) = some s₁ ∧
    run step s₁ [.env (.touch () 3)] = some s₂ ∧
    step s₂ (.stop false ⟨0, 0⟩ { order := [()] }) = some s₃ ∧
    s₃.clients false = .stopped ⟨0, 1⟩ ⟨32, 1⟩ true ∧
    FragmentExact (boot true true 256 sampleCache : System .bits32 Bool Unit).core.trace
      s₃.core.trace s₃.core.trace ⟨0, 1⟩ ⟨32, 1⟩ := by
  refine ⟨_, _, _, rfl, rfl, rfl, by decide, ?_⟩
  refine (fragment_exact_iff (rfl : run step _ [] = some _)
    (rfl : step _ (.start false ⟨0, 0⟩ { order := [()] }) = some _) (by decide)
    (rfl : run step _ [.env (.touch () 3)] = some _) ?_
    (rfl : step _ (.stop false ⟨0, 0⟩ { order := [()] }) = some _) (by decide)
    (rfl : run step _ [] = some _) ?_).2 (.inl rfl)
  · simp
  · simp

/-- A client whose start finds another one tracing, its marker zeroed by `kzalloc`, cannot read its
trace: the generation of that marker is not the one of the trace. -/
theorem nested_fragment_fails : ∃ s s₁ s₂ s₃ : System .bits32 Bool Unit,
    run step (boot true true 256 sampleCache) [.start false ⟨0, 0⟩ { order := [()] }] = some s ∧
    step s (.start true ⟨0, 0⟩ { order := [()] }) = some s₁ ∧
    s₁.clients true = .tracing ⟨0, 0⟩ ∧
    run step s₁ [.env (.touch () 3)] = some s₂ ∧
    step s₂ (.stop true ⟨0, 0⟩ { order := [()] }) = some s₃ ∧
    s₃.clients true = .stopped ⟨0, 0⟩ ⟨32, 1⟩ true ∧
    ¬ FragmentExact s.core.trace s₃.core.trace s₃.core.trace ⟨0, 0⟩ ⟨32, 1⟩ := by
  refine ⟨_, _, _, _, rfl, rfl, by decide, rfl, rfl, by decide, ?_⟩
  rintro ⟨appended, -, hget⟩
  have hsize := fragmentSize_of_ofRecords hget
  have hinvalid : prefetchTraceFragmentSize ⟨0, 0⟩ ⟨32, 1⟩ < 0 := by decide
  omega

end Prefetch.Core

/-
# Prefetch.Boot.Intervals — the intervals boot tracing saves

Boot tracing next to any number of other clients of the core, each boot command and each call one step.
To the core boot tracing is one more client (`step_simulates`), so as long as it runs the trace is only
appended to, whatever the others do.

`boot_intervals_iff`: from the start of boot tracing to its stop the saved intervals follow one another,
and each holds exactly the records appended in the phase it is saved for, if and only if the start set
the marker: it counted the first tracer, or the marker of an earlier boot trace was still at the right
place.
-/
import Prefetch.Boot.Boot
import Prefetch.Core.Clients
import Mathlib.Data.Fintype.Option

namespace Prefetch.Boot

open Function Runs Prefetch.Core

variable {M : Machine} {κ ι : Type*}

/-! ## §1 — the system -/

/-- The core, boot tracing and the other clients. -/
structure BootSystem (M : Machine) (κ ι : Type*) where
  core : CoreState M ι
  boot : BootState M
  clients : κ → Client

/-- A boot command, or a step of the core with its other clients. -/
inductive BootEvent (M : Machine) (κ ι : Type*) where
  | startPhase (plan : WalkPlan M ι) (marker : TraceMarker) (phaseName : String)
  | stopBoot (plan : WalkPlan M ι) (marker : TraceMarker) (memory : Bool)
  | client (e : Event M κ ι)

variable [DecidableEq κ] [DecidableEq ι]

/-- One event. -/
def step (s : BootSystem M κ ι) : BootEvent M κ ι → Option (BootSystem M κ ι)
  | .startPhase plan marker phaseName =>
      let r := prefetchStartBootTracingPhase plan marker phaseName s.boot s.core
      some { s with core := r.core, boot := r.boot }
  | .stopBoot plan marker memory =>
      let r := prefetchStopBootTracing plan marker memory s.boot s.core
      some { s with core := r.core, boot := r.boot }
  | .client e =>
      (Core.step ⟨s.core, s.clients⟩ e).map (fun t =>
        { s with core := t.core, clients := t.clients })

/-- The system when the modules have been initialised. -/
def load (memory enabled : Bool) (traceSizeKb : BitVec 32) (cache : ι → AddressSpace M) :
    BootSystem M κ ι where
  core := (Core.boot memory enabled traceSizeKb cache : System M κ ι).core
  boot := {}
  clients := fun _ => .idle

/-- What a step did. -/
inductive StepEffect (s : BootSystem M κ ι) : BootEvent M κ ι → BootSystem M κ ι → Prop where
  | continueFailed {plan marker phaseName r} (hrunning : s.boot.bootTracingRunning = true)
      (hr : prefetchContinueTrace plan marker s.core = r) (hret : r.ret < 0) :
      StepEffect s (.startPhase plan marker phaseName) { s with core := r.core }
  | continued {plan marker phaseName r} (hrunning : s.boot.bootTracingRunning = true)
      (hr : prefetchContinueTrace plan marker s.core = r) (hret : 0 ≤ r.ret) :
      StepEffect s (.startPhase plan marker phaseName) { s with
        core := r.core
        boot := enterPhase phaseName { prefetchSaveBootTrace s.boot r.core.trace
          s.boot.bootTracingPhase r.marker with bootStartMarker := r.marker } }
  | startFailed {plan marker phaseName r} (hrunning : s.boot.bootTracingRunning = false)
      (hr : prefetchStartTrace plan s.boot.bootStartMarker s.core = r) (hret : r.ret < 0) :
      StepEffect s (.startPhase plan marker phaseName) { s with
        core := r.core, boot := { s.boot with bootStartMarker := r.marker } }
  | started {plan marker phaseName r} (hrunning : s.boot.bootTracingRunning = false)
      (hr : prefetchStartTrace plan s.boot.bootStartMarker s.core = r) (hret : 0 ≤ r.ret) :
      StepEffect s (.startPhase plan marker phaseName) { s with
        core := r.core, boot := enterPhase phaseName { s.boot with bootStartMarker := r.marker } }
  | notRunning {plan marker memory} (hrunning : s.boot.bootTracingRunning = false) :
      StepEffect s (.stopBoot plan marker memory) s
  | stopped {plan marker memory r} (hrunning : s.boot.bootTracingRunning = true)
      (hr : prefetchStopTrace plan marker s.core = r) :
      StepEffect s (.stopBoot plan marker memory) { s with
        core := prefetchReleaseTrace memory r.core
        boot := prefetchSaveBootTrace { s.boot with bootTracingRunning := false } r.core.trace
          s.boot.bootTracingPhase r.marker }
  | client {e t} (ht : Core.step ⟨s.core, s.clients⟩ e = some t) :
      StepEffect s (.client e) { s with core := t.core, clients := t.clients }

/-- **Every step is one of these.** -/
theorem step_effect {s s' : BootSystem M κ ι} {e : BootEvent M κ ι} (h : step s e = some s') :
    StepEffect s e s' := by
  cases e with
  | startPhase plan marker phaseName =>
      cases h
      unfold prefetchStartBootTracingPhase
      dsimp only
      split
      · next hrunning =>
        split
        · next hret => exact .continueFailed hrunning rfl hret
        · next hret => exact .continued hrunning rfl (by omega)
      · next hrunning =>
        split
        · next hret => exact .startFailed (by simpa using hrunning) rfl hret
        · next hret => exact .started (by simpa using hrunning) rfl (by omega)
  | stopBoot plan marker memory =>
      cases h
      unfold prefetchStopBootTracing
      dsimp only
      split
      · next hrunning => exact .notRunning (by simpa using hrunning)
      · next hrunning => exact .stopped (by simpa using hrunning) rfl
  | client e =>
      obtain ⟨t, ht, rfl⟩ := Option.map_eq_some_iff.1 h
      exact .client ht

/-! ## §2 — boot tracing is one more client -/

/-- The clients with boot tracing in front. -/
def withBoot (b : Client) (clients : κ → Client) : Option κ → Client
  | none => b
  | some c => clients c

omit [DecidableEq κ] in
@[simp] theorem withBoot_none (b : Client) (clients : κ → Client) :
    withBoot b clients none = b := rfl

omit [DecidableEq κ] in
@[simp] theorem withBoot_some (b : Client) (clients : κ → Client) (c : κ) :
    withBoot b clients (some c) = clients c := rfl

@[simp] theorem update_withBoot_none (b v : Client) (clients : κ → Client) :
    update (withBoot b clients) none v = withBoot v clients := by
  funext c
  cases c with
  | none => simp
  | some c => simp [update_of_ne]

@[simp] theorem update_withBoot_some (b v : Client) (clients : κ → Client) (c : κ) :
    update (withBoot b clients) (some c) v = withBoot b (update clients c v) := by
  funext d
  cases d with
  | none => simp [update_of_ne]
  | some d =>
      by_cases hd : d = c
      · subst hd
        simp
      · rw [update_of_ne (by simpa using hd), withBoot_some, withBoot_some, update_of_ne hd]

/-- The event of a client under another name. -/
def lift : Event M κ ι → Event M (Option κ) ι
  | .start c marker plan => .start (some c) marker plan
  | .continueTrace c marker plan => .continueTrace (some c) marker plan
  | .stop c marker plan => .stop (some c) marker plan
  | .release c memory => .release (some c) memory
  | .env e => .env e

/-- The system the core sees. -/
def BootSystem.withBoot (s : BootSystem M κ ι) (b : Client) : System M (Option κ) ι :=
  ⟨s.core, Boot.withBoot b s.clients⟩

/-- Other clients do not notice. -/
theorem step_lift (b : Client) (core : CoreState M ι) (clients : κ → Client) (e : Event M κ ι) :
    Core.step ⟨core, withBoot b clients⟩ (lift e) =
      (Core.step ⟨core, clients⟩ e).map (fun t => ⟨t.core, withBoot b t.clients⟩) := by
  cases e with
  | start c marker plan =>
      simp only [lift, Core.step, withBoot_some]
      cases clients c with
      | idle =>
          simp only [Option.map_some, update_withBoot_some]
          split <;> rfl
      | tracing startMarker => rfl
      | stopped startMarker endMarker success => rfl
  | continueTrace c marker plan =>
      simp only [lift, Core.step, withBoot_some]
      cases clients c <;> rfl
  | stop c marker plan =>
      simp only [lift, Core.step, withBoot_some]
      cases clients c with
      | idle => rfl
      | tracing startMarker => simp
      | stopped startMarker endMarker success => rfl
  | release c memory =>
      simp only [lift, Core.step, withBoot_some]
      cases clients c with
      | idle => rfl
      | tracing startMarker => rfl
      | stopped startMarker endMarker success => simp
  | env e =>
      simp only [lift, Core.step]
      cases envStep core e <;> rfl

/-- The calls a boot command makes, in the name of the additional client. -/
def coreEvents (s : BootSystem M κ ι) : BootEvent M κ ι → List (Event M (Option κ) ι)
  | .startPhase plan marker _ =>
      if s.boot.bootTracingRunning then [.continueTrace none marker plan]
      else [.start none s.boot.bootStartMarker plan]
  | .stopBoot plan marker memory =>
      if s.boot.bootTracingRunning then [.stop none marker plan, .release none memory] else []
  | .client e => [lift e]

/-- Where boot tracing stands as a client: tracing while it runs, else idle. -/
def Stands (boot : BootState M) (b : Client) : Prop :=
  if boot.bootTracingRunning then ∃ startMarker, b = .tracing startMarker else b = .idle

theorem stands_running {boot : BootState M} {b : Client}
    (hrunning : boot.bootTracingRunning = true) :
    Stands boot b ↔ ∃ startMarker, b = .tracing startMarker := by
  rw [Stands, if_pos hrunning]

theorem stands_idle {boot : BootState M} {b : Client}
    (hrunning : boot.bootTracingRunning = false) : Stands boot b ↔ b = .idle := by
  rw [Stands, if_neg (by simp [hrunning])]

/-- **Boot tracing is one more client**: each step is a run of the core with the calls it makes. -/
theorem step_simulates {s s' : BootSystem M κ ι} {e : BootEvent M κ ι} {b : Client}
    (hb : Stands s.boot b) (h : step s e = some s') :
    ∃ b', Stands s'.boot b' ∧
      run Core.step (s.withBoot b) (coreEvents s e) = some (s'.withBoot b') := by
  cases step_effect h with
  | @continueFailed plan marker _ r hrunning hr hret =>
      obtain ⟨startMarker, rfl⟩ := (stands_running hrunning).1 hb
      refine ⟨_, hb, ?_⟩
      rw [coreEvents, if_pos hrunning, ← hr]
      rfl
  | @continued plan marker _ r hrunning hr hret =>
      obtain ⟨startMarker, rfl⟩ := (stands_running hrunning).1 hb
      refine ⟨_, (stands_running rfl).2 ⟨startMarker, rfl⟩, ?_⟩
      rw [coreEvents, if_pos hrunning, ← hr]
      rfl
  | @startFailed plan marker _ r hrunning hr hret =>
      rw [stands_idle hrunning] at hb
      subst hb
      refine ⟨.idle, (stands_idle hrunning).2 rfl, ?_⟩
      rw [coreEvents, if_neg (by simp [hrunning])]
      simp only [run_cons, run_nil, BootSystem.withBoot, Core.step, withBoot_none,
        update_withBoot_none, Option.bind_some, hr]
      rw [if_neg (by omega)]
  | @started plan marker _ r hrunning hr hret =>
      rw [stands_idle hrunning] at hb
      subst hb
      refine ⟨.tracing r.marker, (stands_running rfl).2 ⟨_, rfl⟩, ?_⟩
      rw [coreEvents, if_neg (by simp [hrunning])]
      simp only [run_cons, run_nil, BootSystem.withBoot, Core.step, withBoot_none,
        update_withBoot_none, Option.bind_some, hr]
      rw [if_pos (by omega)]
  | notRunning hrunning =>
      refine ⟨b, hb, ?_⟩
      rw [coreEvents, if_neg (by simp [hrunning])]
      rfl
  | @stopped plan marker memory r hrunning hr =>
      obtain ⟨startMarker, rfl⟩ := (stands_running hrunning).1 hb
      -- a stop is two calls of the client, with the save between them
      refine ⟨.idle, (stands_idle rfl).2 rfl, ?_⟩
      rw [coreEvents, if_pos hrunning, ← hr]
      simp [BootSystem.withBoot, Core.step]
  | @client e t ht =>
      refine ⟨b, hb, ?_⟩
      show run Core.step ⟨s.core, withBoot b s.clients⟩ [lift e] = _
      rw [run_cons, step_lift, ht]
      rfl

variable [Fintype κ] {s s' t : BootSystem M κ ι} {e : BootEvent M κ ι} {es : List (BootEvent M κ ι)}

/-- What holds in every state reached: the core's invariant, with boot tracing as a client. -/
def Inv (s : BootSystem M κ ι) : Prop := ∃ b, Stands s.boot b ∧ Core.Inv (s.withBoot b)

omit [DecidableEq κ] [DecidableEq ι] in
theorem inv_load (memory enabled : Bool) (traceSizeKb : BitVec 32) (cache : ι → AddressSpace M) :
    Inv (load memory enabled traceSizeKb cache : BootSystem M κ ι) := by
  have hboot : (load memory enabled traceSizeKb cache : BootSystem M κ ι).withBoot .idle =
      Core.boot memory enabled traceSizeKb cache := by
    unfold BootSystem.withBoot Core.boot
    congr 1
    funext c
    cases c <;> rfl
  refine ⟨.idle, rfl, ?_⟩
  rw [hboot]
  exact inv_boot memory enabled traceSizeKb cache

theorem step_inv (hinv : Inv s) (h : step s e = some s') : Inv s' := by
  obtain ⟨b, hb, hcore⟩ := hinv
  obtain ⟨b', hb', hrun⟩ := step_simulates hb h
  exact ⟨b', hb', run_inv hcore hrun⟩

theorem run_inv (hinv : Inv s) (h : run step s es = some s') : Inv s' :=
  run_invariant (fun _ _ _ _ hi hstep => step_inv hi hstep) h hinv

omit [DecidableEq κ] [DecidableEq ι] in
theorem Inv.clearing (hinv : Inv s) : s.core.clearingInProgress = false := by
  obtain ⟨b, -, hcore⟩ := hinv
  exact hcore.clearing

omit [DecidableEq κ] [DecidableEq ι] in
theorem Inv.live (hinv : Inv s) : ∃ live, Live s.core.trace live := by
  obtain ⟨b, -, hcore⟩ := hinv
  exact hcore.live

/-- **While boot tracing runs the trace is only appended to**, whatever the others do. -/
theorem step_appends (hinv : Inv s) (hrunning : s.boot.bootTracingRunning = true)
    (hquiet : ∀ plan marker memory, e ≠ .stopBoot plan marker memory) (h : step s e = some s') :
    s'.boot.bootTracingRunning = true ∧ ∃ new, Appends s.core.trace s'.core.trace new := by
  obtain ⟨b, hb, hcore⟩ := hinv
  obtain ⟨b', -, hrun⟩ := step_simulates hb h
  obtain ⟨startMarker, rfl⟩ := (stands_running hrunning).1 hb
  constructor
  · cases step_effect h with
    | continueFailed => exact hrunning
    | continued => rfl
    | startFailed hidle => simp [hrunning] at hidle
    | started hidle => simp [hrunning] at hidle
    | notRunning hidle => simp [hrunning] at hidle
    | stopped => exact absurd rfl (hquiet _ _ _)
    | client => exact hrunning
  -- only the client itself could release the trace from under its session
  · refine run_appends (c := none) hcore rfl ?_ hrun
    intro memory hmem
    cases e with
    | startPhase plan marker phaseName =>
        rw [coreEvents, if_pos hrunning] at hmem
        simp at hmem
    | stopBoot plan marker memory => exact absurd rfl (hquiet _ _ _)
    | client e => cases e <;> simp [coreEvents, lift] at hmem

/-! ## §3 — what the intervals must be -/

/-- The intervals lead from one marker to the other, each beginning where the one before ends. -/
def Consecutive : TraceMarker → List (SaveRequest M) → TraceMarker → Prop
  | startMarker, [], endMarker => startMarker = endMarker
  | startMarker, r :: rs, endMarker => r.startMarker = startMarker ∧ Consecutive r.endMarker rs endMarker

theorem consecutive_snoc {startMarker endMarker : TraceMarker} {asked : List (SaveRequest M)}
    {r : SaveRequest M} (h : Consecutive startMarker asked endMarker)
    (hr : r.startMarker = endMarker) : Consecutive startMarker (asked ++ [r]) r.endMarker := by
  induction asked generalizing startMarker with
  | nil => exact ⟨hr.trans h.symm, rfl⟩
  | cons r' asked ih => exact ⟨h.1, ih h.2⟩

/-- The intervals asked for cover the records of a session, each with the phase it was appended in:
they follow one another in one generation, and the records they hold make up the session's in order,
so each record is in exactly one of them, and that one is filed under its phase. -/
structure Tiled (asked : List (SaveRequest M)) (startMarker endMarker : TraceMarker)
    (filed : List (String × Record M)) : Prop where
  consecutive : Consecutive startMarker asked endMarker
  generation : ∀ r ∈ asked, r.startMarker.generation = startMarker.generation ∧
    r.endMarker.generation = startMarker.generation
  pieces : ∃ pieces : List (SaveRequest M × List (Record M)), asked = pieces.map Prod.fst ∧
    (∀ p ∈ pieces, p.1.held = .ofRecords p.2) ∧
    filed = pieces.flatMap (fun p => p.2.map (fun record => (p.1.phaseName, record)))

theorem tiled_nil (startMarker : TraceMarker) :
    Tiled ([] : List (SaveRequest M)) startMarker startMarker [] :=
  ⟨rfl, by simp, [], rfl, by simp, rfl⟩

/-- One more interval at the end. -/
theorem Tiled.snoc {asked : List (SaveRequest M)} {startMarker endMarker : TraceMarker}
    {filed : List (String × Record M)} {r : SaveRequest M} {piece : List (Record M)}
    (h : Tiled asked startMarker endMarker filed) (hr : r.startMarker = endMarker)
    (hgeneration : r.startMarker.generation = startMarker.generation ∧
      r.endMarker.generation = startMarker.generation) (hheld : r.held = .ofRecords piece) :
    Tiled (asked ++ [r]) startMarker r.endMarker
      (filed ++ piece.map (fun record => (r.phaseName, record))) := by
  obtain ⟨pieces, rfl, hpieces, rfl⟩ := h.pieces
  refine ⟨consecutive_snoc h.consecutive hr, ?_, pieces ++ [(r, piece)], by simp, ?_, by simp⟩
  · intro r' hr'
    rcases List.mem_append.1 hr' with hr' | hr'
    · exact h.generation r' hr'
    · rw [List.mem_singleton.1 hr']
      exact hgeneration
  · intro p hp
    rcases List.mem_append.1 hp with hp | hp
    · exact hpieces p hp
    · rw [List.mem_singleton.1 hp]
      exact hheld

/-- The phase that is current while a step appends records: the start is part of the phase it begins. -/
def currentPhase (s s' : BootSystem M κ ι) : String :=
  if s.boot.bootTracingRunning then s.boot.bootTracingPhase else s'.boot.bootTracingPhase

/-- The records a run appends, each with the phase current by then. -/
def filed : BootSystem M κ ι → List (BootEvent M κ ι) → List (String × Record M)
  | _, [] => []
  | s, e :: es =>
      match step s e with
      | none => []
      | some s' => (s'.core.trace.history.drop s.core.trace.history.length).map
          (fun record => (currentPhase s s', record)) ++ filed s' es

omit [Fintype κ] in
theorem filed_cons {new : List (Record M)} (h : step s e = some s')
    (hnew : s'.core.trace.history = s.core.trace.history ++ new) :
    filed s (e :: es) = new.map (fun record => (currentPhase s s', record)) ++ filed s' es := by
  rw [filed, h]
  dsimp only
  rw [hnew, List.drop_left]

/-! ## §4 — from the start to the stop -/

/-- Where a session stands that began with the trace at `start` and `base` requests made before it:
the intervals asked for cover what was appended up to the marker the next one begins at, and the rest
belongs to the current phase. -/
structure Session (start : PrefetchTrace M) (base : List (SaveRequest M))
    (filed : List (String × Record M)) (s : BootSystem M κ ι) : Prop where
  running : s.boot.bootTracingRunning = true
  tiled : ∃ atMarker live current asked done, Live atMarker live ∧
    s.boot.bootStartMarker = getTraceMarker atMarker ∧ atMarker.generation = start.generation ∧
    Appends atMarker s.core.trace current ∧ s.boot.saveRequests = base ++ asked ∧
    Tiled asked (getTraceMarker start) s.boot.bootStartMarker done ∧
    filed = done ++ current.map (fun record => (s.boot.bootTracingPhase, record))

section Session

variable {start t' : PrefetchTrace M} {base : List (SaveRequest M)}
  {log : List (String × Record M)} {new : List (Record M)}

omit [DecidableEq κ] [DecidableEq ι] [Fintype κ] in
/-- Records appended in the current phase wait for the next request. -/
theorem Session.append (h : Session start base log s) (hboot : s'.boot = s.boot)
    (hnew : Appends s.core.trace s'.core.trace new) :
    Session start base
      (log ++ new.map (fun record => (s.boot.bootTracingPhase, record))) s' := by
  obtain ⟨atMarker, live, current, asked, done, hlive, hmarker, hgeneration, happends, hasked,
    htiled, rfl⟩ := h.tiled
  refine ⟨by rw [hboot]; exact h.running, ?_⟩
  rw [hboot]
  refine ⟨atMarker, live, current ++ new, asked, done, hlive, hmarker, hgeneration,
    happends.trans hnew, hasked, htiled, ?_⟩
  rw [List.map_append, List.append_assoc]

omit [DecidableEq κ] [DecidableEq ι] [Fintype κ] in
/-- **What the next request makes of a session**: the interval up to `t'` holds what was appended since
the one before, all of it in the current phase. -/
theorem Session.ask (h : Session start base log s) (hnew : Appends s.core.trace t' new) :
    ∃ asked live, (prefetchSaveBootTrace s.boot t' s.boot.bootTracingPhase
        (getTraceMarker t')).saveRequests = base ++ asked ∧ Live t' live ∧
      t'.generation = start.generation ∧
      Tiled asked (getTraceMarker start) (getTraceMarker t')
        (log ++ new.map (fun record => (s.boot.bootTracingPhase, record))) := by
  obtain ⟨atMarker, live, current, asked, done, hlive, hmarker, hgeneration, happends, hasked,
    htiled, rfl⟩ := h.tiled
  have hcurrent := happends.trans hnew
  have hheld := hcurrent.fragment hlive (.refl t')
  rw [← hmarker] at hheld
  have hsnoc : Tiled (asked ++ [s.boot.request t' s.boot.bootTracingPhase (getTraceMarker t')])
      (getTraceMarker start) (getTraceMarker t') (done ++ (current ++ new).map
        (fun record => (s.boot.bootTracingPhase, record))) := by
    apply htiled.snoc rfl ⟨?_, hcurrent.generation.trans hgeneration⟩ hheld
    show s.boot.bootStartMarker.generation = start.generation
    rw [hmarker]
    exact hgeneration
  refine ⟨asked ++ [s.boot.request t' s.boot.bootTracingPhase (getTraceMarker t')],
    live ++ (current ++ new), ?_, hcurrent.live live hlive, hcurrent.generation.trans hgeneration, ?_⟩
  · rw [prefetchSaveBootTrace, hasked, List.append_assoc]
  · rw [List.append_assoc, ← List.map_append]
    exact hsnoc

/-- One step of a session, whatever the others do. -/
theorem step_session (hinv : Inv s) (h : Session start base log s)
    (hquiet : ∀ plan marker memory, e ≠ .stopBoot plan marker memory) (hstep : step s e = some s') :
    ∃ new, s'.core.trace.history = s.core.trace.history ++ new ∧ Session start base
      (log ++ new.map (fun record => (currentPhase s s', record))) s' := by
  obtain ⟨-, new, hnew⟩ := step_appends hinv h.running hquiet hstep
  refine ⟨new, hnew.history, ?_⟩
  rw [currentPhase, if_pos h.running]
  cases step_effect hstep with
  | continueFailed => exact h.append rfl hnew
  | @continued plan marker phaseName r hrunning hr hret =>
      rcases prefetchContinueTrace_effect hinv.clearing hr with ⟨hneg, -⟩ | ⟨-, hmarker, -⟩
      · omega
      obtain ⟨asked, live, hasked, hlive, hgeneration, htiled⟩ := h.ask hnew
      -- the next interval begins at the marker just taken, with nothing behind it yet
      refine ⟨rfl, r.core.trace, live, [], asked, _, hlive, hmarker, hgeneration, .refl _, ?_, ?_,
        (List.append_nil _).symm⟩
      · show (prefetchSaveBootTrace _ _ _ r.marker).saveRequests = _
        rw [hmarker]
        exact hasked
      · show Tiled asked _ r.marker _
        rw [hmarker]
        exact htiled
  | startFailed hidle => simp [h.running] at hidle
  | started hidle => simp [h.running] at hidle
  | notRunning hidle => simp [h.running] at hidle
  | stopped => exact absurd rfl (hquiet _ _ _)
  | client => exact h.append rfl hnew

/-- Over a whole run. -/
theorem run_session (hinv : Inv s) (h : Session start base log s)
    (hquiet : ∀ plan marker memory, .stopBoot plan marker memory ∉ es)
    (hrun : run step s es = some s') (rest : List (BootEvent M κ ι)) :
    ∃ log', filed s (es ++ rest) = log' ++ filed s' rest ∧ Session start base (log ++ log') s' := by
  induction es generalizing s log with
  | nil =>
      cases hrun
      exact ⟨[], rfl, by rwa [List.append_nil]⟩
  | cons e es ih =>
      obtain ⟨u, hstep, hes⟩ := run_cons_eq_some.1 hrun
      have hne : ∀ plan marker memory, e ≠ .stopBoot plan marker memory := by
        rintro plan marker memory rfl
        exact hquiet plan marker memory List.mem_cons_self
      obtain ⟨new, hnew, hsession⟩ := step_session hinv h hne hstep
      obtain ⟨log', hlog', hsession'⟩ := ih (step_inv hinv hstep) hsession
        (fun plan marker memory hmem => hquiet plan marker memory (List.mem_cons_of_mem _ hmem)) hes
      refine ⟨_ ++ log', ?_, by rwa [← List.append_assoc]⟩
      rw [List.cons_append, filed_cons hstep hnew, hlog', List.append_assoc]

/-- Whatever the start left as the marker, the intervals follow one another from there. -/
structure Chained (base : List (SaveRequest M)) (startMarker : TraceMarker)
    (s : BootSystem M κ ι) : Prop where
  running : s.boot.bootTracingRunning = true
  chain : ∃ asked, s.boot.saveRequests = base ++ asked ∧
    Consecutive startMarker asked s.boot.bootStartMarker

omit [Fintype κ] in
theorem step_chained {startMarker : TraceMarker} (h : Chained base startMarker s)
    (hquiet : ∀ plan marker memory, e ≠ .stopBoot plan marker memory) (hstep : step s e = some s') :
    Chained base startMarker s' := by
  obtain ⟨asked, hasked, hchain⟩ := h.chain
  cases step_effect hstep with
  | continueFailed => exact ⟨h.running, asked, hasked, hchain⟩
  | @continued plan marker phaseName r hrunning hr hret =>
      refine ⟨rfl, asked ++ [s.boot.request r.core.trace s.boot.bootTracingPhase r.marker], ?_, ?_⟩
      · show s.boot.saveRequests ++ _ = _
        rw [hasked, List.append_assoc]
      · exact consecutive_snoc hchain rfl
  | startFailed hidle => simp [h.running] at hidle
  | started hidle => simp [h.running] at hidle
  | notRunning hidle => simp [h.running] at hidle
  | stopped => exact absurd rfl (hquiet _ _ _)
  | client => exact ⟨h.running, asked, hasked, hchain⟩

omit [DecidableEq κ] [DecidableEq ι] [Fintype κ] in
theorem consecutive_unique {startMarker startMarker' endMarker : TraceMarker}
    {asked : List (SaveRequest M)} (hne : asked ≠ [])
    (h : Consecutive startMarker asked endMarker) (h' : Consecutive startMarker' asked endMarker) :
    startMarker' = startMarker := by
  cases asked with
  | nil => exact absurd rfl hne
  | cons r asked => exact h'.1.symm.trans h.1

end Session

section Theorem

variable {memory enabled : Bool} {traceSizeKb : BitVec 32} {cache : ι → AddressSpace M}
  {pre mid : List (BootEvent M κ ι)} {s₁ s₂ s₃ : BootSystem M κ ι} {plan plan' : WalkPlan M ι}
  {marker marker' : TraceMarker} {phaseName : String} {memory' : Bool}

omit [DecidableEq κ] [DecidableEq ι] [Fintype κ] in
theorem prefetchReleaseTrace_history (memory : Bool) (core : CoreState M ι) :
    (prefetchReleaseTrace memory core).trace.history = core.trace.history := by
  rcases prefetchReleaseTrace_cases memory core with ⟨-, heq⟩ | ⟨-, heq⟩
  · rw [heq]
    rfl
  · rw [heq]
    exact (clearTrace_frame core.traceSizeKb memory _).1

/-- The session a start begins that sets the marker. -/
theorem session_started (hinv : Inv s) (hidle : s.boot.bootTracingRunning = false)
    (hstart : step s (.startPhase plan marker phaseName) = some s₁)
    (hrunning : s₁.boot.bootTracingRunning = true) :
    s₁.boot.bootStartMarker = (if s.core.trace.tracersCount = 0 then getTraceMarker s.core.trace
      else s.boot.bootStartMarker) ∧
    Chained s.boot.saveRequests s₁.boot.bootStartMarker s₁ ∧
    ∃ new, s₁.core.trace.history = s.core.trace.history ++ new ∧
      (s₁.boot.bootStartMarker = getTraceMarker s.core.trace →
        Session s.core.trace s.boot.saveRequests
          (new.map (fun record => (currentPhase s s₁, record))) s₁) := by
  cases step_effect hstart with
  | continueFailed hrun => simp [hidle] at hrun
  | continued hrun => simp [hidle] at hrun
  | startFailed => simp [hidle] at hrunning
  | @started _ _ _ r hnot hr hret =>
      rcases prefetchStartTrace_effect hinv.clearing hr with ⟨hneg, -⟩ | ⟨-, hmarker, heffect⟩
      · omega
      obtain ⟨new, hnew⟩ := heffect.appends
      obtain ⟨live, hlive⟩ := hinv.live
      refine ⟨hmarker, ⟨rfl, [], (List.append_nil _).symm, rfl⟩, new, hnew.history, ?_⟩
      -- the walk of the start is the first piece of the phase
      intro hcurrent
      refine ⟨rfl, s.core.trace, live, new, [], [], hlive, hcurrent, rfl, hnew,
        (List.append_nil _).symm, ?_, ?_⟩
      · rw [hcurrent]
        exact tiled_nil _
      · rw [currentPhase, if_neg (by simp [hidle])]
        rfl

omit [Fintype κ] in
/-- A stop asks for one more interval, up to its marker. -/
theorem stop_chained {base : List (SaveRequest M)} {startMarker : TraceMarker}
    (h : Chained base startMarker s₂)
    (hstop : step s₂ (.stopBoot plan' marker' memory') = some s₃) :
    ∃ asked ≠ [], s₃.boot.saveRequests = base ++ asked ∧
      Consecutive startMarker asked (prefetchStopTrace plan' marker' s₂.core).marker := by
  obtain ⟨asked, hasked, hchain⟩ := h.chain
  cases step_effect hstop with
  | notRunning hnot => simp [h.running] at hnot
  | @stopped _ _ _ r hrunning hr =>
      refine ⟨asked ++ [s₂.boot.request r.core.trace s₂.boot.bootTracingPhase r.marker], by simp,
        ?_, ?_⟩
      · show s₂.boot.saveRequests ++ _ = _
        rw [hasked, List.append_assoc]
        rfl
      · rw [hr]
        exact consecutive_snoc hchain rfl

/-- A stop that succeeds asks for the rest of the session. -/
theorem stop_session (hinv : Inv s₂) {start : PrefetchTrace M} {base : List (SaveRequest M)}
    {log : List (String × Record M)} (h : Session start base log s₂)
    (hstop : step s₂ (.stopBoot plan' marker' memory') = some s₃)
    (hsuccess : 0 ≤ (prefetchStopTrace plan' marker' s₂.core).ret) :
    Tiled (s₃.boot.saveRequests.drop base.length) (getTraceMarker start)
      (prefetchStopTrace plan' marker' s₂.core).marker
      (log ++ filed s₂ [.stopBoot plan' marker' memory']) := by
  cases step_effect hstop with
  | notRunning hnot => simp [h.running] at hnot
  | @stopped _ _ _ r hrunning hr =>
      rw [hr] at hsuccess ⊢
      rcases prefetchStopTrace_effect hinv.clearing hr with ⟨hneg, -⟩ | ⟨-, hmarker, heffect⟩
      · omega
      obtain ⟨new, hnew⟩ := heffect.appends
      obtain ⟨asked, live, hasked, -, -, htiled⟩ := h.ask hnew
      have hhistory : (prefetchReleaseTrace memory' r.core).trace.history =
          s₂.core.trace.history ++ new := by
        rw [prefetchReleaseTrace_history, hnew.history]
      rw [filed_cons hstop hhistory, currentPhase, if_pos hrunning, hmarker]
      show Tiled (List.drop base.length (prefetchSaveBootTrace s₂.boot r.core.trace
        s₂.boot.bootTracingPhase (getTraceMarker r.core.trace)).saveRequests) _ _ (_ ++ (_ ++ []))
      rw [hasked, List.drop_left, List.append_nil]
      exact htiled

/-- **The intervals saved from the start of boot tracing to its stop tile what was appended in between,
each filed under its phase, if and only if the start set the marker**: it was the first tracer to be
counted, or the marker variable was at the current place already. Any run leads to the start; phases
start, their `prefetch_continue_trace` may fail, and other clients do what they like until a stop that
succeeds. -/
theorem boot_intervals_iff (hpre : run step (load memory enabled traceSizeKb cache) pre = some s)
    (hidle : s.boot.bootTracingRunning = false)
    (hstart : step s (.startPhase plan marker phaseName) = some s₁)
    (hrunning : s₁.boot.bootTracingRunning = true) (hmid : run step s₁ mid = some s₂)
    (hquiet : ∀ plan marker memory, .stopBoot plan marker memory ∉ mid)
    (hstop : step s₂ (.stopBoot plan' marker' memory') = some s₃)
    (hsuccess : 0 ≤ (prefetchStopTrace plan' marker' s₂.core).ret) :
    Tiled (s₃.boot.saveRequests.drop s.boot.saveRequests.length) (getTraceMarker s.core.trace)
        (prefetchStopTrace plan' marker' s₂.core).marker
        (filed s (.startPhase plan marker phaseName :: mid ++ [.stopBoot plan' marker' memory'])) ↔
      s.core.trace.tracersCount = 0 ∨ s.boot.bootStartMarker = getTraceMarker s.core.trace := by
  have hinv := run_inv (inv_load memory enabled traceSizeKb cache) hpre
  have hinv₁ := step_inv hinv hstart
  have hinv₂ := run_inv hinv₁ hmid
  obtain ⟨hset, hchained₁, new, hnew, hsession⟩ := session_started hinv hidle hstart hrunning
  have hleft : s₁.boot.bootStartMarker = getTraceMarker s.core.trace ↔
      s.core.trace.tracersCount = 0 ∨ s.boot.bootStartMarker = getTraceMarker s.core.trace := by
    rw [hset]
    split
    · next hzero => simp [hzero]
    · next hne => simp [hne]
  rw [← hleft]
  constructor
  · intro htiled
    -- however the start left the marker, the first interval begins there
    have hchained₂ : Chained s.boot.saveRequests s₁.boot.bootStartMarker s₂ :=
      run_invariant (fun _ _ _ he hi hstep => step_chained hi
        (fun _ _ _ heq => hquiet _ _ _ (heq ▸ he)) hstep) hmid hchained₁
    obtain ⟨asked, hne, hasked, hchain⟩ := stop_chained hchained₂ hstop
    rw [hasked, List.drop_left] at htiled
    exact consecutive_unique hne htiled.consecutive hchain
  · intro hcurrent
    obtain ⟨log, hlog, hsession₂⟩ := run_session hinv₁ (hsession hcurrent) hquiet hmid
      [.stopBoot plan' marker' memory']
    rw [List.cons_append, filed_cons hstart hnew, hlog, ← List.append_assoc]
    exact stop_session hinv₂ hsession₂ hstop hsuccess

end Theorem

/-- Two phases, a page touched in each. -/
theorem boot_intervals_iff_sample : ∃ s₁ s₂ s₃ : BootSystem .bits32 Unit Unit,
    step (load true true 256 sampleCache) (.startPhase { order := [()] } ⟨0, 0⟩ "boot") = some s₁ ∧
    run step s₁ [.client (.env (.touch () 3)), .startPhase { order := [()] } ⟨0, 0⟩ "gui",
      .client (.env (.touch () 3))] = some s₂ ∧
    step s₂ (.stopBoot { order := [()] } ⟨0, 0⟩ true) = some s₃ ∧
    s₃.boot.saveRequests.map (fun r => (r.startMarker, r.endMarker)) =
      [(⟨0, 1⟩, ⟨32, 1⟩), (⟨32, 1⟩, ⟨64, 1⟩)] ∧
    Tiled (s₃.boot.saveRequests.drop 0) ⟨0, 1⟩
      (prefetchStopTrace { order := [()] } ⟨0, 0⟩ s₂.core).marker
      (filed (load true true 256 sampleCache : BootSystem .bits32 Unit Unit)
        [.startPhase { order := [()] } ⟨0, 0⟩ "boot", .client (.env (.touch () 3)),
          .startPhase { order := [()] } ⟨0, 0⟩ "gui", .client (.env (.touch () 3)),
          .stopBoot { order := [()] } ⟨0, 0⟩ true]) := by
  refine ⟨_, _, _, rfl, rfl, rfl, by decide, ?_⟩
  refine (boot_intervals_iff (rfl : run step (load true true 256 sampleCache) [] =
    some _) rfl (rfl : step _ (.startPhase { order := [()] } ⟨0, 0⟩ "boot") = some _) rfl
    (rfl : run step _ [.client (.env (.touch () 3)), .startPhase { order := [()] } ⟨0, 0⟩ "gui",
      .client (.env (.touch () 3))] = some _) ?_
    (rfl : step _ (.stopBoot { order := [()] } ⟨0, 0⟩ true) = some _) ?_).2 (.inl rfl)
  · simp
  · decide

/-- A client's stop got no memory for its walk, so it is counted as a tracer for good: boot tracing is
not the first one, nobody sets its marker, and its first interval begins in a generation that is over. -/
theorem uncounted_stop_misplaces : ∃ s s₁ s₃ : BootSystem .bits32 Unit Unit,
    run step (load true true 256 sampleCache) [.client (.start () ⟨0, 0⟩ { order := [()] }),
      .client (.stop () ⟨0, 0⟩ { session := false, order := [()] }),
      .client (.release () true)] = some s ∧
    s.clients () = .idle ∧ s.boot.bootTracingRunning = false ∧
    step s (.startPhase { order := [()] } ⟨0, 0⟩ "boot") = some s₁ ∧
    s₁.boot.bootTracingRunning = true ∧
    step s₁ (.stopBoot { order := [()] } ⟨0, 0⟩ true) = some s₃ ∧
    0 ≤ (prefetchStopTrace { order := [()] } ⟨0, 0⟩ s₁.core).ret ∧
    ¬ Tiled (s₃.boot.saveRequests.drop s.boot.saveRequests.length) (getTraceMarker s.core.trace)
      (prefetchStopTrace { order := [()] } ⟨0, 0⟩ s₁.core).marker
      (filed s [.startPhase { order := [()] } ⟨0, 0⟩ "boot",
        .stopBoot { order := [()] } ⟨0, 0⟩ true]) := by
  refine ⟨_, _, _, rfl, rfl, rfl, rfl, rfl, rfl, by decide, ?_⟩
  intro htiled
  -- the first interval begins at the marker nobody set
  have hmarker : (⟨0, 0⟩ : TraceMarker) = ⟨0, 2⟩ := htiled.consecutive.1
  exact absurd hmarker (by decide)

end Prefetch.Boot

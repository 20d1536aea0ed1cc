/-
# Prefetch.Lib.Runs — runs of a partial step function, and counting the parties of a run

A system is a step function `σ → ε → Option σ`: an event that is not possible in a state has no
successor. `run` takes the events of a list one after another. An invariant is proved for one step and
carried to whole runs by `run_invariant`; where the step needs a condition that not every run meets,
`StepsMeet` says that all steps of a run meet it, and `throughout_iff_stepsMeet` when that is exactly
what a property of the states needs.

The parties of a system are a finite family of local states. `tally p` counts those in a phase `p`; a
step changes one party, and `tally_update` says what that does to the count.
-/
import Mathlib.Algebra.BigOperators.Group.Finset.Piecewise
import Mathlib.Algebra.BigOperators.Ring.Finset
import Mathlib.Algebra.Order.BigOperators.Group.Finset
import Mathlib.Algebra.Order.Ring.Int
import Mathlib.Data.Fintype.Basic
import Mathlib.Tactic.Common

namespace Runs

variable {σ ε : Type*} {step : σ → ε → Option σ} {s s' t : σ} {e : ε} {es fs : List ε}

/-! ## §1 — runs -/

/-- The state a list of events leads to, if each of them is possible in turn. -/
def run (step : σ → ε → Option σ) : σ → List ε → Option σ
  | s, [] => some s
  | s, e :: es => (step s e).bind (fun s' => run step s' es)

@[simp] theorem run_nil : run step s [] = some s := rfl

@[simp] theorem run_cons : run step s (e :: es) = (step s e).bind (fun s' => run step s' es) := rfl

theorem run_append : run step s (es ++ fs) = (run step s es).bind (fun s' => run step s' fs) := by
  induction es generalizing s with
  | nil => rfl
  | cons e es ih =>
      rw [List.cons_append, run_cons, run_cons, Option.bind_assoc]
      congr 1
      funext s'
      exact ih

theorem run_append_eq_some :
    run step s (es ++ fs) = some t ↔ ∃ s', run step s es = some s' ∧ run step s' fs = some t := by
  rw [run_append, Option.bind_eq_some_iff]

theorem run_cons_eq_some :
    run step s (e :: es) = some t ↔ ∃ s', step s e = some s' ∧ run step s' es = some t := by
  rw [run_cons, Option.bind_eq_some_iff]

/-- Two runs, one after the other. -/
theorem run_trans (h : run step s es = some s') (h' : run step s' fs = some t) :
    run step s (es ++ fs) = some t :=
  run_append_eq_some.2 ⟨s', h, h'⟩

/-- A step, then a run. -/
theorem run_step (h : step s e = some s') (h' : run step s' es = some t) :
    run step s (e :: es) = some t :=
  run_cons_eq_some.2 ⟨s', h, h'⟩

/-- What one step preserves for each event of a run, the run preserves. -/
theorem run_invariant {I : σ → Prop}
    (hstep : ∀ s e s', e ∈ es → I s → step s e = some s' → I s')
    (h : run step s es = some t) (hs : I s) : I t := by
  induction es generalizing s with
  | nil =>
      cases h
      exact hs
  | cons e es ih =>
      obtain ⟨s', he, hes⟩ := run_cons_eq_some.1 h
      apply ih ?_ hes
      · exact hstep s e s' List.mem_cons_self hs he
      · intro s e s' hmem
        exact hstep s e s' (List.mem_cons_of_mem _ hmem)

/-! ## §2 — runs whose steps meet a condition -/

/-- Every step of the run of `es` from `s` starts in a state that meets `P` with its event. -/
def StepsMeet (step : σ → ε → Option σ) (P : σ → ε → Prop) : σ → List ε → Prop
  | _, [] => True
  | s, e :: es => P s e ∧ ∀ s', step s e = some s' → StepsMeet step P s' es

variable {P : σ → ε → Prop}

@[simp] theorem stepsMeet_nil : StepsMeet step P s [] := trivial

theorem stepsMeet_cons (he : step s e = some s') :
    StepsMeet step P s (e :: es) ↔ P s e ∧ StepsMeet step P s' es := by
  constructor
  · intro ⟨hP, hrest⟩
    exact ⟨hP, hrest s' he⟩
  · rintro ⟨hP, hrest⟩
    refine ⟨hP, ?_⟩
    intro s'' he'
    cases he.symm.trans he'
    exact hrest

theorem stepsMeet_append (h : run step s es = some s') :
    StepsMeet step P s (es ++ fs) ↔ StepsMeet step P s es ∧ StepsMeet step P s' fs := by
  induction es generalizing s with
  | nil =>
      cases h
      simp
  | cons e es ih =>
      obtain ⟨s₁, he, hes⟩ := run_cons_eq_some.1 h
      rw [List.cons_append, stepsMeet_cons he, stepsMeet_cons he, ih hes, and_assoc]

/-- A run that does not meet the condition splits at a step that does not. -/
theorem exists_not_meet (h : run step s es = some t) (hP : ¬ StepsMeet step P s es) :
    ∃ pre e post s₁ s₂, es = pre ++ e :: post ∧ run step s pre = some s₁ ∧
      step s₁ e = some s₂ ∧ run step s₂ post = some t ∧ ¬ P s₁ e := by
  induction es generalizing s with
  | nil => exact absurd trivial hP
  | cons e es ih =>
      obtain ⟨s', he, hes⟩ := run_cons_eq_some.1 h
      by_cases hPe : P s e
      -- the first step meets the condition, so a later one does not
      · have hrest : ¬ StepsMeet step P s' es := by
          intro hmeet
          exact hP ((stepsMeet_cons he).2 ⟨hPe, hmeet⟩)
        obtain ⟨pre, e', post, s₁, s₂, rfl, hpre, he', hpost, hn⟩ := ih hes hrest
        exact ⟨e :: pre, e', post, s₁, s₂, rfl, run_step he hpre, he', hpost, hn⟩
      · exact ⟨[], e, es, s, s', rfl, rfl, he, hes, hPe⟩

/-! ## §3 — properties of every state of a run -/

/-- `Q` holds in every state the run of `es` from `s` goes through. -/
def Throughout (step : σ → ε → Option σ) (Q : σ → Prop) (s : σ) (es : List ε) : Prop :=
  ∀ pre post t, es = pre ++ post → run step s pre = some t → Q t

variable {Q : σ → Prop}

theorem throughout_nil : Throughout step Q s [] ↔ Q s := by
  constructor
  · intro h
    exact h [] [] s rfl rfl
  · intro hs pre post t hsplit hpre
    obtain ⟨rfl, rfl⟩ := List.append_eq_nil_iff.1 hsplit.symm
    cases hpre
    exact hs

theorem throughout_cons (he : step s e = some s') :
    Throughout step Q s (e :: es) ↔ Q s ∧ Throughout step Q s' es := by
  constructor
  · intro h
    refine ⟨h [] _ s rfl rfl, ?_⟩
    rintro pre post t rfl hpre
    exact h (e :: pre) post t rfl (run_step he hpre)
  · rintro ⟨hs, hrest⟩ pre post t hsplit hpre
    cases pre with
    | nil =>
        cases hpre
        exact hs
    | cons e' pre =>
        obtain ⟨rfl, rfl⟩ := List.cons_eq_cons.1 hsplit
        obtain ⟨u, hu, hpre⟩ := run_cons_eq_some.1 hpre
        cases he.symm.trans hu
        exact hrest pre post t rfl hpre

/-- What an invariant kept by the steps that meet a condition implies holds throughout a run whose steps
meet it. -/
theorem throughout_of_stepsMeet {I : σ → Prop} (hQ : ∀ s, I s → Q s)
    (hkeep : ∀ s e s', P s e → I s → step s e = some s' → I s')
    (hmeet : StepsMeet step P s es) (hs : I s) : Throughout step Q s es := by
  intro pre post t hsplit hpre
  induction pre generalizing s es with
  | nil =>
      cases hpre
      exact hQ t hs
  | cons e pre ih =>
      subst hsplit
      obtain ⟨s', he, hpre⟩ := run_cons_eq_some.1 hpre
      exact ih (hmeet.2 s' he) (hkeep s e s' hmeet.1 hs he) rfl hpre

/-- **A property that an invariant implies, that steps meeting a condition keep and the others break,
holds throughout a run if and only if all its steps meet the condition.** -/
theorem throughout_iff_stepsMeet {I : σ → Prop} (hQ : ∀ s, I s → Q s)
    (hkeep : ∀ s e s', e ∈ es → P s e → I s → step s e = some s' → I s')
    (hbreak : ∀ s e s', ¬ P s e → I s → step s e = some s' → ¬ Q s')
    (h : run step s es = some t) (hs : I s) :
    Throughout step Q s es ↔ StepsMeet step P s es := by
  induction es generalizing s with
  | nil => exact iff_of_true (throughout_nil.2 (hQ s hs)) stepsMeet_nil
  | cons e es ih =>
      obtain ⟨s', he, hes⟩ := run_cons_eq_some.1 h
      rw [throughout_cons he, stepsMeet_cons he]
      by_cases hP : P s e
      · have hs' := hkeep s e s' List.mem_cons_self hP hs he
        have hrest := ih (fun s e s' hmem => hkeep s e s' (List.mem_cons_of_mem _ hmem)) hes hs'
        rw [hrest]
        exact and_congr_left fun _ => iff_of_true (hQ s hs) hP
      -- the state behind a step that breaks the property is one of the run
      · apply iff_of_false
        · rintro ⟨-, hthrough⟩
          exact hbreak s e s' hP hs he (hthrough [] es s' rfl rfl)
        · rintro ⟨hmeet, -⟩
          exact hP hmeet

/-! ## §4 — counting parties -/

section Tally

open Function

variable {κ τ : Type*} [Fintype κ]

/-- How many parties are in a phase. -/
def tally (p : τ → Bool) (f : κ → τ) : ℤ := ∑ c, if p (f c) then 1 else 0

variable {p : τ → Bool} {f : κ → τ} {c d : κ}

theorem indicator_nonneg (b : Bool) : 0 ≤ if b then (1 : ℤ) else 0 := by
  split <;> omega

/-- Nobody in the phase: the count is zero. -/
theorem tally_eq_zero (h : ∀ c, p (f c) = false) : tally p f = 0 := by
  apply Finset.sum_eq_zero
  intro i _
  simp [h i]

/-- A party in the phase is counted. -/
theorem one_le_tally (h : p (f c)) : 1 ≤ tally p f := by
  have hsingle : (if p (f c) then (1 : ℤ) else 0) ≤ tally p f :=
    Finset.single_le_sum (fun i _ => indicator_nonneg (p (f i))) (Finset.mem_univ c)
  rwa [if_pos h] at hsingle

variable [DecidableEq κ]

/-- Two parties in the phase are counted twice. -/
theorem two_le_tally (hc : p (f c)) (hd : p (f d)) (hne : c ≠ d) : 2 ≤ tally p f := by
  have hpair : ∑ i ∈ ({c, d} : Finset κ), (if p (f i) then (1 : ℤ) else 0) ≤ tally p f :=
    Finset.sum_le_sum_of_subset_of_nonneg (Finset.subset_univ _)
      (fun i _ _ => indicator_nonneg (p (f i)))
  rw [Finset.sum_pair hne, if_pos hc, if_pos hd] at hpair
  omega

/-- A step that changes one party moves the count by that party alone. -/
theorem tally_update (p : τ → Bool) (f : κ → τ) (c : κ) (v : τ) :
    tally p (update f c v) = tally p f - (if p (f c) then 1 else 0) + (if p v then 1 else 0) := by
  have hparty : ∀ i, (if p (update f c v i) then (1 : ℤ) else 0) =
      update (fun i => if p (f i) then (1 : ℤ) else 0) c (if p v then 1 else 0) i :=
    apply_update (fun _ x => if p x then (1 : ℤ) else 0) f c v
  have hc : c ∈ Finset.univ := Finset.mem_univ c
  unfold tally
  simp only [hparty]
  rw [Finset.sum_update_of_mem hc,
    Finset.sum_eq_add_sum_sdiff_singleton_of_mem hc (fun i => if p (f i) then (1 : ℤ) else 0)]
  omega

end Tally

end Runs

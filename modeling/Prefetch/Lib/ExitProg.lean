/-
# Prefetch.Lib.ExitProg — programs that change a state and may exit

A C tool that works on one mutable state and leaves with an error code from anywhere is an
`EStateM ε σ`: the state reached so far survives the exit. `wp m Q E s` says that `m` started in `s`
either returns with `Q` or exits with `E`. The rules below take a program apart along its text; the
rule for loops gives the exit case the prefix of the loop that had completed.
-/
import Mathlib.Tactic.Common

namespace ExitProg

universe u

variable {ε σ α β : Type u}

/-- `m` started in `s` returns with `Q` or exits with `E`. -/
def wp (m : EStateM ε σ α) (Q : α → σ → Prop) (E : ε → σ → Prop) (s : σ) : Prop :=
  match m s with
  | .ok a s' => Q a s'
  | .error e s' => E e s'

section Rules

variable {Q : α → σ → Prop} {E : ε → σ → Prop} {s : σ}

@[simp] theorem wp_pure (a : α) : wp (pure a) Q E s ↔ Q a s := Iff.rfl

@[simp] theorem wp_get {R : σ → σ → Prop} : wp (get : EStateM ε σ σ) R E s ↔ R s s := Iff.rfl

@[simp] theorem wp_modify {R : PUnit → σ → Prop} (f : σ → σ) :
    wp (modify f : EStateM ε σ PUnit) R E s ↔ R ⟨⟩ (f s) := Iff.rfl

@[simp] theorem wp_bind {R : β → σ → Prop} (m : EStateM ε σ α) (f : α → EStateM ε σ β) :
    wp (m >>= f) R E s ↔ wp m (fun a s' => wp (f a) R E s') E s := by
  simp only [wp, bind, EStateM.bind]
  cases m s <;> rfl

/-- A program that reads the state goes on from it, and one that changes it from the new one. -/
theorem get_bind (f : σ → EStateM ε σ α) (s : σ) : ((get : EStateM ε σ σ) >>= f) s = f s s := rfl

theorem modify_bind (f : σ → σ) (m : PUnit → EStateM ε σ α) (s : σ) :
    ((modify f : EStateM ε σ PUnit) >>= m) s = m ⟨⟩ (f s) := rfl

theorem wp_mono {Q' : α → σ → Prop} {E' : ε → σ → Prop} {m : EStateM ε σ α}
    (h : wp m Q E s) (hQ : ∀ a s', Q a s' → Q' a s') (hE : ∀ e s', E e s' → E' e s') :
    wp m Q' E' s := by
  unfold wp at h ⊢
  cases hm : m s with
  | ok a s' => exact hQ a s' (by simpa [hm] using h)
  | error e s' => exact hE e s' (by simpa [hm] using h)

/-- What `wp` says about a run that returned. -/
theorem wp_ok {m : EStateM ε σ α} {a : α} {s' : σ} (h : wp m Q E s) (hm : m s = .ok a s') :
    Q a s' := by
  simpa [wp, hm] using h

/-- What `wp` says about a run that exited. -/
theorem wp_error {m : EStateM ε σ α} {e : ε} {s' : σ} (h : wp m Q E s) (hm : m s = .error e s') :
    E e s' := by
  simpa [wp, hm] using h

end Rules

/-! ## Loops -/

/-- A loop over a list, started after `pre`: the invariant `I` follows the prefix done so far, and an
exit happens in the call on one element `x`, with the elements before it completed. -/
theorem wp_forM {f : α → EStateM ε σ PUnit} {I : List α → σ → Prop}
    {E : List α → α → ε → σ → Prop} (xs pre : List α) (s : σ)
    (hstep : ∀ done x rest s, xs = done ++ x :: rest → I (pre ++ done) s →
      wp (f x) (fun _ => I (pre ++ done ++ [x])) (E (pre ++ done) x) s)
    (h : I pre s) :
    wp (xs.forM f) (fun _ => I (pre ++ xs))
      (fun e s' => ∃ done x rest, xs = done ++ x :: rest ∧ E (pre ++ done) x e s') s := by
  induction xs generalizing pre s with
  | nil => simpa [List.forM] using h
  | cons x xs ih =>
      have hx := hstep [] x xs s rfl (by simpa using h)
      rw [List.append_nil] at hx
      show wp (f x >>= fun _ => xs.forM f) _ _ s
      rw [wp_bind]
      refine wp_mono hx ?_ ?_
      · intro _ s' hs'
        have hrest := ih (pre ++ [x]) s' ?_ hs'
        · refine wp_mono hrest ?_ ?_
          · intro _ s'' hs''
            simpa using hs''
          · rintro e s'' ⟨done, y, rest, rfl, he⟩
            exact ⟨x :: done, y, rest, rfl, by simpa using he⟩
        · intro done y rest s'' hxs hI
          have := hstep (x :: done) y rest s'' (by rw [hxs]; rfl) (by simpa using hI)
          simpa using this
      · intro e s' he
        exact ⟨[], x, xs, rfl, by simpa using he⟩

theorem forM_cons_run {f : α → EStateM ε σ PUnit} {x : α} {xs : List α} {s : σ} :
    (x :: xs).forM f s
      = match f x s with
        | .ok _ s' => xs.forM f s'
        | .error e s' => .error e s' := by
  show (f x >>= fun _ => xs.forM f) s = _
  simp only [bind, EStateM.bind]
  cases f x s <;> rfl

/-- A loop exits exactly where the call on one element exits, with the calls before it returned. -/
theorem forM_error_iff {f : α → EStateM ε σ PUnit} {xs : List α} {e : ε} {s s' : σ} :
    xs.forM f s = .error e s' ↔ ∃ done x rest s₁, xs = done ++ x :: rest
      ∧ done.forM f s = .ok ⟨⟩ s₁ ∧ f x s₁ = .error e s' := by
  induction xs generalizing s with
  | nil =>
      constructor
      · intro h
        cases h
      · rintro ⟨done, x, rest, s₁, hxs, -⟩
        exact absurd hxs (by simp)
  | cons x xs ih =>
      rw [forM_cons_run]
      constructor
      · intro h
        cases hx : f x s with
        | ok a s₁ =>
            rw [hx] at h
            rcases ih.mp h with ⟨done, y, rest, s₂, rfl, hdone, hy⟩
            refine ⟨x :: done, y, rest, s₂, rfl, ?_, hy⟩
            rw [forM_cons_run, hx]
            exact hdone
        | error e₁ s₁ =>
            rw [hx] at h
            exact ⟨[], x, xs, s, rfl, rfl, hx.trans h⟩
      · rintro ⟨done, y, rest, s₁, hxs, hdone, hy⟩
        cases done with
        | nil =>
            cases hxs
            cases hdone
            rw [hy]
        | cons z done =>
            cases hxs
            rw [forM_cons_run] at hdone
            cases hx : f x s with
            | ok a s₂ =>
                rw [hx] at hdone
                exact ih.mpr ⟨done, y, rest, s₁, rfl, hdone, hy⟩
            | error e₁ s₂ =>
                rw [hx] at hdone
                cases hdone

/-- A loop over a flattened list is a loop of loops. -/
theorem forM_flatMap {γ : Type u} (xs : List α) (g : α → List γ) (f : γ → EStateM ε σ PUnit) :
    (xs.flatMap g).forM f = xs.forM fun x => (g x).forM f := by
  have happend : ∀ ys zs : List γ, (ys ++ zs).forM f = (ys.forM f >>= fun _ => zs.forM f) := by
    intro ys zs
    induction ys with
    | nil => rfl
    | cons y ys ih =>
        show (f y >>= fun _ => (ys ++ zs).forM f) = ((f y >>= fun _ => ys.forM f) >>= fun _ => zs.forM f)
        rw [ih, bind_assoc]
  induction xs with
  | nil => rfl
  | cons x xs ih =>
      rw [List.flatMap_cons, happend, ih]
      rfl

end ExitProg

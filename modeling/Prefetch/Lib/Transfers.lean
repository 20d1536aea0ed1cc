/-
# Prefetch.Lib.Transfers — moving a block by calls that may move less than they were asked to

A read or write call fails, or moves some of what it was asked to move, perhaps nothing. A loop around it
asks for what is left until nothing is left or a call fails. What becomes of such a loop is decided by the
schedule of outcomes alone: it completes, it fails, or it calls for ever (`completes_or_fails_or_stalls`),
and which of them it is can be read off the sums of what the calls offer to move (`progress_eq`). A loop
that takes a call that moves nothing for the end gets all it asks for where the calls bring it (`Brings`).
-/
import Mathlib.Algebra.BigOperators.Group.Finset.Basic
import Mathlib.Algebra.BigOperators.Intervals
import Mathlib.Algebra.Order.BigOperators.Group.Finset
import Mathlib.Tactic.Common

namespace Transfers

variable {ε : Type*}

/-! ## §1 — one call -/

/-- What a call does: it fails, it moves at most `n`, or it moves all it is asked to. -/
inductive Outcome (ε : Type*) where
  | error (e : ε)
  | short (n : ℕ)
  | full
  deriving DecidableEq, Repr

namespace Outcome

/-- How much of `count` a call moves. -/
def moved (count : ℕ) : Outcome ε → ℕ
  | error _ => 0
  | short n => min n count
  | full => count

/-- Whether the call fails. -/
def isError : Outcome ε → Bool
  | error _ => true
  | _ => false

/-- The call moves something whenever there is something to move. -/
def Moves : Outcome ε → Prop
  | error _ => False
  | short n => 0 < n
  | full => True

theorem moved_le (o : Outcome ε) (count : ℕ) : o.moved count ≤ count := by
  cases o <;> simp [moved]

theorem not_isError_of_moves {o : Outcome ε} (h : o.Moves) : o.isError = false := by
  cases o with
  | error e => exact h.elim
  | short n => rfl
  | full => rfl

theorem moved_pos {o : Outcome ε} (h : o.Moves) {count : ℕ} (hcount : 0 < count) :
    0 < o.moved count := by
  cases o with
  | error e => exact h.elim
  | short n => exact lt_min h hcount
  | full => exact hcount

theorem moves_of_moved_pos {o : Outcome ε} {count : ℕ} (h : 0 < o.moved count) : o.Moves := by
  cases o with
  | error e => exact absurd h (lt_irrefl 0)
  | short n => exact h.trans_le (min_le_left n count)
  | full => trivial

/-- A call asked for the rest of a block gets it all, or what it would get of the whole block. -/
theorem add_moved_rest (o : Outcome ε) (size sum : ℕ) :
    min size sum + o.moved (size - min size sum) = min size (sum + o.moved size) := by
  cases o with
  | error e => rfl
  | short n =>
      simp only [moved]
      omega
  | full =>
      simp only [moved]
      omega

end Outcome

/-! ## §2 — a block of `size`, call after call -/

variable (size : ℕ) (outcomes : ℕ → Outcome ε)

/-- What the first `k` calls offer to move of a block. -/
def offered (k : ℕ) : ℕ := ∑ i ∈ Finset.range k, (outcomes i).moved size

/-- How much of the block is moved after `k` calls, each asked for what is left. -/
def progress : ℕ → ℕ
  | 0 => 0
  | k + 1 => progress k + (outcomes k).moved (size - progress k)

theorem offered_succ (k : ℕ) :
    offered size outcomes (k + 1) = offered size outcomes k + (outcomes k).moved size :=
  Finset.sum_range_succ _ k

/-- **The block advances by what the calls offer**, until there is nothing left. -/
theorem progress_eq (k : ℕ) : progress size outcomes k = min size (offered size outcomes k) := by
  induction k with
  | zero => simp [progress, offered]
  | succ k ih =>
      rw [offered_succ, ← Outcome.add_moved_rest, ← ih]
      rfl

theorem progress_lt_iff (k : ℕ) :
    progress size outcomes k < size ↔ offered size outcomes k < size := by
  rw [progress_eq]
  omega

/-! ## §3 — what becomes of the loop -/

/-- The loop comes to its `k`-th call: no call before it failed, and none completed the block. -/
def Reaches (k : ℕ) : Prop :=
  ∀ i < k, (outcomes i).isError = false ∧ offered size outcomes i < size

/-- The calls offer the whole block before any of them fails. -/
def Completes : Prop := ∃ k, Reaches size outcomes k ∧ size ≤ offered size outcomes k

/-- A call fails while part of the block is left. -/
def Fails : Prop :=
  ∃ k, Reaches size outcomes k ∧ offered size outcomes k < size ∧ (outcomes k).isError = true

/-- No call fails and the block is never complete: all calls but finitely many move nothing. -/
def Stalls : Prop := ∀ k, Reaches size outcomes k

variable {size outcomes}

theorem Reaches.succ {k : ℕ} (h : Reaches size outcomes k) (herr : (outcomes k).isError = false)
    (hleft : offered size outcomes k < size) : Reaches size outcomes (k + 1) := by
  intro i hi
  rcases Nat.lt_succ_iff_lt_or_eq.mp hi with hlt | rfl
  · exact h i hlt
  · exact ⟨herr, hleft⟩

/-- **A loop over partial transfers completes, fails or never ends.** -/
theorem completes_or_fails_or_stalls (size : ℕ) (outcomes : ℕ → Outcome ε) :
    Completes size outcomes ∨ Fails size outcomes ∨ Stalls size outcomes := by
  by_cases hstop : Completes size outcomes ∨ Fails size outcomes
  · rcases hstop with h | h
    · exact Or.inl h
    · exact Or.inr (Or.inl h)
  · rw [not_or] at hstop
    refine Or.inr (Or.inr fun k => ?_)
    induction k with
    | zero =>
        intro i hi
        exact absurd hi (Nat.not_lt_zero i)
    | succ k ih =>
        have hleft : offered size outcomes k < size := by
          by_contra hdone
          exact hstop.1 ⟨k, ih, not_lt.mp hdone⟩
        have herr : (outcomes k).isError = false := by
          by_contra herr
          exact hstop.2 ⟨k, ih, hleft, by simpa using herr⟩
        exact ih.succ herr hleft

/-- **Calls that move on complete every block.** -/
theorem completes_of_moves (size : ℕ) (h : ∀ i, (outcomes i).Moves) : Completes size outcomes := by
  rcases completes_or_fails_or_stalls size outcomes with hdone | ⟨k, -, -, herr⟩ | hstalls
  · exact hdone
  · rw [Outcome.not_isError_of_moves (h k)] at herr
    cases herr
  · have hleft := (hstalls (size + 1) size (Nat.lt_succ_self size)).2
    have hpos : 0 < size := Nat.zero_lt_of_lt hleft
    have hge : ∀ k, k ≤ offered size outcomes k := by
      intro k
      induction k with
      | zero => exact Nat.zero_le _
      | succ k ih =>
          have hmoved := Outcome.moved_pos (h k) hpos
          rw [offered_succ]
          omega
    exact absurd hleft (not_lt.mpr (hge size))

theorem Completes.not_fails (h : Completes size outcomes) : ¬ Fails size outcomes := by
  rintro ⟨j, hj, hleft, herr⟩
  obtain ⟨k, hk, hdone⟩ := h
  rcases lt_trichotomy j k with hlt | rfl | hlt
  · exact absurd (hk j hlt).1 (by simp [herr])
  · omega
  · have := (hj k hlt).2
    omega

theorem Stalls.not_completes (h : Stalls size outcomes) : ¬ Completes size outcomes := by
  rintro ⟨k, -, hdone⟩
  have := (h (k + 1) k (Nat.lt_succ_self k)).2
  omega

theorem Stalls.not_fails (h : Stalls size outcomes) : ¬ Fails size outcomes := by
  rintro ⟨k, -, -, herr⟩
  have := (h (k + 1) k (Nat.lt_succ_self k)).1
  simp [herr] at this

/-! ## §4 — a loop that takes a call that moves nothing for the end -/

/-- Calls from `call` on that bring `left`, each of them something. -/
inductive Brings (outcomes : ℕ → Outcome ε) : ℕ → ℕ → Prop
  | done (call : ℕ) : Brings outcomes call 0
  | more {call left : ℕ} : 0 < left → (outcomes call).Moves →
      Brings outcomes (call + 1) (left - (outcomes call).moved left) → Brings outcomes call left

/-- **A call brings what is left exactly if it brings something and the calls behind it the rest.** -/
theorem brings_iff_of_pos {call left : ℕ} (hleft : 0 < left) :
    Brings outcomes call left ↔
      (outcomes call).Moves ∧ Brings outcomes (call + 1) (left - (outcomes call).moved left) := by
  constructor
  · intro hbrings
    cases hbrings with
    | done => exact absurd hleft (lt_irrefl 0)
    | more _ hmoves hrest => exact ⟨hmoves, hrest⟩
  · rintro ⟨hmoves, hrest⟩
    exact .more hleft hmoves hrest

end Transfers

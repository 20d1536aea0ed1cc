/-
# Prefetch.Lib.Qsort — what a sort with a comparison function promises

The C library promises of `qsort` that the array is rearranged, and that it is in order if the comparison
is consistent on its elements. Nothing is promised about equal elements, and nothing about the order when
the comparison is inconsistent. `Sorts` says this much of a function on lists, so that what is proved from
it holds of every implementation; `attachSort` is one.
-/
import Mathlib.Data.List.Sort
import Mathlib.Tactic.Common

namespace Qsort

variable {α : Type*}

/-- On the elements of the list, the signs of `cmp` are those of a total order, up to equality. -/
structure Consistent (cmp : α → α → ℤ) (l : List α) : Prop where
  total : ∀ a ∈ l, ∀ b ∈ l, cmp a b ≤ 0 ∨ cmp b a ≤ 0
  trans : ∀ a ∈ l, ∀ b ∈ l, ∀ c ∈ l, cmp a b ≤ 0 → cmp b c ≤ 0 → cmp a c ≤ 0

/-- What is promised of `qsort`. -/
structure Sorts (cmp : α → α → ℤ) (qsort : List α → List α) : Prop where
  perm : ∀ l, (qsort l).Perm l
  ordered : ∀ l, Consistent cmp l → (qsort l).Pairwise fun a b => cmp a b ≤ 0

/-- A comparison that agrees with a key on the list is consistent there. -/
theorem Consistent.of_key {cmp : α → α → ℤ} {l : List α} (key : α → ℕ)
    (h : ∀ a ∈ l, ∀ b ∈ l, cmp a b ≤ 0 ↔ key a ≤ key b) : Consistent cmp l where
  total a ha b hb := by
    rw [h a ha b hb, h b hb a ha]
    exact Nat.le_total _ _
  trans a ha b hb c hc hab hbc := by
    rw [h a ha b hb] at hab
    rw [h b hb c hc] at hbc
    exact (h a ha c hc).mpr (hab.trans hbc)

/-- The result is in the order of such a key. -/
theorem Sorts.ordered_key {cmp : α → α → ℤ} {qsort : List α → List α} (hq : Sorts cmp qsort)
    {l : List α} (key : α → ℕ) (h : ∀ a ∈ l, ∀ b ∈ l, cmp a b ≤ 0 ↔ key a ≤ key b) :
    (qsort l).Pairwise fun a b => key a ≤ key b := by
  refine (hq.ordered l (.of_key key h)).imp_of_mem fun {a b} ha hb hab => ?_
  exact (h a ((hq.perm l).mem_iff.mp ha) b ((hq.perm l).mem_iff.mp hb)).mp hab

/-- Merge sort, with the elements knowing that they come from the list. -/
def attachSort (cmp : α → α → ℤ) (l : List α) : List α :=
  (l.attach.mergeSort fun a b => decide (cmp a.1 b.1 ≤ 0)).map Subtype.val

theorem attachSort_sorts (cmp : α → α → ℤ) : Sorts cmp (attachSort cmp) where
  perm l := by
    have hperm := (List.mergeSort_perm l.attach fun a b => decide (cmp a.1 b.1 ≤ 0)).map Subtype.val
    rwa [List.attach_map_subtype_val] at hperm
  ordered l h := by
    have hsorted : (l.attach.mergeSort fun a b => decide (cmp a.1 b.1 ≤ 0)).Pairwise
        fun a b => decide (cmp a.1 b.1 ≤ 0) = true := by
      apply List.pairwise_mergeSort
      · intro a b c hab hbc
        rw [decide_eq_true_eq] at hab hbc ⊢
        exact h.trans a.1 a.2 b.1 b.2 c.1 c.2 hab hbc
      · intro a b
        rw [Bool.or_eq_true, decide_eq_true_eq, decide_eq_true_eq]
        exact h.total a.1 a.2 b.1 b.2
    exact List.pairwise_map.mpr (hsorted.imp fun hab => of_decide_eq_true hab)

/-- Two elements are swapped where they are in the wrong order. -/
theorem attachSort_pair (cmp : α → α → ℤ) (a b : α) :
    attachSort cmp [a, b] = if cmp a b ≤ 0 then [a, b] else [b, a] := by
  have hmerge (x y : {x // x ∈ [a, b]}) : [x, y].mergeSort (fun a b => decide (cmp a.1 b.1 ≤ 0))
      = if cmp x.1 y.1 ≤ 0 then [x, y] else [y, x] := by
    simp [List.mergeSort, List.merge]
  unfold attachSort
  rw [List.attach_cons, List.attach_cons, List.attach_nil, List.map_nil, List.map_singleton, hmerge]
  split_ifs <;> rfl

end Qsort

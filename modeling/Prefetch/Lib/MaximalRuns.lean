/-
# Prefetch.Lib.MaximalRuns — the maximal runs of a set of natural numbers

A run is a stretch of consecutive numbers, given by its first number and its length. Runs in ascending
order with a gap between any two of them are exactly the maximal runs of the set they cover
(`mem_iff_isMaximalRun`); `Apart` is what a scan that emits runs one after the other has to keep.
-/
import Mathlib.Data.List.Pairwise
import Mathlib.Data.Set.Basic
import Mathlib.Tactic.Common

namespace MaximalRuns

/-- A stretch of consecutive numbers of a set that cannot be made longer at either end. -/
structure IsMaximalRun (S : Set ℕ) (start len : ℕ) : Prop where
  pos : 0 < len
  inside : ∀ i, start ≤ i → i < start + len → i ∈ S
  left : ∀ i, i + 1 = start → i ∉ S
  right : start + len ∉ S

/-- The stretches are not empty, and each ends before the next begins, with a gap. -/
structure Apart (runs : List (ℕ × ℕ)) : Prop where
  nonempty : ∀ r ∈ runs, 0 < r.2
  gaps : runs.Pairwise fun r s => r.1 + r.2 < s.1

/-- The numbers of some stretches. -/
def covered (runs : List (ℕ × ℕ)) : Set ℕ := {i | ∃ r ∈ runs, r.1 ≤ i ∧ i < r.1 + r.2}

theorem apart_nil : Apart [] := ⟨by simp, List.Pairwise.nil⟩

variable {runs : List (ℕ × ℕ)} {start len : ℕ} {S : Set ℕ}

/-- A stretch behind all others, with a gap. -/
theorem Apart.snoc (h : Apart runs) (hpos : 0 < len) (hgap : ∀ r ∈ runs, r.1 + r.2 < start) :
    Apart (runs ++ [(start, len)]) := by
  refine ⟨?_, ?_⟩
  · intro r hr
    rcases List.mem_append.1 hr with hr | hr
    · exact h.nonempty r hr
    · rw [List.mem_singleton.1 hr]
      exact hpos
  · rw [List.pairwise_append]
    refine ⟨h.gaps, List.pairwise_singleton _ _, ?_⟩
    intro r hr s hs
    rw [List.mem_singleton.1 hs]
    exact hgap r hr

/-- Two stretches of the list are the same one, or there is a gap between them. -/
theorem Apart.eq_or_gap (h : Apart runs) {r s : ℕ × ℕ} (hr : r ∈ runs) (hs : s ∈ runs) :
    r = s ∨ r.1 + r.2 < s.1 ∨ s.1 + s.2 < r.1 := by
  have hgaps : runs.Pairwise fun r s => r.1 + r.2 < s.1 ∨ s.1 + s.2 < r.1 :=
    h.gaps.imp fun hlt => Or.inl hlt
  by_cases heq : r = s
  · exact Or.inl heq
  · right
    have : Std.Symm fun r s : ℕ × ℕ => r.1 + r.2 < s.1 ∨ s.1 + s.2 < r.1 := ⟨fun _ _ hrs => hrs.symm⟩
    exact hgaps.forall hr hs heq

/-- The number on the edge of a stretch is in none. -/
theorem Apart.isMaximalRun (h : Apart runs) {r : ℕ × ℕ} (hr : r ∈ runs) :
    IsMaximalRun (covered runs) r.1 r.2 := by
  refine ⟨h.nonempty r hr, fun i hle hlt => ⟨r, hr, hle, hlt⟩, ?_, ?_⟩
  · rintro i hi ⟨s, hs, hle, hlt⟩
    have hpos := h.nonempty r hr
    rcases h.eq_or_gap hr hs with rfl | hgap | hgap
    · omega
    · omega
    · omega
  · rintro ⟨s, hs, hle, hlt⟩
    rcases h.eq_or_gap hr hs with rfl | hgap | hgap
    · omega
    · omega
    · omega

/-- Two maximal runs with a number in common are the same. -/
theorem IsMaximalRun.unique {start' len' i : ℕ} (h : IsMaximalRun S start len)
    (h' : IsMaximalRun S start' len') (hi : start ≤ i ∧ i < start + len)
    (hi' : start' ≤ i ∧ i < start' + len') : start = start' ∧ len = len' := by
  have hstart : start = start' := by
    rcases Nat.lt_trichotomy start start' with hlt | heq | hlt
    · exact absurd (h.inside (start' - 1) (by omega) (by omega)) (h'.left _ (by omega))
    · exact heq
    · exact absurd (h'.inside (start - 1) (by omega) (by omega)) (h.left _ (by omega))
  subst hstart
  refine ⟨rfl, ?_⟩
  rcases Nat.lt_trichotomy len len' with hlt | heq | hlt
  · exact absurd (h'.inside (start + len) (by omega) (by omega)) h.right
  · exact heq
  · exact absurd (h.inside (start + len') (by omega) (by omega)) h'.right

/-- **Stretches with gaps between them are exactly the maximal runs of what they cover.** -/
theorem mem_iff_isMaximalRun (h : Apart runs) :
    (start, len) ∈ runs ↔ IsMaximalRun (covered runs) start len := by
  constructor
  · exact h.isMaximalRun
  · intro hrun
    obtain ⟨r, hr, hle, hlt⟩ := hrun.inside start le_rfl (Nat.lt_add_of_pos_right hrun.pos)
    obtain ⟨rfl, rfl⟩ := hrun.unique (h.isMaximalRun hr)
      ⟨le_rfl, Nat.lt_add_of_pos_right hrun.pos⟩ ⟨hle, hlt⟩
    exact hr

end MaximalRuns

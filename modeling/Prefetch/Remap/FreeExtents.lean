/-
# Prefetch.Remap.FreeExtents — the free extents and the positions of the remapped data

`find_free_blocks` leaves a list of extents whose offsets are the running sums of their lengths. Over such a
list every position of the remapped data has one physical block, and `find_remapped_offset` finds it.
-/
import Prefetch.Lib.RunningSums
import Prefetch.Remap.Remapper
import Mathlib.Data.List.Pairwise
import Mathlib.Data.Nat.Basic

namespace Prefetch.Remap

open RunningSums

/-! ## §1 — free extents -/

/-- The free extents as `find_free_blocks` leaves them: none is empty, they are disjoint, their offsets
are running sums and their lengths add up to `total`. -/
structure FreeExtents (total : ℕ) where
  list : List FreeExtent
  nonempty : ∀ f ∈ list, 0 < f.len
  disjoint : list.Pairwise fun f f' => f.block + f.len ≤ f'.block ∨ f'.block + f'.len ≤ f.block
  offsets : Running FreeExtent.len FreeExtent.offset 0 list
  total_eq : totalLen FreeExtent.len list = total

/-! ## §2 — the search -/

/-- The binary search finds the extent at index `i` that contains the position. -/
theorem findFrom_eq {fs : List FreeExtent} {pos start stop i : ℕ} {f : FreeExtent}
    (hord : fs.Pairwise fun f f' => f.offset + f.len ≤ f'.offset) (hpos : ∀ f ∈ fs, 0 < f.len)
    (hi : fs[i]? = some f) (hin : f.offset ≤ pos ∧ pos < f.offset + f.len)
    (hstart : start ≤ i) (hstop : i < stop) (hlen : stop ≤ fs.length) :
    findFrom fs pos start stop = some f := by
  have hbefore : ∀ (j k : ℕ) (f₁ f₂ : FreeExtent), fs[j]? = some f₁ → fs[k]? = some f₂ → j < k →
      f₁.offset + f₁.len ≤ f₂.offset := by
    intro j k f₁ f₂ hj hk hjk
    rcases List.getElem?_eq_some_iff.mp hj with ⟨hj', rfl⟩
    rcases List.getElem?_eq_some_iff.mp hk with ⟨hk', rfl⟩
    exact List.pairwise_iff_getElem.mp hord j k hj' hk' hjk
  fun_induction findFrom fs pos start stop with
  | case1 start stop hlt mid hget =>
      -- the middle is an index of the list
      have hmid : mid < fs.length := by omega
      rw [List.getElem?_eq_getElem hmid] at hget
      cases hget
  | case2 start stop hlt mid f' hget hin' =>
      rcases Nat.lt_trichotomy mid i with h | h | h
      · have := hbefore _ _ _ _ hget hi h
        omega
      · rw [h, hi] at hget
        exact hget.symm
      · have := hbefore _ _ _ _ hi hget h
        omega
  | case3 start stop hlt mid f' hget hin' hbelow ih =>
      -- the middle extent ends at or before the position
      refine ih ?_ hstop hlen
      rcases Nat.lt_trichotomy mid i with h | h | h
      · exact h
      · rw [h, hi] at hget
        cases hget
        exact absurd hin hin'
      · have := hbefore _ _ _ _ hi hget h
        omega
  | case4 start stop hlt mid f' hget hin' hbelow ih =>
      refine ih hstart ?_ (by omega)
      rcases Nat.lt_trichotomy mid i with h | h | h
      · have := hbefore _ _ _ _ hget hi h
        have := hpos f' (List.mem_of_getElem? hget)
        omega
      · rw [h, hi] at hget
        cases hget
        exact absurd hin hin'
      · exact h
  | case5 start stop hlt => omega

namespace FreeExtents

variable {total : ℕ} (F : FreeExtents total)

/-- `find_remapped_offset` returns the extent that contains the position. -/
theorem find_eq {f : FreeExtent} (hf : f ∈ F.list) {pos : ℕ}
    (hin : f.offset ≤ pos ∧ pos < f.offset + f.len) : findRemappedOffset F.list pos = some f := by
  rcases List.getElem?_of_mem hf with ⟨i, hi⟩
  have hlt : i < F.list.length := (List.getElem?_eq_some_iff.mp hi).1
  exact findFrom_eq F.offsets.ordered.2 F.nonempty hi hin (Nat.zero_le _) hlt (Nat.le_refl _)

/-- `find_remapped_offset` never returns `NULL` for a position of the data. -/
theorem find_isSome {pos : ℕ} (h : pos < total) :
    ∃ f ∈ F.list, findRemappedOffset F.list pos = some f ∧ f.offset ≤ pos ∧ pos < f.offset + f.len := by
  rcases F.offsets.exists_mem (Nat.zero_le _) (by rw [Nat.zero_add, F.total_eq]; exact h) with ⟨f, hf, hin⟩
  exact ⟨f, hf, F.find_eq hf hin, hin⟩

/-- The physical block of a position. -/
def place (pos : ℕ) : ℕ :=
  match findRemappedOffset F.list pos with
  | none => 0
  | some f => f.block + (pos - f.offset)

theorem place_eq {f : FreeExtent} (hf : f ∈ F.list) {pos : ℕ}
    (hin : f.offset ≤ pos ∧ pos < f.offset + f.len) : F.place pos = f.block + (pos - f.offset) := by
  rw [place, F.find_eq hf hin]

/-- The block of a position lies in a free extent. -/
theorem place_mem {pos : ℕ} (h : pos < total) :
    ∃ f ∈ F.list, f.block ≤ F.place pos ∧ F.place pos < f.block + f.len := by
  rcases F.find_isSome h with ⟨f, hf, -, hin⟩
  rw [F.place_eq hf hin]
  exact ⟨f, hf, by omega, by omega⟩

/-- Different positions have different blocks. -/
theorem place_inj {pos pos' : ℕ} (h : pos < total) (h' : pos' < total)
    (heq : F.place pos = F.place pos') : pos = pos' := by
  rcases F.find_isSome h with ⟨f, hf, -, hin⟩
  rcases F.find_isSome h' with ⟨f', hf', -, hin'⟩
  rw [F.place_eq hf hin, F.place_eq hf' hin'] at heq
  by_cases hff : f = f'
  · subst hff
    omega
  · have hsymm : Std.Symm fun f f' : FreeExtent =>
        f.block + f.len ≤ f'.block ∨ f'.block + f'.len ≤ f.block := ⟨fun _ _ h => h.symm⟩
    have hapart := F.disjoint.forall hf hf' hff
    omega

end FreeExtents

end Prefetch.Remap

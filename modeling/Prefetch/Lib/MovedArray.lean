/-
# Prefetch.Lib.MovedArray — addresses in an array that grows

An array gets its entries one after the other, and for some of them it moves: the entries there are go to
another place, and what has their addresses is not told. An address names the array it was taken in, so that
it can be seen whether that is the array there is now.

`addressOf_current_iff`: it is, unless the array has moved since (`Stranded`).
-/
import Mathlib.Data.Nat.Count
import Mathlib.Tactic.Common

namespace MovedArray

/-- An address, not NULL: an entry of one of the arrays there were. -/
structure Pointer where
  array : ℕ
  index : ℕ
  deriving DecidableEq, Repr

variable (moves : ℕ → Prop) [DecidablePred moves]

/-- The number of the array when there are so many entries; 0 is none of them. `moves k` says whether it moves
for entry `k`. -/
def arrayAt (count : ℕ) : ℕ := Nat.count moves count + 1

/-- The address of an entry, taken when it was made. -/
def addressOf (k : ℕ) : Pointer := ⟨arrayAt moves (k + 1), k⟩

/-- The array has moved for a later entry. -/
def Stranded (k count : ℕ) : Prop := ∃ j, k < j ∧ j < count ∧ moves j

instance (k count : ℕ) : Decidable (Stranded moves k count) :=
  decidable_of_iff (∃ j < count, k < j ∧ moves j)
    (exists_congr fun _ => by rw [← and_assoc, and_comm (a := _ < count), and_assoc])

variable {moves} {k count count' : ℕ}

theorem arrayAt_pos : 0 < arrayAt moves count := Nat.succ_pos _

theorem arrayAt_succ :
    arrayAt moves (count + 1) = if moves count then arrayAt moves count + 1 else arrayAt moves count := by
  unfold arrayAt
  rw [Nat.count_succ]
  split_ifs <;> rfl

theorem arrayAt_mono (h : count ≤ count') : arrayAt moves count ≤ arrayAt moves count' :=
  Nat.add_le_add_right (Nat.count_monotone moves h) 1

/-- **When an address is of the array there is**: the array has not moved since. -/
theorem addressOf_current_iff (h : k < count) :
    (addressOf moves k).array = arrayAt moves count ↔ ¬ Stranded moves k count := by
  have hle : Nat.count moves (k + 1) ≤ Nat.count moves count := Nat.count_monotone moves h
  show Nat.count moves (k + 1) + 1 = Nat.count moves count + 1 ↔ _
  constructor
  · rintro heq ⟨j, hkj, hj, hmoves⟩
    have hlt := Nat.count_strict_mono hmoves hj
    have hge : Nat.count moves (k + 1) ≤ Nat.count moves j := Nat.count_monotone moves hkj
    omega
  · intro hnot
    by_contra hne
    obtain ⟨j, hj, hmoves⟩ := Nat.exists_of_count_lt_count (p := moves) (a := k + 1) (b := count) (by omega)
    obtain ⟨hkj, hj⟩ := Set.mem_Ico.mp hj
    exact hnot ⟨j, hkj, hj, hmoves⟩

omit [DecidablePred moves] in
/-- The last entry's address is of the array there is. -/
theorem not_stranded_last : ¬ Stranded moves k (k + 1) := by
  rintro ⟨j, hkj, hj, -⟩
  omega

end MovedArray

/-
# Prefetch.Lib.Quotients — the quotients of an interval

Dividing the numbers of an interval by `d` gives the numbers between the quotients of its ends: which
units of `d` a range meets, and how many.
-/
import Mathlib.Order.Interval.Finset.Nat
import Mathlib.Tactic.Common

namespace Quotients

variable {d base first last : ℕ}

/-- The quotients of the numbers of an interval, counted from `base`, are those between the quotients of
its ends. -/
theorem image_sub_div_Icc (hd : 0 < d) (hbase : base ≤ first) (hle : first ≤ last) :
    (Finset.Icc first last).image (fun b => (b - base) / d)
      = Finset.Icc ((first - base) / d) ((last - base) / d) := by
  ext q
  simp only [Finset.mem_image, Finset.mem_Icc]
  constructor
  · rintro ⟨b, ⟨hb, hb'⟩, rfl⟩
    exact ⟨Nat.div_le_div_right (by omega), Nat.div_le_div_right (by omega)⟩
  · rintro ⟨hq, hq'⟩
    have hlast : q * d ≤ last - base := (Nat.le_div_iff_mul_le hd).mp hq'
    rcases Nat.le_total (first - base) (q * d) with h | h
    · -- the multiple itself is in the interval
      refine ⟨base + q * d, ⟨by omega, by omega⟩, ?_⟩
      rw [Nat.add_sub_cancel_left, Nat.mul_div_cancel _ hd]
    · refine ⟨first, ⟨le_rfl, hle⟩, ?_⟩
      exact Nat.le_antisymm hq ((Nat.le_div_iff_mul_le hd).mpr h)

theorem card_image_sub_div_Icc (hd : 0 < d) (hbase : base ≤ first) (hle : first ≤ last) :
    ((Finset.Icc first last).image (fun b => (b - base) / d)).card
      = (last - base) / d + 1 - (first - base) / d := by
  rw [image_sub_div_Icc hd hbase hle, Nat.card_Icc]

/-- The units a range of `len` numbers meets. -/
theorem exists_div_eq_iff {q len : ℕ} (hd : 0 < d) (hlen : 0 < len) :
    (∃ n, (first ≤ n ∧ n < first + len) ∧ n / d = q) ↔ first / d ≤ q ∧ q ≤ (first + (len - 1)) / d := by
  have himage : q ∈ (Finset.Icc first (first + (len - 1))).image (fun n => (n - 0) / d) ↔ _ :=
    Finset.ext_iff.mp (image_sub_div_Icc hd first.zero_le (Nat.le_add_right _ _)) q
  simp only [Finset.mem_image, Finset.mem_Icc, Nat.sub_zero] at himage
  rw [← himage]
  constructor
  · rintro ⟨n, hn, rfl⟩
    exact ⟨n, by omega, rfl⟩
  · rintro ⟨n, hn, rfl⟩
    exact ⟨n, by omega, rfl⟩

/-- The last unit of a range, from quotients and remainders of its first number and its length. -/
theorem div_last_eq {len : ℕ} (hlen : 0 < len) (hd : 0 < d) :
    (first + (len - 1)) / d
      = if first % d + len % d = 0 then first / d + len / d - 1
        else if first % d + len % d ≤ d then first / d + len / d
        else first / d + len / d + 1 := by
  have hfirst := Nat.div_add_mod first d
  have hlen' := Nat.div_add_mod len d
  have hmod := Nat.mod_lt first hd
  have hmod' := Nat.mod_lt len hd
  have hsum : d * (first / d + len / d) = d * (first / d) + d * (len / d) := Nat.mul_add _ _ _
  split_ifs with hzero hle
  · -- whole units only
    have hone : 1 ≤ len / d := Nat.pos_of_ne_zero fun h => by
      rw [h, Nat.mul_zero] at hlen'
      omega
    have hpred : d * (first / d + len / d - 1) + d = d * (first / d + len / d) := by
      rw [← Nat.mul_succ, Nat.succ_eq_add_one, Nat.sub_add_cancel (hone.trans (Nat.le_add_left _ _))]
    have heq : first + (len - 1) = d - 1 + d * (first / d + len / d - 1) := by omega
    rw [heq, Nat.add_mul_div_left _ _ hd, Nat.div_eq_of_lt (by omega), Nat.zero_add]
  · have heq : first + (len - 1) = (first % d + len % d - 1) + d * (first / d + len / d) := by omega
    rw [heq, Nat.add_mul_div_left _ _ hd, Nat.div_eq_of_lt (by omega), Nat.zero_add]
  · have heq : first + (len - 1)
        = (first % d + len % d - 1 - d) + d * (first / d + len / d + 1) := by
      rw [Nat.mul_add, Nat.mul_one]
      omega
    rw [heq, Nat.add_mul_div_left _ _ hd, Nat.div_eq_of_lt (by omega), Nat.zero_add]

end Quotients

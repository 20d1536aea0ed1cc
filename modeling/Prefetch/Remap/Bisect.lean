/-
# Prefetch.Remap.Bisect — the binary searches of e2block2file, as far as they agree

`find_block` and `find_map_block` halve an index interval kept in two variables of type `int`. The sum of
the two ends is an `int` as well: it overflows on tables of more than `2 ^ 30` entries, once the lower end
has moved far enough up while the upper one is still the last index (`overflowStart`). A step to the left
brings both ends below `2 ^ 30`, and the sum is safe from then on.
-/
import Prefetch.Remap.LoadBlocks

namespace Prefetch.Remap

/-! ## §1 — indices -/

/-- `mid = (start+end)/2`. -/
def midpoint (start stop : ℤ) : ℤ := (toInt (start + stop)).tdiv 2

/-- A read of a table; `none` is a read before or behind it. -/
def readAt {α : Type*} (table : List α) (i : ℤ) : Option α := if i < 0 then none else table[i.toNat]?

theorem midpoint_eq {start stop : ℕ} (h : start + stop < 2 ^ 31) :
    midpoint start stop = ((start + stop) / 2 : ℕ) := by
  unfold midpoint
  rw [toInt_eq (by omega) (by omega), Int.tdiv_eq_ediv_of_nonneg (by omega)]
  omega

/-- Past the largest `int`, the midpoint is negative. -/
theorem midpoint_neg {start stop : ℕ} (h : 2 ^ 31 ≤ start + stop) (h' : start + stop ≤ 2 ^ 32 - 2) :
    midpoint start stop < 0 := by
  have htoInt : toInt ((start : ℤ) + stop) = -((2 ^ 32 - (start + stop) : ℕ) : ℤ) := by
    unfold toInt
    omega
  unfold midpoint
  rw [htoInt, Int.neg_tdiv, Int.tdiv_eq_ediv_of_nonneg (by omega)]
  omega

section Read

variable {α : Type*} {table : List α}

theorem readAt_natCast (i : ℕ) : readAt table (i : ℤ) = table[i]? := by
  unfold readAt
  rw [if_neg (by omega), Int.toNat_natCast]

theorem readAt_of_lt {i : ℕ} (h : i < table.length) : readAt table (i : ℤ) = some table[i] := by
  rw [readAt_natCast, List.getElem?_eq_getElem h]

theorem readAt_of_neg {i : ℤ} (h : i < 0) : readAt table i = none := if_pos h

variable [Inhabited α] {i : ℕ}

theorem getD_eq (hi : i < table.length) : table.getD i default = table[i] := by
  rw [List.getD_eq_getElem?_getD, List.getElem?_eq_getElem hi, Option.getD_some]

theorem getD_mem (hi : i < table.length) : table.getD i default ∈ table := by
  rw [getD_eq hi]
  exact List.getElem_mem hi

theorem readAt_getD (hi : i < table.length) : readAt table (i : ℤ) = some (table.getD i default) := by
  rw [readAt_of_lt hi, getD_eq hi]

end Read

/-- What a search comes to: an entry, `NULL`, a read before or behind the table; `running` is no end
within the given number of turns. -/
inductive Lookup where
  | found (i : ℕ)
  | missing
  | outside
  | running
  deriving DecidableEq, Repr

/-! ## §2 — sorted tables -/

/-- A table of extents that are not empty, in order and disjoint. Block numbers have 32 bits, and so has
`extent_count`. -/
structure SortedExtents (l : List InputExtent) : Prop where
  nonempty : ∀ e ∈ l, 0 < e.len
  apart : l.Pairwise fun a b => a.block + a.len ≤ b.block
  inDevice : ∀ e ∈ l, e.block + e.len ≤ 2 ^ 32
  count_lt : l.length < 2 ^ 32

/-- First block and end of an entry. -/
def lo (l : List InputExtent) (i : ℕ) : ℕ := (l.getD i default).block
def hi (l : List InputExtent) (i : ℕ) : ℕ := (l.getD i default).block + (l.getD i default).len

/-- The entry contains the block. -/
def Inside (l : List InputExtent) (b i : ℕ) : Prop := i < l.length ∧ lo l i ≤ b ∧ b < hi l i

section Table

variable {l : List InputExtent} {b i j : ℕ}

variable (h : SortedExtents l)

include h

theorem SortedExtents.lo_lt_hi (hlen : i < l.length) : lo l i < hi l i := by
  have hpos := h.nonempty _ (getD_mem hlen)
  exact Nat.lt_add_of_pos_right hpos

theorem SortedExtents.hi_le_lo (hij : i < j) (hj : j < l.length) : hi l i ≤ lo l j := by
  have hle := List.pairwise_iff_getElem.mp h.apart i j (hij.trans hj) hj hij
  rw [← getD_eq hj, ← getD_eq (hij.trans hj)] at hle
  exact hle

theorem SortedExtents.hi_le (hlen : i < l.length) : hi l i ≤ 2 ^ 32 :=
  h.inDevice _ (getD_mem hlen)

theorem SortedExtents.lo_le_lo (hij : i ≤ j) (hj : j < l.length) : lo l i ≤ lo l j := by
  rcases hij.eq_or_lt with rfl | hlt
  · exact le_rfl
  · exact (h.lo_lt_hi (hlt.trans hj)).le.trans (h.hi_le_lo hlt hj)

theorem SortedExtents.hi_le_hi (hij : i ≤ j) (hj : j < l.length) : hi l i ≤ hi l j := by
  rcases hij.eq_or_lt with rfl | hlt
  · exact le_rfl
  · exact (h.hi_le_lo hlt hj).trans (h.lo_lt_hi hj).le

/-- Only the last extent can end behind the last block number. -/
theorem SortedExtents.hi_lt (hlen : i + 1 < l.length) : hi l i < 2 ^ 32 :=
  calc hi l i ≤ lo l (i + 1) := h.hi_le_lo (Nat.lt_succ_self i) hlen
    _ < hi l (i + 1) := h.lo_lt_hi hlen
    _ ≤ 2 ^ 32 := h.hi_le hlen

/-- The entry that contains a block is the only one. -/
theorem SortedExtents.inside_unique (hi' : Inside l b i) (hj : Inside l b j) : i = j := by
  rcases Nat.lt_trichotomy i j with hlt | heq | hgt
  · have hle := h.hi_le_lo hlt hj.1
    have hlt' := hi'.2.2
    have hge := hj.2.1
    omega
  · exact heq
  · have hle := h.hi_le_lo hgt hi'.1
    have hlt' := hj.2.2
    have hge := hi'.2.1
    omega

/-- A block behind one entry and before the next lies in none. -/
theorem SortedExtents.not_inside_of_gap (hbefore : ∀ j, j < i → j < l.length → hi l j ≤ b)
    (hbehind : i < l.length → b < lo l i) (k : ℕ) : ¬ Inside l b k := by
  rintro ⟨hk, hle, hlt⟩
  rcases Nat.lt_or_ge k i with hlow | hhigh
  · exact absurd hlt (Nat.not_lt.mpr (hbefore k hlow hk))
  · have hgap := hbehind (hhigh.trans_lt hk)
    have hmono := h.lo_le_lo hhigh hk
    omega

end Table

/-- The stored end of an entry. -/
theorem stop_getD_of_lt {l : List InputExtent} {i : ℕ} (h : hi l i < 2 ^ 32) :
    (l.getD i default).stop = hi l i := Nat.mod_eq_of_lt h

theorem stop_getD_of_eq {l : List InputExtent} {i : ℕ} (h : hi l i = 2 ^ 32) :
    (l.getD i default).stop = 0 := by
  show hi l i % 2 ^ 32 = 0
  rw [h, Nat.mod_self]

/-! ## §3 — where the sum overflows -/

/-- The first lower end, from `start` on and always to the right, whose sum with the last index does not
fit in an `int`; `n` bounds the steps. -/
def overflowFrom (last : ℕ) : ℕ → ℕ → ℕ
  | 0, start => start
  | n + 1, start =>
      if 2 ^ 31 ≤ start + last then start else overflowFrom last n ((start + last) / 2 + 1)

/-- The same from `0` on. -/
def overflowStart (last : ℕ) : ℕ := overflowFrom last last 0

/-- There is one, up to the last index. -/
theorem overflowFrom_spec {last n start : ℕ} (hlast : 2 ^ 30 ≤ last) (hstart : start ≤ last)
    (hn : last ≤ start + n) :
    start ≤ overflowFrom last n start ∧ overflowFrom last n start ≤ last
      ∧ 2 ^ 31 ≤ overflowFrom last n start + last := by
  induction n generalizing start with
  | zero =>
      rw [overflowFrom]
      omega
  | succ n ih =>
      rw [overflowFrom]
      split_ifs with hsum
      · omega
      · have hmid : (start + last) / 2 + 1 ≤ last := by omega
        obtain ⟨hle, hle', hover⟩ := ih hmid (by omega)
        omega

theorem overflowStart_spec (last : ℕ) (hlast : 2 ^ 30 ≤ last) :
    overflowStart last ≤ last ∧ 2 ^ 31 ≤ overflowStart last + last :=
  (overflowFrom_spec hlast last.zero_le (Nat.le_add_left _ _)).2

/-- The first step does not overflow. -/
theorem overflowStart_eq {last : ℕ} (hpos : 0 < last) (hlast : last < 2 ^ 31) :
    overflowStart last = overflowFrom last (last - 1) ((0 + last) / 2 + 1) := by
  obtain ⟨k, hk⟩ : ∃ k, last = k + 1 := ⟨last - 1, by omega⟩
  have hpred : last - 1 = k := by omega
  have hstep : overflowFrom last (k + 1) 0 = overflowFrom last k ((0 + last) / 2 + 1) :=
    if_neg (by omega)
  rw [hpred, ← hstep, ← hk]
  rfl

end Prefetch.Remap

/-
# Prefetch.Remap.FindBlock — which extent of the input a block belongs to

`find_block` halves the table and leaves early where the block lies outside of what is left. On two
extents or more this is right; the ends it looks at are entries of the table, and an extent is given up
only with everything that could hold the block. What goes wrong is at the edges: with one extent the
narrowed ends are not entries any more; an extent that ends with the last 32-bit block number has the
end `0`; and on tables too large for an `int` the indices overflow. `Misses` lists these inputs.
-/
import Prefetch.Remap.Bisect

namespace Prefetch.Remap

/-! ## §1 — `find_block` -/

/-- The loop of `find_block`, `n` turns at most. -/
def findBlockLoop (iextents : List InputExtent) (blocknr : ℕ) : ℕ → ℤ → ℤ → Lookup
  | 0, _, _ => .running
  | n + 1, start, stop =>
      if start ≤ stop then
        match readAt iextents (midpoint start stop) with
        | none => .outside
        | some e =>
            if e.block ≤ blocknr ∧ blocknr < e.stop then .found (midpoint start stop).toNat
            else
              let start' := if e.block < blocknr then midpoint start stop + 1 else start
              let stop' := if e.block < blocknr then stop else midpoint start stop - 1
              match readAt iextents start' with
              | none => .outside
              | some first =>
                  if blocknr < first.block then .missing
                  else
                    match readAt iextents stop' with
                    | none => .outside
                    | some last =>
                        if last.stop ≤ blocknr then .missing
                        else findBlockLoop iextents blocknr n start' stop'
      else .missing

/-- `find_block`; `extent_count-1` is unsigned and `end` an `int`. -/
def findBlock (iextents : List InputExtent) (blocknr : ℕ) : Lookup :=
  findBlockLoop iextents blocknr (iextents.length + 1) 0 (toInt (iextents.length - 1))

/-! ## §2 — what is expected of the search -/

/-- The entry that contains the block, and `NULL` if there is none. -/
def IsAnswer (l : List InputExtent) (b : ℕ) (r : Lookup) : Prop :=
  (∀ i, Inside l b i → r = .found i) ∧ ((∀ i, ¬ Inside l b i) → r = .missing)

/-- `find_block` ends, reads entries of the table only, and returns the right one. -/
def FindsRight (iextents : List InputExtent) (blocknr : ℕ) : Prop :=
  IsAnswer iextents blocknr (findBlock iextents blocknr)

section Answer

variable {l : List InputExtent} {b i : ℕ}

theorem SortedExtents.answer_found (h : SortedExtents l) (hin : Inside l b i) :
    IsAnswer l b (.found i) :=
  ⟨fun _ hj => congrArg Lookup.found (h.inside_unique hin hj), fun hnone => absurd hin (hnone i)⟩

theorem answer_missing (hnone : ∀ i, ¬ Inside l b i) : IsAnswer l b .missing :=
  ⟨fun i hin => absurd hin (hnone i), fun _ => rfl⟩

/-- There is always an answer, and it is an entry or `NULL`. -/
theorem IsAnswer.ne_outside {r : Lookup} (h : IsAnswer l b r) : r ≠ .outside := by
  by_cases hin : ∃ i, Inside l b i
  · obtain ⟨i, hi⟩ := hin
    rw [h.1 i hi]
    exact Lookup.noConfusion
  · rw [h.2 fun i hi => hin ⟨i, hi⟩]
    exact Lookup.noConfusion

theorem IsAnswer.ne_missing {r : Lookup} (h : IsAnswer l b r) (hin : Inside l b i) : r ≠ .missing := by
  rw [h.1 i hin]
  exact Lookup.noConfusion

end Answer

/-! ## §3 — one turn of the loop -/

section Turn

variable {l : List InputExtent} {b n start stop mid : ℕ}

/-- The turn, up to the comparison with the middle entry. -/
theorem findBlockLoop_mid (hle : start ≤ stop) (hstop : stop < l.length) (hsum : start + stop < 2 ^ 31)
    (hmid : mid = (start + stop) / 2) :
    findBlockLoop l b (n + 1) start stop
      = if lo l mid ≤ b ∧ b < (l.getD mid default).stop then .found mid
        else
          match readAt l (if lo l mid < b then (mid : ℤ) + 1 else start) with
          | none => .outside
          | some first =>
              if b < first.block then .missing
              else
                match readAt l (if lo l mid < b then (stop : ℤ) else mid - 1) with
                | none => .outside
                | some last =>
                    if last.stop ≤ b then .missing
                    else findBlockLoop l b n (if lo l mid < b then (mid : ℤ) + 1 else start)
                      (if lo l mid < b then (stop : ℤ) else mid - 1) := by
  have hread : readAt l (mid : ℤ) = some (l.getD mid default) := readAt_getD (by omega)
  rw [findBlockLoop, if_pos (by omega), midpoint_eq hsum, ← hmid, hread, Int.toNat_natCast]
  rfl

/-- The middle entry contains the block. -/
theorem findBlockLoop_hit (hle : start ≤ stop) (hstop : stop < l.length) (hsum : start + stop < 2 ^ 31)
    (hmid : mid = (start + stop) / 2) (hlo : lo l mid ≤ b) (hhi : b < (l.getD mid default).stop) :
    findBlockLoop l b (n + 1) start stop = .found mid := by
  rw [findBlockLoop_mid hle hstop hsum hmid, if_pos ⟨hlo, hhi⟩]

/-- A turn to the right. -/
theorem findBlockLoop_right (hle : start ≤ stop) (hstop : stop < l.length)
    (hsum : start + stop < 2 ^ 31) (hmid : mid = (start + stop) / 2) (hlt : mid < stop)
    (hlo : lo l mid < b) (hhi : ¬ b < (l.getD mid default).stop) :
    findBlockLoop l b (n + 1) start stop
      = if b < lo l (mid + 1) then .missing
        else if (l.getD stop default).stop ≤ b then .missing
        else findBlockLoop l b n (mid + 1 : ℕ) stop := by
  have hstart' : readAt l ((mid : ℤ) + 1) = some (l.getD (mid + 1) default) := by
    have hcast : (mid : ℤ) + 1 = ((mid + 1 : ℕ) : ℤ) := rfl
    rw [hcast, readAt_getD (by omega)]
  rw [findBlockLoop_mid hle hstop hsum hmid, if_neg fun hin => hhi hin.2]
  simp only [if_pos hlo, hstart', readAt_getD hstop]
  rfl

/-- A turn to the left. -/
theorem findBlockLoop_left (hle : start ≤ stop) (hstop : stop < l.length)
    (hsum : start + stop < 2 ^ 31) (hmid : mid = (start + stop) / 2) (hlo : b < lo l mid) :
    findBlockLoop l b (n + 1) start stop
      = if b < lo l start then .missing
        else if (l.getD (mid - 1) default).stop ≤ b then .missing
        else findBlockLoop l b n start (mid - 1 : ℕ) := by
  rw [findBlockLoop_mid hle hstop hsum hmid, if_neg fun hin => absurd hlo (Nat.not_lt.mpr hin.1)]
  simp only [if_neg (Nat.not_lt.mpr hlo.le), readAt_getD (hle.trans_lt hstop)]
  by_cases hfirst : b < lo l start
  · rw [if_pos hfirst]
    exact if_pos hfirst
  · -- the middle entry is not the first, so there is one before it
    have hpos : 1 ≤ mid := by
      rcases Nat.eq_zero_or_pos mid with rfl | hpos
      · have hzero : start = 0 := by omega
        rw [hzero] at hfirst
        exact absurd hlo hfirst
      · exact hpos
    have hcast : (mid : ℤ) - 1 = ((mid - 1 : ℕ) : ℤ) := by omega
    rw [if_neg hfirst]
    refine (if_neg hfirst).trans ?_
    rw [hcast, readAt_getD (by omega)]

/-- The sum of the ends is no `int`: the entry read is not in the table. -/
theorem findBlockLoop_overflow (hn : 0 < n) (hle : start ≤ stop) (hsum : 2 ^ 31 ≤ start + stop)
    (hsum' : start + stop ≤ 2 ^ 32 - 2) : findBlockLoop l b n start stop = .outside := by
  obtain ⟨m, rfl⟩ : ∃ m, n = m + 1 := ⟨n - 1, by omega⟩
  rw [findBlockLoop, if_pos (by omega), readAt_of_neg (midpoint_neg hsum hsum')]

end Turn

/-! ## §4 — the loop -/

section Loop

variable {l : List InputExtent} {b n start stop mid : ℕ} (h : SortedExtents l)

include h

/-- A turn to the right where the middle entry lies before the block. -/
theorem SortedExtents.loop_right (hle : start ≤ stop) (hstop : stop < l.length)
    (hsum : start + stop < 2 ^ 31) (hmid : mid = (start + stop) / 2) (hlt : mid < stop)
    (hbehind : hi l mid ≤ b) :
    findBlockLoop l b (n + 1) start stop
      = if b < lo l (mid + 1) then .missing
        else if (l.getD stop default).stop ≤ b then .missing
        else findBlockLoop l b n (mid + 1 : ℕ) stop := by
  have hmidlo : lo l mid < hi l mid := h.lo_lt_hi (hlt.trans hstop)
  refine findBlockLoop_right hle hstop hsum hmid hlt (hmidlo.trans_le hbehind) ?_
  rw [stop_getD_of_lt (h.hi_lt (by omega))]
  exact Nat.not_lt.mpr hbehind

/-- A turn to the left is right if what follows is. -/
theorem SortedExtents.answer_left (hle : start ≤ stop) (hstop : stop < l.length)
    (hsum : start + stop < 2 ^ 31) (hmid : mid = (start + stop) / 2) (hlo : b < lo l mid)
    (hfirst : start = 0 ∨ lo l start ≤ b)
    (hrest : start < mid → lo l start ≤ b → b < hi l (mid - 1) →
      IsAnswer l b (findBlockLoop l b n start (mid - 1 : ℕ))) :
    IsAnswer l b (findBlockLoop l b (n + 1) start stop) := by
  rw [findBlockLoop_left hle hstop hsum hmid hlo]
  by_cases hbefore : b < lo l start
  · rw [if_pos hbefore]
    have hzero : start = 0 := hfirst.resolve_right (Nat.not_le.mpr hbefore)
    rw [hzero] at hbefore
    exact answer_missing
      (h.not_inside_of_gap (fun j hj => absurd hj (Nat.not_lt_zero j)) fun _ => hbefore)
  · have hpos : start < mid := by
      rcases Nat.lt_or_ge start mid with hlt | hge
      · exact hlt
      · have heq : mid = start := by omega
        rw [heq] at hlo
        exact absurd hlo hbefore
    rw [if_neg hbefore, stop_getD_of_lt (h.hi_lt (by omega))]
    split_ifs with hgap
    · refine answer_missing (h.not_inside_of_gap (fun j hj hj' => ?_) fun _ => hlo)
      exact (h.hi_le_hi (by omega) (by omega)).trans hgap
    · exact hrest hpos (Nat.le_of_not_lt hbefore) (Nat.lt_of_not_le hgap)

/-- A turn to the right is right if what follows is. -/
theorem SortedExtents.answer_right (hle : start ≤ stop) (hstop : stop < l.length)
    (hsum : start + stop < 2 ^ 31) (hmid : mid = (start + stop) / 2) (hlt : mid < stop)
    (hbehind : hi l mid ≤ b) (hhi : hi l stop < 2 ^ 32) (hlast : l.length = stop + 1 ∨ b < hi l stop)
    (hrest : lo l (mid + 1) ≤ b → b < hi l stop →
      IsAnswer l b (findBlockLoop l b n (mid + 1 : ℕ) stop)) :
    IsAnswer l b (findBlockLoop l b (n + 1) start stop) := by
  rw [h.loop_right hle hstop hsum hmid hlt hbehind, stop_getD_of_lt hhi]
  split_ifs with hgap hend
  · refine answer_missing (h.not_inside_of_gap (fun j hj hj' => ?_) fun _ => hgap)
    exact (h.hi_le_hi (by omega) (hlt.trans hstop)).trans hbehind
  · have hlen : l.length = stop + 1 := hlast.resolve_right (Nat.not_lt.mpr hend)
    refine answer_missing (h.not_inside_of_gap (i := l.length) (fun j hj hj' => ?_) fun hlt => ?_)
    · exact (h.hi_le_hi (by omega) hstop).trans hend
    · exact absurd hlt (Nat.lt_irrefl _)
  · exact hrest (Nat.le_of_not_lt hgap) (Nat.lt_of_not_le hend)

/-- The middle entry is the answer if it contains the block. -/
theorem SortedExtents.answer_hit (hle : start ≤ stop) (hstop : stop < l.length)
    (hsum : start + stop < 2 ^ 31) (hmid : mid = (start + stop) / 2) (hhi : hi l mid < 2 ^ 32)
    (hafter : lo l mid ≤ b) (hinside : b < hi l mid) :
    IsAnswer l b (findBlockLoop l b (n + 1) start stop) := by
  rw [findBlockLoop_hit hle hstop hsum hmid hafter (by rwa [stop_getD_of_lt hhi])]
  exact h.answer_found ⟨by omega, hafter, hinside⟩

/-- With both ends below `2 ^ 30` and the block between them, the loop finds the answer. -/
theorem SortedExtents.answer_loop (n start stop : ℕ) (hn : stop < start + n) (hle : start ≤ stop)
    (hstop : stop < l.length) (hsmall : stop < 2 ^ 30) (hhi : hi l stop < 2 ^ 32)
    (hfirst : lo l start ≤ b) (hlast : b < hi l stop) :
    IsAnswer l b (findBlockLoop l b n start stop) := by
  induction n generalizing start stop with
  | zero => omega
  | succ n ih =>
      obtain ⟨mid, hmid⟩ : ∃ mid, mid = (start + stop) / 2 := ⟨_, rfl⟩
      have hsum : start + stop < 2 ^ 31 := by omega
      have hmidhi : hi l mid < 2 ^ 32 := (h.hi_le_hi (by omega) hstop).trans_lt hhi
      rcases Nat.lt_or_ge b (lo l mid) with hbefore | hafter
      · refine h.answer_left hle hstop hsum hmid hbefore (Or.inr hfirst) fun hpos _ hpred => ?_
        exact ih start (mid - 1) (by omega) (by omega) (by omega) (by omega)
          ((h.hi_le_hi (Nat.sub_le mid 1) (by omega)).trans_lt hmidhi) hfirst hpred
      · rcases Nat.lt_or_ge b (hi l mid) with hinside | hbehind
        · exact h.answer_hit hle hstop hsum hmid hmidhi hafter hinside
        · have hlt : mid < stop := by
            rcases Nat.lt_or_ge mid stop with hlt | hge
            · exact hlt
            · have heq : mid = stop := by omega
              rw [heq] at hbehind
              omega
          refine h.answer_right hle hstop hsum hmid hlt hbehind hhi (Or.inr hlast) fun hnext _ => ?_
          exact ih (mid + 1) stop (by omega) (by omega) hstop hsmall hhi hnext hlast

/-- On a table of more than `2 ^ 30` extents, with the upper end still at the last one: if the block is
not before the entry where the sum overflows, the search runs into it, else it finds the answer. -/
theorem SortedExtents.spine {last : ℕ} (hlen : l.length = last + 1) (hlarge : 2 ^ 30 ≤ last)
    (hlast : last < 2 ^ 31) (hhi : hi l last < 2 ^ 32) (hb : b < hi l last) (k start n : ℕ)
    (hk : last ≤ start + k) (hn : last < start + n) (hle : start ≤ last) (hfirst : lo l start ≤ b) :
    (lo l (overflowFrom last k start) ≤ b → findBlockLoop l b n start last = .outside)
      ∧ (b < lo l (overflowFrom last k start) → IsAnswer l b (findBlockLoop l b n start last)) := by
  have hbound : start + last ≤ 2 ^ 32 - 2 := by omega
  induction k generalizing start n with
  | zero =>
      refine ⟨fun _ => ?_, fun hlt => absurd hfirst (Nat.not_le.mpr hlt)⟩
      exact findBlockLoop_overflow (by omega) hle (by omega) hbound
  | succ k ih =>
      rw [overflowFrom]
      split_ifs with hsum
      · refine ⟨fun _ => ?_, fun hlt => absurd hfirst (Nat.not_le.mpr hlt)⟩
        exact findBlockLoop_overflow (by omega) hle hsum hbound
      · obtain ⟨n, rfl⟩ : ∃ m, n = m + 1 := ⟨n - 1, by omega⟩
        obtain ⟨mid, hmid⟩ : ∃ mid, mid = (start + last) / 2 := ⟨_, rfl⟩
        have hstop : last < l.length := by omega
        have hmidlt : mid < last := by omega
        have hmidhi : hi l mid < 2 ^ 32 := h.hi_lt (by omega)
        have hnext : mid + 1 ≤ last := hmidlt
        rw [← hmid]
        -- the overflow lies behind the middle entry
        obtain ⟨hover, hover', -⟩ := overflowFrom_spec (n := k) hlarge hnext (by omega)
        have hbehindMid : hi l mid ≤ lo l (overflowFrom last k (mid + 1)) :=
          h.hi_le_lo hover (by omega)
        have hbehindNext : lo l (mid + 1) ≤ lo l (overflowFrom last k (mid + 1)) :=
          h.lo_le_lo hover (by omega)
        have hmidlo := h.lo_lt_hi (hmidlt.trans hstop)
        rcases Nat.lt_or_ge b (lo l mid) with hbefore | hafter
        · refine ⟨fun hge => by omega, fun _ => ?_⟩
          refine h.answer_left hle hstop (by omega) hmid hbefore (Or.inr hfirst) fun hpos _ hpred => ?_
          exact h.answer_loop n start (mid - 1) (by omega) (by omega) (by omega) (by omega)
            ((h.hi_le_hi (Nat.sub_le mid 1) (by omega)).trans_lt hmidhi) hfirst hpred
        · rcases Nat.lt_or_ge b (hi l mid) with hinside | hbehind
          · exact ⟨fun hge => by omega, fun _ =>
              h.answer_hit hle hstop (by omega) hmid hmidhi hafter hinside⟩
          · rcases Nat.lt_or_ge b (lo l (mid + 1)) with hgap | hfirst'
            · refine ⟨fun hge => by omega, fun _ => ?_⟩
              exact h.answer_right hle hstop (by omega) hmid hmidlt hbehind hhi (Or.inr hb)
                fun hnext' _ => absurd hnext' (Nat.not_le.mpr hgap)
            · have hturn : findBlockLoop l b (n + 1) start last = findBlockLoop l b n (mid + 1 : ℕ) last := by
                rw [h.loop_right hle hstop (by omega) hmid hmidlt hbehind, if_neg (Nat.not_lt.mpr hfirst'),
                  stop_getD_of_lt hhi, if_neg (Nat.not_le.mpr hb)]
              rw [hturn]
              exact ih (mid + 1) n (by omega) (by omega) hnext hfirst' (by omega)

end Loop

/-! ## §5 — what goes wrong -/

/-- The inputs on which `find_block` goes wrong, a table of `l.length` extents and a block. -/
inductive Misses (l : List InputExtent) (b : ℕ) : Prop
  /-- One extent and a block behind its start: in front of or behind it when the ends are narrowed, no
  entry is left, unless the extent has been found. -/
  | single (hlen : l.length = 1) (hlo : lo l 0 ≤ b) (hhi : hi l 0 ≤ b ∨ hi l 0 = 2 ^ 32)
  /-- The last extent ends with the last block number, so that its end is `0`, and the block lies to the
  right of the middle. -/
  | wrapped (hlen : 1 < l.length) (hlen' : l.length ≤ 2 ^ 31) (hlast : hi l (l.length - 1) = 2 ^ 32)
      (i : ℕ) (hmid : (l.length - 1) / 2 < i) (hin : Inside l b i)
  /-- The way to the block leads to where the sum of the ends is no `int`. -/
  | overflow (hlen : 2 ^ 30 < l.length) (hlen' : l.length ≤ 2 ^ 31)
      (hlast : hi l (l.length - 1) < 2 ^ 32) (hlo : lo l (overflowStart (l.length - 1)) ≤ b)
      (hhi : b < hi l (l.length - 1))
  /-- The last index is no `int`, so that the loop is not entered. -/
  | negative (hlen : 2 ^ 31 < l.length) (i : ℕ) (hin : Inside l b i)

section Main

variable {l : List InputExtent} {b : ℕ}

theorem findsRight_iff_of_length_zero (hlen : l.length = 0) : FindsRight l b ↔ ¬ Misses l b := by
  have hnone : ∀ i, ¬ Inside l b i := fun i hin => absurd hin.1 (by omega)
  refine iff_of_true ?_ fun hm => ?_
  · obtain rfl := List.length_eq_zero_iff.mp hlen
    exact answer_missing hnone
  · cases hm <;> omega

/-- One extent. -/
theorem findsRight_iff_of_length_one (h : SortedExtents l) (hlen : l.length = 1) :
    FindsRight l b ↔ ¬ Misses l b := by
  have hlohi : lo l 0 < hi l 0 := h.lo_lt_hi (by omega)
  have hle : hi l 0 ≤ 2 ^ 32 := h.hi_le (by omega)
  have hstart : findBlock l b = findBlockLoop l b 2 (0 : ℕ) (0 : ℕ) := by
    rw [findBlock, hlen]
    rfl
  have hmisses : Misses l b ↔ lo l 0 ≤ b ∧ (hi l 0 ≤ b ∨ hi l 0 = 2 ^ 32) := by
    constructor
    · intro hm
      cases hm with
      | single _ hlo hhi => exact ⟨hlo, hhi⟩
      | wrapped hlen' => omega
      | overflow hlen' => omega
      | negative hlen' => omega
    · exact fun hm => .single hlen hm.1 hm.2
  rw [hmisses]
  unfold FindsRight
  rw [hstart]
  have hturn := findBlockLoop_mid (l := l) (b := b) (n := 1) (le_refl 0) (by omega) (by decide)
    (rfl : 0 = (0 + 0) / 2)
  rcases Nat.lt_or_ge b (lo l 0) with hbefore | hafter
  · refine iff_of_true ?_ fun hm => absurd hm.1 (Nat.not_le.mpr hbefore)
    exact h.answer_left (le_refl 0) (by omega) (by decide) rfl hbefore (Or.inl rfl) fun hlt =>
      absurd hlt (Nat.lt_irrefl 0)
  by_cases hin : b < (l.getD 0 default).stop
  · -- found
    have hhi : hi l 0 < 2 ^ 32 := by
      refine hle.lt_of_ne fun heq => ?_
      rw [stop_getD_of_eq heq] at hin
      exact absurd hin (Nat.not_lt_zero b)
    rw [stop_getD_of_lt hhi] at hin
    refine iff_of_true (h.answer_hit (le_refl 0) (by omega) (by decide) rfl hhi hafter hin) ?_
    omega
  · -- the extent in hand is given up, and one of the ends read is no entry
    have hmiss : hi l 0 ≤ b ∨ hi l 0 = 2 ^ 32 := by
      rcases hle.eq_or_lt with heq | hlt
      · exact Or.inr heq
      · rw [stop_getD_of_lt hlt] at hin
        exact Or.inl (Nat.le_of_not_lt hin)
    have houtside : findBlockLoop l b 2 (0 : ℕ) (0 : ℕ) = .outside := by
      rw [hturn, if_neg fun hcontains => hin hcontains.2]
      rcases hafter.eq_or_lt with heq | hlt
      · have hfirst : ¬ lo l 0 < b := by omega
        have hread : readAt l ((0 : ℕ) : ℤ) = some (l.getD 0 default) := readAt_getD (by omega)
        have hnot : ¬ b < (l.getD 0 default).block := Nat.not_lt.mpr hafter
        simp only [if_neg hfirst, hread, if_neg hnot]
        rw [readAt_of_neg (by decide)]
      · have hread : readAt l (((0 : ℕ) : ℤ) + 1) = none := by
          have hcast : ((0 : ℕ) : ℤ) + 1 = ((1 : ℕ) : ℤ) := rfl
          rw [hcast, readAt_natCast, List.getElem?_eq_none (by omega)]
        simp only [if_pos hlt, hread]
    rw [houtside]
    exact iff_of_false (fun hanswer => hanswer.ne_outside rfl) fun hm => hm ⟨hafter, hmiss⟩

/-- More extents than an `int` can count. -/
theorem findsRight_iff_of_negative (h : SortedExtents l) (hlen : 2 ^ 31 < l.length) :
    FindsRight l b ↔ ¬ Misses l b := by
  have hmissing : findBlock l b = .missing := by
    have hstop : toInt ((l.length : ℤ) - 1) < 0 := by
      have hcount := h.count_lt
      unfold toInt
      omega
    rw [findBlock, findBlockLoop, if_neg (by omega)]
  unfold FindsRight
  rw [hmissing]
  constructor
  · intro hanswer hm
    cases hm with
    | single hlen' => omega
    | wrapped _ hlen' => omega
    | overflow _ hlen' => omega
    | negative _ i hin => exact hanswer.ne_missing hin rfl
  · exact fun hm => answer_missing fun i hin => hm (.negative hlen i hin)

section Many

variable {last mid : ℕ}

/-- Where all indices fit in an `int`, the loop starts with the whole table. -/
theorem findBlock_eq (hlast : l.length = last + 1) (hsmall : last < 2 ^ 31) :
    findBlock l b = findBlockLoop l b (last + 1 + 1) (0 : ℕ) last := by
  have htoInt : toInt ((l.length : ℤ) - 1) = (last : ℕ) := by
    rw [toInt_eq (by omega) (by omega)]
    omega
  rw [findBlock, htoInt, hlast]
  rfl

variable (h : SortedExtents l) (hlast : l.length = last + 1) (hpos : 0 < last) (hsmall : last < 2 ^ 31)
  (hmid : mid = (0 + last) / 2)

include h hlast hpos hsmall hmid

/-- Before the entry next to the middle one, the first turn is right whatever follows. -/
theorem SortedExtents.answer_before_next (hb : b < lo l (mid + 1)) :
    IsAnswer l b (findBlockLoop l b (last + 1 + 1) (0 : ℕ) last) := by
  have hstop : last < l.length := by omega
  have hsum : 0 + last < 2 ^ 31 := by omega
  have hmidlt : mid < last := by omega
  have hmidhi : hi l mid < 2 ^ 32 := h.hi_lt (by omega)
  rcases Nat.lt_or_ge b (lo l mid) with hbefore | hafter
  · refine h.answer_left (Nat.zero_le _) hstop hsum hmid hbefore (Or.inl rfl) fun hpos hfirst hlt => ?_
    exact h.answer_loop (last + 1) 0 (mid - 1) (by omega) (Nat.zero_le _) (by omega) (by omega)
      ((h.hi_le_hi (Nat.sub_le mid 1) (by omega)).trans_lt hmidhi) hfirst hlt
  · rcases Nat.lt_or_ge b (hi l mid) with hinside | hbehind
    · exact h.answer_hit (Nat.zero_le _) hstop hsum hmid hmidhi hafter hinside
    · rw [h.loop_right (Nat.zero_le _) hstop hsum hmid hmidlt hbehind, if_pos hb]
      refine answer_missing (h.not_inside_of_gap (fun j hj hj' => ?_) fun _ => hb)
      exact (h.hi_le_hi (by omega) (by omega)).trans hbehind

/-- Nothing goes wrong there. -/
theorem SortedExtents.not_misses (hb : b < lo l (mid + 1)) : ¬ Misses l b := by
  have hpred : l.length - 1 = last := by omega
  intro hm
  cases hm with
  | single hlen' => omega
  | wrapped _ _ _ i hi hin =>
      have hle := h.lo_le_lo (show mid + 1 ≤ i by omega) hin.1
      have hin' := hin.2.1
      omega
  | overflow hlen _ _ hlo =>
      rw [hpred, overflowStart_eq hpos hsmall, ← hmid] at hlo
      have hnext : mid + 1 ≤ last := by omega
      obtain ⟨hover, hover', -⟩ := overflowFrom_spec (n := last - 1) (by omega) hnext (by omega)
      have hle := h.lo_le_lo hover (by omega)
      omega
  | negative hlen' => omega

variable (hnext : lo l (mid + 1) ≤ b)

include hnext

/-- Behind it the first turn goes to the right, unless the block lies behind the end of the table. -/
theorem SortedExtents.first_turn :
    findBlockLoop l b (last + 1 + 1) (0 : ℕ) last
      = if (l.getD last default).stop ≤ b then .missing
        else findBlockLoop l b (last + 1) (mid + 1 : ℕ) last := by
  have hbehind : hi l mid ≤ b := (h.hi_le_lo (Nat.lt_succ_self mid) (by omega)).trans hnext
  rw [h.loop_right (Nat.zero_le _) (by omega) (by omega) hmid (by omega) hbehind,
    if_neg (Nat.not_lt.mpr hnext)]

/-- The last end is `0`: the search is given up. -/
theorem SortedExtents.answer_iff_of_wrapped (hwrap : hi l last = 2 ^ 32) :
    IsAnswer l b (findBlockLoop l b (last + 1 + 1) (0 : ℕ) last) ↔ ¬ Misses l b := by
  have hpred : l.length - 1 = last := by omega
  have hbehind : hi l mid ≤ b := (h.hi_le_lo (Nat.lt_succ_self mid) (by omega)).trans hnext
  rw [h.first_turn hlast hpos hsmall hmid hnext, stop_getD_of_eq hwrap, if_pos (Nat.zero_le b)]
  constructor
  · intro hanswer hm
    cases hm with
    | single hlen => omega
    | wrapped _ _ _ i _ hin => exact hanswer.ne_missing hin rfl
    | overflow _ _ hlt =>
        rw [hpred] at hlt
        omega
    | negative hlen => omega
  · refine fun hm => answer_missing fun i hin => hm (.wrapped (by omega) (by omega) (hpred ▸ hwrap) i ?_ hin)
    rw [hpred]
    rcases Nat.lt_or_ge mid i with hlt | hge
    · omega
    · have hle := h.hi_le_hi hge (by omega)
      have hin' := hin.2.2
      omega

omit h hmid hnext in
/-- Where the last end fits, only the sum can go wrong. -/
theorem misses_iff_of_fits (hhi : hi l last < 2 ^ 32) :
    Misses l b ↔ 2 ^ 30 ≤ last ∧ lo l (overflowStart last) ≤ b ∧ b < hi l last := by
  have hpred : l.length - 1 = last := by omega
  constructor
  · intro hm
    cases hm with
    | single hlen => omega
    | wrapped _ _ heq =>
        rw [hpred] at heq
        omega
    | overflow hlarge _ _ hlo hlt =>
        rw [hpred] at hlo hlt
        exact ⟨by omega, hlo, hlt⟩
    | negative hlen => omega
  · rintro ⟨hlarge, hlo, hlt⟩
    refine .overflow (by omega) (by omega) ?_ ?_ ?_ <;> rw [hpred]
    exacts [hhi, hlo, hlt]

theorem SortedExtents.answer_iff_of_fits (hhi : hi l last < 2 ^ 32) :
    IsAnswer l b (findBlockLoop l b (last + 1 + 1) (0 : ℕ) last) ↔ ¬ Misses l b := by
  have hstop : last < l.length := by omega
  have hsum : 0 + last < 2 ^ 31 := by omega
  have hmidlt : mid < last := by omega
  have hbehind : hi l mid ≤ b := (h.hi_le_lo (Nat.lt_succ_self mid) (by omega)).trans hnext
  rw [misses_iff_of_fits hlast hpos hsmall hhi]
  rcases Nat.lt_or_ge b (hi l last) with hlt | hend
  · rcases Nat.lt_or_ge last (2 ^ 30) with hfew | hlarge
    · refine iff_of_true ?_ fun hm => absurd hm.1 (Nat.not_le.mpr hfew)
      refine h.answer_right (Nat.zero_le _) hstop hsum hmid hmidlt hbehind hhi (Or.inr hlt) fun _ _ => ?_
      exact h.answer_loop (last + 1) (mid + 1) last (by omega) (by omega) hstop hfew hhi hnext hlt
    · have hspine := h.spine hlast hlarge hsmall hhi hlt (last - 1) (mid + 1) (last + 1)
        (by omega) (by omega) (by omega) hnext
      rw [hmid, ← overflowStart_eq hpos hsmall, ← hmid] at hspine
      rw [h.first_turn hlast hpos hsmall hmid hnext, stop_getD_of_lt hhi, if_neg (Nat.not_le.mpr hlt)]
      rcases Nat.lt_or_ge b (lo l (overflowStart last)) with hsafe | hover
      · exact iff_of_true (hspine.2 hsafe) fun hm => absurd hm.2.1 (Nat.not_le.mpr hsafe)
      · rw [hspine.1 hover]
        exact iff_of_false (fun hanswer => hanswer.ne_outside rfl) fun hm => hm ⟨hlarge, hover, hlt⟩
  · refine iff_of_true ?_ fun hm => absurd hm.2.2 (Nat.not_lt.mpr hend)
    exact h.answer_right (Nat.zero_le _) hstop hsum hmid hmidlt hbehind hhi (Or.inl hlast)
      fun _ hlt => absurd hlt (Nat.not_lt.mpr hend)

end Many

/-- Two extents or more, and all indices fit in an `int`. -/
theorem findsRight_iff_of_many (h : SortedExtents l) (hlen : 1 < l.length) (hlen' : l.length ≤ 2 ^ 31) :
    FindsRight l b ↔ ¬ Misses l b := by
  obtain ⟨last, hlast⟩ : ∃ last, l.length = last + 1 := ⟨l.length - 1, by omega⟩
  obtain ⟨mid, hmid⟩ : ∃ mid, mid = (0 + last) / 2 := ⟨_, rfl⟩
  have hpos : 0 < last := by omega
  have hsmall : last < 2 ^ 31 := by omega
  unfold FindsRight
  rw [findBlock_eq hlast hsmall]
  rcases Nat.lt_or_ge b (lo l (mid + 1)) with hb | hnext
  · exact iff_of_true (h.answer_before_next hlast hpos hsmall hmid hb)
      (h.not_misses hlast hpos hsmall hmid hb)
  · rcases (h.hi_le (i := last) (by omega)).eq_or_lt with hwrap | hhi
    · exact h.answer_iff_of_wrapped hlast hpos hsmall hmid hnext hwrap
    · exact h.answer_iff_of_fits hlast hpos hsmall hmid hnext hhi

/-- **`find_block` is right except where `Misses` says.** For a sorted table of disjoint extents and any
block number it ends, reads entries of the table only and returns the extent that contains the block, or
`NULL` if there is none, if and only if the input is not one of those. -/
theorem findBlock_right_iff (h : SortedExtents l) : FindsRight l b ↔ ¬ Misses l b := by
  rcases Nat.lt_or_ge 1 l.length with hmany | hfew
  · rcases Nat.lt_or_ge (2 ^ 31) l.length with hnegative | hint
    · exact findsRight_iff_of_negative h hnegative
    · exact findsRight_iff_of_many h hmany hint
  · rcases Nat.le_one_iff_eq_zero_or_eq_one.mp hfew with hzero | hone
    · exact findsRight_iff_of_length_zero hzero
    · exact findsRight_iff_of_length_one h hone

end Main

/-- One extent, the blocks from `10` to `14`, and block `20`: `iextents[1]` is read. -/
theorem findBlock_single_behind : ¬ FindsRight [⟨10, 5⟩] 20 := by
  have houtside : findBlock [⟨10, 5⟩] 20 = .outside := by decide
  unfold FindsRight
  rw [houtside]
  exact fun hanswer => hanswer.ne_outside rfl

/-- Two extents, and a block of the second. -/
theorem findBlock_right_of_two : FindsRight [⟨10, 5⟩, ⟨20, 5⟩] 22 := by
  have hsorted : SortedExtents [⟨10, 5⟩, ⟨20, 5⟩] := ⟨by decide, by decide, by decide, by decide⟩
  refine (findBlock_right_iff hsorted).mpr fun hm => ?_
  cases hm with
  | single hlen => exact absurd hlen (by decide)
  | wrapped _ _ hlast => exact absurd hlast (by decide)
  | overflow hlen => exact absurd hlen (by decide)
  | negative hlen => exact absurd hlen (by decide)

end Prefetch.Remap

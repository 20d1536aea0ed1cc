/-
# Prefetch.MoveBlocks.Estimate — the estimate of a range against the tree of a file

Which indirect blocks lead to a block of a file without holes, and how many different ones a range of
its blocks needs. `estimate_blocks_for_range` is compared with that number. It is right inside each of
the four regions of the tree and across the first two borders. Across the border between the double-
and the triple-indirect region it divides block numbers that count from the start of the file, not of
the region, and comes out one single-indirect block too large wherever the twelve direct blocks do not
carry over.
-/
import Prefetch.Lib.Quotients
import Prefetch.MoveBlocks.FileVisits
import Prefetch.MoveBlocks.Room

namespace Prefetch.MoveBlocks

open Quotients

/-! ## §1 — the indirect blocks of a file -/

/-- The indirect blocks of a file, named by their way from the inode: the slots `EXT2_IND_BLOCK`,
`EXT2_DIND_BLOCK` and `EXT2_TIND_BLOCK` of `i_block`, then the indices taken. -/
inductive IndirectBlock where
  | ind
  | dind
  | dindInd (index : ℕ)
  | tind
  | tindDind (index : ℕ)
  | tindDindInd (index indexInDind : ℕ)
  deriving DecidableEq, Repr

/-- The slot of `i_block` the block hangs off: single, double or triple. -/
def IndirectBlock.level : IndirectBlock → ℕ
  | ind => 1
  | dind => 2
  | dindInd _ => 2
  | tind => 3
  | tindDind _ => 3
  | tindDindInd _ _ => 3

variable (g : Geometry)

/-- The indirect blocks on the path to a block of a file. -/
def pathIndirects (blockInInode : ℕ) : List IndirectBlock :=
  let a := g.addrPerBlock
  let inDind := blockInInode - (12 + a)
  let inTind := blockInInode - (12 + a + a * a)
  if blockInInode < 12 then []
  else if blockInInode < 12 + a then [.ind]
  else if blockInInode < 12 + a + a * a then [.dind, .dindInd (inDind / a)]
  else [.tind, .tindDind (inTind / a / a), .tindDindInd (inTind / a / a) (inTind / a % a)]

/-- The different indirect blocks on the paths to the blocks from `first` to `last`. -/
def rangeIndirects (first last : ℕ) : Finset IndirectBlock :=
  (Finset.Icc first last).biUnion fun b => (pathIndirects g b).toFinset

variable {g} {first last : ℕ}

theorem mem_rangeIndirects {x : IndirectBlock} :
    x ∈ rangeIndirects g first last ↔ ∃ b, (first ≤ b ∧ b ≤ last) ∧ x ∈ pathIndirects g b := by
  simp only [rangeIndirects, Finset.mem_biUnion, Finset.mem_Icc, List.mem_toFinset]

/-! ### the paths, region by region -/

theorem pathIndirects_direct {b : ℕ} (h : b < 12) : pathIndirects g b = [] := if_pos h

theorem pathIndirects_ind {b : ℕ} (h : 12 ≤ b) (h' : b < 12 + g.addrPerBlock) :
    pathIndirects g b = [.ind] := by
  unfold pathIndirects
  rw [if_neg (by omega), if_pos h']

theorem pathIndirects_dind {b : ℕ} (h : 12 + g.addrPerBlock ≤ b)
    (h' : b < 12 + g.addrPerBlock + g.addrPerBlock * g.addrPerBlock) :
    pathIndirects g b = [.dind, .dindInd ((b - (12 + g.addrPerBlock)) / g.addrPerBlock)] := by
  unfold pathIndirects
  rw [if_neg (by omega), if_neg (by omega), if_pos h']

theorem pathIndirects_tind {b : ℕ}
    (h : 12 + g.addrPerBlock + g.addrPerBlock * g.addrPerBlock ≤ b) :
    pathIndirects g b
      = let q := (b - (12 + g.addrPerBlock + g.addrPerBlock * g.addrPerBlock)) / g.addrPerBlock
        [.tind, .tindDind (q / g.addrPerBlock), .tindDindInd (q / g.addrPerBlock) (q % g.addrPerBlock)] := by
  unfold pathIndirects
  exact (if_neg (by omega)).trans ((if_neg (by omega)).trans (if_neg (by omega)))

/-- Which slot the path to a block starts at. -/
theorem level_of_mem_path {x : IndirectBlock} {b : ℕ} (h : x ∈ pathIndirects g b) :
    (x.level = 1 ∧ 12 ≤ b ∧ b < 12 + g.addrPerBlock)
      ∨ (x.level = 2 ∧ 12 + g.addrPerBlock ≤ b
          ∧ b < 12 + g.addrPerBlock + g.addrPerBlock * g.addrPerBlock)
      ∨ (x.level = 3 ∧ 12 + g.addrPerBlock + g.addrPerBlock * g.addrPerBlock ≤ b) := by
  rcases Nat.lt_or_ge b 12 with h0 | h0
  · rw [pathIndirects_direct h0] at h
    cases h
  rcases Nat.lt_or_ge b (12 + g.addrPerBlock) with h1 | h1
  · rw [pathIndirects_ind h0 h1, List.mem_singleton] at h
    subst h
    exact Or.inl ⟨rfl, h0, h1⟩
  rcases Nat.lt_or_ge b (12 + g.addrPerBlock + g.addrPerBlock * g.addrPerBlock) with h2 | h2
  · rw [pathIndirects_dind h1 h2] at h
    simp only [List.mem_cons, List.not_mem_nil, or_false] at h
    refine Or.inr (Or.inl ⟨?_, h1, h2⟩)
    rcases h with rfl | rfl <;> rfl
  · rw [pathIndirects_tind h2] at h
    simp only [List.mem_cons, List.not_mem_nil, or_false] at h
    refine Or.inr (Or.inr ⟨?_, h2⟩)
    rcases h with rfl | rfl | rfl <;> rfl

/-! ### their number -/

/-- Across the border of a region nothing is shared. -/
theorem card_rangeIndirects_split (mid : ℕ) (hmid : first ≤ mid + 1) (hlast : mid ≤ last)
    (hborder : mid = 11 ∨ mid = 12 + g.addrPerBlock - 1
      ∨ mid = 12 + g.addrPerBlock + g.addrPerBlock * g.addrPerBlock - 1) :
    (rangeIndirects g first last).card
      = (rangeIndirects g first mid).card + (rangeIndirects g (mid + 1) last).card := by
  have hunion : rangeIndirects g first last
      = rangeIndirects g first mid ∪ rangeIndirects g (mid + 1) last := by
    ext x
    simp only [Finset.mem_union, mem_rangeIndirects]
    constructor
    · rintro ⟨b, hb, hx⟩
      rcases Nat.lt_or_ge mid b with hlt | hge
      · exact Or.inr ⟨b, by omega, hx⟩
      · exact Or.inl ⟨b, by omega, hx⟩
    · rintro (⟨b, hb, hx⟩ | ⟨b, hb, hx⟩)
      · exact ⟨b, by omega, hx⟩
      · exact ⟨b, by omega, hx⟩
  have hdisjoint : Disjoint (rangeIndirects g first mid) (rangeIndirects g (mid + 1) last) := by
    rw [Finset.disjoint_left]
    intro x hx hx'
    rcases mem_rangeIndirects.mp hx with ⟨b, hb, hx⟩
    rcases mem_rangeIndirects.mp hx' with ⟨b', hb', hx'⟩
    have hlevel := level_of_mem_path hx
    have hlevel' := level_of_mem_path hx'
    omega
  rw [hunion, Finset.card_union_of_disjoint hdisjoint]

/-- Direct region: no indirect block. -/
theorem card_rangeIndirects_direct (hlast : last < 12) : (rangeIndirects g first last).card = 0 := by
  rw [Finset.card_eq_zero]
  refine Finset.eq_empty_of_forall_notMem fun x hx => ?_
  rcases mem_rangeIndirects.mp hx with ⟨b, hb, hx⟩
  rw [pathIndirects_direct (by omega)] at hx
  cases hx

/-- Single-indirect region: its one indirect block. -/
theorem card_rangeIndirects_ind (hfirst : 12 ≤ first) (hle : first ≤ last)
    (hlast : last < 12 + g.addrPerBlock) : (rangeIndirects g first last).card = 1 := by
  rw [Finset.card_eq_one]
  refine ⟨.ind, Finset.eq_singleton_iff_unique_mem.mpr ⟨?_, fun x hx => ?_⟩⟩
  · refine mem_rangeIndirects.mpr ⟨first, ⟨le_rfl, hle⟩, ?_⟩
    rw [pathIndirects_ind hfirst (by omega)]
    exact List.mem_singleton_self _
  · rcases mem_rangeIndirects.mp hx with ⟨b, hb, hx⟩
    rw [pathIndirects_ind (by omega) (by omega)] at hx
    exact List.mem_singleton.mp hx

/-- Double-indirect region: the double-indirect block, and a single-indirect block for each quotient. -/
theorem card_rangeIndirects_dind (hfirst : 12 + g.addrPerBlock ≤ first) (hle : first ≤ last)
    (hlast : last < 12 + g.addrPerBlock + g.addrPerBlock * g.addrPerBlock) :
    (rangeIndirects g first last).card
      = ((last - (12 + g.addrPerBlock)) / g.addrPerBlock + 1
          - (first - (12 + g.addrPerBlock)) / g.addrPerBlock) + 1 := by
  let index : ℕ → ℕ := fun b => (b - (12 + g.addrPerBlock)) / g.addrPerBlock
  have heq : rangeIndirects g first last
      = insert IndirectBlock.dind (((Finset.Icc first last).image index).image IndirectBlock.dindInd) := by
    ext x
    simp only [mem_rangeIndirects, Finset.mem_insert, Finset.mem_image, Finset.mem_Icc]
    constructor
    · rintro ⟨b, hb, hx⟩
      rw [pathIndirects_dind (by omega) (by omega)] at hx
      simp only [List.mem_cons, List.not_mem_nil, or_false] at hx
      rcases hx with rfl | rfl
      · exact Or.inl rfl
      · exact Or.inr ⟨_, ⟨b, hb, rfl⟩, rfl⟩
    · rintro (rfl | ⟨_, ⟨b, hb, rfl⟩, rfl⟩)
      · refine ⟨first, ⟨le_rfl, hle⟩, ?_⟩
        rw [pathIndirects_dind (by omega) (by omega)]
        exact List.mem_cons_self
      · refine ⟨b, hb, ?_⟩
        rw [pathIndirects_dind (by omega) (by omega)]
        exact List.mem_cons_of_mem _ (List.mem_singleton_self _)
  have hinj : Function.Injective IndirectBlock.dindInd := fun i j h => by injection h
  have hnotMem : IndirectBlock.dind ∉
      ((Finset.Icc first last).image index).image IndirectBlock.dindInd := by
    simp
  rw [heq, Finset.card_insert_of_notMem hnotMem, Finset.card_image_of_injective _ hinj,
    card_image_sub_div_Icc g.addrPerBlock_pos hfirst hle]

/-- Triple-indirect region: the triple-indirect block, and one block on each of the two levels below it
for each quotient there. -/
theorem card_rangeIndirects_tind
    (hfirst : 12 + g.addrPerBlock + g.addrPerBlock * g.addrPerBlock ≤ first) (hle : first ≤ last) :
    (rangeIndirects g first last).card
      = ((last - (12 + g.addrPerBlock + g.addrPerBlock * g.addrPerBlock)) / g.addrPerBlock + 1
          - (first - (12 + g.addrPerBlock + g.addrPerBlock * g.addrPerBlock)) / g.addrPerBlock)
        + ((last - (12 + g.addrPerBlock + g.addrPerBlock * g.addrPerBlock))
              / (g.addrPerBlock * g.addrPerBlock) + 1
          - (first - (12 + g.addrPerBlock + g.addrPerBlock * g.addrPerBlock))
              / (g.addrPerBlock * g.addrPerBlock))
        + 1 := by
  let a := g.addrPerBlock
  let base := 12 + a + a * a
  let dinds := (Finset.Icc first last).image fun b => (b - base) / (a * a)
  let inds := (Finset.Icc first last).image fun b => (b - base) / a
  let indOf : ℕ → IndirectBlock := fun q => .tindDindInd (q / a) (q % a)
  have heq : rangeIndirects g first last
      = insert IndirectBlock.tind (inds.image indOf ∪ dinds.image IndirectBlock.tindDind) := by
    ext x
    simp only [mem_rangeIndirects, Finset.mem_insert, Finset.mem_union, inds, dinds, indOf,
      Finset.mem_image, Finset.mem_Icc]
    constructor
    · rintro ⟨b, hb, hx⟩
      rw [pathIndirects_tind (by omega)] at hx
      simp only [List.mem_cons, List.not_mem_nil, or_false] at hx
      rcases hx with rfl | rfl | rfl
      · exact Or.inl rfl
      · exact Or.inr (Or.inr ⟨_, ⟨b, hb, rfl⟩, by rw [← Nat.div_div_eq_div_mul]⟩)
      · exact Or.inr (Or.inl ⟨_, ⟨b, hb, rfl⟩, rfl⟩)
    · rintro (rfl | ⟨_, ⟨b, hb, rfl⟩, rfl⟩ | ⟨_, ⟨b, hb, rfl⟩, rfl⟩)
      · refine ⟨first, ⟨le_rfl, hle⟩, ?_⟩
        rw [pathIndirects_tind hfirst]
        exact List.mem_cons_self
      · refine ⟨b, hb, ?_⟩
        rw [pathIndirects_tind (by omega)]
        exact List.mem_cons_of_mem _ (List.mem_cons_of_mem _ (List.mem_singleton_self _))
      · refine ⟨b, hb, ?_⟩
        rw [pathIndirects_tind (by omega), ← Nat.div_div_eq_div_mul]
        exact List.mem_cons_of_mem _ List.mem_cons_self
  have hindOf : Function.Injective indOf := fun i j h => by
    injection h with hdiv hmod
    rw [← Nat.div_add_mod i a, hdiv, hmod, Nat.div_add_mod]
  have htindDind : Function.Injective IndirectBlock.tindDind := fun i j h => by injection h
  have hnotMem : IndirectBlock.tind ∉ inds.image indOf ∪ dinds.image IndirectBlock.tindDind := by
    simp [indOf]
  have hdisjoint : Disjoint (inds.image indOf) (dinds.image IndirectBlock.tindDind) := by
    rw [Finset.disjoint_left]
    intro x hx hx'
    rcases Finset.mem_image.mp hx with ⟨q, -, rfl⟩
    rcases Finset.mem_image.mp hx' with ⟨q', -, h⟩
    cases h
  rw [heq, Finset.card_insert_of_notMem hnotMem, Finset.card_union_of_disjoint hdisjoint,
    Finset.card_image_of_injective _ hindOf, Finset.card_image_of_injective _ htindDind,
    card_image_sub_div_Icc g.addrPerBlock_pos hfirst hle,
    card_image_sub_div_Icc (Nat.mul_pos g.addrPerBlock_pos g.addrPerBlock_pos) hfirst hle]

/-! ## §2 — the estimate, stage by stage -/

/-- By how much the estimate of the blocks from `first` to `last` is too large: by one where the range
crosses from the double- into the triple-indirect region and starts, in it or before it, at a block
whose number in the region leaves a remainder that twelve does not carry over. -/
def overcount (g : Geometry) (first last : ℕ) : ℕ :=
  if first < 12 + g.addrPerBlock + g.addrPerBlock * g.addrPerBlock
      ∧ 12 + g.addrPerBlock + g.addrPerBlock * g.addrPerBlock ≤ last
      ∧ (max first (12 + g.addrPerBlock) - (12 + g.addrPerBlock)) % g.addrPerBlock + 12
          < g.addrPerBlock
  then 1 else 0

theorem overcount_eq_zero (h : 12 + g.addrPerBlock + g.addrPerBlock * g.addrPerBlock ≤ first
    ∨ last < 12 + g.addrPerBlock + g.addrPerBlock * g.addrPerBlock) : overcount g first last = 0 :=
  if_neg fun hcross => by omega

/-- Blocks in front of the double-indirect region do not matter. -/
theorem overcount_start {first' : ℕ} (h : first ≤ 12 + g.addrPerBlock)
    (h' : first' ≤ 12 + g.addrPerBlock) : overcount g first last = overcount g first' last := by
  have hpos := Nat.mul_pos g.addrPerBlock_pos g.addrPerBlock_pos
  have hlt : first < 12 + g.addrPerBlock + g.addrPerBlock * g.addrPerBlock
      ↔ first' < 12 + g.addrPerBlock + g.addrPerBlock * g.addrPerBlock := by omega
  unfold overcount
  rw [max_eq_right h, max_eq_right h']
  simp only [hlt]

theorem estimateFrom3Indirect_eq
    (hfirst : 12 + g.addrPerBlock + g.addrPerBlock * g.addrPerBlock ≤ first) (hle : first ≤ last)
    (hlast : last < 2 ^ 32) :
    estimateFrom3Indirect g first last
      = some (last + 1 - first + (rangeIndirects g first last).card) := by
  have h1 : is3IndirectBlock g first = true := is3IndirectBlock_iff.mpr hfirst
  have h2 : is3IndirectBlock g last = true := is3IndirectBlock_iff.mpr (hfirst.trans hle)
  have hspan : ∀ d, blkSpan ((first - (12 + g.addrPerBlock + g.addrPerBlock * g.addrPerBlock)) / d)
        ((last - (12 + g.addrPerBlock + g.addrPerBlock * g.addrPerBlock)) / d)
      = (last - (12 + g.addrPerBlock + g.addrPerBlock * g.addrPerBlock)) / d + 1
        - (first - (12 + g.addrPerBlock + g.addrPerBlock * g.addrPerBlock)) / d := fun d => by
    refine blkSpan_eq (Nat.div_le_div_right (by omega)) ((Nat.sub_le _ _).trans_lt ?_)
    have hdiv := Nat.div_le_self (last - (12 + g.addrPerBlock + g.addrPerBlock * g.addrPerBlock)) d
    omega
  unfold estimateFrom3Indirect
  rw [if_pos h1, if_pos h2]
  unfold ext2NdirBlocks
  rw [hspan, hspan, blkSpan_eq hle (by omega), card_rangeIndirects_tind hfirst hle]
  simp only [Nat.add_assoc]

/-- The single-indirect blocks of a range that leaves the double-indirect region, counted from the start
of the file: one too many, unless the twelve direct blocks carry over. -/
theorem crossing_span {a first : ℕ} (ha : 12 ≤ a) (hfirst : 12 + a ≤ first)
    (hlt : first < 12 + a + a * a) :
    (12 + a + a * a - 1) / a + 1 - first / a
      = (12 + a + a * a - 1 - (12 + a)) / a + 1 - (first - (12 + a)) / a
        + (if (first - (12 + a)) % a + 12 < a then 1 else 0) := by
  have hpos : 0 < a := by omega
  obtain ⟨y, rfl⟩ := Nat.exists_eq_add_of_le hfirst
  have hy : y < a * a := by omega
  -- the last block of the region, from both starts
  have hlast : (12 + a + a * a - 1) / a = a + 1 := by
    have hsum : 12 + a + a * a - 1 = 11 + a * (a + 1) := by
      rw [Nat.mul_add, Nat.mul_one]
      omega
    rw [hsum, Nat.add_mul_div_left _ _ hpos, Nat.div_eq_of_lt (by omega), Nat.zero_add]
  have hregion : (12 + a + a * a - 1 - (12 + a)) / a + 1 = a := by
    have hsum : 12 + a + a * a - 1 - (12 + a) = a - 1 + a * (a - 1) := by
      have hsq : a * a = a * (a - 1) + a := by
        rw [← Nat.mul_succ, Nat.succ_eq_add_one, Nat.sub_add_cancel (by omega)]
      omega
    rw [hsum, Nat.add_mul_div_left _ _ hpos, Nat.div_eq_of_lt (by omega)]
    omega
  -- the first block
  have hquot : y / a < a := Nat.div_lt_of_lt_mul hy
  have hstart : (12 + a + y) / a = y / a + 1 + (if y % a + 12 < a then 0 else 1) := by
    have hsum : 12 + a + y = (y % a + 12) + a * (y / a + 1) := by
      have hdiv := Nat.div_add_mod y a
      rw [Nat.mul_add, Nat.mul_one]
      omega
    rw [hsum, Nat.add_mul_div_left _ _ hpos]
    have hmod := Nat.mod_lt y hpos
    split_ifs with hcarry
    · rw [Nat.div_eq_of_lt hcarry]
      omega
    · have hone : (y % a + 12) / a = 1 := Nat.div_eq_of_lt_le (by omega) (by omega)
      omega
  rw [hlast, hregion, hstart, Nat.add_sub_cancel_left]
  split_ifs <;> omega

/-- The range ends in the double-indirect region. -/
theorem estimateFrom2Indirect_within (hfirst : 12 + g.addrPerBlock ≤ first) (hle : first ≤ last)
    (hlast : last < 12 + g.addrPerBlock + g.addrPerBlock * g.addrPerBlock) :
    estimateFrom2Indirect g first last = some (last + 1 - first + (rangeIndirects g first last).card) := by
  have htree := g.tree_lt
  have h1 : is2IndirectBlock g first = true := is2IndirectBlock_iff.mpr ⟨hfirst, by omega⟩
  have h2 : is2IndirectBlock g last = true := is2IndirectBlock_iff.mpr ⟨by omega, hlast⟩
  have h3 : ¬ is3IndirectBlock g first = true := fun h3 => by
    rw [is3IndirectBlock_iff] at h3
    omega
  have hdiv := Nat.div_le_self (last - (12 + g.addrPerBlock)) g.addrPerBlock
  have hspan := blkSpan_eq
    (Nat.div_le_div_right (c := g.addrPerBlock) (Nat.sub_le_sub_right hle (12 + g.addrPerBlock)))
    ((Nat.sub_le _ _).trans_lt (Nat.add_lt_of_lt_sub (hdiv.trans_lt (by omega))))
  unfold estimateFrom2Indirect
  rw [if_pos h1, if_pos h2, estimateFrom3Indirect, if_neg h3]
  unfold ext2NdirBlocks
  rw [hspan, blkSpan_eq hle (by omega), card_rangeIndirects_dind hfirst hle hlast, Option.map_some]
  refine congrArg some ?_
  omega

/-- It goes on into the triple-indirect region. -/
theorem estimateFrom2Indirect_crossing (ha : 12 ≤ g.addrPerBlock) (hfirst : 12 + g.addrPerBlock ≤ first)
    (hfirst' : first < 12 + g.addrPerBlock + g.addrPerBlock * g.addrPerBlock)
    (hlast : 12 + g.addrPerBlock + g.addrPerBlock * g.addrPerBlock ≤ last) (hlast' : last < 2 ^ 32) :
    estimateFrom2Indirect g first last
      = some (last + 1 - first + (rangeIndirects g first last).card
          + if (first - (12 + g.addrPerBlock)) % g.addrPerBlock + 12 < g.addrPerBlock then 1 else 0) := by
  have hpos := g.addrPerBlock_pos
  have htree := g.tree_lt
  have h1 : is2IndirectBlock g first = true := is2IndirectBlock_iff.mpr ⟨hfirst, hfirst'⟩
  have h2 : ¬ is2IndirectBlock g last = true := fun h2 => by
    rw [is2IndirectBlock_iff] at h2
    omega
  have hnext : 12 + g.addrPerBlock + g.addrPerBlock * g.addrPerBlock - 1 + 1
      = 12 + g.addrPerBlock + g.addrPerBlock * g.addrPerBlock := by omega
  have hspan : blkSpan (first / g.addrPerBlock)
        ((12 + g.addrPerBlock + g.addrPerBlock * g.addrPerBlock - 1) / g.addrPerBlock)
      = (12 + g.addrPerBlock + g.addrPerBlock * g.addrPerBlock - 1) / g.addrPerBlock + 1
        - first / g.addrPerBlock := by
    refine blkSpan_eq (Nat.div_le_div_right (by omega)) ?_
    have hdiv := Nat.div_le_self (12 + g.addrPerBlock + g.addrPerBlock * g.addrPerBlock - 1)
      g.addrPerBlock
    have hone : 1 ≤ first / g.addrPerBlock := (Nat.one_le_div_iff hpos).mpr (by omega)
    generalize (12 + g.addrPerBlock + g.addrPerBlock * g.addrPerBlock - 1) / g.addrPerBlock = q at *
    omega
  have hcard : (rangeIndirects g first last).card = _ :=
    card_rangeIndirects_split (12 + g.addrPerBlock + g.addrPerBlock * g.addrPerBlock - 1) (by omega)
      (by omega) (Or.inr (Or.inr rfl))
  have hdind : (rangeIndirects g first
      (12 + g.addrPerBlock + g.addrPerBlock * g.addrPerBlock - 1)).card = _ :=
    card_rangeIndirects_dind hfirst (by omega) (by omega)
  unfold estimateFrom2Indirect
  rw [if_pos h1, if_neg h2]
  unfold ext2NdirBlocks
  rw [hspan, blkSpan_eq (by omega) (by omega), hnext, estimateFrom3Indirect_eq le_rfl hlast hlast',
    Option.map_some, hcard, hnext, crossing_span ha hfirst hfirst', hdind]
  refine congrArg some ?_
  omega

theorem estimateFrom2Indirect_eq (ha : 12 ≤ g.addrPerBlock) (hfirst : 12 + g.addrPerBlock ≤ first)
    (hle : first ≤ last) (hlast : last < 2 ^ 32) :
    estimateFrom2Indirect g first last
      = some (last + 1 - first + (rangeIndirects g first last).card + overcount g first last) := by
  rcases Nat.lt_or_ge last (12 + g.addrPerBlock + g.addrPerBlock * g.addrPerBlock) with hlast' | hlast'
  · rw [estimateFrom2Indirect_within hfirst hle hlast', overcount_eq_zero (Or.inr hlast')]
    rfl
  · rcases Nat.lt_or_ge first (12 + g.addrPerBlock + g.addrPerBlock * g.addrPerBlock) with hfirst' | hfirst'
    · have hover : overcount g first last
          = if (first - (12 + g.addrPerBlock)) % g.addrPerBlock + 12 < g.addrPerBlock then 1 else 0 := by
        unfold overcount
        simp only [max_eq_left hfirst, hfirst', hlast', true_and]
      rw [estimateFrom2Indirect_crossing ha hfirst hfirst' hlast' hlast, hover]
    · -- past the region
      have h1 : ¬ is2IndirectBlock g first = true := fun h1 => by
        rw [is2IndirectBlock_iff] at h1
        omega
      rw [estimateFrom2Indirect, if_neg h1, estimateFrom3Indirect_eq hfirst' hle hlast,
        overcount_eq_zero (Or.inl hfirst')]
      rfl

theorem estimateFrom1Indirect_eq (ha : 12 ≤ g.addrPerBlock) (hfirst : 12 ≤ first) (hle : first ≤ last)
    (hlast : last < 2 ^ 32) :
    estimateFrom1Indirect g first last
      = some (last + 1 - first + (rangeIndirects g first last).card + overcount g first last) := by
  unfold estimateFrom1Indirect
  by_cases h1 : is1IndirectBlock g first = true
  · have hfirst' := (is1IndirectBlock_iff.mp h1).2
    rw [if_pos h1]
    by_cases h2 : is1IndirectBlock g last = true
    · have hlast' := (is1IndirectBlock_iff.mp h2).2
      have h3 : ¬ is2IndirectBlock g first = true := fun h3 => by
        rw [is2IndirectBlock_iff] at h3
        omega
      have h4 : ¬ is3IndirectBlock g first = true := fun h4 => by
        rw [is3IndirectBlock_iff] at h4
        omega
      rw [if_pos h2, estimateFrom2Indirect, if_neg h3, estimateFrom3Indirect, if_neg h4, Option.map_some,
        blkSpan_eq hle (by omega), card_rangeIndirects_ind hfirst hle hlast',
        overcount_eq_zero (Or.inr (by omega)), Nat.add_zero, Nat.add_zero]
    · have hlast' : 12 + g.addrPerBlock ≤ last := by
        rw [is1IndirectBlock_iff] at h2
        omega
      have hnext : 12 + g.addrPerBlock - 1 + 1 = 12 + g.addrPerBlock := by omega
      have hcard : (rangeIndirects g first last).card = _ :=
        card_rangeIndirects_split (12 + g.addrPerBlock - 1) (by omega) (by omega) (Or.inr (Or.inl rfl))
      have hind : (rangeIndirects g first (12 + g.addrPerBlock - 1)).card = _ :=
        card_rangeIndirects_ind hfirst (by omega) (by omega)
      rw [if_neg h2]
      unfold ext2NdirBlocks
      rw [blkSpan_eq (by omega) (by omega), hnext, estimateFrom2Indirect_eq ha le_rfl hlast' hlast,
        Option.map_some, hcard, hnext, hind, overcount_start hfirst'.le le_rfl]
      refine congrArg some ?_
      omega
  · have hfirst' : 12 + g.addrPerBlock ≤ first := by
      rw [is1IndirectBlock_iff] at h1
      omega
    rw [if_neg h1, estimateFrom2Indirect_eq ha hfirst' hle hlast]

/-- **What the estimate is.** The blocks of the range, the indirect blocks that lead to them, and the
excess at the last border. -/
theorem estimateBlocksForRange_eq {start count : ℕ} (ha : 12 ≤ g.addrPerBlock) (hcount : 0 < count)
    (hwrap : start + count < 2 ^ 32) :
    estimateBlocksForRange g start count
      = some (count + (rangeIndirects g start (start + count - 1)).card
          + overcount g start (start + count - 1)) := by
  have hend : (start + count + (2 ^ 32 - 1)) % 2 ^ 32 = start + count - 1 := by omega
  have hcount' : start + count - 1 + 1 - start = count := by omega
  unfold estimateBlocksForRange
  rw [hend, if_neg hcount.ne']
  generalize hlast : start + count - 1 = last at hcount' ⊢
  by_cases h0 : isDirectBlock start = true
  · have hstart : start < 12 := of_decide_eq_true h0
    rw [if_pos h0]
    by_cases h1 : isDirectBlock last = true
    · have hlast' : last < 12 := of_decide_eq_true h1
      have h2 : ¬ is1IndirectBlock g start = true := fun h2 => by
        rw [is1IndirectBlock_iff] at h2
        omega
      have h3 : ¬ is2IndirectBlock g start = true := fun h3 => by
        rw [is2IndirectBlock_iff] at h3
        omega
      have h4 : ¬ is3IndirectBlock g start = true := fun h4 => by
        rw [is3IndirectBlock_iff] at h4
        omega
      rw [if_pos h1, estimateFrom1Indirect, if_neg h2, estimateFrom2Indirect, if_neg h3,
        estimateFrom3Indirect, if_neg h4, Option.map_some, blkSpan_eq (by omega) (by omega), hcount',
        card_rangeIndirects_direct hlast', overcount_eq_zero (Or.inr (by omega))]
    · have hlast' : 12 ≤ last := Nat.le_of_not_lt fun hlt => h1 (decide_eq_true hlt)
      have hcard : (rangeIndirects g start last).card
          = (rangeIndirects g start 11).card + (rangeIndirects g 12 last).card :=
        card_rangeIndirects_split 11 (by omega) (by omega) (Or.inl rfl)
      have hdirect : (rangeIndirects g start 11).card = 0 := card_rangeIndirects_direct (by omega)
      have hover : overcount g 12 last = overcount g start last :=
        overcount_start (by omega) (by omega)
      rw [if_neg h1]
      unfold ext2NdirBlocks
      rw [blkSpan_eq (by omega) (by omega), estimateFrom1Indirect_eq ha le_rfl hlast' (by omega),
        Option.map_some, hcard, hdirect, hover]
      refine congrArg some ?_
      omega
  · have hstart : 12 ≤ start := Nat.le_of_not_lt fun hlt => h0 (decide_eq_true hlt)
    rw [if_neg h0, estimateFrom1Indirect_eq ha hstart (by omega) (by omega), hcount']

/-! ## §3 — where it is exact -/

/-- The different indirect blocks on the paths to the `count` blocks from `start`. -/
def neededIndirects (g : Geometry) (start count : ℕ) : Finset IndirectBlock :=
  (Finset.range count).biUnion fun i => (pathIndirects g (start + i)).toFinset

theorem neededIndirects_eq {start count : ℕ} (hcount : 0 < count) :
    neededIndirects g start count = rangeIndirects g start (start + count - 1) := by
  ext x
  simp only [neededIndirects, Finset.mem_biUnion, Finset.mem_range, List.mem_toFinset, mem_rangeIndirects]
  constructor
  · rintro ⟨i, hi, hx⟩
    exact ⟨start + i, by omega, hx⟩
  · rintro ⟨b, hb, hx⟩
    refine ⟨b - start, by omega, ?_⟩
    rwa [Nat.add_sub_cancel' hb.1]

/-! ### the places they are found by -/

/-- The places of the indirect blocks that lead to a place. -/
def Place.above (p : Place g) : List (Place g) :=
  (List.range p.path.length).map fun k =>
    ⟨p.inodeNumber, p.slot, p.path.take k, (List.length_take_le' k p.path).trans p.path_le⟩

/-- The indirect block whose number a place of a tree holds. -/
def Place.indirect (p : Place g) : Option IndirectBlock :=
  match p.slot, p.path with
  | 12, [] => some .ind
  | 13, [] => some .dind
  | 13, [i] => some (.dindInd i)
  | 14, [] => some .tind
  | 14, [i] => some (.tindDind i)
  | 14, [i, j] => some (.tindDindInd i j)
  | _, _ => none

/-- **The path to a block is the way to its place** in the tree of its inode. -/
theorem map_indirect_above {inodeNumber b : ℕ} {p : Place g} (hp : offsetPlace inodeNumber b = some p) :
    p.above.map Place.indirect = (pathIndirects g b).map some := by
  unfold offsetPlace at hp
  dsimp only at hp
  split_ifs at hp with h0 h1 h2 h3
  · cases hp
    rw [pathIndirects_direct h0]
    rfl
  · cases hp
    rw [pathIndirects_ind (by omega) (by omega)]
    rfl
  · have hindex := Nat.mod_eq_of_lt (Nat.div_lt_of_lt_mul h2)
    cases hp
    rw [pathIndirects_dind (by omega) (by omega), ← Nat.sub_sub]
    exact congrArg (fun i => [some IndirectBlock.dind, some (.dindInd i)]) hindex
  · have hindex := (Nat.mod_eq_of_lt (Nat.div_lt_of_lt_mul h3)).trans (Nat.div_div_eq_div_mul _ _ _).symm
    cases hp
    rw [pathIndirects_tind (by omega), ← Nat.sub_sub, ← Nat.sub_sub]
    exact congrArg (fun i => [some IndirectBlock.tind, some (.tindDind i), some (.tindDindInd i _)]) hindex

/-- In one inode, a place is known by its indirect block. -/
theorem Place.indirect_inj {p q : Place g} {x : IndirectBlock} (hinode : p.inodeNumber = q.inodeNumber)
    (hp : p.indirect = some x) (hq : q.indirect = some x) : p = q := by
  rcases p with ⟨n, slot, path, hpath⟩
  rcases q with ⟨n', slot', path', hpath'⟩
  obtain rfl : n = n' := hinode
  have hkey : slot = slot' ∧ path = path' := by
    unfold Place.indirect at hp hq
    dsimp only at hp hq
    split at hp <;> cases hp <;> split at hq <;> simp_all [Fin.ext_iff]
  obtain ⟨rfl, rfl⟩ := hkey
  rfl

theorem inodeNumber_of_mem_above {p q : Place g} (h : q ∈ p.above) : q.inodeNumber = p.inodeNumber := by
  obtain ⟨k, -, rfl⟩ := List.mem_map.mp h
  rfl

variable (g) in
/-- The places of the indirect blocks above the blocks of a range. -/
def placesAbove (inodeNumber start count : ℕ) : Finset (Place g) :=
  (Finset.range count).biUnion fun i => ((offsetPlace inodeNumber (start + i)).elim [] Place.above).toFinset

/-- **The indirect blocks a range needs are those of the tree**, in any inode: as many places of indirect
blocks are above its blocks. -/
theorem card_placesAbove (inodeNumber : ℕ) {start count : ℕ}
    (h : start + count ≤ 12 + g.addrPerBlock + g.addrPerBlock ^ 2 + g.addrPerBlock ^ 3) :
    (placesAbove g inodeNumber start count).card = (neededIndirects g start count).card := by
  have hplace : ∀ i < count, ∃ p : Place g, offsetPlace inodeNumber (start + i) = some p := by
    intro i hi
    refine offsetPlace_isSome inodeNumber (lt_of_lt_of_le (Nat.add_lt_add_left hi start) (h.trans (le_of_eq ?_)))
    ring
  have himage : (placesAbove g inodeNumber start count).image Place.indirect
      = (neededIndirects g start count).image some := by
    ext x
    simp only [placesAbove, neededIndirects, Finset.mem_image, Finset.mem_biUnion, Finset.mem_range,
      List.mem_toFinset]
    constructor
    · rintro ⟨q, ⟨i, hi, hq⟩, rfl⟩
      obtain ⟨p, hp⟩ := hplace i hi
      rw [hp] at hq
      have hmem := List.mem_map_of_mem (f := Place.indirect) hq
      rw [Option.elim_some, map_indirect_above hp] at hmem
      obtain ⟨y, hy, heq⟩ := List.mem_map.mp hmem
      exact ⟨y, ⟨i, hi, hy⟩, heq⟩
    · rintro ⟨y, ⟨i, hi, hy⟩, rfl⟩
      obtain ⟨p, hp⟩ := hplace i hi
      have hmem := List.mem_map_of_mem (f := some) hy
      rw [← map_indirect_above hp] at hmem
      obtain ⟨q, hq, heq⟩ := List.mem_map.mp hmem
      exact ⟨q, ⟨i, hi, by rwa [hp]⟩, heq⟩
  have hinode : ∀ q ∈ placesAbove g inodeNumber start count, q.inodeNumber = inodeNumber := by
    intro q hq
    obtain ⟨i, hi, hq⟩ := Finset.mem_biUnion.mp hq
    obtain ⟨p, hp⟩ := hplace i (Finset.mem_range.mp hi)
    rw [hp, List.mem_toFinset] at hq
    exact (inodeNumber_of_mem_above hq).trans (first_of_offsetPlace hp).1
  have hinj : Set.InjOn Place.indirect (placesAbove g inodeNumber start count : Set (Place g)) := by
    intro p hp q hq heq
    obtain ⟨x, -, hx⟩ := Finset.mem_image.mp (himage ▸ Finset.mem_image_of_mem Place.indirect hp)
    exact Place.indirect_inj ((hinode p hp).trans (hinode q hq).symm) hx.symm (heq ▸ hx.symm)
  calc (placesAbove g inodeNumber start count).card
      = ((placesAbove g inodeNumber start count).image Place.indirect).card :=
        (Finset.card_image_of_injOn hinj).symm
    _ = ((neededIndirects g start count).image some).card := by rw [himage]
    _ = (neededIndirects g start count).card := Finset.card_image_of_injective _ (Option.some_injective _)

/-! ### the border it is wrong at -/

/-- The range has blocks on both sides of the border between the double- and the triple-indirect region,
and the index of its first block in the double-indirect region leaves room for the twelve direct
blocks. -/
def CrossesLastBorder (g : Geometry) (start count : ℕ) : Prop :=
  start < 12 + g.addrPerBlock + g.addrPerBlock * g.addrPerBlock
    ∧ 12 + g.addrPerBlock + g.addrPerBlock * g.addrPerBlock < start + count
    ∧ (max start (12 + g.addrPerBlock) - (12 + g.addrPerBlock)) % g.addrPerBlock + 12 < g.addrPerBlock

theorem overcount_eq_one_iff {start count : ℕ} :
    overcount g start (start + count - 1) = 1 ↔ CrossesLastBorder g start count := by
  have hlast : 12 + g.addrPerBlock + g.addrPerBlock * g.addrPerBlock ≤ start + count - 1
      ↔ 12 + g.addrPerBlock + g.addrPerBlock * g.addrPerBlock < start + count := by omega
  by_cases h : CrossesLastBorder g start count
  · exact iff_of_true (if_pos ⟨h.1, hlast.mpr h.2.1, h.2.2⟩) h
  · refine iff_of_false ?_ h
    rw [overcount, if_neg fun h' => h ⟨h'.1, hlast.mp h'.2.1, h'.2.2⟩]
    exact Nat.zero_ne_one

/-- **The estimate is exact but for one border.** For a range inside the largest file the tree can hold,
the estimate is the number of its blocks and of the indirect blocks on their paths, except where the
range crosses into the triple-indirect region as `CrossesLastBorder` says. -/
theorem estimateBlocksForRange_exact_iff {start count : ℕ} (ha : 12 ≤ g.addrPerBlock)
    (htree : 12 + g.addrPerBlock + g.addrPerBlock ^ 2 + g.addrPerBlock ^ 3 < 2 ^ 32)
    (hend : start + count ≤ 12 + g.addrPerBlock + g.addrPerBlock ^ 2 + g.addrPerBlock ^ 3) :
    estimateBlocksForRange g start count = some (count + (neededIndirects g start count).card)
      ↔ ¬ CrossesLastBorder g start count := by
  rcases Nat.eq_zero_or_pos count with rfl | hcount
  · have hcross : ¬ CrossesLastBorder g start 0 := fun h => by
      have h1 := h.1
      have h2 := h.2.1
      omega
    exact iff_of_true rfl hcross
  have hle : overcount g start (start + count - 1) ≤ 1 := by
    unfold overcount
    split_ifs <;> omega
  rw [estimateBlocksForRange_eq ha hcount (by omega), neededIndirects_eq hcount, Option.some_inj,
    ← overcount_eq_one_iff]
  omega

/-- A file system with blocks of one kilobyte. -/
def oneKilobyteBlocks : Geometry := .kilobyteBlocks (2 ^ 25) (by decide)

/-- The double-indirect region and one block more: its single-indirect blocks come out as 257 where there
are 256. -/
theorem estimateBlocksForRange_crossing_off_by_one :
    12 ≤ oneKilobyteBlocks.addrPerBlock ∧ 268 + 65537 ≤ 12 + 256 + 256 ^ 2 + 256 ^ 3
      ∧ estimateBlocksForRange oneKilobyteBlocks 268 65537
          ≠ some (65537 + (neededIndirects oneKilobyteBlocks 268 65537).card) := by
  refine ⟨by decide, by decide, ?_⟩
  have hover : overcount oneKilobyteBlocks 268 (268 + 65537 - 1) = 1 := by decide
  have hneeded : neededIndirects oneKilobyteBlocks 268 65537
      = rangeIndirects oneKilobyteBlocks 268 (268 + 65537 - 1) := neededIndirects_eq (by decide)
  rw [estimateBlocksForRange_eq (by decide) (by decide) (by decide), hover, hneeded]
  intro h
  injection h with h
  omega

/-- Six blocks around the first border: one single-indirect block, and the estimate says so. -/
theorem estimateBlocksForRange_exact_at_first_border :
    12 ≤ oneKilobyteBlocks.addrPerBlock
      ∧ estimateBlocksForRange oneKilobyteBlocks 10 6
          = some (6 + (neededIndirects oneKilobyteBlocks 10 6).card) :=
  ⟨by decide, (estimateBlocksForRange_exact_iff (by decide) (by decide) (by decide)).mpr
    fun h => absurd h.2.1 (by decide)⟩

end Prefetch.MoveBlocks

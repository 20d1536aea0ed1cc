/-
# Prefetch.MoveBlocks.Room — the area is large enough

The estimate of a range is at least the number of distinct places on the way to its blocks, and the
total is at least the number for a whole layout, whatever the ranges share. The stretch that
`find_contiguous_free_space` finds is free and lies inside the bitmap. Together: the walk of the
relocation loop has room in the area of `main`.
-/
import Prefetch.MoveBlocks.RelocateRefine
import Mathlib.Algebra.Order.BigOperators.Group.Finset
import Mathlib.Tactic.Ring

namespace Prefetch.MoveBlocks

open FirstVisit

variable {g : Geometry}

/-! ## §1 — the places of a range, region by region -/

/-- The places on the way to the offsets from `first` to `last`. -/
def rangePlaces (g : Geometry) (n first last : ℕ) : Finset (Place g) :=
  (Finset.Icc first last).biUnion fun b => (pathPlaces g n b).toFinset

theorem rangePlaces_split (n first mid last : ℕ) :
    (rangePlaces g n first last).card
      ≤ (rangePlaces g n first mid).card + (rangePlaces g n (mid + 1) last).card := by
  refine (Finset.card_le_card ?_).trans (Finset.card_union_le _ _)
  intro p hp
  simp only [rangePlaces, Finset.mem_biUnion, Finset.mem_union, Finset.mem_Icc] at hp ⊢
  rcases hp with ⟨b, hb, hp⟩
  rcases Nat.lt_or_ge mid b with hlt | hle
  · exact Or.inr ⟨b, ⟨hlt, hb.2⟩, hp⟩
  · exact Or.inl ⟨b, ⟨hb.1, hle⟩, hp⟩

theorem rangePlaces_direct {n first last : ℕ} (h : last < 12) :
    (rangePlaces g n first last).card ≤ last + 1 - first := by
  have hone : ∀ b ∈ Finset.Icc first last, ((pathPlaces g n b).toFinset).card ≤ 1 := by
    intro b hb
    have hlt : isDirectBlock b = true := decide_eq_true ((Finset.mem_Icc.mp hb).2.trans_lt h)
    rw [pathPlaces, dif_pos hlt]
    rfl
  have hcard := Finset.card_biUnion_le_card_mul _ _ _ hone
  rwa [Nat.card_Icc, Nat.mul_one] at hcard

theorem pathPlaces_1indirect {n b : ℕ} (h : is1IndirectBlock g b = true) :
    pathPlaces g n b = [Place.top n ext2IndBlock, indWord n b] := by
  have hdirect : isDirectBlock b = false := by
    unfold is1IndirectBlock at h
    split_ifs at h with hlt
    exact decide_eq_false hlt
  rw [pathPlaces, dif_neg (by rw [hdirect]; decide), if_pos h]

theorem pathPlaces_2indirect {n b : ℕ} (h : is2IndirectBlock g b = true) :
    pathPlaces g n b = [Place.top n ext2DindBlock, dindWord n b, dindIndWord n b] := by
  have hlt : ¬ b < 12 ∧ ¬ b - 12 < g.addrPerBlock := by
    unfold is2IndirectBlock at h
    split_ifs at h with h1 h2
    exact ⟨h1, h2⟩
  have hdirect : isDirectBlock b = false := decide_eq_false hlt.1
  have h1 : is1IndirectBlock g b = false := by
    rw [is1IndirectBlock, ext2NdirBlocks, if_neg hlt.1]
    exact decide_eq_false hlt.2
  rw [pathPlaces, dif_neg (by rw [hdirect]; decide), if_neg (by rw [h1]; decide), if_pos h]

theorem pathPlaces_3indirect {n b : ℕ} (h : is3IndirectBlock g b = true) : pathPlaces g n b = [] := by
  unfold is3IndirectBlock at h
  split_ifs at h with h1 h2 h3
  have hdirect : isDirectBlock b = false := decide_eq_false h1
  have hind : is1IndirectBlock g b = false := by
    rw [is1IndirectBlock, if_neg h1]
    exact decide_eq_false h2
  have hdind : is2IndirectBlock g b = false := by
    rw [is2IndirectBlock, if_neg h1, if_neg h2]
    exact decide_eq_false h3
  rw [pathPlaces, dif_neg (by rw [hdirect]; decide), if_neg (by rw [hind]; decide),
    if_neg (by rw [hdind]; decide)]

/-- Single-indirect region: the data blocks and one indirect block. -/
theorem rangePlaces_1indirect {n first last : ℕ}
    (h : ∀ b, first ≤ b → b ≤ last → is1IndirectBlock g b = true) :
    (rangePlaces g n first last).card ≤ last + 1 - first + 1 := by
  have hsub : rangePlaces g n first last
      ⊆ insert (Place.top n ext2IndBlock) ((Finset.Icc first last).image fun b => indWord n b) := by
    intro p hp
    simp only [rangePlaces, Finset.mem_biUnion, List.mem_toFinset] at hp
    rcases hp with ⟨b, hb, hp⟩
    have hb' := Finset.mem_Icc.mp hb
    rw [pathPlaces_1indirect (h b hb'.1 hb'.2)] at hp
    simp only [List.mem_cons, List.not_mem_nil, or_false] at hp
    rcases hp with rfl | rfl
    · exact Finset.mem_insert_self _ _
    · exact Finset.mem_insert_of_mem (Finset.mem_image_of_mem _ hb)
  refine (Finset.card_le_card hsub).trans ((Finset.card_insert_le _ _).trans ?_)
  have himage := Finset.card_image_le (s := Finset.Icc first last) (f := fun b => (indWord n b : Place g))
  rw [Nat.card_Icc] at himage
  omega

/-- Double-indirect region: the data blocks, the double-indirect block, and one single-indirect block
for each index the range meets. -/
theorem rangePlaces_2indirect {n first last : ℕ}
    (h : ∀ b, first ≤ b → b ≤ last → is2IndirectBlock g b = true) :
    (rangePlaces g n first last).card
      ≤ last + 1 - first + 1
        + ((last - 12 - g.addrPerBlock) / g.addrPerBlock + 1
          - (first - 12 - g.addrPerBlock) / g.addrPerBlock) := by
  let a := g.addrPerBlock
  -- `dindWord` depends on the index only
  let word : ℕ → Place g := fun j =>
    (Place.top n ext2DindBlock).child ⟨j % a, Nat.mod_lt _ g.addrPerBlock_pos⟩ (by decide : 0 < 2)
  let indices := Finset.Icc ((first - 12 - a) / a) ((last - 12 - a) / a)
  have hsub : rangePlaces g n first last
      ⊆ insert (Place.top n ext2DindBlock)
          (((Finset.Icc first last).image fun b => dindIndWord n b) ∪ indices.image word) := by
    intro p hp
    simp only [rangePlaces, Finset.mem_biUnion, List.mem_toFinset] at hp
    rcases hp with ⟨b, hb, hp⟩
    have hb' := Finset.mem_Icc.mp hb
    rw [pathPlaces_2indirect (h b hb'.1 hb'.2)] at hp
    simp only [List.mem_cons, List.not_mem_nil, or_false] at hp
    rcases hp with rfl | rfl | rfl
    · exact Finset.mem_insert_self _ _
    · refine Finset.mem_insert_of_mem (Finset.mem_union_right _ ?_)
      refine Finset.mem_image.mpr ⟨(b - 12 - a) / a, Finset.mem_Icc.mpr ⟨?_, ?_⟩, rfl⟩
      · exact Nat.div_le_div_right (by omega)
      · exact Nat.div_le_div_right (by omega)
    · exact Finset.mem_insert_of_mem (Finset.mem_union_left _ (Finset.mem_image_of_mem _ hb))
  have hdata := Finset.card_image_le (s := Finset.Icc first last)
    (f := fun b => (dindIndWord n b : Place g))
  have hwords := Finset.card_image_le (s := indices) (f := word)
  have hunion := Finset.card_union_le
    ((Finset.Icc first last).image fun b => (dindIndWord n b : Place g)) (indices.image word)
  rw [Nat.card_Icc] at hdata hwords
  have hinsert := (Finset.card_le_card hsub).trans (Finset.card_insert_le _ _)
  show _ ≤ last + 1 - first + 1 + ((last - 12 - a) / a + 1 - (first - 12 - a) / a)
  omega

/-- Triple-indirect region: nothing is relocated. -/
theorem rangePlaces_3indirect {n first last : ℕ}
    (h : ∀ b, first ≤ b → b ≤ last → is3IndirectBlock g b = true) :
    (rangePlaces g n first last).card = 0 := by
  rw [Finset.card_eq_zero]
  refine Finset.eq_empty_of_forall_notMem fun p hp => ?_
  simp only [rangePlaces, Finset.mem_biUnion, List.mem_toFinset, Finset.mem_Icc] at hp
  rcases hp with ⟨b, hb, hp⟩
  rw [pathPlaces_3indirect (h b hb.1 hb.2)] at hp
  simp at hp

/-! ## §2 — the estimate of a range -/

theorem is1IndirectBlock_iff {b : ℕ} :
    is1IndirectBlock g b = true ↔ 12 ≤ b ∧ b < 12 + g.addrPerBlock := by
  unfold is1IndirectBlock ext2NdirBlocks
  split_ifs with h1
  · simp only [false_iff]
    omega
  · rw [decide_eq_true_eq]
    omega

theorem is2IndirectBlock_iff {b : ℕ} :
    is2IndirectBlock g b = true
      ↔ 12 + g.addrPerBlock ≤ b ∧ b < 12 + g.addrPerBlock + g.addrPerBlock * g.addrPerBlock := by
  unfold is2IndirectBlock ext2NdirBlocks
  split_ifs with h1 h2
  · simp only [false_iff]
    omega
  · simp only [false_iff]
    omega
  · rw [decide_eq_true_eq]
    omega

theorem is3IndirectBlock_iff {b : ℕ} :
    is3IndirectBlock g b = true ↔ 12 + g.addrPerBlock + g.addrPerBlock * g.addrPerBlock ≤ b := by
  unfold is3IndirectBlock ext2NdirBlocks
  split_ifs with h1 h2 h3
  · simp only [false_iff]
    omega
  · simp only [false_iff]
    omega
  · simp only [false_iff]
    omega
  · simp only [true_iff]
    omega

/-- Without wrap, `blkSpan` counts the blocks of a range. -/
theorem blkSpan_eq {first last : ℕ} (h : first ≤ last) (hlast : last + 1 - first < 2 ^ 32) :
    blkSpan first last = last + 1 - first := by
  unfold blkSpan
  omega

/-- Counting single-indirect blocks from the start of the file instead of the start of the region does
not lose any. -/
theorem div_region_le {a f y : ℕ} (ha : 0 < a) (hf : 0 < f) :
    (f + y) / a ≤ y / a + (f - 1) / a + 1 := by
  have hy := Nat.lt_mul_div_succ y ha
  have hf' := Nat.lt_mul_div_succ (f - 1) ha
  refine Nat.le_of_lt_succ (Nat.div_lt_of_lt_mul ?_)
  have hexpand : a * (y / a + (f - 1) / a + 1 + 1) = a * (y / a + 1) + a * ((f - 1) / a + 1) := by
    ring
  rw [Nat.succ_eq_add_one, hexpand]
  omega

/-- The count of single-indirect blocks of a range that goes on past the double-indirect region is not
too small. -/
theorem indices_le_of_crossing {a first : ℕ} (ha : 0 < a) (hfirst : 12 + a ≤ first) :
    (12 + a + a * a - 1 - 12 - a) / a + 1 - (first - 12 - a) / a
      ≤ (12 + a + a * a - 1) / a + 1 - first / a := by
  have hindices : (12 + a + a * a - 1 - 12 - a) / a + 1 ≤ a := by
    refine Nat.div_lt_of_lt_mul ?_
    have hsq := Nat.mul_pos ha ha
    omega
  have hlast : (12 + a + a * a - 1) / a = a + (12 + a - 1) / a := by
    have hsum : 12 + a + a * a - 1 = a * a + (12 + a - 1) := by omega
    rw [hsum, Nat.mul_add_div ha]
  have hstart : first / a ≤ (first - 12 - a) / a + (12 + a - 1) / a + 1 := by
    have hsum : first = (12 + a) + (first - 12 - a) := by omega
    conv_lhs => rw [hsum]
    exact div_region_le ha (by omega)
  omega

section Estimate

variable {n first last total : ℕ}

/-- A region with `c` places at most, and the estimate of the rest. -/
theorem card_rangePlaces_le (mid : ℕ) {c : ℕ} {rest : Option ℕ}
    (hregion : (rangePlaces g n first mid).card ≤ c)
    (hrest : ∀ m, rest = some m → (rangePlaces g n (mid + 1) last).card ≤ m)
    (h : rest.map (c + ·) = some total) : (rangePlaces g n first last).card ≤ total := by
  rcases Option.map_eq_some_iff.mp h with ⟨m, hm, rfl⟩
  exact (rangePlaces_split n first mid last).trans (Nat.add_le_add hregion (hrest m hm))

theorem rangePlaces_empty (h : last < first) : (rangePlaces g n first last).card = 0 := by
  rw [rangePlaces, Finset.Icc_eq_empty (by omega)]
  rfl

theorem estimateFrom2Indirect_ge (hfirst : 12 + g.addrPerBlock ≤ first) (hle : first ≤ last)
    (hlast : last < 2 ^ 32) (h : estimateFrom2Indirect g first last = some total) :
    (rangePlaces g n first last).card ≤ total := by
  have ha := g.addrPerBlock_pos
  unfold estimateFrom2Indirect at h
  by_cases h1 : is2IndirectBlock g first = true
  · have hfirst' := is2IndirectBlock_iff.mp h1
    rw [if_pos h1] at h
    by_cases h2 : is2IndirectBlock g last = true
    · -- the range ends in the region
      have hlast' := is2IndirectBlock_iff.mp h2
      rw [if_pos h2] at h
      have hmono : (first - 12 - g.addrPerBlock) / g.addrPerBlock
          ≤ (last - 12 - g.addrPerBlock) / g.addrPerBlock := Nat.div_le_div_right (by omega)
      have hspan : (last - 12 - g.addrPerBlock) / g.addrPerBlock + 1
          - (first - 12 - g.addrPerBlock) / g.addrPerBlock < 2 ^ 32 := by
        refine (Nat.sub_le _ _).trans_lt ?_
        have hdiv := Nat.div_le_self (last - 12 - g.addrPerBlock) g.addrPerBlock
        omega
      refine card_rangePlaces_le last ?_ (fun m _ => ?_) h
      · refine (rangePlaces_2indirect fun b hb hb' => is2IndirectBlock_iff.mpr (by omega)).trans ?_
        rw [ext2NdirBlocks, blkSpan_eq hle (by omega), ← Nat.sub_sub, ← Nat.sub_sub,
          blkSpan_eq hmono hspan]
      · rw [rangePlaces_empty (Nat.lt_succ_self _)]
        exact Nat.zero_le _
    · -- the range goes on into the triple-indirect region
      rw [if_neg h2] at h
      rw [is2IndirectBlock_iff] at h2
      have hlen := g.tree_lt
      have hspan : (12 + g.addrPerBlock + g.addrPerBlock * g.addrPerBlock - 1) / g.addrPerBlock + 1
          - first / g.addrPerBlock < 2 ^ 32 := by
        have hone : 1 ≤ first / g.addrPerBlock := (Nat.one_le_div_iff ha).mpr (by omega)
        have hdiv := Nat.div_le_self (12 + g.addrPerBlock + g.addrPerBlock * g.addrPerBlock - 1)
          g.addrPerBlock
        generalize (12 + g.addrPerBlock + g.addrPerBlock * g.addrPerBlock - 1) / g.addrPerBlock = q at *
        omega
      refine card_rangePlaces_le (12 + g.addrPerBlock + g.addrPerBlock * g.addrPerBlock - 1) ?_
        (fun m _ => ?_) h
      · refine (rangePlaces_2indirect fun b hb hb' => is2IndirectBlock_iff.mpr (by omega)).trans ?_
        rw [ext2NdirBlocks, blkSpan_eq (by omega) (by omega),
          blkSpan_eq (Nat.div_le_div_right (by omega)) hspan]
        exact Nat.add_le_add_left (indices_le_of_crossing ha hfirst'.1) _
      · rw [rangePlaces_3indirect fun b hb _ => is3IndirectBlock_iff.mpr (by omega)]
        exact Nat.zero_le _
  · -- past the region
    have h3 : ∀ b, first ≤ b → b ≤ last → is3IndirectBlock g b = true := fun b hb _ => by
      rw [is3IndirectBlock_iff]
      rw [is2IndirectBlock_iff] at h1
      omega
    rw [rangePlaces_3indirect h3]
    exact Nat.zero_le _

theorem estimateFrom1Indirect_ge (hfirst : 12 ≤ first) (hle : first ≤ last)
    (hlast : last < 2 ^ 32) (h : estimateFrom1Indirect g first last = some total) :
    (rangePlaces g n first last).card ≤ total := by
  have ha := g.addrPerBlock_pos
  unfold estimateFrom1Indirect at h
  by_cases h1 : is1IndirectBlock g first = true
  · have hfirst' := is1IndirectBlock_iff.mp h1
    rw [if_pos h1] at h
    by_cases h2 : is1IndirectBlock g last = true
    · have hlast' := is1IndirectBlock_iff.mp h2
      rw [if_pos h2] at h
      refine card_rangePlaces_le last ?_ (fun m _ => ?_) h
      · refine (rangePlaces_1indirect fun b hb hb' => is1IndirectBlock_iff.mpr (by omega)).trans ?_
        rw [blkSpan_eq hle (by omega)]
      · rw [rangePlaces_empty (Nat.lt_succ_self _)]
        exact Nat.zero_le _
    · rw [if_neg h2] at h
      rw [is1IndirectBlock_iff] at h2
      refine card_rangePlaces_le (ext2NdirBlocks + g.addrPerBlock - 1) ?_ (fun m hm => ?_) h
      · unfold ext2NdirBlocks
        refine (rangePlaces_1indirect fun b hb hb' => is1IndirectBlock_iff.mpr (by omega)).trans ?_
        rw [blkSpan_eq (by omega) (by omega)]
      · unfold ext2NdirBlocks at hm ⊢
        exact estimateFrom2Indirect_ge (by omega) (by omega) hlast hm
  · rw [if_neg h1] at h
    rw [is1IndirectBlock_iff] at h1
    exact estimateFrom2Indirect_ge (by omega) hle hlast h

/-- The estimate of a range is at least the number of places on the way to its blocks. -/
theorem estimateBlocksForRange_ge {start count : ℕ} (hcount : 0 < count)
    (hwrap : start + count < 2 ^ 32) (h : estimateBlocksForRange g start count = some total) :
    (rangePlaces g n start (start + count - 1)).card ≤ total := by
  have hend : (start + count + (2 ^ 32 - 1)) % 2 ^ 32 = start + count - 1 := by omega
  unfold estimateBlocksForRange at h
  rw [hend, if_neg hcount.ne'] at h
  by_cases h0 : isDirectBlock start = true
  · have hstart : start < 12 := of_decide_eq_true h0
    rw [if_pos h0] at h
    by_cases h1 : isDirectBlock (start + count - 1) = true
    · have hlast : start + count - 1 < 12 := of_decide_eq_true h1
      rw [if_pos h1] at h
      refine card_rangePlaces_le (start + count - 1) ?_ (fun m _ => ?_) h
      · rw [blkSpan_eq (by omega) (by omega)]
        exact rangePlaces_direct hlast
      · rw [rangePlaces_empty (Nat.lt_succ_self _)]
        exact Nat.zero_le _
    · have hlast : ¬ start + count - 1 < 12 := fun hlt => h1 (decide_eq_true hlt)
      rw [if_neg h1] at h
      refine card_rangePlaces_le 11 ?_ (fun m hm => ?_) h
      · rw [ext2NdirBlocks, blkSpan_eq (by omega) (by omega)]
        exact rangePlaces_direct (by omega)
      · exact estimateFrom1Indirect_ge le_rfl (by omega) (by omega) hm
  · have hstart : ¬ start < 12 := fun hlt => h0 (decide_eq_true hlt)
    rw [if_neg h0] at h
    exact estimateFrom1Indirect_ge (by omega) (by omega) (by omega) h

end Estimate

/-! ## §3 — the estimate of a layout -/

/-- What `process_layout_list` hands on without any 32-bit wrap: no range wraps, and neither does the
total `size`. -/
structure Accepted (g : Geometry) (relocations : List Relocation) (size : ℕ) : Prop where
  noWrap : ∀ r ∈ relocations, r.blockOffset + r.blocksCount < 2 ^ 32
  estimate_eq : estimatedBlockSize g relocations = some size
  size_lt : size < 2 ^ 32

theorem walkPlaces_relocation_subset (r : Relocation) (h : r.blockOffset + r.blocksCount < 2 ^ 32) :
    (walkPlaces g (relocationPairs r)).toFinset
      ⊆ rangePlaces g r.inodeNumber r.blockOffset (r.blockOffset + r.blocksCount - 1) := by
  intro p hp
  simp only [walkPlaces, relocationPairs, List.mem_toFinset, List.mem_flatMap, List.mem_map,
    List.mem_range] at hp
  rcases hp with ⟨_, ⟨i, hi, rfl⟩, hp⟩
  rw [Nat.mod_eq_of_lt (by omega)] at hp
  refine Finset.mem_biUnion.mpr ⟨r.blockOffset + i, Finset.mem_Icc.mpr ⟨by omega, by omega⟩, ?_⟩
  exact List.mem_toFinset.mpr hp

/-- **The estimate is enough.** The total is at least the number of distinct places of the walk. -/
theorem card_walkPlaces_le {relocations : List Relocation} {total : ℕ}
    (hwrap : ∀ r ∈ relocations, r.blockOffset + r.blocksCount < 2 ^ 32)
    (h : estimatedBlockSize g relocations = some total) :
    (walkPlaces g (layoutPairs relocations)).toFinset.card ≤ total := by
  induction relocations generalizing total with
  | nil => exact Nat.zero_le _
  | cons r relocations ih =>
      unfold estimatedBlockSize at h
      split at h
      next n m hn hm =>
        cases h
        have hsplit : walkPlaces g (layoutPairs (r :: relocations))
            = walkPlaces g (relocationPairs r) ++ walkPlaces g (layoutPairs relocations) := by
          simp [walkPlaces, layoutPairs]
        have hr := hwrap r List.mem_cons_self
        have hone : (walkPlaces g (relocationPairs r)).toFinset.card ≤ n := by
          rcases Nat.eq_zero_or_pos r.blocksCount with h0 | hpos
          · simp [walkPlaces, relocationPairs, h0]
          · exact (Finset.card_le_card (walkPlaces_relocation_subset r hr)).trans
              (estimateBlocksForRange_ge hpos hr hn)
        have hrest := ih (fun r' hr' => hwrap r' (List.mem_cons_of_mem _ hr')) hm
        rw [hsplit, List.toFinset_append]
        exact (Finset.card_union_le _ _).trans (Nat.add_le_add hone hrest)
      next => cases h

/-! ## §4 — the area found -/

/-- What the scan finds, started at `i` with the `run` blocks before it free. -/
theorem findFreeRun_spec {blockMap : ℕ → Bool} {first size lo : ℕ} (len i run : ℕ)
    (hrun : first + run ≤ i)
    (hfree : ∀ b, i ≤ b + run → b < i → testBlockBitmap g blockMap b = false)
    (h : findFreeRun g blockMap size (List.range' i len) run = some lo) :
    first ≤ lo ∧ lo + size ≤ i + len
      ∧ (∀ b, lo ≤ b → b < lo + size → testBlockBitmap g blockMap b = false)
      ∧ (size = 0 → 0 < lo) := by
  induction len generalizing i run with
  | zero => cases h
  | succ len ih =>
      rw [List.range'_succ, findFreeRun] at h
      have hnext : ∀ run', first + run' ≤ i + 1 →
          (∀ b, i + 1 ≤ b + run' → b < i + 1 → testBlockBitmap g blockMap b = false) →
          findFreeRun g blockMap size (List.range' (i + 1) len) run' = some lo →
          first ≤ lo ∧ lo + size ≤ i + (len + 1)
            ∧ (∀ b, lo ≤ b → b < lo + size → testBlockBitmap g blockMap b = false)
            ∧ (size = 0 → 0 < lo) := fun run' h1 h2 h3 => by
        have hassoc : i + (len + 1) = i + 1 + len := by omega
        rw [hassoc]
        exact ih (i + 1) run' h1 h2 h3
      split_ifs at h with htest hsize
      · -- the run ends here
        cases h
        refine ⟨by omega, by omega, fun b hlo hhi => ?_, by omega⟩
        rcases Nat.lt_or_ge b i with hlt | hge
        · exact hfree b (by omega) hlt
        · have hbi : b = i := by omega
          rw [hbi]
          exact htest
      · refine hnext _ (by omega) (fun b hlo hhi => ?_) h
        rcases Nat.lt_or_ge b i with hlt | hge
        · exact hfree b (by omega) hlt
        · have hbi : b = i := by omega
          rw [hbi]
          exact htest
      · exact hnext 0 (by omega) (fun b hlo hhi => by omega) h

/-- `find_contiguous_free_space` finds an area inside the bitmap whose blocks are free. -/
theorem findContiguousFreeSpace_area {s : RunState g} {size lo : ℕ} {reserved : Set ℕ} {v : View g}
    (hwf : WellFormed reserved v s.blockMap) (h : findContiguousFreeSpace s size = some lo) :
    ∃ area : Area g, area.lo = lo ∧ area.hi = lo + size
      ∧ ∀ b, area.lo ≤ b → b < area.hi → s.blockMap b = false := by
  unfold findContiguousFreeSpace at h
  split_ifs at h
  rcases findFreeRun_spec _ _ 0 (Nat.le_refl g.sFirstDataBlock) (fun b _ _ => by omega) h with
    ⟨hfirst, hlast, hfree, hzero⟩
  have hfirst' : g.sFirstDataBlock ≤ lo := hfirst
  have hcount : lo + size ≤ g.sBlocksCount := by
    rcases Nat.lt_or_ge g.sBlocksCount g.sFirstDataBlock with hlt | hge
    · -- an empty bitmap has no free run
      rw [Nat.sub_eq_zero_of_le hlt.le] at h
      cases h
    · omega
  have hfree' : ∀ b, lo ≤ b → b < lo + size → s.blockMap b = false := fun b hb hb' => by
    have htest := hfree b hb hb'
    have hmap : inBlockMap g b = true := by
      unfold inBlockMap
      simp only [Bool.and_eq_true, decide_eq_true_eq]
      omega
    rwa [testBlockBitmap, hmap, Bool.true_and] at htest
  have hpos : 0 < lo := by
    rcases Nat.eq_zero_or_pos size with h0 | hsize
    · exact hzero h0
    · refine Nat.pos_of_ne_zero fun h0 => ?_
      subst h0
      -- block 0 is reserved
      have hmap : inBlockMap g 0 = true := by
        unfold inBlockMap
        simp only [Bool.and_eq_true, decide_eq_true_eq]
        omega
      have hused := (hwf.owners.used_iff 0).mpr (Or.inl (hwf.blockZero hmap))
      rw [hfree' 0 le_rfl (by omega)] at hused
      exact absurd hused (by decide)
  exact ⟨⟨lo, lo + size, hpos, Nat.le_add_right _ _, hfirst, hcount⟩, rfl, rfl, hfree'⟩

end Prefetch.MoveBlocks

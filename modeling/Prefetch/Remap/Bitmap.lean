/-
# Prefetch.Remap.Bitmap — `update_bitmap` of e2remapblocks

After the copy the bitmap is brought up to date: the new extents are marked, the original ones unmarked,
and each is charged to its groups piece by piece, up to the end of the group it is in.

The end of a group is computed without `s_first_data_block`, so that with a first data block 1 the last
block of a group lies at it. `chargeGroups_eq_none`: from there the loop does not move on.
`chargeGroups_spec`: where every block lies below the end computed for it, each group is charged for its
blocks. `updated_iff` puts both together.
-/
import Prefetch.MoveBlocks.Filesystem
import Prefetch.Remap.Remapper
import Mathlib.Order.Interval.Finset.Nat
import Mathlib.Data.Finset.Card

namespace Prefetch.Remap

open MoveBlocks (Geometry groupOfBlk)

/-! ## §1 — `update_bitmap` -/

/-- Subtracting unsigned ints, and from and to an unsigned short. -/
def sub32 (a b : ℕ) : ℕ := (a + 2 ^ 32 - b) % 2 ^ 32
def sub16 (a b : ℕ) : ℕ := (a + 2 ^ 16 - b % 2 ^ 16) % 2 ^ 16
def add16 (a b : ℕ) : ℕ := (a + b) % 2 ^ 16

/-- What of `fs` is brought up to date; `exited` is whether the tool gave up. -/
structure FsBitmap where
  blockMap : ℕ → Bool
  /-- `group_desc[grp].bg_free_blocks_count` -/
  groupDesc : ℕ → ℕ
  superDirty : Bool := false
  exited : Bool := false

section Update

variable (g : Geometry)

/-- `ext2fs_mark_block_bitmap_range` (`used`) and `ext2fs_unmark_block_bitmap_range`; a range that is not
all in the bitmap they only warn of. -/
def setBlockBitmapRange (used : Bool) (blockMap : ℕ → Bool) (block num : ℕ) : ℕ → Bool :=
  if block < g.sFirstDataBlock ∨ g.sBlocksCount < block + num then blockMap
  else fun b => if block ≤ b ∧ b < block + num then used else blockMap b

/-- `EXT2_BLOCKS_PER_GROUP(fs->super)*(grp+1)` for the group of a block. -/
def groupEnd (block : ℕ) : ℕ := g.sBlocksPerGroup * (groupOfBlk g block + 1) % 2 ^ 32

/-- The loop over the groups of an extent; `none` when it takes more than `fuel` turns. -/
def chargeGroups (charge : ℕ → ℕ → ℕ) : ℕ → ℕ → ℕ → (ℕ → ℕ) → Option (ℕ → ℕ)
  | 0, _, _, _ => none
  | fuel + 1, start, len, groupDesc =>
      if len = 0 then some groupDesc
      else
        let grp := groupOfBlk g start
        let stop := min (groupEnd g start) ((start + len) % 2 ^ 32)
        chargeGroups charge fuel stop (sub32 len (sub32 stop start))
          (Function.update groupDesc grp (charge (groupDesc grp) (sub32 stop start)))

/-- One extent: its blocks are marked or unmarked, and charged to their groups. -/
def updateExtent (used : Bool) (charge : ℕ → ℕ → ℕ) (fuel : ℕ) (fs : FsBitmap) (block len : ℕ) :
    Option FsBitmap :=
  (chargeGroups g charge fuel block len fs.groupDesc).map fun groupDesc =>
    { fs with blockMap := setBlockBitmapRange g used fs.blockMap block len, groupDesc := groupDesc }

/-- `update_bitmap`; `none` when some loop takes more than `fuel` turns. `error` is whether the bitmap could
not be written. -/
def updateBitmap (fuel : ℕ) (freeExtents : List FreeExtent) (inodes : List (List RemapExtent))
    (error : Bool) (fs : FsBitmap) : Option FsBitmap := do
  let fs ← freeExtents.foldlM (fun fs e => updateExtent g true sub16 fuel fs e.block e.len) fs
  let fs ← inodes.flatten.foldlM (fun fs e => updateExtent g false add16 fuel fs e.block e.len) fs
  if error then pure { fs with exited := true } else pure { fs with superDirty := true }

end Update

/-! ## §2 — the loop over the groups -/

section Charge

variable {g : Geometry} {charge : ℕ → ℕ → ℕ}

theorem sub32_of_le {a b : ℕ} (hle : b ≤ a) (hlt : a < 2 ^ 32) : sub32 a b = a - b := by
  unfold sub32
  rw [show a + 2 ^ 32 - b = a - b + 2 ^ 32 by omega, Nat.add_mod_right, Nat.mod_eq_of_lt (by omega)]

/-- Going back by what `sub32` yields for a place further back. -/
theorem sub32_back {len start stop : ℕ} (hle : stop ≤ start) (hlt : start + len < 2 ^ 32) :
    sub32 len (sub32 stop start) = start + len - stop := by
  unfold sub32
  rcases Nat.eq_or_lt_of_le hle with rfl | hback
  · rw [show stop + 2 ^ 32 - stop = 2 ^ 32 by omega, Nat.mod_self,
      show len + 2 ^ 32 - 0 = len + 2 ^ 32 by omega, Nat.add_mod_right, Nat.mod_eq_of_lt (by omega)]
    omega
  · rw [Nat.mod_eq_of_lt (show stop + 2 ^ 32 - start < 2 ^ 32 by omega),
      show len + 2 ^ 32 - (stop + 2 ^ 32 - start) = start + len - stop by omega,
      Nat.mod_eq_of_lt (by omega)]

/-- The blocks from one to the end computed for it are in its group, if there are any. -/
theorem groupOfBlk_eq {start b : ℕ} (hstart : start ≤ b) (hb : b < groupEnd g start) :
    groupOfBlk g b = groupOfBlk g start ∧
      g.sBlocksPerGroup * (groupOfBlk g start + 1) < 2 ^ 32 := by
  have hpos := g.blocksPerGroup_pos
  have hlow : g.sBlocksPerGroup * groupOfBlk g start ≤ start :=
    le_trans (Nat.mul_div_le _ _) (Nat.sub_le _ _)
  have hsmall := g.blocksPerGroup_lt
  have hwrap : g.sBlocksPerGroup * (groupOfBlk g start + 1) < 2 ^ 32 := by
    -- an end that wrapped is before the beginning of the group
    by_contra hge
    have hmod : groupEnd g start ≤ g.sBlocksPerGroup * (groupOfBlk g start + 1) - 2 ^ 32 := by
      unfold groupEnd
      rw [Nat.mod_eq_sub_mod (by omega)]
      exact Nat.mod_le _ _
    rw [Nat.mul_succ] at hmod
    omega
  refine ⟨?_, hwrap⟩
  unfold groupEnd at hb
  rw [Nat.mod_eq_of_lt hwrap] at hb
  have hmono : groupOfBlk g start ≤ groupOfBlk g b :=
    Nat.div_le_div_right (Nat.sub_le_sub_right hstart _)
  have hlt : groupOfBlk g b < groupOfBlk g start + 1 := by
    unfold groupOfBlk at hb ⊢
    rw [Nat.div_lt_iff_lt_mul hpos, Nat.mul_comm]
    exact lt_of_le_of_lt (Nat.sub_le _ _) hb
  omega

theorem groupEnd_eq {start b : ℕ} (hstart : start ≤ b) (hb : b < groupEnd g start) :
    groupEnd g b = groupEnd g start := by
  unfold groupEnd
  rw [(groupOfBlk_eq hstart hb).1]

/-- **A block at or behind the end computed for it is not got past.** -/
theorem chargeGroups_eq_none (fuel : ℕ) {start len : ℕ} (hlt : start + len < 2 ^ 32)
    (hbad : ∃ b, start ≤ b ∧ b < start + len ∧ groupEnd g b ≤ b) (groupDesc : ℕ → ℕ) :
    chargeGroups g charge fuel start len groupDesc = none := by
  induction fuel generalizing start len groupDesc with
  | zero => rfl
  | succ fuel ih =>
      obtain ⟨b, hstart, hb, hend⟩ := hbad
      rw [chargeGroups, if_neg (by omega)]
      simp only [Nat.mod_eq_of_lt hlt]
      by_cases hback : groupEnd g start ≤ start
      · -- back to the end of the group, which is not behind the start
        rw [min_eq_left (by omega), sub32_back hback hlt]
        apply ih
        · omega
        · exact ⟨start, hback, by omega, hback⟩
      · have hfar : groupEnd g start ≤ b := by
          by_contra hnear
          rw [groupEnd_eq hstart (by omega)] at hend
          omega
        have hstep : sub32 (groupEnd g start) start = groupEnd g start - start :=
          sub32_of_le (by omega) (by omega)
        rw [min_eq_left (by omega), hstep, sub32_of_le (by omega) (by omega)]
        apply ih
        · omega
        · exact ⟨b, hfar, by omega, hend⟩

/-- The blocks of a stretch that are in a group. -/
def blocksIn (g : Geometry) (grp start len : ℕ) : ℕ :=
  ((Finset.Ico start (start + len)).filter (groupOfBlk g · = grp)).card

theorem blocksIn_zero (grp start : ℕ) : blocksIn g grp start 0 = 0 := by
  simp [blocksIn]

/-- A stretch is split where its first group ends. -/
theorem blocksIn_split (grp : ℕ) {start len n : ℕ} (hn : n ≤ len)
    (hsame : ∀ b, start ≤ b → b < start + n → groupOfBlk g b = groupOfBlk g start) :
    blocksIn g grp start len =
      (if groupOfBlk g start = grp then n else 0) + blocksIn g grp (start + n) (len - n) := by
  have hunion : Finset.Ico start (start + len) =
      Finset.Ico start (start + n) ∪ Finset.Ico (start + n) (start + n + (len - n)) := by
    rw [Finset.Ico_union_Ico_eq_Ico (by omega) (by omega), show start + n + (len - n) = start + len by omega]
  have hdisjoint : Disjoint ((Finset.Ico start (start + n)).filter (groupOfBlk g · = grp))
      ((Finset.Ico (start + n) (start + n + (len - n))).filter (groupOfBlk g · = grp)) :=
    Finset.disjoint_filter_filter (Finset.Ico_disjoint_Ico_consecutive _ _ _)
  have hfirst : ((Finset.Ico start (start + n)).filter (groupOfBlk g · = grp)).card =
      if groupOfBlk g start = grp then n else 0 := by
    have hall : ∀ b ∈ Finset.Ico start (start + n), (groupOfBlk g b = grp ↔ groupOfBlk g start = grp) := by
      intro b hb
      rw [Finset.mem_Ico] at hb
      rw [hsame b hb.1 hb.2]
    rw [Finset.filter_congr hall]
    split
    · next h => simp [h]
    · next h => simp [h]
  unfold blocksIn
  rw [hunion, Finset.filter_union, Finset.card_union_of_disjoint hdisjoint, hfirst]

/-- Charging in pieces is charging at once, in an unsigned short. -/
structure Additive (charge : ℕ → ℕ → ℕ) : Prop where
  lt : ∀ a b, charge a b < 2 ^ 16
  zero : ∀ a, a < 2 ^ 16 → charge a 0 = a
  add : ∀ a b c, charge (charge a b) c = charge a (b + c)

theorem additive_sub16 : Additive sub16 where
  lt a b := Nat.mod_lt _ (by decide)
  zero a ha := by
    unfold sub16
    omega
  add a b c := by
    unfold sub16
    omega

theorem additive_add16 : Additive add16 where
  lt a b := Nat.mod_lt _ (by decide)
  zero a ha := by
    unfold add16
    omega
  add a b c := by
    unfold add16
    omega

/-- **The loop charges each group for its blocks**, where every block lies below the end computed for
it. -/
theorem chargeGroups_spec (hcharge : Additive charge) (fuel : ℕ) {start len : ℕ}
    (hlt : start + len < 2 ^ 32) (hfuel : len < fuel)
    (hgood : ∀ b, start ≤ b → b < start + len → b < groupEnd g b) (groupDesc : ℕ → ℕ) :
    ∃ groupDesc', chargeGroups g charge fuel start len groupDesc = some groupDesc' ∧
      ∀ grp, groupDesc grp < 2 ^ 16 →
        groupDesc' grp = charge (groupDesc grp) (blocksIn g grp start len) := by
  induction fuel generalizing start len groupDesc with
  | zero => omega
  | succ fuel ih =>
      rw [chargeGroups]
      by_cases hzero : len = 0
      · subst hzero
        rw [if_pos rfl]
        refine ⟨groupDesc, rfl, fun grp hgrp => ?_⟩
        rw [blocksIn_zero, hcharge.zero _ hgrp]
      rw [if_neg hzero]
      have hstart := hgood start (Nat.le_refl _) (by omega)
      obtain ⟨n, hn, hpos, hle, hnear⟩ : ∃ n, min (groupEnd g start) ((start + len) % 2 ^ 32) = start + n ∧
          0 < n ∧ n ≤ len ∧ start + n ≤ groupEnd g start := by
        refine ⟨min (groupEnd g start) (start + len) - start, ?_, ?_, ?_, ?_⟩
        · rw [Nat.mod_eq_of_lt hlt]
          omega
        all_goals omega
      have hstep : sub32 (start + n) start = n := by
        rw [sub32_of_le (by omega) (by omega)]
        omega
      simp only [hn, hstep, sub32_of_le hle (show len < 2 ^ 32 by omega)]
      have hsame : ∀ b, start ≤ b → b < start + n → groupOfBlk g b = groupOfBlk g start :=
        fun b hb hbn => (groupOfBlk_eq hb (by omega)).1
      obtain ⟨groupDesc', hrun, hgroups⟩ := @ih (start + n) (len - n) (by omega)
        (by omega) (fun b hb hbn => hgood b (by omega) (by omega))
        (Function.update groupDesc (groupOfBlk g start) (charge (groupDesc (groupOfBlk g start)) n))
      refine ⟨groupDesc', hrun, fun grp hgrp => ?_⟩
      rw [blocksIn_split grp hle hsame]
      by_cases hhere : groupOfBlk g start = grp
      · subst hhere
        rw [hgroups _ (by rw [Function.update_self]; exact hcharge.lt _ _), Function.update_self, hcharge.add,
          if_pos rfl]
      · rw [hgroups grp (by rwa [Function.update_of_ne (Ne.symm hhere)]),
          Function.update_of_ne (Ne.symm hhere), if_neg hhere, Nat.zero_add]

end Charge

/-! ## §3 — the number of free blocks -/

section Count

variable {g : Geometry}

/-- The free blocks of a group. -/
def freeCount (g : Geometry) (blockMap : ℕ → Bool) (grp : ℕ) : ℕ :=
  ((Finset.Ico g.sFirstDataBlock g.sBlocksCount).filter
    fun b => groupOfBlk g b = grp ∧ blockMap b = false).card

theorem freeCount_lt (blockMap : ℕ → Bool) (grp : ℕ) : freeCount g blockMap grp < 2 ^ 16 := by
  have hpos := g.blocksPerGroup_pos
  have hsub : (Finset.Ico g.sFirstDataBlock g.sBlocksCount).filter
        (fun b => groupOfBlk g b = grp ∧ blockMap b = false) ⊆
      Finset.Ico (g.sFirstDataBlock + g.sBlocksPerGroup * grp)
        (g.sFirstDataBlock + g.sBlocksPerGroup * grp + g.sBlocksPerGroup) := by
    intro b hb
    obtain ⟨hmem, hgrp, -⟩ := Finset.mem_filter.1 hb
    have hlow := (Finset.mem_Ico.1 hmem).1
    have hmod := Nat.div_add_mod (b - g.sFirstDataBlock) g.sBlocksPerGroup
    have hrest := Nat.mod_lt (b - g.sFirstDataBlock) hpos
    unfold groupOfBlk at hgrp
    rw [hgrp] at hmod
    rw [Finset.mem_Ico]
    omega
  have hcard := Finset.card_le_card hsub
  rw [Nat.card_Ico, Nat.add_sub_cancel_left] at hcard
  exact lt_of_le_of_lt hcard g.blocksPerGroup_lt

/-- A stretch that is free in one map and used in the other is what their numbers differ by. -/
theorem freeCount_add {block len : ℕ} {free used : ℕ → Bool} (hfirst : g.sFirstDataBlock ≤ block)
    (hlast : block + len ≤ g.sBlocksCount)
    (hfree : ∀ b, block ≤ b → b < block + len → free b = false)
    (hused : ∀ b, used b = if block ≤ b ∧ b < block + len then true else free b) (grp : ℕ) :
    freeCount g free grp = freeCount g used grp + blocksIn g grp block len := by
  unfold freeCount blocksIn
  rw [← Finset.card_union_of_disjoint]
  · congr 1
    ext b
    simp only [Finset.mem_filter, Finset.mem_union, Finset.mem_Ico, hused b]
    by_cases hin : block ≤ b ∧ b < block + len
    · have := hfree b hin.1 hin.2
      simp [hin, this]
      omega
    · simp [hin]
  · rw [Finset.disjoint_left]
    intro b hb hin
    obtain ⟨-, -, hzero⟩ := Finset.mem_filter.1 hb
    rw [hused b, if_pos (Finset.mem_Ico.1 (Finset.mem_filter.1 hin).1)] at hzero
    cases hzero

end Count

/-! ## §4 — one extent, all extents -/

section Extents

variable {g : Geometry}

/-- The blocks of an extent. -/
def InRange (range : ℕ × ℕ) (b : ℕ) : Prop := range.1 ≤ b ∧ b < range.1 + range.2

instance (range : ℕ × ℕ) (b : ℕ) : Decidable (InRange range b) := by
  unfold InRange
  infer_instance

/-- The extents of a list have a block. -/
def Covered (ranges : List (ℕ × ℕ)) (b : ℕ) : Prop := ∃ range ∈ ranges, InRange range b

/-- An extent lies in the filesystem. -/
def InFs (g : Geometry) (range : ℕ × ℕ) : Prop :=
  g.sFirstDataBlock ≤ range.1 ∧ range.1 + range.2 ≤ g.sBlocksCount

/-- The count of a group is that of its free blocks. -/
def Counted (g : Geometry) (fs : FsBitmap) (grp : ℕ) : Prop :=
  fs.groupDesc grp = freeCount g fs.blockMap grp

/-- The two ways extents are charged. -/
inductive Charging : Bool → (ℕ → ℕ → ℕ) → Prop
  | mark : Charging true sub16
  | unmark : Charging false add16

/-- **One extent**: its blocks change, and the counts stay right. -/
theorem updateExtent_spec {used : Bool} {charge : ℕ → ℕ → ℕ} (hcharge : Charging used charge) {fuel : ℕ}
    {range : ℕ × ℕ} (hfs : InFs g range) (hfuel : range.2 < fuel)
    (hgood : ∀ b, InRange range b → b < groupEnd g b) {fs : FsBitmap}
    (hbefore : ∀ b, InRange range b → fs.blockMap b = !used) :
    ∃ fs', updateExtent g used charge fuel fs range.1 range.2 = some fs' ∧
      (∀ b, fs'.blockMap b = if InRange range b then used else fs.blockMap b) ∧
      ∀ grp, Counted g fs grp → Counted g fs' grp := by
  have hlt : range.1 + range.2 < 2 ^ 32 := lt_of_le_of_lt hfs.2 g.blocksCount_lt
  have hmap : ∀ b, setBlockBitmapRange g used fs.blockMap range.1 range.2 b =
      if InRange range b then used else fs.blockMap b := by
    intro b
    unfold setBlockBitmapRange
    rw [if_neg (by have := hfs.1; have := hfs.2; omega)]
    rfl
  have hadd : Additive charge := by
    cases hcharge with
    | mark => exact additive_sub16
    | unmark => exact additive_add16
  obtain ⟨groupDesc, hrun, hgroups⟩ := chargeGroups_spec hadd fuel hlt hfuel
    (fun b hlo hhi => hgood b ⟨hlo, hhi⟩) fs.groupDesc
  refine ⟨_, by rw [updateExtent, hrun, Option.map_some], hmap, fun grp hcounted => ?_⟩
  show groupDesc grp = freeCount g (setBlockBitmapRange g used fs.blockMap range.1 range.2) grp
  have hold := freeCount_lt (g := g) fs.blockMap grp
  rw [hgroups grp (by rw [hcounted]; exact hold), hcounted]
  cases hcharge with
  | mark =>
      have hcount := freeCount_add hfs.1 hfs.2 (fun b hlo hhi => hbefore b ⟨hlo, hhi⟩) hmap grp
      unfold sub16
      omega
  | unmark =>
      have hused : ∀ b, fs.blockMap b = if range.1 ≤ b ∧ b < range.1 + range.2 then true
          else setBlockBitmapRange g false fs.blockMap range.1 range.2 b := by
        intro b
        by_cases hin : range.1 ≤ b ∧ b < range.1 + range.2
        · rw [if_pos hin]
          exact hbefore b hin
        · rw [if_neg hin, hmap b]
          exact (if_neg hin).symm
      have hfree : ∀ b, range.1 ≤ b → b < range.1 + range.2 →
          setBlockBitmapRange g false fs.blockMap range.1 range.2 b = false := by
        intro b hlo hhi
        rw [hmap b]
        exact if_pos ⟨hlo, hhi⟩
      have hcount := freeCount_add hfs.1 hfs.2 hfree hused grp
      have hnew := freeCount_lt (g := g) (setBlockBitmapRange g false fs.blockMap range.1 range.2) grp
      unfold add16
      omega

/-- No block is in two extents. -/
def Apart (range range' : ℕ × ℕ) : Prop := ∀ b, ¬ (InRange range b ∧ InRange range' b)

/-- **All extents of a list**, which are apart. -/
theorem updateExtents_spec {used : Bool} {charge : ℕ → ℕ → ℕ} (hcharge : Charging used charge)
    {fuel : ℕ} {ranges : List (ℕ × ℕ)} (hfs : ∀ range ∈ ranges, InFs g range)
    (hfuel : ∀ range ∈ ranges, range.2 < fuel) (hgood : ∀ b, Covered ranges b → b < groupEnd g b)
    (hapart : ranges.Pairwise Apart) {fs : FsBitmap}
    (hbefore : ∀ b, Covered ranges b → fs.blockMap b = !used) :
    ∃ fs', ranges.foldlM (fun fs range => updateExtent g used charge fuel fs range.1 range.2) fs = some fs' ∧
      (∀ b, (Covered ranges b → fs'.blockMap b = used) ∧
        (¬ Covered ranges b → fs'.blockMap b = fs.blockMap b)) ∧
      ∀ grp, Counted g fs grp → Counted g fs' grp := by
  induction ranges generalizing fs with
  | nil => exact ⟨fs, rfl, fun b => ⟨nofun, fun _ => rfl⟩, fun grp h => h⟩
  | cons range ranges ih =>
      have hhead : range ∈ range :: ranges := List.mem_cons_self
      have hcons : ∀ b, Covered ranges b → Covered (range :: ranges) b :=
        fun b ⟨r, hr, hb⟩ => ⟨r, List.mem_cons_of_mem range hr, hb⟩
      obtain ⟨fs₁, hrun, hmap, hcounts⟩ := updateExtent_spec hcharge (hfs range hhead)
        (hfuel range hhead) (fun b hb => hgood b ⟨range, hhead, hb⟩)
        (fun b hb => hbefore b ⟨range, hhead, hb⟩)
      obtain ⟨happ, hrest⟩ := List.pairwise_cons.1 hapart
      have houtside : ∀ b, Covered ranges b → fs₁.blockMap b = !used := by
        rintro b ⟨r, hr, hb⟩
        rw [hmap b, if_neg fun hin => happ r hr b ⟨hin, hb⟩]
        exact hbefore b (hcons b ⟨r, hr, hb⟩)
      obtain ⟨fs', hrun', hmap', hcounts'⟩ := ih (fun r hr => hfs r (List.mem_cons_of_mem range hr))
        (fun r hr => hfuel r (List.mem_cons_of_mem range hr)) (fun b hb => hgood b (hcons b hb)) hrest
        houtside
      refine ⟨fs', ?_, fun b => ⟨fun hb => ?_, fun hb => ?_⟩, fun grp h => hcounts' grp (hcounts grp h)⟩
      · rw [List.foldlM_cons, hrun]
        exact hrun'
      · by_cases htail : Covered ranges b
        · exact (hmap' b).1 htail
        · obtain ⟨r, hr, hin⟩ := hb
          have hrange : r = range := by
            rcases List.mem_cons.1 hr with h | h
            · exact h
            · exact absurd ⟨r, h, hin⟩ htail
          rw [(hmap' b).2 htail, hmap b, if_pos (hrange ▸ hin)]
      · rw [(hmap' b).2 fun h => hb (hcons b h), hmap b, if_neg fun hin => hb ⟨range, hhead, hin⟩]

/-- **A list that is gone through has no block at or behind the end computed for it.** -/
theorem updateExtents_good {used : Bool} {charge : ℕ → ℕ → ℕ} {fuel : ℕ} {ranges : List (ℕ × ℕ)}
    (hfs : ∀ range ∈ ranges, InFs g range) {fs fs' : FsBitmap}
    (hrun : ranges.foldlM (fun fs range => updateExtent g used charge fuel fs range.1 range.2) fs =
      some fs') {b : ℕ} (hb : Covered ranges b) : b < groupEnd g b := by
  induction ranges generalizing fs with
  | nil =>
      obtain ⟨r, hr, -⟩ := hb
      cases hr
  | cons range ranges ih =>
      rw [List.foldlM_cons] at hrun
      obtain ⟨fs₁, hfirst, hrest⟩ := Option.bind_eq_some_iff.1 hrun
      obtain ⟨r, hr, hin⟩ := hb
      rcases List.mem_cons.1 hr with rfl | hr
      · by_contra hbad
        have hlt : r.1 + r.2 < 2 ^ 32 := lt_of_le_of_lt (hfs r List.mem_cons_self).2 g.blocksCount_lt
        have hnone : chargeGroups g charge fuel r.1 r.2 fs.groupDesc = none :=
          chargeGroups_eq_none fuel hlt ⟨b, hin.1, hin.2, Nat.le_of_not_lt hbad⟩ fs.groupDesc
        rw [updateExtent, hnone] at hfirst
        cases hfirst
      · exact ih (fun r hr => hfs r (List.mem_cons_of_mem range hr)) hrest ⟨r, hr, hin⟩

/-! ## §5 — the whole update -/

/-- The extents in blocks. -/
def freeRanges (freeExtents : List FreeExtent) : List (ℕ × ℕ) := freeExtents.map fun e => (e.block, e.len)
def originalRanges (inodes : List (List RemapExtent)) : List (ℕ × ℕ) :=
  inodes.flatten.map fun e => (e.block, e.len)

/-- What is given to `update_bitmap`: extents in the filesystem, no block in two of them, the free ones
unused and the original ones used. -/
structure Fits (g : Geometry) (freeExtents : List FreeExtent) (inodes : List (List RemapExtent))
    (fs : FsBitmap) : Prop where
  inFs : ∀ range ∈ freeRanges freeExtents ++ originalRanges inodes, InFs g range
  apart : (freeRanges freeExtents ++ originalRanges inodes).Pairwise Apart
  unused : ∀ b, Covered (freeRanges freeExtents) b → fs.blockMap b = false
  used : ∀ b, Covered (originalRanges inodes) b → fs.blockMap b = true

/-- The update ends, with the original extents free and the new ones used and nothing else changed, and
with the free blocks of every group counted if they were before. -/
def Updated (g : Geometry) (freeExtents : List FreeExtent) (inodes : List (List RemapExtent))
    (error : Bool) (fs : FsBitmap) : Prop :=
  ∃ fuel fs', updateBitmap g fuel freeExtents inodes error fs = some fs' ∧
    (∀ b, fs'.blockMap b = true ↔ Covered (freeRanges freeExtents) b ∨
      fs.blockMap b = true ∧ ¬ Covered (originalRanges inodes) b) ∧
    ∀ grp, Counted g fs grp → Counted g fs' grp

theorem updateBitmap_eq (fuel : ℕ) (freeExtents : List FreeExtent) (inodes : List (List RemapExtent))
    (error : Bool) (fs : FsBitmap) :
    updateBitmap g fuel freeExtents inodes error fs =
      ((freeRanges freeExtents).foldlM
        (fun fs range => updateExtent g true sub16 fuel fs range.1 range.2) fs).bind fun fs =>
      ((originalRanges inodes).foldlM
        (fun fs range => updateExtent g false add16 fuel fs range.1 range.2) fs).bind fun fs =>
      some (if error then { fs with exited := true } else { fs with superDirty := true }) := by
  unfold freeRanges originalRanges
  rw [List.foldlM_map]
  unfold updateBitmap
  congr 1
  funext fs
  rw [List.foldlM_map]
  cases error <;> rfl

/-- **The update is right when every block lies below the end computed for its group.** -/
theorem updated_iff_groupEnd {freeExtents : List FreeExtent} {inodes : List (List RemapExtent)}
    {error : Bool} {fs : FsBitmap} (h : Fits g freeExtents inodes fs) :
    Updated g freeExtents inodes error fs ↔
      ∀ b, Covered (freeRanges freeExtents ++ originalRanges inodes) b → b < groupEnd g b := by
  have hfree : ∀ range ∈ freeRanges freeExtents, InFs g range :=
    fun range hr => h.inFs range (List.mem_append_left _ hr)
  have horiginal : ∀ range ∈ originalRanges inodes, InFs g range :=
    fun range hr => h.inFs range (List.mem_append_right _ hr)
  constructor
  · rintro ⟨fuel, fs', hrun, -⟩ b ⟨range, hr, hb⟩
    rw [updateBitmap_eq] at hrun
    obtain ⟨fs₁, hfirst, hrest⟩ := Option.bind_eq_some_iff.1 hrun
    obtain ⟨fs₂, hsecond, -⟩ := Option.bind_eq_some_iff.1 hrest
    rcases List.mem_append.1 hr with hr | hr
    · exact updateExtents_good hfree hfirst ⟨range, hr, hb⟩
    · exact updateExtents_good horiginal hsecond ⟨range, hr, hb⟩
  · intro hgood
    obtain ⟨hapartFree, hapartOriginal, hcross⟩ := List.pairwise_append.1 h.apart
    have hfuel : ∀ range ∈ freeRanges freeExtents ++ originalRanges inodes, range.2 < 2 ^ 32 :=
      fun range hr => by
        have := (h.inFs range hr).2
        have := g.blocksCount_lt
        omega
    obtain ⟨fs₁, hfirst, hmap₁, hcounts₁⟩ := updateExtents_spec Charging.mark hfree
      (fun range hr => hfuel range (List.mem_append_left _ hr))
      (fun b ⟨r, hr, hb⟩ => hgood b ⟨r, List.mem_append_left _ hr, hb⟩) hapartFree h.unused
    have hnotFree : ∀ b, Covered (originalRanges inodes) b → ¬ Covered (freeRanges freeExtents) b :=
      fun b ⟨r, hr, hb⟩ ⟨r', hr', hb'⟩ => hcross r' hr' r hr b ⟨hb', hb⟩
    obtain ⟨fs₂, hsecond, hmap₂, hcounts₂⟩ := updateExtents_spec Charging.unmark horiginal
      (fun range hr => hfuel range (List.mem_append_right _ hr))
      (fun b ⟨r, hr, hb⟩ => hgood b ⟨r, List.mem_append_right _ hr, hb⟩) hapartOriginal
      (fun b hb => ((hmap₁ b).2 (hnotFree b hb)).trans (h.used b hb))
    refine ⟨2 ^ 32, if error then { fs₂ with exited := true } else { fs₂ with superDirty := true },
      ?_, fun b => ?_, fun grp hcounted => ?_⟩
    · rw [updateBitmap_eq, hfirst, Option.bind_some, hsecond, Option.bind_some]
    · have hsame : (if error then { fs₂ with exited := true } else { fs₂ with superDirty := true }
          : FsBitmap).blockMap = fs₂.blockMap := by cases error <;> rfl
      rw [hsame]
      by_cases horig : Covered (originalRanges inodes) b
      · rw [(hmap₂ b).1 horig]
        simp [horig, hnotFree b horig]
      · rw [(hmap₂ b).2 horig]
        by_cases hin : Covered (freeRanges freeExtents) b
        · simp [(hmap₁ b).1 hin, hin]
        · simp [(hmap₁ b).2 hin, hin, horig]
    · have hend := hcounts₂ grp (hcounts₁ grp hcounted)
      cases error <;> exact hend

/-- The end computed for the group of a block lies behind it where it does not wrap and the block is not
the last of its group with first data block 1. -/
theorem lt_groupEnd_iff (hfirst : g.sFirstDataBlock ≤ 1) {b : ℕ} (hb : g.sFirstDataBlock ≤ b) :
    b < groupEnd g b ↔ g.sBlocksPerGroup * (groupOfBlk g b + 1) < 2 ^ 32 ∧
      (g.sFirstDataBlock = 0 ∨ ¬ g.sBlocksPerGroup ∣ b) := by
  have hpos := g.blocksPerGroup_pos
  have hmod := Nat.div_add_mod (b - g.sFirstDataBlock) g.sBlocksPerGroup
  have hrest := Nat.mod_lt (b - g.sFirstDataBlock) hpos
  have hsucc : g.sBlocksPerGroup * (groupOfBlk g b + 1) =
      g.sBlocksPerGroup * ((b - g.sFirstDataBlock) / g.sBlocksPerGroup) + g.sBlocksPerGroup := by
    rw [Nat.mul_succ]
    rfl
  constructor
  · intro hlt
    have hwrap := (groupOfBlk_eq (Nat.le_refl b) hlt).2
    refine ⟨hwrap, ?_⟩
    rcases Nat.eq_zero_or_pos g.sFirstDataBlock with hzero | hone
    · exact .inl hzero
    · refine .inr fun ⟨k, hk⟩ => ?_
      unfold groupEnd at hlt
      rw [Nat.mod_eq_of_lt hwrap] at hlt
      -- the multiple lies between two neighbouring ones
      have hbelow : k < groupOfBlk g b + 1 := by
        apply Nat.lt_of_mul_lt_mul_left (a := g.sBlocksPerGroup)
        rw [← hk]
        exact hlt
      have habove : groupOfBlk g b < k := by
        unfold groupOfBlk
        rw [Nat.div_lt_iff_lt_mul hpos, Nat.mul_comm k]
        omega
      omega
  · rintro ⟨hwrap, hcase⟩
    unfold groupEnd
    rw [Nat.mod_eq_of_lt hwrap]
    rcases hcase with hzero | hnot
    · omega
    · have hne : b ≠ g.sBlocksPerGroup * (groupOfBlk g b + 1) := fun heq => hnot ⟨_, heq⟩
      omega

/-- **When `update_bitmap` is right**: no extent has the last block of a group with first data block 1, or
a block in a group whose end does not fit in 32 bits. -/
theorem updated_iff (g : Geometry) (hfirst : g.sFirstDataBlock ≤ 1) (freeExtents : List FreeExtent)
    (inodes : List (List RemapExtent)) (error : Bool) (fs : FsBitmap)
    (h : Fits g freeExtents inodes fs) :
    Updated g freeExtents inodes error fs ↔
      ∀ b, Covered (freeRanges freeExtents ++ originalRanges inodes) b →
        g.sBlocksPerGroup * (groupOfBlk g b + 1) < 2 ^ 32 ∧
          (g.sFirstDataBlock = 0 ∨ ¬ g.sBlocksPerGroup ∣ b) := by
  rw [updated_iff_groupEnd h]
  refine forall₂_congr fun b ⟨range, hr, hb⟩ => lt_groupEnd_iff hfirst ?_
  exact le_trans (h.inFs range hr).1 hb.1

/-- A filesystem of blocks of 1024 bytes. -/
def smallBlocks : Geometry := .kilobyteBlocks 65536 (by decide)

/-- The blocks before the last eight of the first group are in use. -/
def smallBlocksFs : FsBitmap := ⟨fun b => decide (b < 8184), fun _ => 0, false, false⟩

/-- Sixteen blocks at 200 have been copied to free ones that fit together with them. -/
theorem fits_smallBlocks {block : ℕ} (hlo : 8184 ≤ block) (hhi : block + 16 ≤ 65536) :
    Fits smallBlocks [⟨block, 16, 0⟩] [[⟨200, 16, 0, 0⟩]] smallBlocksFs := by
  refine ⟨?_, ?_, ?_, ?_⟩
  · simp [freeRanges, originalRanges, InFs, smallBlocks, MoveBlocks.Geometry.kilobyteBlocks]
    omega
  · simp [freeRanges, originalRanges, Apart, InRange]
    omega
  · rintro b ⟨range, hr, hb⟩
    simp [freeRanges] at hr
    simp [InRange, hr] at hb
    simp [smallBlocksFs]
    omega
  · rintro b ⟨range, hr, hb⟩
    simp [originalRanges] at hr
    simp [InRange, hr] at hb
    simp [smallBlocksFs]
    omega

theorem updated_iff_smallBlocks :
    Updated smallBlocks [⟨8200, 16, 0⟩] [[⟨200, 16, 0, 0⟩]] false smallBlocksFs ↔
      ∀ b, Covered (freeRanges [⟨8200, 16, 0⟩] ++ originalRanges [[⟨200, 16, 0, 0⟩]]) b →
        smallBlocks.sBlocksPerGroup * (groupOfBlk smallBlocks b + 1) < 2 ^ 32 ∧
          (smallBlocks.sFirstDataBlock = 0 ∨ ¬ smallBlocks.sBlocksPerGroup ∣ b) :=
  updated_iff smallBlocks (by decide) _ _ _ _ (fits_smallBlocks (by decide) (by decide))

/-- The free extent goes over the end of the first group. -/
theorem not_updated_across :
    ¬ ∀ (freeExtents : List FreeExtent) (inodes : List (List RemapExtent)) (fs : FsBitmap),
      Fits smallBlocks freeExtents inodes fs → Updated smallBlocks freeExtents inodes false fs := by
  intro h
  have hfits := fits_smallBlocks (Nat.le_refl 8184) (by decide)
  have hend := (updated_iff_groupEnd hfits).1 (h _ _ _ hfits) 8192
    ⟨(8184, 16), by simp [freeRanges], by decide, by decide⟩
  exact absurd hend (by decide)

end Extents

end Prefetch.Remap

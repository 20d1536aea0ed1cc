/-
# Prefetch.MoveBlocks.MainSpec — what a run of e2moveblocks does to a well-formed filesystem

From the room in the area and the refinement of the loop: the target pointer stays in the area, and a
run that reaches its end leaves every file readable and the filesystem well-formed.
-/
import Prefetch.MoveBlocks.Room

namespace Prefetch.MoveBlocks

open ExitProg FirstVisit

variable {g : Geometry}

/-! ## §1 — the run around the loop -/

section Equations

variable {s : RunState g} {relocations : List Relocation} {total lo : ℕ}

/-- Where the self-test fails, the program is gone before anything is read or written. -/
theorem main_of_testFailed (h : testEstimateBlocksForRange g = false) :
    main relocations s = .error .failedAssertion s := by
  rw [main, if_pos h]
  rfl

theorem main_of_testPassed (h : testEstimateBlocksForRange g = true) :
    main (g := g) relocations = moveLayout relocations := by
  rw [main, if_neg (by simp [h])]

theorem moveLayout_of_assertion (h : estimatedBlockSize g relocations = none) :
    moveLayout relocations s = .error .failedAssertion s := by
  unfold moveLayout
  rw [h]
  rfl

theorem moveLayout_of_noFreeSpace (h : estimatedBlockSize g relocations = some total)
    (hfind : findContiguousFreeSpace s (total % 2 ^ 32) = none) :
    moveLayout relocations s = .error .noFreeSpace s := by
  unfold moveLayout
  rw [h]
  dsimp only
  rw [get_bind, hfind]
  rfl

/-- `moveLayout` once the area is found. -/
theorem moveLayout_of_found (h : estimatedBlockSize g relocations = some total)
    (hfind : findContiguousFreeSpace s (total % 2 ^ 32) = some lo) :
    moveLayout relocations s
      = match relocatePairs ⟨lo, total % 2 ^ 32⟩ (layoutPairs relocations) (s.startAt lo) with
        | .ok _ s' => .ok () s'.closeFilesystem
        | .error e s' => .error e s' := by
  rw [← relocationLoop_eq]
  unfold moveLayout
  rw [h]
  dsimp only
  rw [get_bind, hfind]
  dsimp only
  rw [modify_bind]
  simp only [bind, EStateM.bind]
  cases relocationLoop ⟨lo, total % 2 ^ 32⟩ relocations (s.startAt lo) <;> rfl

end Equations

/-! ## §2 — room -/

/-- The places a layout has to move fit in the area `main` asks for. -/
def FitsArea (relocations : List Relocation) (s : RunState g) : Prop :=
  ∀ total, estimatedBlockSize g relocations = some total →
    ((walkPlaces g (layoutPairs relocations)).toFinset.filter fun p => s.view.ref p ≠ 0).card
      ≤ total % 2 ^ 32

/-- Without a wrap the estimate is enough. -/
theorem Accepted.fitsArea {relocations : List Relocation} {size : ℕ} (h : Accepted g relocations size)
    (s : RunState g) : FitsArea relocations s := by
  intro total htotal
  cases h.estimate_eq.symm.trans htotal
  rw [Nat.mod_eq_of_lt h.size_lt]
  exact (Finset.card_filter_le _ _).trans (card_walkPlaces_le h.noWrap h.estimate_eq)

/-- The loop starts in the area `main` has found, with the invariant and room for the walk. -/
theorem loop_start {reserved : Set ℕ} {s : RunState g} {relocations : List Relocation} {total lo : ℕ}
    (hopen : s.Opened) (hwf : WellFormed reserved s.view s.blockMap) (hfits : FitsArea relocations s)
    (h : estimatedBlockSize g relocations = some total)
    (hfind : findContiguousFreeSpace s (total % 2 ^ 32) = some lo) :
    ∃ area : Area g, area.range = ⟨lo, total % 2 ^ 32⟩ ∧ area.lo = lo ∧ area.hi = lo + total % 2 ^ 32
      ∧ Sound area reserved (s.startAt lo) (s.startAt lo).view (s.startAt lo)
      ∧ Room area (s.startAt lo).view (s.startAt lo) (walkPlaces g (layoutPairs relocations)) := by
  rcases findContiguousFreeSpace_area hwf hfind with ⟨area, hlo, hhi, hfree⟩
  have hsize := hfits total h
  have hplace : toPlace area.lo area.hi s.view.ref (walkPlaces g (layoutPairs relocations))
      ⊆ (walkPlaces g (layoutPairs relocations)).toFinset.filter fun p => s.view.ref p ≠ 0 := by
    intro p hp
    rcases Finset.mem_filter.mp hp with ⟨hmem, hp0, -⟩
    exact Finset.mem_filter.mpr ⟨hmem, hp0⟩
  refine ⟨area, ?_, hlo, hhi, ?_, ?_⟩
  · rw [Area.range, hlo, hhi, Nat.add_sub_cancel_left]
  · refine ⟨⟨hlo.le, ?_, ?_, fun _ _ => rfl, rfl, rfl⟩, hwf, fun _ _ => rfl, ?_, id⟩
    · show lo ≤ area.hi
      omega
    · show s.written.reverse = List.range' area.lo (lo - area.lo)
      rw [hopen.written_eq, hlo, Nat.sub_self]
      rfl
    · intro b hb
      exact hfree b (hlo.le.trans hb)
  · show (visitAll area.lo area.hi (track s.view (s.startAt lo)) _).next ≤ area.hi
    have hcard := (Finset.card_le_card hplace).trans hsize
    have hroom : (track s.view (s.startAt lo)).next + (toPlace area.lo area.hi s.view.ref
        (walkPlaces g (layoutPairs relocations))).card ≤ area.hi := by
      show lo + _ ≤ area.hi
      omega
    rw [visitAll_next (s := track s.view (s.startAt lo)) hlo.le hroom]
    exact hroom

/-! ## §3 — a small filesystem

Blocks of 1K, so 256 addresses per block. Of its fourteen blocks the first two are reserved. Inode 11 has the
four blocks of its first page and the one at offset 12, behind a single-indirect block. -/

section Sample

def sampleGeometry : Geometry := .kilobyteBlocks 15 (by decide)

def sampleInode : Ext2Inode where
  hasValidBlocks := true
  iBlock := fun slot => if slot.val < 4 then 3 + slot.val else if slot = 12 then 7 else 0

def sampleDisk : Disk sampleGeometry where
  inodes := fun n => if n = 11 then some sampleInode else none
  blocks := fun b i => if b = 7 then (if i.val = 0 then 8 else 0) else 100 + b
  blockBitmap := fun b => 1 ≤ b && b ≤ 8
  bgFreeBlocksCount := fun _ => 6

/-- The filesystem just opened, with the given accesses failing. -/
def sampleState (faults : ℕ → Bool) : RunState sampleGeometry where
  disk := sampleDisk
  blockMap := sampleDisk.blockBitmap
  groupDesc := sampleDisk.bgFreeBlocksCount
  sFreeBlocksCount := 6
  relocationBlock := 0
  faults := faults
  accesses := 0
  written := []

def sampleReserved : Set ℕ := {b | b = 1 ∨ b = 2}

/-- The blocks of inode 11, one relocation for each of its pages. -/
def sampleLayout : List Relocation := [⟨11, 0, 4⟩, ⟨11, 12, 1⟩]

theorem sampleState_opened (faults : ℕ → Bool) : (sampleState faults).Opened := ⟨rfl, rfl, rfl⟩

theorem sample_topWord (n : ℕ) (slot : Fin 15) :
    sampleDisk.view.topWord n slot = if n = 11 then sampleInode.iBlock slot else 0 := by
  by_cases hn : n = 11
  · subst hn
    rfl
  · simp [View.topWord, Disk.view, sampleDisk, hn]

/-- The slots of inode 11. -/
theorem sampleInode_iBlock (slot : Fin 15) :
    sampleInode.iBlock slot = if slot = 0 then 3 else if slot = 1 then 4 else if slot = 2 then 5
      else if slot = 3 then 6 else if slot = 12 then 7 else 0 := by
  revert slot
  decide

/-- Below the inode only the first word of the single-indirect block refers to a block. -/
theorem sample_ref_child (p : Place sampleGeometry) (i : Fin sampleGeometry.addrPerBlock)
    (hi : p.path.length < slotDepth p.slot) :
    sampleDisk.view.ref (p.child i hi) = if p = Place.top 11 12 ∧ i.val = 0 then 8 else 0 := by
  induction p using Place.induction generalizing i with
  | top n slot =>
      rw [View.ref_child, View.ref_top, sample_topWord, sampleInode_iBlock]
      by_cases hn : n = 11
      · subst hn
        rw [if_pos rfl]
        by_cases h12 : slot = 12
        · subst h12
          simp only [true_and]
          rfl
        · have hdeep : ∀ slot : Fin 15, 0 < slotDepth slot → slot ≠ 12 → slot ≠ 0 ∧ slot ≠ 1 ∧ slot ≠ 2 ∧ slot ≠ 3 := by
            decide
          have hslot := hdeep slot hi h12
          rw [if_neg hslot.1, if_neg hslot.2.1, if_neg hslot.2.2.1, if_neg hslot.2.2.2, if_neg h12,
            if_neg fun h => h12 ((Place.top_inj ..).mp h.1).2]
          rfl
      · rw [if_neg hn, if_neg fun h => hn ((Place.top_inj ..).mp h.1).1]
        rfl
  | child p j hj ih =>
      have hout : ¬ (p.child j hj = Place.top 11 12 ∧ i.val = 0) := fun h => Place.child_ne_top _ _ _ _ _ h.1
      rw [View.ref_child, ih, if_neg hout]
      by_cases hp : p = Place.top 11 12
      · subst hp
        exact absurd hi (by show ¬ 1 < 1; decide)
      · rw [if_neg fun h => hp h.1]
        rfl

/-- Six places refer to blocks. -/
theorem sample_ref (p : Place sampleGeometry) :
    sampleDisk.view.ref p
      = if p = Place.top 11 0 then 3 else if p = Place.top 11 1 then 4 else if p = Place.top 11 2 then 5
        else if p = Place.top 11 3 then 6 else if p = Place.top 11 12 then 7
        else if p = indWord 11 12 then 8 else 0 := by
  induction p using Place.induction with
  | top n slot =>
      have hword : (Place.top n slot : Place sampleGeometry) ≠ indWord 11 12 :=
        fun h => Place.child_ne_top _ _ _ _ _ h.symm
      simp only [hword, if_false, View.ref_top, Place.top_inj, sample_topWord, sampleInode_iBlock]
      by_cases hn : n = 11
      · simp only [hn, true_and, if_true]
      · simp only [hn, false_and, if_false]
  | child p i hi ih =>
      have htop : ∀ slot, p.child i hi ≠ Place.top 11 slot := fun slot => Place.child_ne_top _ _ _ _ _
      have hword : p.child i hi = indWord 11 12 ↔ p = Place.top 11 12 ∧ i.val = 0 := by
        simp only [indWord, Place.child_inj, ext2IndBlock, Fin.ext_iff]
        rfl
      simp only [htop, hword, if_false, sample_ref_child]

/-- The place that refers to a block of the file. -/
def samplePlace (b : ℕ) : Place sampleGeometry :=
  if b = 3 then Place.top 11 0 else if b = 4 then Place.top 11 1 else if b = 5 then Place.top 11 2
  else if b = 6 then Place.top 11 3 else if b = 7 then Place.top 11 12 else indWord 11 12

theorem sample_ref_samplePlace {b : ℕ} (hb : 3 ≤ b ∧ b ≤ 8) : sampleDisk.view.ref (samplePlace b) = b := by
  have hcases : b = 3 ∨ b = 4 ∨ b = 5 ∨ b = 6 ∨ b = 7 ∨ b = 8 := by omega
  rcases hcases with rfl | rfl | rfl | rfl | rfl | rfl <;> decide

theorem eq_samplePlace {p : Place sampleGeometry} (hp : sampleDisk.view.ref p ≠ 0) :
    p = samplePlace (sampleDisk.view.ref p) ∧ 3 ≤ sampleDisk.view.ref p ∧ sampleDisk.view.ref p ≤ 8 := by
  rw [sample_ref] at hp ⊢
  split_ifs at hp ⊢ with h3 h4 h5 h6 h7 h8
  · exact ⟨h3, by decide, by decide⟩
  · exact ⟨h4, by decide, by decide⟩
  · exact ⟨h5, by decide, by decide⟩
  · exact ⟨h6, by decide, by decide⟩
  · exact ⟨h7, by decide, by decide⟩
  · exact ⟨h8, by decide, by decide⟩
  · exact absurd rfl hp

/-- The filesystem is well-formed. -/
theorem sample_wellFormed (faults : ℕ → Bool) :
    WellFormed sampleReserved (sampleState faults).view (sampleState faults).blockMap := by
  have hused : ∀ b, sampleDisk.blockBitmap b = true ↔ 1 ≤ b ∧ b ≤ 8 := fun b => by
    simp [sampleDisk]
  refine ⟨⟨fun b => ?_, fun p hp => ?_, fun b hb hres => ?_⟩, fun b hb => ?_, fun h => absurd h (by decide)⟩
  · rw [show (sampleState faults).blockMap b = sampleDisk.blockBitmap b from rfl, hused]
    constructor
    · rintro ⟨h1, h8⟩
      by_cases h3 : 3 ≤ b
      · exact Or.inr ⟨by omega, _, sample_ref_samplePlace ⟨h3, h8⟩⟩
      · exact Or.inl (show b = 1 ∨ b = 2 by omega)
    · rintro ((rfl | rfl) | ⟨hb, p, rfl⟩)
      · decide
      · decide
      · have h := (eq_samplePlace hb).2
        exact ⟨le_trans (by decide) h.1, h.2⟩
  · have h := (eq_samplePlace hp).2.1
    show ¬ (sampleDisk.view.ref p = 1 ∨ sampleDisk.view.ref p = 2)
    omega
  · have hle := (hused b).mp hb
    have hne : ¬ (b = 1 ∨ b = 2) := hres
    have hb3 : 3 ≤ b ∧ b ≤ 8 := by omega
    refine ⟨_, sample_ref_samplePlace hb3, fun p hp => ?_⟩
    have hp' : sampleDisk.view.ref p = b := hp
    have h := (eq_samplePlace (p := p) (by omega)).1
    rwa [hp'] at h
  · have hb' := (hused b).mp hb
    unfold inBlockMap
    simp only [Bool.and_eq_true, decide_eq_true_eq]
    show 1 ≤ b ∧ b < 15
    omega

theorem sample_groupCounts (faults : ℕ → Bool) :
    GroupCountsExact sampleGeometry (sampleState faults).groupDesc (sampleState faults).blockMap := by
  intro group hgroup
  rcases hgroup with ⟨b, hb⟩
  have hgroup0 : group = 0 := by
    rcases Finset.mem_filter.mp hb with ⟨hrange, rfl⟩
    have hlt : b < 15 := (Finset.mem_Ico.mp hrange).2
    exact Nat.div_eq_of_lt (by show b - 1 < 8192; omega)
  subst hgroup0
  show (6 : ℕ) = (Ownership.freeIn sampleDisk.blockBitmap (groupBlocks sampleGeometry 0)).card
  decide

theorem sample_accepted : Accepted sampleGeometry sampleLayout 6 where
  noWrap := by decide
  estimate_eq := by decide
  size_lt := by decide

theorem sample_testPassed : testEstimateBlocksForRange sampleGeometry = true :=
  testEstimateBlocksForRange_small _ (Or.inl rfl)

theorem sample_found (faults : ℕ → Bool) : findContiguousFreeSpace (sampleState faults) 6 = some 9 := by
  rfl

end Sample

/-! ## §4 — the target pointer -/

/-- The target pointer and every target written lie in the area of `size` blocks from `lo`. -/
structure TargetsInArea (lo size : ℕ) (s : RunState g) : Prop where
  lo_le : lo ≤ s.relocationBlock
  le_hi : s.relocationBlock ≤ lo + size
  written : ∀ b ∈ s.written, lo ≤ b ∧ b < lo + size

/-- **The target pointer stays in the area.** After every prefix of the loop, and at an exit from it,
the pointer and all targets written so far lie in the area `find_contiguous_free_space` found, and no
exit reports an occupied target. -/
theorem relocation_stays_in_area {reserved : Set ℕ} {s : RunState g} {relocations : List Relocation}
    {size lo : ℕ} {done : List (ℕ × ℕ)} (hopen : s.Opened)
    (hwf : WellFormed reserved s.view s.blockMap) (hacc : Accepted g relocations size)
    (hfind : findContiguousFreeSpace s size = some lo) (hdone : done <+: layoutPairs relocations) :
    wp (relocatePairs ⟨lo, size⟩ done) (fun _ s' => TargetsInArea lo size s')
      (fun e s' => TargetsInArea lo size s' ∧ e ≠ .targetOccupied) (s.startAt lo) := by
  have hmod := Nat.mod_eq_of_lt hacc.size_lt
  have hstart := loop_start hopen hwf (hacc.fitsArea s) hacc.estimate_eq (by rwa [hmod])
  rw [hmod] at hstart
  rcases hstart with ⟨area, hrange, hlo, hhi, hsound, hroom⟩
  have hin : ∀ s', Confined area (s.startAt lo) s' → TargetsInArea lo size s' := fun s' hs' => by
    rw [← hlo]
    refine ⟨hs'.lo_le, ?_, fun b hb => ?_⟩
    · have := hs'.le_hi
      omega
    · have := hs'.mem_area hb
      omega
  rcases hdone with ⟨rest, hpairs⟩
  -- a prefix of the loop needs a part of the room only
  have hwalk : walkPlaces g (layoutPairs relocations) = walkPlaces g done ++ walkPlaces g rest := by
    rw [← hpairs, walkPlaces, List.flatMap_append]
    rfl
  rw [← hrange]
  refine wp_mono (relocatePairs_spec hsound (hwalk ▸ hroom).of_append) ?_ ?_
  · intro _ s' hs'
    exact hin s' hs'.1.toConfined
  · rintro e s' ⟨_, _, _, _, _, _, _, hexit⟩
    refine ⟨hin s' hexit.confined, ?_⟩
    rintro rfl
    exact absurd hexit.fault (by decide)

section Sample

-- the run is not to be computed to see what kind of statement this is
attribute [local irreducible] wp

theorem relocation_stays_in_area_sample :
    wp (relocatePairs ⟨9, 6⟩ [(11, 0), (11, 1), (11, 2), (11, 3), (11, 12)]) (fun _ s' => TargetsInArea 9 6 s')
      (fun e s' => TargetsInArea 9 6 s' ∧ e ≠ .targetOccupied)
      ((sampleState fun _ => false).startAt 9) := by
  have h := relocation_stays_in_area (sampleState_opened fun _ => false) (sample_wellFormed _) sample_accepted
    (sample_found _) (List.prefix_refl _)
  exact h

end Sample

/-! ## §5 — every file is preserved -/

/-- **e2moveblocks preserves every file.** When `main` returns, every file reads as before and the
filesystem it has written is well-formed, with exact group counts. No assertion fails but one of the
self-test, and that before anything is written. -/
theorem main_preserves_files {reserved : Set ℕ} {s : RunState g} {relocations : List Relocation}
    {size : ℕ} (hopen : s.Opened) (hwf : WellFormed reserved s.view s.blockMap)
    (hcounts : GroupCountsExact g s.groupDesc s.blockMap) (hacc : Accepted g relocations size) :
    wp (main relocations)
      (fun _ s' => (∀ n b, s'.view.readBlock n b = s.view.readBlock n b)
        ∧ WellFormed reserved s'.view s'.disk.blockBitmap
        ∧ GroupCountsExact g s'.disk.bgFreeBlocksCount s'.disk.blockBitmap)
      (fun e s' => e = .failedAssertion → testEstimateBlocksForRange g = false ∧ s' = s) s := by
  have hmod := Nat.mod_eq_of_lt hacc.size_lt
  cases htest : testEstimateBlocksForRange g with
  | false =>
      rw [wp, main_of_testFailed htest]
      exact fun _ => ⟨rfl, rfl⟩
  | true =>
  rw [main_of_testPassed htest]
  cases hfind : findContiguousFreeSpace s (size % 2 ^ 32) with
  | none =>
      rw [wp, moveLayout_of_noFreeSpace hacc.estimate_eq hfind]
      intro h
      cases h
  | some lo =>
      rcases loop_start hopen hwf (hacc.fitsArea s) hacc.estimate_eq hfind with
        ⟨area, hrange, hlo, hhi, hsound, hroom⟩
      have hspec := relocatePairs_spec hsound hroom
      rw [hrange] at hspec
      rw [wp, moveLayout_of_found hacc.estimate_eq hfind]
      unfold wp at hspec
      split at hspec
      next s' hrun =>
        rw [hrun]
        exact ⟨hspec.1.reads, hspec.1.wf, hspec.1.counts hcounts⟩
      next e s' hrun =>
        rw [hrun]
        -- the only exit from the loop is a failed access
        rcases hspec with ⟨_, _, _, _, _, _, _, hexit⟩
        rintro rfl
        exact absurd hexit.fault (by decide)

section Sample

attribute [local irreducible] wp

/-- With no failing access the run on the small filesystem returns. -/
theorem sample_returns : ∃ s', main sampleLayout (sampleState fun _ => false) = .ok () s' := by
  rw [main_of_testPassed sample_testPassed]
  have hok : (match moveLayout sampleLayout (sampleState fun _ => false) with
      | .ok _ _ => true
      | .error _ _ => false) = true := by decide +kernel
  cases hrun : moveLayout sampleLayout (sampleState fun _ => false) with
  | ok _ s' => exact ⟨s', rfl⟩
  | error e s' => rw [hrun] at hok; cases hok

theorem main_preserves_files_sample :
    ∃ s', main sampleLayout (sampleState fun _ => false) = .ok () s'
      ∧ (∀ n b, s'.view.readBlock n b = (sampleState fun _ => false).view.readBlock n b)
      ∧ WellFormed sampleReserved s'.view s'.disk.blockBitmap
      ∧ GroupCountsExact sampleGeometry s'.disk.bgFreeBlocksCount s'.disk.blockBitmap := by
  rcases sample_returns with ⟨s', hrun⟩
  have hspec := main_preserves_files (sampleState_opened fun _ => false) (sample_wellFormed _)
    (sample_groupCounts _) sample_accepted
  rw [wp, hrun] at hspec
  exact ⟨s', hrun, hspec⟩

end Sample

end Prefetch.MoveBlocks

/-
# Prefetch.MoveBlocks.ExitSafety — what an exit leaves on the device

Inodes and indirect blocks are written as the loop goes, the bitmap only by `close_filesystem`, which
an exit skips. So an exit in the middle of a layout leaves a device whose inodes refer to blocks its
bitmap calls free, as soon as one earlier pair has been moved; the files still read as before.
-/
import Prefetch.MoveBlocks.MainSpec

namespace Prefetch.MoveBlocks

open ExitProg FirstVisit

variable {g : Geometry}

/-! ## §1 — safety of a device -/

/-- Every block reachable from an inode is marked used, and every file reads as in `original`. -/
structure DiskSafe (original : View g) (disk : Disk g) : Prop where
  marked : ∀ p, disk.view.ref p ≠ 0 → disk.blockBitmap (disk.view.ref p) = true
  reads : ∀ n b, disk.view.readBlock n b = original.readBlock n b

/-- There is no block on the way to this offset: the inode has no valid blocks, or its `i_block` slot
for the offset is a hole, or the offset lies in the triple-indirect region. -/
def NothingToMove (v : View g) (q : ℕ × ℕ) : Prop := ∀ p ∈ pathPlaces g q.1 q.2, v.ref p = 0

/-- The way to an offset begins with a slot of the inode, and leads nowhere if that is a hole. -/
theorem exists_top_of_not_nothingToMove {v : View g} {q : ℕ × ℕ} (h : ¬ NothingToMove v q) :
    ∃ slot, Place.top q.1 slot ∈ pathPlaces g q.1 q.2 ∧ v.ref (Place.top q.1 slot) ≠ 0 := by
  simp only [NothingToMove, not_forall] at h
  rcases h with ⟨p, hp, hp0⟩
  unfold pathPlaces at hp ⊢
  split_ifs at hp ⊢ with h0 h1 h2
  · rcases List.mem_singleton.mp hp with rfl
    exact ⟨_, List.mem_singleton_self _, hp0⟩
  · refine ⟨ext2IndBlock, List.mem_cons_self, ?_⟩
    simp only [List.mem_cons, List.not_mem_nil, or_false] at hp
    rcases hp with rfl | rfl
    · exact hp0
    · exact View.ref_child_ne_zero hp0
  · refine ⟨ext2DindBlock, List.mem_cons_self, ?_⟩
    simp only [List.mem_cons, List.not_mem_nil, or_false] at hp
    rcases hp with rfl | rfl | rfl
    · exact hp0
    · exact View.ref_child_ne_zero hp0
    · exact View.ref_child_ne_zero (View.ref_child_ne_zero hp0)
  · exact absurd hp List.not_mem_nil

/-! ## §2 — one exit -/

section Exit

variable {area : Area g} {reserved : Set ℕ} {s₀ s₁ s' : RunState g} {done : List (ℕ × ℕ)}
  {e : ExitReason}

/-- The blocks referred to when the loop starts lie outside the area. -/
theorem Sound.ref_outside (h : Sound area reserved s₀ s₀.view s₀) (hlo : s₀.relocationBlock = area.lo)
    {p : Place g} (hp : s₀.view.ref p ≠ 0) :
    ¬ (area.lo ≤ s₀.view.ref p ∧ s₀.view.ref p < area.hi) := by
  rintro ⟨h1, h2⟩
  have hused := h.wf.ref_used hp
  rw [h.free _ (hlo.trans_le h1) h2] at hused
  exact absurd hused (by decide)

/-- While nothing has been moved, an exit leaves the references of the start. -/
theorem Exited.ref_eq (h : Sound area reserved s₀ s₀.view s₀) (hlo : s₀.relocationBlock = area.lo)
    (hs₁ : s₁.view.ref = s₀.view.ref) (he : Exited area s₀ s₁ e s') (p : Place g) :
    s'.view.ref p = s₀.view.ref p := by
  induction p using Place.induction with
  | top n slot =>
      have htop : s'.view.topWord n slot = s₁.view.topWord n slot := by
        simp only [View.topWord, RunState.view, Disk.view, he.inodes_eq]
      exact htop.trans (congrFun hs₁ (Place.top n slot))
  | child p i hi ih =>
      rw [View.ref_child, View.ref_child, ih, View.deref, View.deref]
      by_cases hp : s₀.view.ref p = 0
      · rw [if_pos hp, if_pos hp]
      · rw [if_neg hp, if_neg hp]
        exact congrFun (he.confined.outside _ (h.ref_outside hlo hp)) i

/-- **One exit.** The device an exit leaves is safe exactly if no completed pair had anything to
move. -/
theorem Exited.diskSafe_iff (h : Sound area reserved s₀ s₀.view s₀) (hlo : s₀.relocationBlock = area.lo)
    (hbitmap : s₀.blockMap = s₀.disk.blockBitmap)
    (hroom : Room area s₀.view s₀ (walkPlaces g done))
    (htrack : track s₁.view s₁ = visitAll area.lo area.hi (track s₀.view s₀) (walkPlaces g done))
    (he : Exited area s₀ s₁ e s') :
    DiskSafe s₀.view s'.disk ↔ ∀ q ∈ done, NothingToMove s₀.view q := by
  constructor
  · intro hsafe q hq
    by_contra hmoved
    rcases exists_top_of_not_nothingToMove hmoved with ⟨slot, hmem, htop⟩
    have hwalk : Place.top q.1 slot ∈ walkPlaces g done := List.mem_flatMap.mpr ⟨q, hq, hmem⟩
    -- after the walk the slot holds a block of the area
    have hne : s₁.view.ref (Place.top q.1 slot) ≠ 0 := by
      have hzero : (visitAll area.lo area.hi (track s₀.view s₀) (walkPlaces g done)).addr
          (Place.top q.1 slot) = 0 ↔ s₀.view.ref (Place.top q.1 slot) = 0 :=
        visitAll_addr_eq_zero_iff h.lo_le area.lo_pos
      rw [← htrack] at hzero
      exact fun h0 => htop (hzero.mp h0)
    have harea : area.lo ≤ s₁.view.ref (Place.top q.1 slot)
        ∧ s₁.view.ref (Place.top q.1 slot) < area.hi := by
      have hset := not_unsettled_visitAll (s := track s₀.view s₀) h.lo_le hroom hwalk
      rw [← htrack] at hset
      by_contra hout
      exact hset ⟨hne, hout⟩
    -- the device refers to it, and its bitmap has it free
    have hdisk : s'.disk.view.ref (Place.top q.1 slot) = s₁.view.ref (Place.top q.1 slot) := by
      rw [View.ref_top, View.ref_top]
      simp only [View.topWord, RunState.view, Disk.view, he.inodes_eq]
    have hmark := hsafe.marked (Place.top q.1 slot) (by rwa [hdisk])
    rw [hdisk, he.confined.blockBitmap, ← hbitmap, h.free _ (hlo.trans_le harea.1) harea.2] at hmark
    exact absurd hmark (by decide)
  · intro hnothing
    have hs₁ : s₁.view.ref = s₀.view.ref := by
      have hkeep : visitAll area.lo area.hi (track s₀.view s₀) (walkPlaces g done)
          = track s₀.view s₀ := by
        refine visitAll_of_settled fun p hp hu => hu.1 ?_
        rcases List.mem_flatMap.mp hp with ⟨q, hq, hpq⟩
        exact hnothing q hq p hpq
      rw [hkeep] at htrack
      exact congrArg FirstVisit.State.addr htrack
    have href : ∀ p, s'.disk.view.ref p = s₀.view.ref p := he.ref_eq h hlo hs₁
    refine ⟨fun p hp => ?_, fun n b => ?_⟩
    · rw [href] at hp ⊢
      rw [he.confined.blockBitmap, ← hbitmap]
      exact h.wf.ref_used hp
    · unfold View.readBlock
      refine congrArg (Option.bind (offsetPlace n b)) (funext fun p => ?_)
      rw [href]
      by_cases hp : s₀.view.ref p = 0
      · rw [if_pos hp, if_pos hp]
      · rw [if_neg hp, if_neg hp]
        exact congrArg some (he.confined.outside _ (h.ref_outside hlo hp))

end Exit

/-! ## §3 — every way a run can end -/

/-- The state a run leaves, however it ends. -/
def leftBehind {ε σ α : Type} : EStateM.Result ε σ α → σ
  | .ok _ s => s
  | .error _ s => s

/-- The area `main` relocates to, if it gets as far: past its self-test, the estimates of the list and the
search for free space. -/
def relocationArea (relocations : List Relocation) (s : RunState g) : Option BlockRange :=
  if testEstimateBlocksForRange g = false then none
  else
    match estimatedBlockSize g relocations with
    | none => none
    | some total =>
        (findContiguousFreeSpace s (total % 2 ^ 32)).map fun lo => ⟨lo, total % 2 ^ 32⟩

/-- The point of failure: the call on `q` exits, those on `done` have returned. -/
def FailsAt (range : BlockRange) (pairs : List (ℕ × ℕ)) (s : RunState g) (done : List (ℕ × ℕ))
    (q : ℕ × ℕ) : Prop :=
  ∃ rest s₁ e s', pairs = done ++ q :: rest ∧ relocatePairs range done s = .ok () s₁
    ∧ relocateBlock range q.1 q.2 s₁ = .error e s'

/-- One point of failure decides: what is on the device when a pair fails is safe exactly if none of the
pairs before it had anything to move. -/
theorem failure_diskSafe_iff (h : Sound area reserved s₀ s₀.view s₀)
    (hlo : s₀.relocationBlock = area.lo) (hbitmap : s₀.blockMap = s₀.disk.blockBitmap)
    {pairs rest : List (ℕ × ℕ)} {q : ℕ × ℕ} (hroom : Room area s₀.view s₀ (walkPlaces g pairs))
    (hpairs : pairs = done ++ q :: rest) (hdone : relocatePairs area.range done s₀ = .ok () s₁)
    (hfail : relocateBlock area.range q.1 q.2 s₁ = .error e s') :
    DiskSafe s₀.view s'.disk ↔ ∀ q' ∈ done, NothingToMove s₀.view q' := by
  have hwalk : walkPlaces g pairs
      = walkPlaces g done ++ (pathPlaces g q.1 q.2 ++ walkPlaces g rest) := by
    simp [walkPlaces, hpairs]
  rw [hwalk] at hroom
  have hok := wp_ok (relocatePairs_spec h hroom.of_append) hdone
  have hroomq : Room area s₁.view s₁ (pathPlaces g q.1 q.2) := by
    rw [← List.append_assoc] at hroom
    have hprefix := hroom.of_append
    unfold Room at hprefix ⊢
    rwa [visitAll_append, ← hok.2] at hprefix
  have hexit := wp_error (relocateBlock_spec hok.1 hroomq) hfail
  exact hexit.diskSafe_iff h hlo hbitmap hroom.of_append hok.2

/-- The loop as a whole: it ends at its one point of failure, or leaves everything written. -/
theorem relocatePairs_leaves_safe_iff (h : Sound area reserved s₀ s₀.view s₀)
    (hlo : s₀.relocationBlock = area.lo) (hbitmap : s₀.blockMap = s₀.disk.blockBitmap)
    {pairs : List (ℕ × ℕ)} (hroom : Room area s₀.view s₀ (walkPlaces g pairs))
    {range : BlockRange} (hrange : area.range = range) :
    DiskSafe s₀.view
        (match relocatePairs range pairs s₀ with
          | .ok _ s' => s'.closeFilesystem.disk
          | .error _ s' => s'.disk)
      ↔ ∀ done q, FailsAt range pairs s₀ done q → ∀ q' ∈ done, NothingToMove s₀.view q' := by
  subst hrange
  cases hrun : relocatePairs area.range pairs s₀ with
  | ok _ s' =>
      have hend := (wp_ok (relocatePairs_spec h hroom) hrun).1
      refine ⟨fun _ done q hfail => ?_, fun _ => ⟨fun p hp => hend.wf.ref_used hp, hend.reads⟩⟩
      -- the loop did not fail
      rcases hfail with ⟨rest, s₁, e, s'', hpairs, hdone, hq⟩
      have herr := forM_error_iff.mpr ⟨done, q, rest, s₁, hpairs, hdone, hq⟩
      exact absurd (hrun.symm.trans herr) (by simp)
  | error e s' =>
      constructor
      · rintro hsafe done q ⟨rest, s₁, e', s'', hpairs, hdone, hq⟩
        have herr := forM_error_iff.mpr ⟨done, q, rest, s₁, hpairs, hdone, hq⟩
        cases hrun.symm.trans herr
        exact (failure_diskSafe_iff h hlo hbitmap hroom hpairs hdone hq).mp hsafe
      · intro hnothing
        rcases forM_error_iff.mp hrun with ⟨done, q, rest, s₁, hpairs, hdone, hq⟩
        exact (failure_diskSafe_iff h hlo hbitmap hroom hpairs hdone hq).mpr
          (hnothing done q ⟨rest, s₁, e, s', hpairs, hdone, hq⟩)

/-- **When the device left behind is safe.** Whatever accesses fail, the device `main` leaves is safe if
and only if no pair that had a block to move was completed before the one the run failed at. -/
theorem main_leaves_safe_iff {reserved : Set ℕ} {s : RunState g} {relocations : List Relocation}
    (hopen : s.Opened) (hwf : WellFormed reserved s.view s.blockMap) (hfits : FitsArea relocations s) :
    DiskSafe s.view (leftBehind (main relocations s)).disk
      ↔ ∀ range ∈ relocationArea relocations s, ∀ done q,
        FailsAt range (layoutPairs relocations) (s.startAt range.startBlock) done q →
        ∀ q' ∈ done, NothingToMove s.view q' := by
  have hstay : DiskSafe s.view s.disk := by
    refine ⟨fun p hp => ?_, fun _ _ => rfl⟩
    rw [← hopen.blockMap_eq]
    exact hwf.ref_used hp
  cases htest : testEstimateBlocksForRange g with
  | false =>
      rw [main_of_testFailed htest, relocationArea, if_pos htest]
      exact ⟨fun _ range hrange => absurd hrange (by simp), fun _ => hstay⟩
  | true =>
  have hpassed : ¬ testEstimateBlocksForRange g = false := by simp [htest]
  rw [main_of_testPassed htest]
  cases htotal : estimatedBlockSize g relocations with
  | none =>
      rw [moveLayout_of_assertion htotal, relocationArea, if_neg hpassed, htotal]
      exact ⟨fun _ range hrange => absurd hrange (by simp), fun _ => hstay⟩
  | some total =>
      cases hfind : findContiguousFreeSpace s (total % 2 ^ 32) with
      | none =>
          rw [moveLayout_of_noFreeSpace htotal hfind, relocationArea, if_neg hpassed, htotal]
          simp only [hfind]
          exact ⟨fun _ range hrange => absurd hrange (by simp), fun _ => hstay⟩
      | some lo =>
          rcases loop_start hopen hwf hfits htotal hfind with ⟨area, hrange, hlo, -, hsound, hroom⟩
          have hlo' : (s.startAt lo).relocationBlock = area.lo := hlo.symm
          have harea : relocationArea relocations s = some ⟨lo, total % 2 ^ 32⟩ := by
            simp only [relocationArea, if_neg hpassed, htotal, hfind, Option.map_some]
          have hloop := relocatePairs_leaves_safe_iff hsound hlo' hopen.blockMap_eq hroom hrange
          rw [harea, moveLayout_of_found htotal hfind]
          simp only [Option.mem_some_iff, forall_eq']
          refine Iff.trans ?_ hloop
          cases relocatePairs ⟨lo, total % 2 ^ 32⟩ (layoutPairs relocations) (s.startAt lo) with
          | ok _ s' => exact Iff.rfl
          | error e s' => exact Iff.rfl

theorem sample_fitsArea (faults : ℕ → Bool) : FitsArea sampleLayout (sampleState faults) :=
  sample_accepted.fitsArea _

theorem main_leaves_safe_iff_sample :
    DiskSafe (sampleState fun _ => false).view
        (leftBehind (main sampleLayout (sampleState fun _ => false))).disk
      ↔ ∀ range ∈ relocationArea sampleLayout (sampleState fun _ => false), ∀ done q,
        FailsAt range (layoutPairs sampleLayout)
          ((sampleState fun _ => false).startAt range.startBlock) done q →
        ∀ q' ∈ done, NothingToMove (sampleState fun _ => false).view q' :=
  main_leaves_safe_iff (sampleState_opened _) (sample_wellFormed _) (sample_fitsArea _)

/-- The run whose seventh access fails: block 3 has moved to block 9, which inode 11 refers to on the
device, and reading the inode for the second pair fails. -/
theorem exit_after_move_unsafe :
    (sampleState fun k => k == 6).Opened
      ∧ WellFormed sampleReserved (sampleState fun k => k == 6).view (sampleState fun k => k == 6).blockMap
      ∧ Accepted sampleGeometry sampleLayout 6
      ∧ ¬ DiskSafe (sampleState fun k => k == 6).view
        (leftBehind (main sampleLayout (sampleState fun k => k == 6))).disk := by
  refine ⟨sampleState_opened _, sample_wellFormed _, sample_accepted, fun hsafe => ?_⟩
  have href : (leftBehind (main sampleLayout (sampleState fun k => k == 6))).disk.view.ref
      (Place.top 11 0) = 9 := by decide
  have hmark := hsafe.marked (Place.top 11 0) (by rw [href]; decide)
  rw [href] at hmark
  have hfree : (leftBehind (main sampleLayout (sampleState fun k => k == 6))).disk.blockBitmap 9
      = false := by decide
  exact absurd (hfree.symm.trans hmark) (by decide)

end Prefetch.MoveBlocks

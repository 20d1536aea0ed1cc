/-
# Prefetch.MoveBlocks.FreeRun — the lowest run of free blocks

`find_contiguous_free_space` keeps a counter of the free blocks just passed and reads the start of the
run off its end. The runs it can still answer with, those that begin with the blocks counted or later,
are the same before and after every block it looks at; so the answer is the lowest of all runs of the
bitmap, and there is one whenever a run exists.
-/
import Prefetch.MoveBlocks.MainSpec
import Mathlib.Data.Finset.Card
import Mathlib.Order.Bounds.Basic
import Mathlib.Order.Interval.Finset.Nat

namespace Prefetch.MoveBlocks

variable {g : Geometry}

/-! ## §1 — the runs still ahead -/

/-- The starts of the runs of `size` free blocks that begin with the `run` blocks before `i`, or later,
and end before `stop`. -/
def runsAhead (g : Geometry) (blockMap : ℕ → Bool) (size i run stop : ℕ) : Set ℕ :=
  {b | i ≤ b + run ∧ b + size ≤ stop
    ∧ ∀ j, b ≤ j → j < b + size → testBlockBitmap g blockMap j = false}

section Step

variable {blockMap : ℕ → Bool} {size i run stop : ℕ}

theorem runsAhead_nil (hrun : run < size) : runsAhead g blockMap size i run i = ∅ := by
  refine Set.eq_empty_of_forall_notMem fun b hb => ?_
  have hstart := hb.1
  have hstop := hb.2.1
  omega

/-- One more free block: the counter follows. -/
theorem runsAhead_free : runsAhead g blockMap size (i + 1) (run + 1) stop
    = runsAhead g blockMap size i run stop := by
  have hstart : ∀ b, i + 1 ≤ b + (run + 1) ↔ i ≤ b + run := fun b => by omega
  simp only [runsAhead, hstart]

/-- A used block: no run across it is lost, there was none. -/
theorem runsAhead_used (hrun : run < size) (hused : testBlockBitmap g blockMap i ≠ false) :
    runsAhead g blockMap size (i + 1) 0 stop = runsAhead g blockMap size i run stop := by
  ext b
  constructor
  · rintro ⟨hstart, hrest⟩
    exact ⟨by omega, hrest⟩
  · rintro ⟨hstart, hstop, hfree⟩
    refine ⟨?_, hstop, hfree⟩
    by_contra hbefore
    exact hused (hfree i (by omega) (by omega))

end Step

/-- **The scan.** It answers with the lowest of the runs ahead, and with nothing when there is none. -/
theorem findFreeRun_eq_some_iff {blockMap : ℕ → Bool} {size lo : ℕ} (len i run : ℕ) (hrun : run < size)
    (hrun' : run ≤ i) (hfree : ∀ j, i ≤ j + run → j < i → testBlockBitmap g blockMap j = false) :
    findFreeRun g blockMap size (List.range' i len) run = some lo
      ↔ IsLeast (runsAhead g blockMap size i run (i + len)) lo := by
  induction len generalizing i run with
  | zero =>
      have hempty : runsAhead g blockMap size i run (i + 0) = ∅ := runsAhead_nil hrun
      rw [hempty]
      exact iff_of_false (fun h => Option.some_ne_none _ h.symm) fun h => h.1
  | succ len ih =>
      have hstop : i + (len + 1) = i + 1 + len := by omega
      rw [List.range'_succ, findFreeRun, hstop]
      by_cases htest : testBlockBitmap g blockMap i = false
      · have hfree' : ∀ j, i + 1 ≤ j + (run + 1) → j < i + 1 → testBlockBitmap g blockMap j = false :=
          fun j hj hj' => by
            rcases Nat.lt_succ_iff_lt_or_eq.mp hj' with hlt | rfl
            · exact hfree j (by omega) hlt
            · exact htest
        rw [if_pos htest]
        by_cases hsize : size ≤ run + 1
        · -- the run is complete: it is the counted one, and no later start is lower
          rw [if_pos hsize, Option.some_inj]
          have hleast : IsLeast (runsAhead g blockMap size i run (i + 1 + len)) (i + 1 - size) := by
            refine ⟨⟨by omega, by omega, fun j hj hj' => hfree' j (by omega) (by omega)⟩, fun b hb => ?_⟩
            have hstart := hb.1
            omega
          exact ⟨fun h => h ▸ hleast, fun h => hleast.unique h⟩
        · rw [if_neg hsize, ih (i + 1) (run + 1) (by omega) (by omega) hfree', runsAhead_free]
      · rw [if_neg htest, ih (i + 1) 0 (by omega) (Nat.zero_le _) (fun j hj hj' => by omega),
          runsAhead_used hrun htest]

/-! ## §2 — the runs of the bitmap -/

/-- The starts of the runs of `size` free blocks between the bitmap's start and `s_blocks_count`. -/
def freeRuns (g : Geometry) (blockMap : ℕ → Bool) (size : ℕ) : Set ℕ :=
  {b | g.sFirstDataBlock ≤ b ∧ b + size ≤ g.sBlocksCount
    ∧ ∀ j, b ≤ j → j < b + size → blockMap j = false}

/-- The free blocks of the bitmap. -/
def freeBlocks (g : Geometry) (blockMap : ℕ → Bool) : Finset ℕ :=
  (Finset.Ico g.sFirstDataBlock g.sBlocksCount).filter fun b => blockMap b = false

theorem runsAhead_first {blockMap : ℕ → Bool} {size stop : ℕ}
    (hstop : stop = g.sFirstDataBlock + (g.sBlocksCount - g.sFirstDataBlock)) (hsize : 1 ≤ size) :
    runsAhead g blockMap size g.sFirstDataBlock 0 stop = freeRuns g blockMap size := by
  have htest : ∀ j, g.sFirstDataBlock ≤ j → j < g.sBlocksCount →
      testBlockBitmap g blockMap j = blockMap j := fun j hj hj' => by
    rw [testBlockBitmap, inBlockMap, decide_eq_true hj, decide_eq_true hj', Bool.true_and, Bool.true_and]
  ext b
  constructor
  · rintro ⟨hstart, hend, hfree⟩
    refine ⟨by omega, by omega, fun j hj hj' => ?_⟩
    rw [← htest j (by omega) (by omega)]
    exact hfree j hj hj'
  · rintro ⟨hstart, hend, hfree⟩
    refine ⟨by omega, by omega, fun j hj hj' => ?_⟩
    rw [htest j (by omega) (by omega)]
    exact hfree j hj hj'

theorem card_freeBlocks_ge {blockMap : ℕ → Bool} {size b : ℕ} (h : b ∈ freeRuns g blockMap size) :
    size ≤ (freeBlocks g blockMap).card := by
  have hsub : Finset.Ico b (b + size) ⊆ freeBlocks g blockMap := by
    intro j hj
    rw [Finset.mem_Ico] at hj
    refine Finset.mem_filter.mpr ⟨Finset.mem_Ico.mpr ⟨h.1.trans hj.1, ?_⟩, h.2.2 j hj.1 hj.2⟩
    exact hj.2.trans_le h.2.1
  calc size = (Finset.Ico b (b + size)).card := by rw [Nat.card_Ico, Nat.add_sub_cancel_left]
    _ ≤ (freeBlocks g blockMap).card := Finset.card_le_card hsub

/-- With the free count of the superblock right, the answer is the lowest run. -/
theorem findContiguousFreeSpace_eq_some_iff {s : RunState g} {size lo : ℕ} (hsize : 1 ≤ size)
    (hcount : s.sFreeBlocksCount = (freeBlocks g s.blockMap).card) :
    findContiguousFreeSpace s size = some lo ↔ IsLeast (freeRuns g s.blockMap size) lo := by
  unfold findContiguousFreeSpace
  by_cases hfew : s.sFreeBlocksCount < size
  · rw [if_pos hfew]
    refine iff_of_false (fun h => Option.some_ne_none _ h.symm) fun h => ?_
    have hge := card_freeBlocks_ge h.1
    omega
  · rw [if_neg hfew, findFreeRun_eq_some_iff _ _ 0 hsize (Nat.zero_le _) (fun j hj hj' => by omega),
      runsAhead_first rfl hsize]

/-- **The lowest run is found.** The search succeeds exactly when the bitmap has a run of `size` free
blocks, and then with the lowest one. -/
theorem findContiguousFreeSpace_lowest {s : RunState g} {size : ℕ} (hsize : 1 ≤ size)
    (hcount : s.sFreeBlocksCount = (freeBlocks g s.blockMap).card) :
    ((∃ lo, findContiguousFreeSpace s size = some lo) ↔ (freeRuns g s.blockMap size).Nonempty)
      ∧ ∀ lo, findContiguousFreeSpace s size = some lo → IsLeast (freeRuns g s.blockMap size) lo := by
  have hiff : ∀ lo, findContiguousFreeSpace s size = some lo ↔ IsLeast (freeRuns g s.blockMap size) lo :=
    fun _ => findContiguousFreeSpace_eq_some_iff hsize hcount
  refine ⟨⟨fun ⟨lo, h⟩ => ⟨lo, ((hiff lo).mp h).1⟩, fun h => ?_⟩, fun lo => (hiff lo).mp⟩
  classical
  refine ⟨Nat.find h, (hiff _).mpr ⟨Nat.find_spec h, fun b hb => Nat.find_min' h hb⟩⟩

/-- In the small filesystem the blocks from 9 to 14 are free. -/
theorem findContiguousFreeSpace_sample :
    findContiguousFreeSpace (sampleState fun _ => false) 6 = some 9
      ∧ IsLeast (freeRuns sampleGeometry (sampleState fun _ => false).blockMap 6) 9 :=
  ⟨by decide, (findContiguousFreeSpace_lowest (by decide) (by decide)).2 9 (by decide)⟩

end Prefetch.MoveBlocks

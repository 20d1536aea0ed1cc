/-
# Prefetch.MoveBlocks.LayoutOrder — the blocks of a layout come to lie in its order

What `verifyfslayout.py` looks for after a run: the blocks of a layout without holes lie in layout
order, with at most two blocks between neighbours, which are the indirect blocks on the way to the
later one. This is the order of `Prefetch.Lib.FirstVisit` for groups, a group being the way to one
block of a file.
-/
import Prefetch.MoveBlocks.ExitSafety

namespace Prefetch.MoveBlocks

open ExitProg FirstVisit

variable {g : Geometry}

/-! ## §1 — the way to a block as a group -/

variable (g) in
/-- The places of the indirect blocks on the way to an offset. -/
def indirectPlaces (q : ℕ × ℕ) : List (Place g) :=
  if isDirectBlock q.2 then []
  else if is1IndirectBlock g q.2 then [Place.top q.1 ext2IndBlock]
  else [Place.top q.1 ext2DindBlock, dindWord q.1 q.2]

variable (g) in
/-- The place of the block at an offset below the triple-indirect region. -/
def dataPlace (q : ℕ × ℕ) : Place g :=
  if h : isDirectBlock q.2 = true then Place.top q.1 ⟨q.2, isDirectBlock_lt h⟩
  else if is1IndirectBlock g q.2 then indWord q.1 q.2
  else dindIndWord q.1 q.2

/-- Below the triple-indirect region. -/
def BelowTriple (g : Geometry) (q : ℕ × ℕ) : Prop :=
  q.2 < 12 + g.addrPerBlock + g.addrPerBlock * g.addrPerBlock

/-- The regions below the triple-indirect one. -/
theorem BelowTriple.cases {q : ℕ × ℕ} (h : BelowTriple g q) :
    isDirectBlock q.2 = true ∨ is1IndirectBlock g q.2 = true ∨ is2IndirectBlock g q.2 = true := by
  unfold BelowTriple at h
  rw [is1IndirectBlock_iff, is2IndirectBlock_iff]
  by_cases h0 : q.2 < 12
  · exact Or.inl (decide_eq_true h0)
  · omega

theorem not_direct_of_1indirect {b : ℕ} (h : is1IndirectBlock g b = true) :
    ¬ isDirectBlock b = true := by
  have h1 := is1IndirectBlock_iff.mp h
  intro h0
  have hlt : b < 12 := of_decide_eq_true h0
  omega

theorem not_direct_of_2indirect {b : ℕ} (h : is2IndirectBlock g b = true) :
    ¬ isDirectBlock b = true ∧ ¬ is1IndirectBlock g b = true := by
  have h2 := is2IndirectBlock_iff.mp h
  rw [is1IndirectBlock_iff]
  refine ⟨fun h0 => ?_, by omega⟩
  have hlt : b < 12 := of_decide_eq_true h0
  omega

theorem pathPlaces_eq {q : ℕ × ℕ} (h : BelowTriple g q) :
    pathPlaces g q.1 q.2 = indirectPlaces g q ++ [dataPlace g q] := by
  unfold indirectPlaces dataPlace
  rcases h.cases with h0 | h1 | h2
  · rw [pathPlaces, dif_pos h0, dif_pos h0, if_pos h0]
    rfl
  · have h0 := not_direct_of_1indirect h1
    rw [pathPlaces_1indirect h1, dif_neg h0, if_neg h0, if_pos h1, if_pos h1]
    rfl
  · have h01 := not_direct_of_2indirect h2
    rw [pathPlaces_2indirect h2, dif_neg h01.1, if_neg h01.1, if_neg h01.2, if_neg h01.2]
    rfl

theorem dataPlace_isData {q : ℕ × ℕ} : (dataPlace g q).IsData := by
  unfold dataPlace
  split_ifs with h0 h1
  · have hlt : q.2 < 12 := of_decide_eq_true h0
    show 0 = q.2 - 11
    omega
  · rfl
  · rfl

theorem not_isData_of_mem_indirectPlaces {q : ℕ × ℕ} {p : Place g} (hp : p ∈ indirectPlaces g q) :
    ¬ p.IsData := by
  unfold indirectPlaces at hp
  split_ifs at hp
  · exact absurd hp List.not_mem_nil
  · rcases List.mem_singleton.mp hp with rfl
    exact (by decide : ¬ 0 = slotDepth ext2IndBlock)
  · simp only [List.mem_cons, List.not_mem_nil, or_false] at hp
    rcases hp with rfl | rfl
    · exact (by decide : ¬ 0 = slotDepth ext2DindBlock)
    · exact (by decide : ¬ 1 = slotDepth ext2DindBlock)

theorem length_indirectPlaces_le (q : ℕ × ℕ) : (indirectPlaces g q).length ≤ 2 := by
  unfold indirectPlaces
  split_ifs <;> simp

/-- The place of a block, as reading a file finds it. -/
theorem offsetPlace_eq {q : ℕ × ℕ} (h : BelowTriple g q) : offsetPlace q.1 q.2 = some (dataPlace g q) := by
  unfold offsetPlace dataPlace
  rcases h.cases with h0 | h1 | h2
  · have hlt : q.2 < 12 := of_decide_eq_true h0
    rw [dif_pos h0]
    simp only [hlt, dif_pos]
  · have h0 := not_direct_of_1indirect h1
    have hrange := is1IndirectBlock_iff.mp h1
    rw [dif_neg h0, if_pos h1]
    simp only [show ¬ q.2 < 12 by omega, show q.2 - 12 < g.addrPerBlock by omega, dif_neg, dif_pos,
      not_false_eq_true]
    unfold indWord Place.child Place.top
    simp only [Nat.mod_eq_of_lt (show q.2 - 12 < g.addrPerBlock by omega)]
    rfl
  · have h01 := not_direct_of_2indirect h2
    have hrange := is2IndirectBlock_iff.mp h2
    rw [dif_neg h01.1, if_neg h01.2]
    simp only [show ¬ q.2 < 12 by omega, show ¬ q.2 - 12 < g.addrPerBlock by omega,
      show q.2 - 12 - g.addrPerBlock < g.addrPerBlock * g.addrPerBlock by omega, dif_neg, if_pos,
      not_false_eq_true]
    rfl

/-- The offset a place stands for, up to the double-indirect region. -/
def placeOffset (p : Place g) : ℕ :=
  match p.path with
  | [] => p.slot
  | [i] => 12 + i
  | i :: j :: _ => 12 + g.addrPerBlock + (i * g.addrPerBlock + j)

theorem placeOffset_dataPlace {q : ℕ × ℕ} (h : BelowTriple g q) : placeOffset (dataPlace g q) = q.2 := by
  unfold dataPlace
  rcases h.cases with h0 | h1 | h2
  · rw [dif_pos h0]
    rfl
  · have hrange := is1IndirectBlock_iff.mp h1
    rw [dif_neg (not_direct_of_1indirect h1), if_pos h1]
    show 12 + (q.2 - 12) % g.addrPerBlock = q.2
    rw [Nat.mod_eq_of_lt (by omega)]
    omega
  · have h01 := not_direct_of_2indirect h2
    have hrange := is2IndirectBlock_iff.mp h2
    rw [dif_neg h01.1, if_neg h01.2]
    show 12 + g.addrPerBlock + ((q.2 - 12 - g.addrPerBlock) / g.addrPerBlock % g.addrPerBlock
      * g.addrPerBlock + (q.2 - 12 - g.addrPerBlock) % g.addrPerBlock) = q.2
    have hlt : (q.2 - 12 - g.addrPerBlock) / g.addrPerBlock < g.addrPerBlock :=
      Nat.div_lt_of_lt_mul (by omega)
    rw [Nat.mod_eq_of_lt hlt, Nat.div_add_mod']
    omega

theorem dataPlace_inodeNumber {q : ℕ × ℕ} : (dataPlace g q).inodeNumber = q.1 := by
  unfold dataPlace
  split_ifs <;> rfl

/-- Different offsets have different places. -/
theorem dataPlace_inj {q q' : ℕ × ℕ} (h : BelowTriple g q) (h' : BelowTriple g q')
    (heq : dataPlace g q = dataPlace g q') : q = q' := by
  have hinode : q.1 = q'.1 := by
    rw [← dataPlace_inodeNumber (q := q), heq, dataPlace_inodeNumber]
  have hoffset : q.2 = q'.2 := by
    rw [← placeOffset_dataPlace h, heq, placeOffset_dataPlace h']
  exact Prod.ext hinode hoffset

/-- The ways to the blocks of a layout below the triple-indirect region, as groups. -/
theorem grouped_places {pairs : List (ℕ × ℕ)} (h : ∀ q ∈ pairs, BelowTriple g q) :
    Grouped (indirectPlaces g) (dataPlace g) pairs where
  inj := fun q hq q' hq' heq => dataPlace_inj (h q hq) (h q' hq') heq
  sep := fun _ _ _ _ hmem => not_isData_of_mem_indirectPlaces hmem dataPlace_isData

theorem walkPlaces_eq_groupWalk {pairs : List (ℕ × ℕ)} (h : ∀ q ∈ pairs, BelowTriple g q) :
    walkPlaces g pairs = groupWalk (indirectPlaces g) (dataPlace g) pairs := by
  unfold walkPlaces groupWalk
  exact List.flatMap_congr fun q hq => pathPlaces_eq (h q hq)

/-! ## §2 — the order -/

/-- The disk block at an offset of a file, `0` for a hole. -/
def dataBlock (v : View g) (q : ℕ × ℕ) : ℕ :=
  match (offsetPlace q.1 q.2 : Option (Place g)) with
  | none => 0
  | some p => v.ref p

theorem dataBlock_eq {v : View g} {q : ℕ × ℕ} (h : BelowTriple g q) :
    dataBlock v q = v.ref (dataPlace g q) := by
  rw [dataBlock, offsetPlace_eq h]

/-- `b` is an indirect block on the way to an offset in `v`, and was none in `v₀`. -/
def MovedIndirect (v₀ v : View g) (q : ℕ × ℕ) (b : ℕ) : Prop :=
  ∃ p ∈ indirectPlaces g q, v.ref p = b ∧ v₀.ref p ≠ b

/-- At most two blocks lie between the blocks at two offsets, and they are indirect blocks moved for
the later one. -/
structure CloseAfter (v₀ v : View g) (q q' : ℕ × ℕ) : Prop where
  le : dataBlock v q' ≤ dataBlock v q + 3
  between : ∀ b, dataBlock v q < b → b < dataBlock v q' → MovedIndirect v₀ v q' b

/-- Data blocks that follow each other with the moved indirect blocks of the later one between. -/
theorem closeAfter_of_follows {v₀ v : View g} {q q' : ℕ × ℕ} (hq : BelowTriple g q) (hq' : BelowTriple g q')
    (h : Follows (indirectPlaces g) (dataPlace g) v.ref q q')
    (hmoved : ∀ p, v.ref (dataPlace g q) < v.ref p → v.ref p < v.ref (dataPlace g q') →
      v₀.ref p ≠ v.ref p) : CloseAfter v₀ v q q' := by
  refine ⟨?_, fun b hb hb' => ?_⟩
  · rw [dataBlock_eq hq, dataBlock_eq hq']
    have hlen := length_indirectPlaces_le (g := g) q'
    have hle := h.le
    omega
  · rw [dataBlock_eq hq] at hb
    rw [dataBlock_eq hq'] at hb'
    rcases h.between b hb hb' with ⟨p, hp, rfl⟩
    exact ⟨p, hp, rfl, hmoved p hb hb'⟩

/-- **Layout order.** When the run of a layout without holes returns, the blocks of its pairs, each
taken where it first occurs, lie in strictly increasing order, with only the indirect blocks of the
later one between two neighbours. -/
theorem layout_in_order {reserved : Set ℕ} {s : RunState g} {relocations : List Relocation} {size : ℕ}
    (hopen : s.Opened) (hwf : WellFormed reserved s.view s.blockMap)
    (hacc : Accepted g relocations size)
    (hbelow : ∀ q ∈ layoutPairs relocations, BelowTriple g q)
    (hholes : ∀ q ∈ layoutPairs relocations, dataBlock s.view q ≠ 0) :
    wp (main relocations)
      (fun _ s' =>
        (layoutPairs relocations).eraseDups.Pairwise
            (fun q q' => dataBlock s'.view q < dataBlock s'.view q')
          ∧ (layoutPairs relocations).eraseDups.IsChain (CloseAfter s.view s'.view))
      (fun _ _ => True) s := by
  cases htest : testEstimateBlocksForRange g with
  | false =>
      rw [wp, main_of_testFailed htest]
      trivial
  | true =>
  rw [main_of_testPassed htest]
  cases hfind : findContiguousFreeSpace s (size % 2 ^ 32) with
  | none =>
      rw [wp, moveLayout_of_noFreeSpace hacc.estimate_eq hfind]
      trivial
  | some lo =>
      rcases loop_start hopen hwf (hacc.fitsArea s) hacc.estimate_eq hfind with
        ⟨area, hrange, hlo, -, hsound, hroom⟩
      rw [wp, moveLayout_of_found hacc.estimate_eq hfind, ← hrange]
      have hspec := relocatePairs_spec hsound hroom
      unfold wp at hspec
      split at hspec
      next s' hrun =>
        rw [hrun]
        have htrack := hspec.2
        unfold Room at hroom
        rw [walkPlaces_eq_groupWalk hbelow] at htrack hroom
        have hdata : ∀ q ∈ layoutPairs relocations, Unsettled area.lo area.hi
            (track (s.startAt lo).view (s.startAt lo)).addr (dataPlace g q) := by
          intro q hq
          have hne := hholes q hq
          rw [dataBlock_eq (hbelow q hq)] at hne
          exact ⟨hne, hsound.ref_outside hlo.symm hne⟩
        have hchain := (isChain_follows (grouped_places hbelow) hdata hsound.lo_le hroom).1
        have harea : ∀ q ∈ layoutPairs relocations,
            area.lo ≤ s'.view.ref (dataPlace g q) ∧ s'.view.ref (dataPlace g q) < area.hi := by
          intro q hq
          have hmem : dataPlace g q
              ∈ groupWalk (indirectPlaces g) (dataPlace g) (layoutPairs relocations) :=
            List.mem_flatMap.mpr ⟨q, hq, by simp⟩
          have hin := visitAll_addr_in_area hsound.lo_le area.lo_pos hroom hmem (hdata q hq).1
          rwa [← htrack] at hin
        rw [← htrack] at hchain
        have hmem : ∀ q ∈ (layoutPairs relocations).eraseDups, q ∈ layoutPairs relocations :=
          fun q hq => List.mem_eraseDups.mp hq
        constructor
        · have hlt : (layoutPairs relocations).eraseDups.IsChain
              fun q q' => dataBlock s'.view q < dataBlock s'.view q' := by
            refine hchain.imp_of_mem_imp fun q q' hq hq' hf => ?_
            rw [dataBlock_eq (hbelow q (hmem q hq)), dataBlock_eq (hbelow q' (hmem q' hq'))]
            exact hf.lt
          have htrans : IsTrans (ℕ × ℕ) fun q q' => dataBlock s'.view q < dataBlock s'.view q' :=
            ⟨fun _ _ _ h h' => h.trans h'⟩
          exact List.isChain_iff_pairwise.mp hlt
        · refine hchain.imp_of_mem_imp fun q q' hq hq' hf => ?_
          refine closeAfter_of_follows (hbelow q (hmem q hq)) (hbelow q' (hmem q' hq')) hf
            fun p hp hp' heq => ?_
          -- the block lies in the area, where nothing lay before
          have hlow : s'.view.ref (dataPlace g q) < s.view.ref p := heq ▸ hp
          have hhigh : s.view.ref p < s'.view.ref (dataPlace g q') := heq ▸ hp'
          have h₁ := (harea q (hmem q hq)).1
          have h₂ := (harea q' (hmem q' hq')).2
          have hne : (s.startAt lo).view.ref p ≠ 0 := by
            show s.view.ref p ≠ 0
            omega
          have hin : area.lo ≤ s.view.ref p ∧ s.view.ref p < area.hi := by omega
          exact hsound.ref_outside hlo.symm hne hin
      next e s' hrun =>
        rw [hrun]
        trivial

section Sample

attribute [local irreducible] wp

theorem layout_in_order_sample :
    ∃ s', main sampleLayout (sampleState fun _ => false) = .ok () s'
      ∧ (layoutPairs sampleLayout).eraseDups.Pairwise
          (fun q q' => dataBlock s'.view q < dataBlock s'.view q')
      ∧ (layoutPairs sampleLayout).eraseDups.IsChain
          (CloseAfter (sampleState fun _ => false).view s'.view) := by
  rcases sample_returns with ⟨s', hrun⟩
  have hspec := layout_in_order (sampleState_opened fun _ => false) (sample_wellFormed _) sample_accepted
    (by unfold BelowTriple; decide) (by decide)
  rw [wp, hrun] at hspec
  exact ⟨s', hrun, hspec⟩

end Sample

end Prefetch.MoveBlocks

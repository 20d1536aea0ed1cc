/-
# Prefetch.Remap.PointerPass — the pass over the pointers of a file

`copy_and_remap_extents` lets `remap_block` go over the blocks of a file once. It has one current extent of
the sorted list and moves it on by at most one for each block.

That is enough since every block of an extent is met: the last block of the current extent is the block met
just before or one still to come (`remapPointers_from` carries this along the visits). `pointers_replaced`
says what becomes of the file: each listed block gets its place in the free extents, every other pointer
stays, and the program does not exit.
-/
import Prefetch.Remap.CopySpec
import Prefetch.Remap.Offsets

namespace Prefetch.Remap

/-! ## §1 — the pass -/

section Pass

variable (a sBlocksCount : ℕ) (freeExtents : List FreeExtent)

/-- The pointers to the blocks visited, after `ext2fs_block_iterate2` has called `remap_block` for each;
`none` where the program ends in a call. -/
def remapPointers : BlockTraverseData → List Visit → Option (List ℕ)
  | _, [] => some []
  | tdata, v :: vs =>
      match remapBlock a sBlocksCount freeExtents tdata v.blocknr v.offset v.parentOffset with
      | .unchanged tdata => (remapPointers tdata vs).map (v.blocknr :: ·)
      | .changed blocknr tdata => (remapPointers tdata vs).map (blocknr :: ·)
      | .abort => some (v.blocknr :: vs.map Visit.blocknr)
      | .exited => none
      | .nullDeref => none

end Pass

/-- The offset is that of a block of the extent. -/
def RemapExtent.Covers (e : RemapExtent) (offset : ℤ) : Prop :=
  e.offset ≤ offset ∧ offset < e.offset + e.len

section Extents

variable {a total : ℕ}

/-- A list of extents of a file: sorted, each of them an indirect block or a run of data blocks that no
listed indirect block lies in, at the blocks where the file has them, no block listed twice. The free
extents have room for them. -/
structure Listing (file : FileTree a) (F : FreeExtents total) (extents : List RemapExtent) : Prop where
  nonempty : extents ≠ []
  sorted : extents.Pairwise fun e e' => cmpExtOffsetPtrCore e.offset e'.offset ≤ 0
  pos : ∀ e ∈ extents, 0 < e.len
  single : ∀ e ∈ extents, e.offset < 0 → e.len = 1
  mapped : ∀ e ∈ extents, ∀ j < e.len, ∃ v ∈ file.visits, v.code = e.offset + j ∧ v.blocknr = e.block + j
  uncrossed : ∀ e ∈ extents, ∀ e' ∈ extents, 0 ≤ e.offset → e'.offset < 0 →
    offToDataoff e'.offset ≤ e.offset ∨ e.offset + e.len ≤ offToDataoff e'.offset
  once : extents.Pairwise fun e e' => ∀ offset, ¬ (e.Covers offset ∧ e'.Covers offset)
  room : ∀ e ∈ extents, e.chunkOffset + e.len ≤ total

/-- The file and the free extents are on a filesystem of so many blocks. -/
structure OnFilesystem (sBlocksCount : ℕ) (file : FileTree a) (F : FreeExtents total) : Prop where
  file : ∀ v ∈ file.visits, v.blocknr < sBlocksCount
  free : ∀ f ∈ F.list, f.block + f.len ≤ sBlocksCount

/-- What the pointer to a block is after the pass: the place of the block if it is listed, else as before. -/
structure Replaced (F : FreeExtents total) (extents : List RemapExtent) (v : Visit) (pointer : ℕ) : Prop where
  listed : ∀ e ∈ extents, ∀ j < e.len, v.code = e.offset + j → pointer = F.place (e.chunkOffset + j)
  other : (∀ e ∈ extents, ¬ e.Covers v.code) → pointer = v.blocknr

/-! ## §2 — the order of blocks and extents -/

theorem cmp_swap (ao bo : ℤ) : cmpExtOffsetPtrCore bo ao = -cmpExtOffsetPtrCore ao bo := by
  unfold cmpExtOffsetPtrCore
  dsimp only
  split_ifs <;> omega

theorem Visit.Before.trans {u v w : Visit} (huv : u.Before v) (hvw : v.Before w) : u.Before w := by
  unfold Visit.Before at *
  omega

theorem Visit.Before.irrefl (v : Visit) : ¬ v.Before v := by
  unfold Visit.Before
  omega

variable {file : FileTree a} {F : FreeExtents total} {extents : List RemapExtent} {v w : Visit}

/-- Of two blocks of a file one is met first. -/
theorem visits_trichotomy (ha : 0 < a) (hv : v ∈ file.visits) (hw : w ∈ file.visits) :
    v = w ∨ v.Before w ∨ w.Before v := by
  by_cases heq : v = w
  · exact .inl heq
  · have hsymm : Std.Symm fun v w : Visit => v.Before w ∨ w.Before v := ⟨fun _ _ h => h.symm⟩
    have hordered : file.visits.Pairwise fun v w => v.Before w ∨ w.Before v :=
      (file_visits_ordered ha file).imp fun h => .inl h
    exact .inr (hordered.forall hv hw heq)

section Split

variable {pre vs : List Visit} {last : Visit}

/-- What is still to come is not met before the next block. -/
theorem not_before_of_ahead (ha : 0 < a) (hvisits : file.visits = pre ++ v :: vs) :
    ∀ w ∈ v :: vs, ¬ w.Before v := by
  have hordered := file_visits_ordered ha file
  rw [hvisits] at hordered
  have hbehind := (List.pairwise_cons.1 (List.pairwise_append.1 hordered).2.1).1
  intro w hw hlt
  rcases List.mem_cons.1 hw with rfl | hw
  · exact Visit.Before.irrefl w hlt
  · exact Visit.Before.irrefl w (hlt.trans (hbehind w hw))

/-- The block met just before comes before what is still to come. -/
theorem last_before_ahead (ha : 0 < a) (hvisits : file.visits = pre ++ vs) (hlast : pre.getLast? = some last) :
    ∀ w ∈ vs, last.Before w := by
  have hordered := file_visits_ordered ha file
  rw [hvisits] at hordered
  exact (List.pairwise_append.1 hordered).2.2 last (List.mem_of_getLast? hlast)

/-- What comes after the block met just before is still to come. -/
theorem ahead_of_last_before (ha : 0 < a) (hvisits : file.visits = pre ++ vs)
    (hlast : pre.getLast? = some last) (hw : w ∈ file.visits) (hlt : last.Before w) : w ∈ vs := by
  have hordered := file_visits_ordered ha file
  rw [hvisits] at hw hordered
  rcases List.mem_append.1 hw with hw | hw
  · obtain ⟨init, rfl⟩ := List.getLast?_eq_some_iff.1 hlast
    rcases List.mem_append.1 hw with hw | hw
    · have hpre := (List.pairwise_append.1 hordered).1
      have hback := (List.pairwise_append.1 hpre).2.2 w hw last (List.mem_singleton.2 rfl)
      exact absurd (hlt.trans hback) (Visit.Before.irrefl last)
    · cases List.mem_singleton.1 hw
      exact absurd hlt (Visit.Before.irrefl _)
  · exact hw

end Split

/-- An offset stands for one block of a file. -/
theorem code_inj (ha : 0 < a) (hv : v ∈ file.visits) (hw : w ∈ file.visits) (h : v.code = w.code) :
    v = w := by
  have hself : cmpExtOffsetPtrCore w.code w.code = 0 := by
    have := cmp_swap w.code w.code
    omega
  rcases visits_trichotomy ha hv hw with heq | hlt | hlt
  · exact heq
  · have := cmp_code hlt (file_visits_coded ha hv) (file_visits_coded ha hw)
    rw [h] at this
    omega
  · have := cmp_code hlt (file_visits_coded ha hw) (file_visits_coded ha hv)
    rw [h] at this
    omega

/-- The comparison tells which block comes first. -/
theorem cmp_pos_iff (ha : 0 < a) (hv : v ∈ file.visits) (hw : w ∈ file.visits) :
    0 < cmpExtOffsetPtrCore v.code w.code ↔ w.Before v := by
  have hswap := cmp_swap v.code w.code
  constructor
  · intro hpos
    rcases visits_trichotomy ha hv hw with rfl | hlt | hlt
    · omega
    · have := cmp_code hlt (file_visits_coded ha hv) (file_visits_coded ha hw)
      omega
    · exact hlt
  · intro hlt
    have := cmp_code hlt (file_visits_coded ha hw) (file_visits_coded ha hv)
    omega

/-- The offset of a data block is its own, that of an indirect block is negative. -/
theorem code_cases (hv : v.Coded) : v.level = 0 ∧ v.code = v.first ∨
    0 < v.level ∧ v.code < 0 ∧ offToDataoff v.code = v.first := by
  have hparts := (code_parts hv).2
  rcases Nat.eq_zero_or_pos v.level with hzero | hpos
  · exact .inl ⟨hzero, if_pos hzero⟩
  · have hcode : v.code < 0 := by
      have hfirst := hv.2 hpos
      rw [Visit.code, if_neg (by omega)]
      unfold indirectToOff
      omega
    rw [if_pos hcode] at hparts
    exact .inr ⟨hpos, hcode, hparts⟩

/-- The last block of an extent. -/
def IsLast (file : FileTree a) (e : RemapExtent) (w : Visit) : Prop :=
  w ∈ file.visits ∧ w.code = e.offset + e.len - 1

theorem Listing.exists_last (h : Listing file F extents) {e : RemapExtent} (he : e ∈ extents) :
    ∃ w, IsLast file e w := by
  have hpos := h.pos e he
  obtain ⟨w, hw, hcode, -⟩ := h.mapped e he (e.len - 1) (by omega)
  exact ⟨w, hw, by omega⟩

/-- No block of an extent comes after the last one. -/
theorem Listing.le_last (ha : 0 < a) (h : Listing file F extents) {e : RemapExtent} (he : e ∈ extents)
    (hw : IsLast file e w) (hv : v ∈ file.visits) (hcovers : e.Covers v.code) : v = w ∨ v.Before w := by
  obtain ⟨hlo, hhi⟩ := hcovers
  have hlast := hw.2
  by_cases heq : v.code = w.code
  · exact .inl (code_inj ha hv hw.1 heq)
  · refine .inr ?_
    have hsingle := h.single e he
    rcases code_cases (file_visits_coded ha hv) with ⟨-, hvcode⟩ | ⟨-, hneg, -⟩
    · rcases code_cases (file_visits_coded ha hw.1) with ⟨-, hwcode⟩ | ⟨-, hneg, -⟩
      · exact .inl (by omega)
      · omega
    · omega

/-- **The blocks of an extent come after those of the extents before it.** -/
theorem Listing.last_before (ha : 0 < a) (h : Listing file F extents) :
    extents.Pairwise fun e e' => ∀ w v, IsLast file e w → v ∈ file.visits → e'.Covers v.code → w.Before v := by
  have hboth := List.Pairwise.and h.sorted h.once
  refine hboth.imp_of_mem fun {e e'} he he' ⟨hsorted, honce⟩ w v hw hv hcovers => ?_
  obtain ⟨u, hu, hucode, -⟩ := h.mapped e he 0 (h.pos e he)
  obtain ⟨u', hu', hucode', -⟩ := h.mapped e' he' 0 (h.pos e' he')
  have hpos := h.pos e he
  have hpos' := h.pos e' he'
  have hsingle := h.single e he
  have hsingle' := h.single e' he'
  rw [Nat.cast_zero, Int.add_zero] at hucode hucode'
  -- the first block of the one is met before that of the other
  have hfirst : u.Before u' := by
    rcases visits_trichotomy ha hu hu' with rfl | hlt | hlt
    · exact absurd ⟨⟨by omega, by omega⟩, by omega, by omega⟩ (honce u.code)
    · exact hlt
    · have := (cmp_pos_iff ha hu hu').2 hlt
      rw [hucode, hucode'] at this
      omega
  have hlast := hw.2
  have huncrossed := h.uncrossed e he e' he'
  -- the last block of the one is met before the first one of the other
  have hbetween : w.Before u' := by
    rcases code_cases (file_visits_coded ha hu) with ⟨hulevel, hucases⟩ | ⟨-, hneg, -⟩
    · rcases code_cases (file_visits_coded ha hw.1) with ⟨hwlevel, hwcases⟩ | ⟨-, hneg, -⟩
      · rcases code_cases (file_visits_coded ha hu') with ⟨hulevel', hucases'⟩ | ⟨hulevel', hneg', hdataoff⟩
        · have hnot := honce u'.code
          unfold RemapExtent.Covers at hnot
          rcases hfirst with hlt | ⟨heq, hlt⟩
          · exact .inl (by omega)
          · omega
        · rw [hucode'] at hdataoff
          rcases hfirst with hlt | ⟨heq, hlt⟩
          · exact .inl (by omega)
          · omega
      · omega
    · have hsame : w = u := code_inj ha hw.1 hu (by omega)
      rw [hsame]
      exact hfirst
  -- and that is the first of its blocks
  obtain ⟨hlo, hhi⟩ := hcovers
  by_cases heq : v.code = u'.code
  · rw [code_inj ha hv hu' heq]
    exact hbetween
  · rcases code_cases (file_visits_coded ha hu') with ⟨hulevel', hucases'⟩ | ⟨-, hneg', -⟩
    · rcases code_cases (file_visits_coded ha hv) with ⟨-, hvcases⟩ | ⟨-, hneg, -⟩
      · exact hbetween.trans (.inl (by omega))
      · omega
    · omega

/-! ## §3 — a call -/

/-- What a call with the right current extent does with a pointer. -/
theorem Listing.remapAt_spec (ha : 0 < a) (h : Listing file F extents) {sBlocksCount : ℕ}
    (hfs : OnFilesystem sBlocksCount file F) {e : RemapExtent} (he : e ∈ extents) (hv : v ∈ file.visits)
    (hothers : ∀ e' ∈ extents, e'.Covers v.code → e' = e) (tdata : BlockTraverseData) :
    ∃ pointer, Replaced F extents v pointer ∧
      (remapAt sBlocksCount F.list tdata e v.blocknr v.code = .changed pointer tdata ∨
        remapAt sBlocksCount F.list tdata e v.blocknr v.code = .unchanged tdata ∧ pointer = v.blocknr) := by
  unfold remapAt
  by_cases hcovers : e.Covers v.code
  · obtain ⟨j, hj⟩ : ∃ j : ℕ, v.code = e.offset + j :=
      ⟨(v.code - e.offset).toNat, by have := hcovers.1; omega⟩
    have hlt : j < e.len := by
      have := hcovers.2
      omega
    have hblocknr : v.blocknr = e.block + j := by
      obtain ⟨w, hw, hcode, hblock⟩ := h.mapped e he j hlt
      rw [code_inj ha hv hw (hj.trans hcode.symm), hblock]
    have hroom := h.room e he
    have htarget := F.place_mem (by omega : e.chunkOffset + j < total)
    obtain ⟨f, hf, -, hplace⟩ := htarget
    have hfree := hfs.free f hf
    refine ⟨F.place (e.chunkOffset + j), ⟨fun e' he' j' hj' hcode => ?_, fun hnone => ?_⟩, .inl ?_⟩
    · obtain rfl := hothers e' he' ⟨by omega, by omega⟩
      have hsame : j' = j := by omega
      rw [hsame]
    · exact absurd hcovers (hnone e he)
    · have hsame : (v.blocknr : ℤ) = e.block + (v.code - e.offset) := by omega
      have hcovers : e.offset ≤ v.code ∧ v.code < e.offset + e.len := hcovers
      rw [if_pos hcovers, if_neg (not_not.2 hsame), hj, remapTarget_eq hroom hlt]
      exact if_neg (by omega)
  · refine ⟨v.blocknr, ⟨fun e' he' j' hj' hcode => ?_, fun _ => rfl⟩, .inr ⟨if_neg hcovers, rfl⟩⟩
    have hcovers' : e'.Covers v.code := ⟨by omega, by omega⟩
    exact absurd (hothers e' he' hcovers' ▸ hcovers') hcovers

/-- A call that keeps the current extent. -/
theorem remapBlock_stays {sBlocksCount : ℕ} (freeExtents : List FreeExtent) {tdata t : BlockTraverseData}
    {e : RemapExtent} {rest : List RemapExtent} {offset : ℤ}
    (htraverse : traverseOffset a tdata v.offset v.parentOffset = some (t, offset))
    (hactext : t.actext = e :: rest) (hblock : v.blocknr < sBlocksCount)
    (hcmp : ¬ 0 < cmpExtOffsetPtrCore offset (e.offset + e.len - 1)) :
    remapBlock a sBlocksCount freeExtents tdata v.blocknr v.offset v.parentOffset =
      remapAt sBlocksCount freeExtents t e v.blocknr offset := by
  unfold remapBlock
  rw [htraverse]
  dsimp only
  rw [if_neg (Nat.not_le_of_lt hblock), hactext]
  exact if_neg hcmp

/-- A call behind the current extent. -/
theorem remapBlock_moves {sBlocksCount : ℕ} (freeExtents : List FreeExtent) {tdata t : BlockTraverseData}
    {e next : RemapExtent} {rest : List RemapExtent} {offset : ℤ}
    (htraverse : traverseOffset a tdata v.offset v.parentOffset = some (t, offset))
    (hactext : t.actext = e :: next :: rest) (hblock : v.blocknr < sBlocksCount)
    (hcmp : 0 < cmpExtOffsetPtrCore offset (e.offset + e.len - 1)) :
    remapBlock a sBlocksCount freeExtents tdata v.blocknr v.offset v.parentOffset =
      remapAt sBlocksCount freeExtents { t with actext := next :: rest } next v.blocknr offset := by
  unfold remapBlock
  rw [htraverse]
  dsimp only
  rw [if_neg (Nat.not_le_of_lt hblock), hactext]
  exact if_pos hcmp

/-- A call behind the last extent. -/
theorem remapBlock_ends {sBlocksCount : ℕ} (freeExtents : List FreeExtent) {tdata t : BlockTraverseData}
    {e : RemapExtent} {offset : ℤ}
    (htraverse : traverseOffset a tdata v.offset v.parentOffset = some (t, offset))
    (hactext : t.actext = [e]) (hblock : v.blocknr < sBlocksCount)
    (hcmp : 0 < cmpExtOffsetPtrCore offset (e.offset + e.len - 1)) :
    remapBlock a sBlocksCount freeExtents tdata v.blocknr v.offset v.parentOffset = .abort := by
  unfold remapBlock
  rw [htraverse]
  dsimp only
  rw [if_neg (Nat.not_le_of_lt hblock), hactext]
  exact if_pos hcmp

/-! ## §4 — the pass -/

/-- Pointers that stay are those of blocks that are not listed. -/
theorem replaced_of_not_listed {vs : List Visit} (h : ∀ v ∈ vs, ∀ e ∈ extents, ¬ e.Covers v.code) :
    List.Forall₂ (Replaced F extents) vs (vs.map Visit.blocknr) := by
  rw [List.forall₂_map_right_iff, List.forall₂_same]
  intro v hv
  refine ⟨fun e he j hj hcode => ?_, fun _ => rfl⟩
  exact absurd ⟨by omega, by omega⟩ (h v hv e he)

/-- A call that leaves the right current extent, and the calls behind. -/
theorem Listing.remapPointers_cons (ha : 0 < a) (h : Listing file F extents) {sBlocksCount : ℕ}
    (hfs : OnFilesystem sBlocksCount file F) {vs : List Visit} (hv : v ∈ file.visits)
    {tdata t : BlockTraverseData} {e : RemapExtent} (he : e ∈ extents)
    (hothers : ∀ e' ∈ extents, e'.Covers v.code → e' = e)
    (hcall : remapBlock a sBlocksCount F.list tdata v.blocknr v.offset v.parentOffset =
      remapAt sBlocksCount F.list t e v.blocknr v.code)
    (hrest : ∃ pointers, remapPointers a sBlocksCount F.list t vs = some pointers ∧
      List.Forall₂ (Replaced F extents) vs pointers) :
    ∃ pointers, remapPointers a sBlocksCount F.list tdata (v :: vs) = some pointers ∧
      List.Forall₂ (Replaced F extents) (v :: vs) pointers := by
  obtain ⟨pointers, hpointers, hall⟩ := hrest
  obtain ⟨pointer, hreplaced, hremapAt⟩ := h.remapAt_spec ha hfs he hv hothers t
  refine ⟨pointer :: pointers, ?_, .cons hreplaced hall⟩
  unfold remapPointers
  rcases hremapAt with hchanged | ⟨hunchanged, rfl⟩
  · rw [hcall, hchanged]
    simp only [hpointers, Option.map_some]
  · rw [hcall, hunchanged]
    simp only [hpointers, Option.map_some]

/-- The blocks of the extents behind the current one come after its last block. -/
theorem Listing.rest_behind (ha : 0 < a) (h : Listing file F extents) {passed rest : List RemapExtent}
    {e : RemapExtent} (hextents : extents = passed ++ e :: rest) {last : Visit} (hlast : IsLast file e last) :
    ∀ e' ∈ rest, ∀ v ∈ file.visits, e'.Covers v.code → last.Before v := by
  have hafter := h.last_before ha
  rw [hextents] at hafter
  intro e' he' v hv hcovers
  exact (List.pairwise_cons.1 (List.pairwise_append.1 hafter).2.1).1 e' he' last v hlast hv hcovers

/-- A block can be in the current extent only, when those before lie behind and its last block does not. -/
theorem Listing.only_current (ha : 0 < a) (h : Listing file F extents) {passed rest : List RemapExtent}
    {e : RemapExtent} (hextents : extents = passed ++ e :: rest) {last : Visit} (hlast : IsLast file e last)
    (hv : v ∈ file.visits) (hpassed : ∀ e' ∈ passed, ¬ e'.Covers v.code) (hahead : ¬ last.Before v) :
    ∀ e' ∈ extents, e'.Covers v.code → e' = e := by
  intro e' he' hcovers
  have hbehind := h.rest_behind ha hextents hlast
  rw [hextents] at he'
  rcases List.mem_append.1 he' with hold | hnew
  · exact absurd hcovers (hpassed e' hold)
  · rcases List.mem_cons.1 hnew with heq | hnew
    · exact heq
    · exact absurd (hbehind e' hnew v hv hcovers) hahead

/-- An extent whose last block was met just before lies behind as well. -/
theorem Listing.passed_concat (ha : 0 < a) (h : Listing file F extents) {pre vs : List Visit}
    (hvisits : file.visits = pre ++ vs) {passed : List RemapExtent} {e : RemapExtent} (he : e ∈ extents)
    (hpassed : ∀ v ∈ vs, ∀ e' ∈ passed, ¬ e'.Covers v.code) {last : Visit} (hlast : IsLast file e last)
    (hmet : pre.getLast? = some last) : ∀ v ∈ vs, ∀ e' ∈ passed ++ [e], ¬ e'.Covers v.code := by
  intro v hv e' he' hcovers
  rcases List.mem_append.1 he' with he' | he'
  · exact hpassed v hv e' he' hcovers
  · cases List.mem_singleton.1 he'
    have hlt := last_before_ahead ha hvisits hmet v hv
    have hmem : v ∈ file.visits := hvisits ▸ List.mem_append_right pre hv
    rcases h.le_last ha he hlast hmem hcovers with rfl | hle
    · exact Visit.Before.irrefl _ hlt
    · exact Visit.Before.irrefl _ (hlt.trans hle)

/-- Following a traversal by one call. -/
theorem runOffsets_cons_codes {s s' : BlockTraverseData} {vs : List Visit}
    (hrun : runOffsets a s (v :: vs) = some (s', (v :: vs).map Visit.code)) :
    ∃ t, traverseOffset a s v.offset v.parentOffset = some (t, v.code) ∧
      runOffsets a t vs = some (s', vs.map Visit.code) := by
  rw [runOffsets_cons] at hrun
  obtain ⟨⟨t, offset⟩, htraverse, hrest⟩ := Option.bind_eq_some_iff.1 hrun
  obtain ⟨⟨s'', offsets⟩, hrun', heq⟩ := Option.map_eq_some_iff.1 hrest
  obtain ⟨rfl, hcons⟩ := Prod.mk.inj heq
  obtain ⟨rfl, rfl⟩ := List.cons_eq_cons.1 hcons
  exact ⟨t, htraverse, hrun'⟩

/-- **The pass from a block on.** The extents before the current one lie behind, and the last block of the
current one is the block met just before or still to come. -/
theorem Listing.remapPointers_from (ha : 0 < a) (h : Listing file F extents) {sBlocksCount : ℕ}
    (hfs : OnFilesystem sBlocksCount file F) {pre vs : List Visit} (hvisits : file.visits = pre ++ vs)
    {s s' : BlockTraverseData} (hrun : runOffsets a s vs = some (s', vs.map Visit.code))
    {passed rest : List RemapExtent} {e : RemapExtent} (hextents : extents = passed ++ e :: rest)
    (hpassed : ∀ v ∈ vs, ∀ e' ∈ passed, ¬ e'.Covers v.code)
    {last : Visit} (hlast : IsLast file e last) (hmet : last ∈ vs ∨ pre.getLast? = some last) :
    ∃ pointers, remapPointers a sBlocksCount F.list { s with actext := e :: rest } vs = some pointers ∧
      List.Forall₂ (Replaced F extents) vs pointers := by
  induction vs generalizing pre s passed rest e last with
  | nil => exact ⟨[], rfl, .nil⟩
  | cons v vs ih =>
      obtain ⟨t, htraverse, hrun'⟩ := runOffsets_cons_codes hrun
      have htraverse' : traverseOffset a { s with actext := e :: rest } v.offset v.parentOffset =
          some ({ t with actext := e :: rest }, v.code) := by
        rw [traverseOffset_actext, htraverse]
        rfl
      have hv : v ∈ file.visits := hvisits ▸ List.mem_append_right pre List.mem_cons_self
      have he : e ∈ extents := hextents ▸ List.mem_append_right passed List.mem_cons_self
      have hsplit : file.visits = (pre ++ [v]) ++ vs := by
        rw [hvisits, List.append_assoc]
        rfl
      have hnotBefore := not_before_of_ahead ha hvisits
      have hmetNext : ∀ {w : Visit}, w ∈ v :: vs → w ∈ vs ∨ (pre ++ [v]).getLast? = some w := by
        intro w hw
        rcases List.mem_cons.1 hw with rfl | hw
        · exact .inr List.getLast?_concat
        · exact .inl hw
      have hcmp : 0 < cmpExtOffsetPtrCore v.code (e.offset + e.len - 1) ↔ last.Before v := by
        rw [← hlast.2, cmp_pos_iff ha hv hlast.1]
      rcases hmet with hahead | hmet
      · -- the current extent goes on
        have hcall := remapBlock_stays F.list htraverse' rfl (hfs.file v hv)
          (fun hpos => hnotBefore last hahead (hcmp.1 hpos))
        exact h.remapPointers_cons ha hfs hv he
          (h.only_current ha hextents hlast hv (hpassed v List.mem_cons_self) (hnotBefore last hahead)) hcall
          (ih hsplit hrun' hextents (fun v' hv' => hpassed v' (List.mem_cons_of_mem v hv')) hlast
            (hmetNext hahead))
      · -- the current extent has been met
        have hpos := hcmp.2 (last_before_ahead ha hvisits hmet v List.mem_cons_self)
        have hpassed' := h.passed_concat ha hvisits he hpassed hlast hmet
        cases rest with
        | nil =>
            have hcall := remapBlock_ends F.list htraverse' rfl (hfs.file v hv) hpos
            refine ⟨(v :: vs).map Visit.blocknr, ?_, replaced_of_not_listed (hextents ▸ hpassed')⟩
            unfold remapPointers
            rw [hcall]
            rfl
        | cons next rest =>
            have hextents' : extents = (passed ++ [e]) ++ next :: rest := by
              rw [hextents, List.append_assoc]
              rfl
            have hnext : next ∈ extents := hextents' ▸ List.mem_append_right _ List.mem_cons_self
            obtain ⟨last', hlast'⟩ := h.exists_last hnext
            -- the next extent is met from here on
            have hcovers : next.Covers last'.code := by
              have hpos := h.pos next hnext
              rw [hlast'.2]
              exact ⟨by omega, by omega⟩
            have hahead := ahead_of_last_before ha hvisits hmet hlast'.1
              (h.rest_behind ha hextents hlast next List.mem_cons_self last' hlast'.1 hcovers)
            have hcall := remapBlock_moves F.list htraverse' rfl (hfs.file v hv) hpos
            exact h.remapPointers_cons ha hfs hv hnext
              (h.only_current ha hextents' hlast' hv (hpassed' v List.mem_cons_self) (hnotBefore last' hahead))
              hcall (ih hsplit hrun' hextents' (fun v' hv' => hpassed' v' (List.mem_cons_of_mem v hv')) hlast'
                (hmetNext hahead))

end Extents

end Prefetch.Remap

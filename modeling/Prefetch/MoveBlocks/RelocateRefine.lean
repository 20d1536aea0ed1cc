/-
# Prefetch.MoveBlocks.RelocateRefine — the relocation loop places nodes on first visit

The relocation loop, run on a well-formed filesystem with a free area, refines the walk of
`Prefetch.Lib.FirstVisit` over the places on the way to each block of the layout: references are the
addresses, the cursor is the next address. Between two places the inode being worked on is in memory
only, so the invariant speaks of the filesystem with that inode in it; an exit is described by what
survives of the invariant at any point.
-/
import Prefetch.Lib.ExitProg
import Prefetch.Lib.FirstVisit
import Prefetch.MoveBlocks.PointerTree
import Prefetch.MoveBlocks.Main

namespace Prefetch.MoveBlocks

open ExitProg FirstVisit

variable {g : Geometry}

/-! ## §1 — the area -/

/-- A stretch of blocks inside the bitmap. -/
structure Area (g : Geometry) where
  lo : ℕ
  hi : ℕ
  lo_pos : 0 < lo
  lo_le : lo ≤ hi
  first_le : g.sFirstDataBlock ≤ lo
  hi_le : hi ≤ g.sBlocksCount

/-- The area as `main` hands it to `relocate_blocks`. -/
def Area.range (area : Area g) : BlockRange := ⟨area.lo, area.hi - area.lo⟩

theorem Area.inRange_iff (area : Area g) (b : ℕ) :
    inRange b area.range = true ↔ area.lo ≤ b ∧ b < area.hi := by
  have hlt := area.hi_le.trans_lt g.blocksCount_lt
  have hsum : (area.lo + (area.hi - area.lo)) % 2 ^ 32 = area.hi := by
    rw [Nat.add_sub_cancel' area.lo_le, Nat.mod_eq_of_lt hlt]
  show (if b < area.lo then false
    else if b ≥ (area.lo + (area.hi - area.lo)) % 2 ^ 32 then false else true) = true ↔ _
  rw [hsum]
  split_ifs with h1 h2
  · simp only [false_iff]
    omega
  · simp only [false_iff]
    omega
  · simp only [true_iff]
    omega

theorem Area.inBlockMap (area : Area g) {b : ℕ} (hlo : area.lo ≤ b) (hhi : b < area.hi) :
    inBlockMap g b = true := by
  have h1 := area.first_le
  have h2 := area.hi_le
  unfold MoveBlocks.inBlockMap
  simp only [Bool.and_eq_true, decide_eq_true_eq]
  omega

/-- A reference the walk has to place is one `relocate_block_in_inode` and
`relocate_block_in_indirect_block` move. -/
theorem unsettled_iff {area : Area g} {addr : Place g → ℕ} {p : Place g} :
    Unsettled area.lo area.hi addr p ↔ addr p ≠ 0 ∧ inRange (addr p) area.range = false := by
  rw [Unsettled, ← area.inRange_iff, Bool.not_eq_true]

/-! ## §2 — the places on the way to a block -/

/-- The word of the single-indirect block for an offset. -/
def indWord (n b : ℕ) : Place g :=
  (Place.top n ext2IndBlock).child ⟨(b - 12) % g.addrPerBlock, Nat.mod_lt _ g.addrPerBlock_pos⟩
    (by decide : 0 < 1)

/-- The word of the double-indirect block for an offset. -/
def dindWord (n b : ℕ) : Place g :=
  (Place.top n ext2DindBlock).child
    ⟨(b - 12 - g.addrPerBlock) / g.addrPerBlock % g.addrPerBlock, Nat.mod_lt _ g.addrPerBlock_pos⟩
    (by decide : 0 < 2)

/-- The word of the single-indirect block below it for an offset. -/
def dindIndWord (n b : ℕ) : Place g :=
  (dindWord n b).child ⟨(b - 12 - g.addrPerBlock) % g.addrPerBlock, Nat.mod_lt _ g.addrPerBlock_pos⟩
    (by decide : 1 < 2)

variable (g) in
/-- The places `relocate_block` visits for an offset, in order; none in the triple-indirect region. -/
def pathPlaces (n b : ℕ) : List (Place g) :=
  if h : isDirectBlock b = true then [Place.top n ⟨b, isDirectBlock_lt h⟩]
  else if is1IndirectBlock g b then [Place.top n ext2IndBlock, indWord n b]
  else if is2IndirectBlock g b then [Place.top n ext2DindBlock, dindWord n b, dindIndWord n b]
  else []

variable (g) in
/-- The places visited for a list of pairs. -/
def walkPlaces (pairs : List (ℕ × ℕ)) : List (Place g) := pairs.flatMap fun q => pathPlaces g q.1 q.2

theorem ref_child_of_hole {v : View g} {p : Place g} (hp : v.ref p = 0) (i hi) :
    v.ref (p.child i hi) = 0 := by
  rw [View.ref_child, hp]
  exact if_pos rfl

/-- Below a slot without a block there is nothing. -/
theorem ref_eq_zero_of_mem_pathPlaces {v : View g} {n b : ℕ} (h : ∀ k, v.topWord n k = 0) {p : Place g}
    (hp : p ∈ pathPlaces g n b) : v.ref p = 0 := by
  have htop : ∀ k, v.ref (Place.top n k) = 0 := h
  unfold pathPlaces at hp
  split_ifs at hp
  · rcases List.mem_singleton.mp hp with rfl
    exact htop _
  · simp only [List.mem_cons, List.not_mem_nil, or_false] at hp
    rcases hp with rfl | rfl
    · exact htop _
    · exact ref_child_of_hole (htop _) _ _
  · simp only [List.mem_cons, List.not_mem_nil, or_false] at hp
    rcases hp with rfl | rfl | rfl
    · exact htop _
    · exact ref_child_of_hole (htop _) _ _
    · exact ref_child_of_hole (ref_child_of_hole (htop _) _ _) _ _
  · simp at hp

/-! ## §3 — invariants -/

/-- The filesystem on the device, and the same with an inode in memory. -/
def Disk.view (disk : Disk g) : View g := ⟨disk.inodes, disk.blocks⟩
def RunState.view (s : RunState g) : View g := s.disk.view
def RunState.viewWith (s : RunState g) (n : ℕ) (inode : Ext2Inode) : View g :=
  ⟨Function.update s.disk.inodes n (some inode), s.disk.blocks⟩

/-- References and cursor, as a state of the walk. -/
def track (v : View g) (s : RunState g) : FirstVisit.State (Place g) := ⟨v.ref, s.relocationBlock⟩

/-- What holds at any point of the loop started in `s₀`, also at an exit: the targets written are the
blocks of the area in order, no other block has changed, and the bitmap on the device is the old one. -/
structure Confined (area : Area g) (s₀ s : RunState g) : Prop where
  lo_le : area.lo ≤ s.relocationBlock
  le_hi : s.relocationBlock ≤ area.hi
  written : s.written.reverse = List.range' area.lo (s.relocationBlock - area.lo)
  outside : ∀ b, ¬ (area.lo ≤ b ∧ b < area.hi) → s.disk.blocks b = s₀.disk.blocks b
  blockBitmap : s.disk.blockBitmap = s₀.disk.blockBitmap
  bgFreeBlocksCount : s.disk.bgFreeBlocksCount = s₀.disk.bgFreeBlocksCount

/-- The invariant of the loop, for the filesystem `v`. -/
structure Sound (area : Area g) (reserved : Set ℕ) (s₀ : RunState g) (v : View g) (s : RunState g) :
    Prop extends Confined area s₀ s where
  wf : WellFormed reserved v s.blockMap
  reads : ∀ n b, v.readBlock n b = s₀.view.readBlock n b
  free : ∀ b, s.relocationBlock ≤ b → b < area.hi → s.blockMap b = false
  counts : GroupCountsExact g s₀.groupDesc s₀.blockMap → GroupCountsExact g s.groupDesc s.blockMap

theorem Confined.mem_area {area : Area g} {s₀ s : RunState g} (h : Confined area s₀ s) {b : ℕ}
    (hb : b ∈ s.written) : area.lo ≤ b ∧ b < area.hi := by
  have hmem : b ∈ List.range' area.lo (s.relocationBlock - area.lo) := by
    rw [← h.written]
    exact List.mem_reverse.mpr hb
  have hle := h.lo_le
  have hhi := h.le_hi
  rw [List.mem_range'_1] at hmem
  omega

/-- The reasons that report a failed access. -/
def ExitReason.isFault : ExitReason → Bool
  | .noMemory | .readBlock | .writeBlock | .readInode | .writeInode | .readIndirect
  | .writeIndirect => true
  | .sourceFree | .targetOccupied | .relocatingHole | .noFreeSpace | .failedAssertion => false

/-- What is left behind by an exit from the call that began in `s`. -/
structure Exited (area : Area g) (s₀ s : RunState g) (e : ExitReason) (s' : RunState g) : Prop where
  confined : Confined area s₀ s'
  fault : e.isFault = true
  inodes_eq : s'.disk.inodes = s.disk.inodes

/-! ## §4 — one move -/

/-- The group counts stay exact when the bitmap moves one mark. -/
theorem groupCountsExact_remark {s : RunState g} {src t : ℕ}
    (h : GroupCountsExact g s.groupDesc s.blockMap) (hsrc : s.blockMap src = true)
    (ht : s.blockMap t = false) (hsrcMap : inBlockMap g src = true) (htMap : inBlockMap g t = true) :
    GroupCountsExact g (s.remarkBlocks src t).groupDesc (Ownership.remark s.blockMap src t) := by
  intro group hgroup
  have hmove := Ownership.card_freeIn_remark hsrc ht (groupBlocks g group)
  simp only [mem_groupBlocks hsrcMap, mem_groupBlocks htMap] at hmove
  have hbefore := h group hgroup
  have hafter : (Ownership.freeIn (Ownership.remark s.blockMap src t) (groupBlocks g group)).card
      < 2 ^ 16 := (Finset.card_filter_le _ _).trans_lt (card_groupBlocks_lt group)
  have hle : (Ownership.freeIn s.blockMap (groupBlocks g group)).card < 2 ^ 16 :=
    (Finset.card_filter_le _ _).trans_lt (card_groupBlocks_lt group)
  show Function.update (Function.update s.groupDesc _ _) _ _ group = _
  by_cases hg : groupOfBlk g t = group
  · subst hg
    rw [Function.update_self]
    by_cases hsg : groupOfBlk g src = groupOfBlk g t
    · rw [hsg, Function.update_self, hbefore]
      rw [if_pos rfl, if_pos hsg] at hmove
      omega
    · rw [Function.update_of_ne fun h => hsg h.symm, hbefore]
      rw [if_pos rfl, if_neg hsg] at hmove
      omega
  · rw [Function.update_of_ne fun h => hg h.symm]
    by_cases hsg : groupOfBlk g src = group
    · subst hsg
      rw [Function.update_self, hbefore]
      rw [if_neg hg, if_pos rfl] at hmove
      omega
    · rw [Function.update_of_ne fun h => hsg h.symm, hbefore]
      rw [if_neg hg, if_neg hsg] at hmove
      omega

/-- Inside the bitmap, marking one block and unmarking another is a remark. -/
theorem remarkBlocks_blockMap {s : RunState g} {src t : ℕ} (hsrc : inBlockMap g src = true)
    (ht : inBlockMap g t = true) :
    (s.remarkBlocks src t).blockMap = Ownership.remark s.blockMap src t := by
  show unmarkBlockBitmap g (markBlockBitmap g s.blockMap t) src = _
  rw [unmarkBlockBitmap, if_pos hsrc, markBlockBitmap, if_pos ht]
  rfl

section Moves

variable {area : Area g} {reserved : Set ℕ} {s₀ s s' : RunState g} {v v' : View g}

/-- `relocate_raw_block` to the cursor, and the advance of the cursor. -/
def RunState.moveBlock (s : RunState g) (sourceBlock : ℕ) : RunState g :=
  ((s.copyBlock sourceBlock s.relocationBlock).remarkBlocks sourceBlock s.relocationBlock).advance

/-- The states differ at most in the inodes, the blocks of the area and the accesses made. -/
structure Agree (area : Area g) (s s' : RunState g) : Prop where
  blockMap : s'.blockMap = s.blockMap
  groupDesc : s'.groupDesc = s.groupDesc
  relocationBlock : s'.relocationBlock = s.relocationBlock
  written : s'.written = s.written
  outside : ∀ b, ¬ (area.lo ≤ b ∧ b < area.hi) → s'.disk.blocks b = s.disk.blocks b
  blockBitmap : s'.disk.blockBitmap = s.disk.blockBitmap
  bgFreeBlocksCount : s'.disk.bgFreeBlocksCount = s.disk.bgFreeBlocksCount

theorem Confined.congr (h : Confined area s₀ s) (hs : Agree area s s') : Confined area s₀ s' where
  lo_le := hs.relocationBlock ▸ h.lo_le
  le_hi := hs.relocationBlock ▸ h.le_hi
  written := by rw [hs.written, hs.relocationBlock, h.written]
  outside := fun b hb => (hs.outside b hb).trans (h.outside b hb)
  blockBitmap := hs.blockBitmap.trans h.blockBitmap
  bgFreeBlocksCount := hs.bgFreeBlocksCount.trans h.bgFreeBlocksCount

/-- The invariant speaks of the filesystem `v` and of nothing else in which `s` and `s'` differ. -/
theorem Sound.congr (h : Sound area reserved s₀ v s) (hs : Agree area s s') :
    Sound area reserved s₀ v s' where
  toConfined := h.toConfined.congr hs
  wf := hs.blockMap ▸ h.wf
  reads := h.reads
  free := by
    rw [hs.blockMap, hs.relocationBlock]
    exact h.free
  counts := by
    rw [hs.blockMap, hs.groupDesc]
    exact h.counts

theorem Area.advance (area : Area g) {c : ℕ} (hroom : c < area.hi) : (c + 1) % 2 ^ 32 = c + 1 := by
  have hhi := area.hi_le.trans_lt g.blocksCount_lt
  exact Nat.mod_eq_of_lt (by omega)

theorem Confined.moveBlock (h : Confined area s₀ s) (hroom : s.relocationBlock < area.hi) (src : ℕ) :
    Confined area s₀ (s.moveBlock src) := by
  have hlo := h.lo_le
  have hcursor : (s.moveBlock src).relocationBlock = s.relocationBlock + 1 := area.advance hroom
  refine ⟨by omega, by omega, ?_, fun b hb => ?_, h.blockBitmap, h.bgFreeBlocksCount⟩
  · -- the log grows by the block after the last one
    show (s.relocationBlock :: s.written).reverse = _
    rw [hcursor, List.reverse_cons, h.written, Nat.sub_add_comm hlo, List.range'_concat, Nat.one_mul,
      Nat.add_sub_cancel' hlo]
  · have hne : b ≠ s.relocationBlock := by
      rintro rfl
      exact hb ⟨hlo, hroom⟩
    exact (Function.update_of_ne hne _ _).trans (h.outside b hb)

/-- **One move.** When the place `p` is made to refer to the copy of its block at the cursor, the
invariant holds again and the walk has made one visit. -/
theorem Sound.move (h : Sound area reserved s₀ v s) {p : Place g}
    (hp : Unsettled area.lo area.hi v.ref p) (hroom : s.relocationBlock < area.hi)
    (hstored : Stored v v' p s.relocationBlock) (hs' : Agree area (s.moveBlock (v.ref p)) s') :
    Sound area reserved s₀ v' s' ∧ track v' s' = visit area.lo area.hi (track v s) p := by
  have hp0 : v.ref p ≠ 0 := hp.1
  have hlo := h.lo_le
  have ht0 : s.relocationBlock ≠ 0 := by
    have := area.lo_pos
    omega
  have hfree := h.free _ le_rfl hroom
  have hinMap := area.inBlockMap hlo hroom
  have hcursor : s'.relocationBlock = s.relocationBlock + 1 :=
    hs'.relocationBlock.trans (area.advance hroom)
  have hmap : s'.blockMap = Ownership.remark s.blockMap (v.ref p) s.relocationBlock :=
    hs'.blockMap.trans (remarkBlocks_blockMap (h.wf.ref_inMap hp0) hinMap)
  refine ⟨⟨(h.toConfined.moveBlock hroom _).congr hs', ?_, ?_, ?_, ?_⟩, ?_⟩
  · rw [hmap]
    exact h.wf.stored hstored hp0 ht0 hfree hinMap
  · intro n b
    rw [hstored.readBlock_eq hp0 ht0, h.reads]
  · intro b hb hbhi
    rw [hmap, Ownership.remark_apply, if_neg (by omega : b ≠ s.relocationBlock)]
    split
    · rfl
    · exact h.free b (by omega) hbhi
  · intro hcounts
    rw [hmap, hs'.groupDesc]
    exact groupCountsExact_remark (h.counts hcounts) (h.wf.ref_used hp0) hfree (h.wf.ref_inMap hp0) hinMap
  · rw [visit_unsettled (s := track v s) hp]
    simp only [track, hstored.ref_eq hp0 ht0, hcursor]

end Moves

/-! ## §5 — the rules for accesses and block copies -/

/-- The state after some accesses. -/
def RunState.withAccesses (s : RunState g) (n : ℕ) : RunState g := { s with accesses := n }

section Accesses

variable {area : Area g} {reserved : Set ℕ} {s₀ s : RunState g} {v : View g} {n : ℕ}

theorem Confined.withAccesses (h : Confined area s₀ s) (n : ℕ) : Confined area s₀ (s.withAccesses n) :=
  h.congr ⟨rfl, rfl, rfl, rfl, fun _ _ => rfl, rfl, rfl⟩

theorem Sound.withAccesses (h : Sound area reserved s₀ v s) (n : ℕ) :
    Sound area reserved s₀ v (s.withAccesses n) :=
  h.congr ⟨rfl, rfl, rfl, rfl, fun _ _ => rfl, rfl, rfl⟩

theorem Sound.writeInode (h : Sound area reserved s₀ v s) (n : ℕ) (inode : Ext2Inode) :
    Sound area reserved s₀ v (s.writeInode n inode) :=
  h.congr ⟨rfl, rfl, rfl, rfl, fun _ _ => rfl, rfl, rfl⟩

/-- An access leaves the filesystem alone, whether it fails or not. -/
theorem wp_access {why : ExitReason} {Q : Unit → RunState g → Prop}
    {E : ExitReason → RunState g → Prop} (hQ : Q () (s.withAccesses (s.accesses + 1)))
    (hE : E why (s.withAccesses (s.accesses + 1))) : wp (access why) Q E s := by
  unfold access
  simp only [wp_bind, wp_get, wp_modify]
  split
  · exact hE
  · exact hQ

/-- `relocate_raw_block` on a used source and a free target copies the block and moves the mark, or
exits with the filesystem unchanged. -/
theorem wp_relocateRawBlock {src t : ℕ} {Q : Unit → RunState g → Prop}
    {E : ExitReason → RunState g → Prop} (hsrc : testBlockBitmap g s.blockMap src = true)
    (ht : testBlockBitmap g s.blockMap t = false)
    (hQ : ∀ n, Q () (((s.withAccesses n).copyBlock src t).remarkBlocks src t))
    (hE : ∀ e n, e.isFault = true → E e (s.withAccesses n)) :
    wp (relocateRawBlock src t) Q E s := by
  unfold relocateRawBlock
  simp only [wp_bind, wp_get, hsrc, ht, Bool.true_eq_false, Bool.false_eq_true, if_false]
  refine wp_access ?_ (hE _ _ rfl)
  refine wp_access ?_ (hE _ _ rfl)
  refine wp_access ?_ (hE _ _ rfl)
  exact hQ _

end Accesses

/-! ## §6 — one place -/

section Places

variable {area : Area g} {reserved : Set ℕ} {s₀ s s' s'' : RunState g} {n : ℕ}
  {inode inode' inode'' : Ext2Inode} {l l' : List (Place g)}

/-- From `s` with `inode` in memory to `s'` with `inode'`, the places `l` have been visited. -/
structure Visited (area : Area g) (reserved : Set ℕ) (s₀ : RunState g) (n : ℕ) (s : RunState g)
    (inode : Ext2Inode) (l : List (Place g)) (s' : RunState g) (inode' : Ext2Inode) : Prop where
  sound : Sound area reserved s₀ (s'.viewWith n inode') s'
  valid : inode'.hasValidBlocks = true
  track_eq : track (s'.viewWith n inode') s'
    = visitAll area.lo area.hi (track (s.viewWith n inode) s) l
  inodes_eq : s'.disk.inodes = s.disk.inodes

/-- Room for the places still to visit. -/
def Room (area : Area g) (v : View g) (s : RunState g) (l : List (Place g)) : Prop :=
  (visitAll area.lo area.hi (track v s) l).next ≤ area.hi

theorem Room.of_append {v : View g} (h : Room area v s (l ++ l')) : Room area v s l := by
  unfold Room at h ⊢
  rw [visitAll_append] at h
  exact next_le_visitAll.trans h

theorem Visited.room (hv : Visited area reserved s₀ n s inode l s' inode')
    (h : Room area (s.viewWith n inode) s (l ++ l')) : Room area (s'.viewWith n inode') s' l' := by
  unfold Room at h ⊢
  rwa [visitAll_append, ← hv.track_eq] at h

theorem Visited.append (h : Visited area reserved s₀ n s inode l s' inode')
    (h' : Visited area reserved s₀ n s' inode' l' s'' inode'') :
    Visited area reserved s₀ n s inode (l ++ l') s'' inode'' :=
  ⟨h'.sound, h'.valid, by rw [h'.track_eq, h.track_eq, visitAll_append],
    h'.inodes_eq.trans h.inodes_eq⟩

/-- Visiting places that have to stay where they are is doing nothing. -/
theorem Visited.of_settled (h : Sound area reserved s₀ (s.viewWith n inode) s)
    (hvalid : inode.hasValidBlocks = true)
    (hl : ∀ p ∈ l, ¬ Unsettled area.lo area.hi (s.viewWith n inode).ref p) :
    Visited area reserved s₀ n s inode l s inode :=
  ⟨h, hvalid, (visitAll_of_settled hl).symm, rfl⟩

theorem Visited.withAccesses (h : Visited area reserved s₀ n s inode l s' inode') (k : ℕ) :
    Visited area reserved s₀ n s inode l (s'.withAccesses k) inode' :=
  ⟨h.sound.withAccesses k, h.valid, h.track_eq, h.inodes_eq⟩

theorem Exited.trans {e : ExitReason} (h : s'.disk.inodes = s.disk.inodes)
    (he : Exited area s₀ s' e s'') : Exited area s₀ s e s'' :=
  ⟨he.confined, he.fault, he.inodes_eq.trans h⟩

/-- A place to move has a used block, and the cursor is at a free one inside the area. -/
theorem Sound.bitmap_of_unsettled {v : View g} (h : Sound area reserved s₀ v s) {p : Place g}
    (hp : Unsettled area.lo area.hi v.ref p) (hroom : Room area v s [p]) :
    testBlockBitmap g s.blockMap (v.ref p) = true
      ∧ testBlockBitmap g s.blockMap s.relocationBlock = false
      ∧ s.relocationBlock < area.hi := by
  have hnext : s.relocationBlock + 1 ≤ area.hi := by
    have hstep : (visit area.lo area.hi (track v s) p).next ≤ area.hi := hroom
    rwa [visit_unsettled (s := track v s) hp] at hstep
  refine ⟨?_, ?_, hnext⟩
  · rw [testBlockBitmap, h.wf.ref_inMap hp.1, h.wf.ref_used hp.1]
    rfl
  · rw [testBlockBitmap, h.free _ le_rfl hnext, Bool.and_false]

/-- A move made by the code is a visit. -/
theorem Visited.of_move (h : Sound area reserved s₀ (s.viewWith n inode) s) {p : Place g}
    (hp : Unsettled area.lo area.hi (s.viewWith n inode).ref p) (hroom : s.relocationBlock < area.hi)
    (hstored : Stored (s.viewWith n inode) (s'.viewWith n inode') p s.relocationBlock)
    (hs' : Agree area (s.moveBlock ((s.viewWith n inode).ref p)) s')
    (hvalid : inode'.hasValidBlocks = true) (hinodes : s'.disk.inodes = s.disk.inodes) :
    Visited area reserved s₀ n s inode [p] s' inode' :=
  ⟨(h.move hp hroom hstored hs').1, hvalid, (h.move hp hroom hstored hs').2, hinodes⟩

/-- A moved place refers to what was the cursor. -/
theorem Visited.with_ref {p : Place g} {c : ℕ} (hv : Visited area reserved s₀ n s inode [p] s' inode')
    (hp : Unsettled area.lo area.hi (s.viewWith n inode).ref p) (hc : c = s.relocationBlock) :
    Visited area reserved s₀ n s inode [p] s' inode' ∧ c = (s'.viewWith n inode').ref p := by
  have haddr : (s'.viewWith n inode').ref p
      = (visit area.lo area.hi (track (s.viewWith n inode) s) p).addr p :=
    congrArg (fun t : FirstVisit.State (Place g) => t.addr p) hv.track_eq
  rw [visit_unsettled (s := track (s.viewWith n inode) s) hp] at haddr
  exact ⟨hv, hc.trans (haddr.trans (Function.update_self ..)).symm⟩

theorem viewWith_ref_top (hvalid : inode.hasValidBlocks = true) (k : Fin 15) :
    (s.viewWith n inode).ref (Place.top n k) = inode.iBlock k := by
  show View.topWord _ n k = _
  simp [View.topWord, RunState.viewWith, hvalid]

theorem Sound.cursor_ne_zero {v : View g} (h : Sound area reserved s₀ v s) : s.relocationBlock ≠ 0 := by
  have hpos := area.lo_pos
  have hlo := h.lo_le
  omega

/-- `relocate_block_in_inode` visits the slot. -/
theorem relocateBlockInInode_spec (h : Sound area reserved s₀ (s.viewWith n inode) s)
    (hvalid : inode.hasValidBlocks = true) (k : Fin 15)
    (hroom : Room area (s.viewWith n inode) s [Place.top n k]) :
    wp (relocateBlockInInode inode k area.range)
      (fun inode' s' => Visited area reserved s₀ n s inode [Place.top n k] s' inode')
      (Exited area s₀ s) s := by
  have href := viewWith_ref_top (s := s) (n := n) hvalid k
  unfold relocateBlockInInode
  by_cases hu : Unsettled area.lo area.hi (s.viewWith n inode).ref (Place.top n k)
  · have hmove := unsettled_iff.mp hu
    rcases h.bitmap_of_unsettled hu hroom with ⟨hsrc, htgt, hlt⟩
    rw [href] at hmove hsrc
    simp only [hmove.1, hmove.2, if_false, Bool.false_eq_true, wp_bind, wp_get]
    refine wp_relocateRawBlock hsrc htgt (fun m => ?_) fun e m he => ?_
    · rw [wp_modify, wp_pure]
      refine Visited.of_move h hu hlt ?_ ?_ hvalid rfl
      · exact stored_top h.wf (Function.update_self ..) hvalid h.cursor_ne_zero (h.free _ le_rfl hlt)
          (Function.update_idem ..).symm rfl
      · rw [href]
        exact ⟨rfl, rfl, rfl, rfl, fun _ _ => rfl, rfl, rfl⟩
    · exact ⟨h.toConfined.withAccesses m, he, rfl⟩
  · have hkeep : Visited area reserved s₀ n s inode [Place.top n k] s inode :=
      Visited.of_settled h hvalid fun p hp => by
        rcases List.mem_singleton.mp hp with rfl
        exact hu
    rw [unsettled_iff, href, not_and, Bool.not_eq_false] at hu
    by_cases h0 : inode.iBlock k = 0
    · simp only [h0, if_true]
      exact hkeep
    · simp only [h0, if_false, hu h0, if_true]
      exact hkeep

/-- `relocate_block_in_indirect_block` visits the word, and returns what it now holds. The indirect
block itself has been visited before, so that it lies in the area. -/
theorem relocateBlockInIndirectBlock_spec (h : Sound area reserved s₀ (s.viewWith n inode) s)
    (hvalid : inode.hasValidBlocks = true) {q : Place g} {block index : ℕ}
    (hblock : (s.viewWith n inode).ref q = block) (hq0 : block ≠ 0)
    (hqarea : area.lo ≤ block ∧ block < area.hi) {i : Fin g.addrPerBlock} (hi : index = i) {hq}
    (hroom : Room area (s.viewWith n inode) s [q.child i hq]) :
    wp (relocateBlockInIndirectBlock block index area.range)
      (fun next s' => Visited area reserved s₀ n s inode [q.child i hq] s' inode
        ∧ next = (s'.viewWith n inode).ref (q.child i hq))
      (Exited area s₀ s) s := by
  subst hblock hi
  have href : (s.viewWith n inode).ref (q.child i hq) = s.disk.blocks ((s.viewWith n inode).ref q) i := by
    rw [View.ref_child, View.deref, if_neg hq0]
    rfl
  unfold relocateBlockInIndirectBlock
  rw [dif_pos i.isLt, if_neg hq0]
  simp only [wp_bind]
  refine wp_access ?_ ⟨h.toConfined.withAccesses _, rfl, rfl⟩
  rw [wp_get]
  by_cases hu : Unsettled area.lo area.hi (s.viewWith n inode).ref (q.child i hq)
  · have hmove := unsettled_iff.mp hu
    rcases h.bitmap_of_unsettled hu hroom with ⟨hsrc, htgt, hlt⟩
    rw [if_neg (href ▸ hmove.1), if_neg (Bool.eq_false_iff.mp (href ▸ hmove.2))]
    simp only [wp_bind, wp_get]
    refine wp_relocateRawBlock (href ▸ hsrc) htgt (fun m => ?_) fun e m' he => ?_
    · rw [wp_modify]
      refine wp_access ?_ ?_
      · rw [wp_modify, wp_pure]
        refine Visited.with_ref ?_ hu rfl
        refine Visited.of_move h hu hlt ?_ ?_ hvalid rfl
        · refine stored_child h.wf hq0 hu.1 h.cursor_ne_zero (h.free _ le_rfl hlt) rfl ?_
          rw [href]
          rfl
        · rw [href]
          refine ⟨rfl, rfl, rfl, rfl, fun b hb => ?_, rfl, rfl⟩
          refine Function.update_of_ne ?_ _ _
          rintro rfl
          exact hb hqarea
      · -- the word was not written: the copy stays in the area, unreferenced
        refine ⟨(h.toConfined.moveBlock hlt _).congr ⟨rfl, rfl, rfl, rfl, ?_, rfl, rfl⟩, rfl, rfl⟩
        exact fun _ _ => rfl
    · exact ⟨h.toConfined.withAccesses _, he, rfl⟩
  · have hkeep : Visited area reserved s₀ n s inode [q.child i hq] s inode :=
      Visited.of_settled h hvalid fun p hp => by
        rcases List.mem_singleton.mp hp with rfl
        exact hu
    rw [unsettled_iff, href, not_and, Bool.not_eq_false] at hu
    split
    next => exact ⟨hkeep.withAccesses _, href.symm⟩
    next hne =>
      split
      next => exact ⟨hkeep.withAccesses _, href.symm⟩
      next hout => exact absurd (hu hne) hout

/-- A place just visited that holds a block number refers into the area. -/
theorem Visited.mem_area (hv : Visited area reserved s₀ n s inode l s' inode')
    (h : Sound area reserved s₀ (s.viewWith n inode) s) (hroom : Room area (s.viewWith n inode) s l)
    {p : Place g} (hp : p ∈ l) (hp0 : (s'.viewWith n inode').ref p ≠ 0) :
    area.lo ≤ (s'.viewWith n inode').ref p ∧ (s'.viewWith n inode').ref p < area.hi := by
  have hset : ¬ Unsettled area.lo area.hi (s'.viewWith n inode').ref p := by
    have hall := not_unsettled_visitAll (s := track (s.viewWith n inode) s) h.lo_le hroom hp
    rwa [← hv.track_eq] at hall
  by_contra hout
  exact hset ⟨hp0, hout⟩

/-- Nothing below a hole has to be visited. -/
theorem Visited.of_hole (h : Sound area reserved s₀ (s.viewWith n inode) s)
    (hvalid : inode.hasValidBlocks = true) (hl : ∀ p ∈ l, (s.viewWith n inode).ref p = 0) :
    Visited area reserved s₀ n s inode l s inode :=
  Visited.of_settled h hvalid fun p hp hu => hu.1 (hl p hp)

theorem relocateBlock1Indirect_spec (h : Sound area reserved s₀ (s.viewWith n inode) s)
    (hvalid : inode.hasValidBlocks = true) {b : ℕ} (hb : b - 12 < g.addrPerBlock)
    (hroom : Room area (s.viewWith n inode) s [Place.top n ext2IndBlock, indWord n b]) :
    wp (relocateBlock1Indirect inode b area.range)
      (fun inode' s' =>
        Visited area reserved s₀ n s inode [Place.top n ext2IndBlock, indWord n b] s' inode')
      (Exited area s₀ s) s := by
  have hroom' : Room area (s.viewWith n inode) s ([Place.top n ext2IndBlock] ++ [indWord n b]) := hroom
  have hroom₁ := hroom'.of_append
  unfold relocateBlock1Indirect
  rw [wp_bind]
  refine wp_mono (relocateBlockInInode_spec h hvalid _ hroom₁) (fun inode₁ s₁ hv₁ => ?_) fun _ _ he => he
  have href := viewWith_ref_top (s := s₁) (n := n) hv₁.valid ext2IndBlock
  have hroom₂ : Room area (s₁.viewWith n inode₁) s₁ [indWord n b] := hv₁.room hroom
  by_cases h0 : inode₁.iBlock ext2IndBlock = 0
  · simp only [h0, if_true, wp_pure]
    refine hv₁.append (Visited.of_hole hv₁.sound hv₁.valid fun p hp => ?_)
    rcases List.mem_singleton.mp hp with rfl
    exact ref_child_of_hole (href.trans h0) _ _
  · simp only [h0, if_false, wp_bind]
    have harea := hv₁.mem_area h hroom₁ (List.mem_singleton_self _) (href ▸ h0)
    refine wp_mono (relocateBlockInIndirectBlock_spec hv₁.sound hv₁.valid href h0 (href ▸ harea)
      (Nat.mod_eq_of_lt hb).symm hroom₂) (fun _ s₂ hv₂ => ?_) fun _ _ he => he.trans hv₁.inodes_eq
    exact hv₁.append hv₂.1

theorem relocateBlock2Indirect_spec (h : Sound area reserved s₀ (s.viewWith n inode) s)
    (hvalid : inode.hasValidBlocks = true) {b : ℕ}
    (hb : b - 12 - g.addrPerBlock < g.addrPerBlock * g.addrPerBlock)
    (hroom : Room area (s.viewWith n inode) s
      [Place.top n ext2DindBlock, dindWord n b, dindIndWord n b]) :
    wp (relocateBlock2Indirect inode b area.range)
      (fun inode' s' => Visited area reserved s₀ n s inode
        [Place.top n ext2DindBlock, dindWord n b, dindIndWord n b] s' inode')
      (Exited area s₀ s) s := by
  have hroom' : Room area (s.viewWith n inode) s
      ([Place.top n ext2DindBlock] ++ [dindWord n b, dindIndWord n b]) := hroom
  have hroom₁ := hroom'.of_append
  unfold relocateBlock2Indirect
  rw [wp_bind]
  refine wp_mono (relocateBlockInInode_spec h hvalid _ hroom₁) (fun inode₁ s₁ hv₁ => ?_) fun _ _ he => he
  have href := viewWith_ref_top (s := s₁) (n := n) hv₁.valid ext2DindBlock
  have hroom₂ : Room area (s₁.viewWith n inode₁) s₁ ([dindWord n b] ++ [dindIndWord n b]) :=
    hv₁.room hroom
  by_cases h0 : inode₁.iBlock ext2DindBlock = 0
  · simp only [h0, if_true, wp_pure]
    refine hv₁.append (Visited.of_hole hv₁.sound hv₁.valid fun p hp => ?_)
    have hword : (s₁.viewWith n inode₁).ref (dindWord n b) = 0 :=
      ref_child_of_hole (href.trans h0) _ _
    simp only [List.mem_cons, List.not_mem_nil, or_false] at hp
    rcases hp with rfl | rfl
    · exact hword
    · exact ref_child_of_hole hword _ _
  · simp only [h0, if_false, wp_bind]
    have harea := hv₁.mem_area h hroom₁ (List.mem_singleton_self _) (href ▸ h0)
    have hindex : (b - 12 - g.addrPerBlock) / g.addrPerBlock
        = (b - 12 - g.addrPerBlock) / g.addrPerBlock % g.addrPerBlock :=
      (Nat.mod_eq_of_lt (Nat.div_lt_of_lt_mul hb)).symm
    refine wp_mono (relocateBlockInIndirectBlock_spec hv₁.sound hv₁.valid href h0 (href ▸ harea)
      hindex hroom₂.of_append) (fun next s₂ hv₂ => ?_) fun _ _ he => he.trans hv₁.inodes_eq
    rcases hv₂ with ⟨hv₂, hnext⟩
    have hroom₃ : Room area (s₂.viewWith n inode₁) s₂ [dindIndWord n b] := hv₂.room hroom₂
    have hv₁₂ := hv₁.append hv₂
    by_cases hn0 : next = 0
    · simp only [hn0, if_true, wp_pure]
      refine hv₁₂.append (Visited.of_hole hv₂.sound hv₂.valid fun p hp => ?_)
      rcases List.mem_singleton.mp hp with rfl
      exact ref_child_of_hole (hnext.symm.trans hn0) _ _
    · simp only [hn0, if_false, wp_bind]
      have harea₂ := hv₂.mem_area hv₁.sound hroom₂.of_append (List.mem_singleton_self _) (hnext ▸ hn0)
      refine wp_mono (relocateBlockInIndirectBlock_spec hv₂.sound hv₂.valid hnext.symm hn0
        (hnext ▸ harea₂) rfl hroom₃) (fun _ s₃ hv₃ => ?_) fun _ _ he => he.trans hv₁₂.inodes_eq
      exact hv₁₂.append hv₃.1

end Places

/-! ## §7 — one block, and the loop -/

section Loop

variable {area : Area g} {reserved : Set ℕ} {s₀ s : RunState g}

/-- With the inode in memory equal to the one on the device, there is only one filesystem. -/
theorem viewWith_of_read {n : ℕ} {inode : Ext2Inode} (h : s.disk.inodes n = some inode) :
    s.viewWith n inode = s.view := by
  have hupdate : Function.update s.disk.inodes n (some inode) = s.disk.inodes := by
    rw [← h, Function.update_eq_self]
  show View.mk _ _ = View.mk _ _
  rw [hupdate]

theorem is1IndirectBlock_lt {b : ℕ} (h : is1IndirectBlock g b = true) : b - 12 < g.addrPerBlock := by
  unfold is1IndirectBlock at h
  split_ifs at h
  exact of_decide_eq_true h

theorem is2IndirectBlock_lt {b : ℕ} (h : is2IndirectBlock g b = true) :
    b - 12 - g.addrPerBlock < g.addrPerBlock * g.addrPerBlock := by
  unfold is2IndirectBlock at h
  split_ifs at h
  exact of_decide_eq_true h

/-- The branches of `relocate_block`, with the inode in memory. -/
theorem relocateBlockInRegion_spec {n b : ℕ} {inode : Ext2Inode}
    (h : Sound area reserved s₀ (s.viewWith n inode) s) (hvalid : inode.hasValidBlocks = true)
    (hroom : Room area (s.viewWith n inode) s (pathPlaces g n b)) :
    wp (relocateBlockInRegion inode b area.range)
      (fun inode' s' => Visited area reserved s₀ n s inode (pathPlaces g n b) s' inode')
      (Exited area s₀ s) s := by
  unfold relocateBlockInRegion
  unfold pathPlaces at hroom ⊢
  split_ifs at hroom ⊢ with h0 h1 h2
  · exact relocateBlockInInode_spec h hvalid _ hroom
  · exact relocateBlock1Indirect_spec h hvalid (is1IndirectBlock_lt h1) hroom
  · exact relocateBlock2Indirect_spec h hvalid (is2IndirectBlock_lt h2) hroom
  · exact Visited.of_settled h hvalid fun p hp => absurd hp List.not_mem_nil

/-- **One block.** `relocate_block` visits the places on the way to it. -/
theorem relocateBlock_spec (h : Sound area reserved s₀ s.view s) {n b : ℕ}
    (hroom : Room area s.view s (pathPlaces g n b)) :
    wp (relocateBlock area.range n b)
      (fun _ s' => Sound area reserved s₀ s'.view s'
        ∧ track s'.view s' = visitAll area.lo area.hi (track s.view s) (pathPlaces g n b))
      (Exited area s₀ s) s := by
  unfold relocateBlock
  simp only [wp_bind]
  refine wp_access ?_ ⟨h.toConfined.withAccesses _, rfl, rfl⟩
  rw [wp_get]
  have hdisk : (s.withAccesses (s.accesses + 1)).disk.inodes n = s.disk.inodes n := rfl
  rw [hdisk]
  cases hread : s.disk.inodes n with
  | none => exact ⟨h.toConfined.withAccesses _, rfl, rfl⟩
  | some inode =>
      by_cases hvalid : inode.hasValidBlocks = true
      · simp only [hvalid, Bool.true_eq_false, if_false, wp_bind]
        refine wp_access ?_ ⟨(h.toConfined.withAccesses _).withAccesses _, rfl, rfl⟩
        have hview := viewWith_of_read hread
        rw [← hview] at h hroom
        have hregion := relocateBlockInRegion_spec (n := n)
          (s := (s.withAccesses (s.accesses + 1)).withAccesses (s.accesses + 1 + 1))
          ((h.withAccesses _).withAccesses _) hvalid hroom
        refine wp_mono hregion ?_ ?_
        · intro inode' s' hv
          refine wp_access ?_ ⟨hv.sound.toConfined.withAccesses _, rfl, hv.inodes_eq⟩
          refine ⟨(hv.sound.withAccesses _).writeInode n inode', ?_⟩
          rw [← hview]
          exact hv.track_eq
        · intro e s' he
          exact ⟨he.confined, he.fault, he.inodes_eq⟩
      · rw [Bool.not_eq_true] at hvalid
        simp only [hvalid, if_true, wp_pure]
        have htop : ∀ k, s.view.topWord n k = 0 := fun k => by
          simp [View.topWord, RunState.view, Disk.view, hread, hvalid]
        refine ⟨h.withAccesses _, (visitAll_of_settled fun p hp hu => hu.1 ?_).symm⟩
        exact ref_eq_zero_of_mem_pathPlaces htop hp

/-- The loop is one loop over the pairs of the layout. -/
theorem relocationLoop_eq (range : BlockRange) (relocations : List Relocation) :
    relocationLoop (g := g) range relocations = relocatePairs range (layoutPairs relocations) :=
  (forM_flatMap relocations relocationPairs _).symm

/-- **The loop.** With room in the area for the whole walk, the loop visits the places of the pairs in
order, or exits in the call on one pair with the earlier ones visited. -/
theorem relocatePairs_spec (h : Sound area reserved s₀ s₀.view s₀) {pairs : List (ℕ × ℕ)}
    (hroom : Room area s₀.view s₀ (walkPlaces g pairs)) :
    wp (relocatePairs area.range pairs)
      (fun _ s => Sound area reserved s₀ s.view s ∧ track s.view s
        = visitAll area.lo area.hi (track s₀.view s₀) (walkPlaces g pairs))
      (fun e s' => ∃ done q rest s, pairs = done ++ q :: rest
        ∧ Sound area reserved s₀ s.view s
        ∧ track s.view s = visitAll area.lo area.hi (track s₀.view s₀) (walkPlaces g done)
        ∧ Exited area s₀ s e s') s₀ := by
  -- the invariant after the pairs `done`
  let I : List (ℕ × ℕ) → RunState g → Prop := fun done s =>
    Sound area reserved s₀ s.view s
      ∧ track s.view s = visitAll area.lo area.hi (track s₀.view s₀) (walkPlaces g done)
  have hloop := wp_forM (I := I)
    (E := fun done _ e s' => ∃ s, I done s ∧ Exited area s₀ s e s')
    (f := fun q => relocateBlock (g := g) area.range q.1 q.2) pairs [] s₀
    (fun done q rest s hpairs hI => ?_) ⟨h, rfl⟩
  · refine wp_mono hloop (fun _ _ hI => hI) ?_
    rintro e s' ⟨done, q, rest, hpairs, s, hI, he⟩
    exact ⟨done, q, rest, s, hpairs, hI.1, hI.2, he⟩
  · rw [List.nil_append] at hI ⊢
    rcases hI with ⟨hs, htrack⟩
    have hwalk : walkPlaces g pairs
        = (walkPlaces g done ++ pathPlaces g q.1 q.2) ++ walkPlaces g rest := by
      simp [walkPlaces, hpairs]
    have hroomq : Room area s.view s (pathPlaces g q.1 q.2) := by
      rw [hwalk] at hroom
      have hprefix := hroom.of_append
      unfold Room at hprefix ⊢
      rwa [visitAll_append, ← htrack] at hprefix
    refine wp_mono (relocateBlock_spec hs hroomq) ?_ fun e s' he => ⟨s, ⟨hs, htrack⟩, he⟩
    intro _ s' hs'
    refine ⟨hs'.1, ?_⟩
    rw [hs'.2, htrack, ← visitAll_append]
    simp [walkPlaces]

end Loop

end Prefetch.MoveBlocks

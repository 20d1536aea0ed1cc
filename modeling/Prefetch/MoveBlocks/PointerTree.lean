/-
# Prefetch.MoveBlocks.PointerTree — places that hold block numbers

The abstract filesystem. A place is a slot of an inode's `i_block` array or a word of an indirect block
below it, named by the path that leads to it; what it refers to is found by walking that path through
the blocks. A filesystem is well-formed when every used block has exactly one place. The module says
what happens to all places at once when one of them is made to refer to a copy of its block in a free
place of the device: nothing else changes, and every file reads as before.
-/
import Prefetch.Lib.Ownership
import Prefetch.MoveBlocks.Filesystem
import Mathlib.Order.Interval.Finset.Nat

namespace Prefetch.MoveBlocks

variable {g : Geometry}

/-! ## §1 — places -/

/-- The levels of indirect blocks below a slot of `i_block`: none for the direct slots, then one, two
and three. -/
def slotDepth (slot : Fin 15) : ℕ := slot - 11

/-- A place that may hold a block number: a slot of an inode, and below it the index to follow in each
indirect block. -/
structure Place (g : Geometry) where
  inodeNumber : ℕ
  slot : Fin 15
  path : List (Fin g.addrPerBlock)
  path_le : path.length ≤ slotDepth slot
  deriving DecidableEq

namespace Place

/-- A slot of an inode. -/
def top (inodeNumber : ℕ) (slot : Fin 15) : Place g := ⟨inodeNumber, slot, [], Nat.zero_le _⟩

/-- A word of the indirect block at a place. -/
def child (p : Place g) (i : Fin g.addrPerBlock) (h : p.path.length < slotDepth p.slot) : Place g :=
  ⟨p.inodeNumber, p.slot, p.path ++ [i], by rw [List.length_append]; exact h⟩

/-- The places that hold the numbers of data blocks; the others hold those of indirect blocks. -/
def IsData (p : Place g) : Prop := p.path.length = slotDepth p.slot

@[elab_as_elim]
theorem induction {motive : Place g → Prop} (top : ∀ inodeNumber slot, motive (top inodeNumber slot))
    (child : ∀ p i h, motive p → motive (child p i h)) (p : Place g) : motive p := by
  rcases p with ⟨inodeNumber, slot, path, hpath⟩
  induction path using List.reverseRecOn with
  | nil => exact top inodeNumber slot
  | append_singleton path i ih =>
      have hlt : path.length < slotDepth slot := by rwa [List.length_append] at hpath
      exact child ⟨inodeNumber, slot, path, hlt.le⟩ i hlt (ih hlt.le)

theorem child_ne_top (p : Place g) (i h) (inodeNumber slot) : p.child i h ≠ top inodeNumber slot := by
  intro heq
  have hpath : p.path ++ [i] = [] := congrArg Place.path heq
  simp at hpath

theorem child_inj {p q : Place g} {i j : Fin g.addrPerBlock} {hp hq} :
    p.child i hp = q.child j hq ↔ p = q ∧ i = j := by
  constructor
  · intro heq
    have hpath : p.path ++ [i] = q.path ++ [j] := congrArg Place.path heq
    rcases List.append_inj' hpath rfl with ⟨hpq, hij⟩
    rcases p with ⟨a, b, c, d⟩
    rcases q with ⟨a', b', c', d'⟩
    have ha : a = a' := congrArg Place.inodeNumber heq
    have hb : b = b' := congrArg Place.slot heq
    subst ha hb
    simp only at hpq
    subst hpq
    simpa using hij
  · rintro ⟨rfl, rfl⟩
    rfl

theorem child_ne_self (p : Place g) (i h) : p.child i h ≠ p := by
  intro heq
  have hpath : p.path ++ [i] = p.path := congrArg Place.path heq
  simp at hpath

theorem top_inj {n n' : ℕ} {k k' : Fin 15} : (top n k : Place g) = top n' k' ↔ n = n' ∧ k = k' := by
  simp [top]

end Place

/-! ## §2 — what a place refers to -/

/-- The inodes and blocks references are followed in. -/
structure View (g : Geometry) where
  inodes : ℕ → Option Ext2Inode
  blocks : ℕ → Block g

namespace View

/-- The block number in a slot of an inode, `0` if the slot holds none. -/
def topWord (v : View g) (inodeNumber : ℕ) (slot : Fin 15) : ℕ :=
  match v.inodes inodeNumber with
  | none => 0
  | some inode => if inode.hasValidBlocks then inode.iBlock slot else 0

/-- The block number in a word of an indirect block; there is nothing below a hole. -/
def deref (v : View g) (block : ℕ) (i : Fin g.addrPerBlock) : ℕ :=
  if block = 0 then 0 else v.blocks block i

/-- The block a place refers to, `0` for a hole. -/
def ref (v : View g) (p : Place g) : ℕ := p.path.foldl v.deref (v.topWord p.inodeNumber p.slot)

theorem ref_top (v : View g) (inodeNumber slot) :
    v.ref (Place.top inodeNumber slot) = v.topWord inodeNumber slot := rfl

theorem ref_child (v : View g) (p : Place g) (i h) : v.ref (p.child i h) = v.deref (v.ref p) i := by
  simp [ref, Place.child, List.foldl_append]

theorem ref_child_ne_zero {v : View g} {p : Place g} {i h} (hc : v.ref (p.child i h) ≠ 0) :
    v.ref p ≠ 0 := by
  intro hp
  rw [ref_child, hp] at hc
  exact hc (if_pos rfl)

end View

/-- The place that holds the number of a block of a file; there is none past the triple-indirect
region. -/
def offsetPlace (inodeNumber blockInInode : ℕ) : Option (Place g) :=
  let a := g.addrPerBlock
  have ha : 0 < a := g.addrPerBlock_pos
  if h : blockInInode < 12 then
    some (Place.top inodeNumber ⟨blockInInode, by omega⟩)
  else if h : blockInInode - 12 < a then
    some ⟨inodeNumber, 12, [⟨blockInInode - 12, h⟩], le_refl 1⟩
  else if blockInInode - 12 - a < a * a then
    let r := blockInInode - 12 - a
    some ⟨inodeNumber, 13, [⟨r / a % a, Nat.mod_lt _ ha⟩, ⟨r % a, Nat.mod_lt _ ha⟩], le_refl 2⟩
  else if blockInInode - 12 - a - a * a < a * a * a then
    let r := blockInInode - 12 - a - a * a
    some ⟨inodeNumber, 14, [⟨r / (a * a) % a, Nat.mod_lt _ ha⟩, ⟨r / a % a, Nat.mod_lt _ ha⟩,
      ⟨r % a, Nat.mod_lt _ ha⟩], le_refl 3⟩
  else none

theorem offsetPlace_isData {inodeNumber blockInInode : ℕ} {p : Place g}
    (h : offsetPlace inodeNumber blockInInode = some p) : p.IsData := by
  unfold offsetPlace at h
  simp only at h
  split_ifs at h with h1 h2 h3 h4
  · cases h
    show 0 = blockInInode - 11
    omega
  all_goals
    cases h
    rfl

/-- What reading a block of a file yields: the data, or `none` for a hole. -/
def View.readBlock (v : View g) (inodeNumber blockInInode : ℕ) : Option (Block g) :=
  (offsetPlace inodeNumber blockInInode).bind fun p =>
    if v.ref p = 0 then none else some (v.blocks (v.ref p))

/-! ## §3 — well-formedness -/

/-- Every used block that is not reserved is referenced from exactly one place, and the bitmap marks
exactly the used and reserved blocks. Block 0 is never a block of a file, `0` being the hole. -/
structure WellFormed (reserved : Set ℕ) (v : View g) (blockMap : ℕ → Bool) : Prop where
  owners : Ownership.SingleOwner v.ref blockMap reserved
  inMap : ∀ b, blockMap b = true → inBlockMap g b = true
  blockZero : inBlockMap g 0 = true → 0 ∈ reserved

/-- The blocks of a group. -/
def groupBlocks (g : Geometry) (group : ℕ) : Finset ℕ :=
  (Finset.Ico g.sFirstDataBlock g.sBlocksCount).filter fun b => groupOfBlk g b = group

/-- Each group's `bg_free_blocks_count` is its number of free blocks. -/
def GroupCountsExact (g : Geometry) (groupDesc : ℕ → ℕ) (blockMap : ℕ → Bool) : Prop :=
  ∀ group, (groupBlocks g group).Nonempty →
    groupDesc group = (Ownership.freeIn blockMap (groupBlocks g group)).card

theorem mem_groupBlocks {b : ℕ} (hb : inBlockMap g b = true) (group : ℕ) :
    b ∈ groupBlocks g group ↔ groupOfBlk g b = group := by
  unfold inBlockMap at hb
  simp only [Bool.and_eq_true, decide_eq_true_eq] at hb
  simp only [groupBlocks, Finset.mem_filter, Finset.mem_Ico, hb.1, hb.2, and_self, true_and]

theorem card_groupBlocks_lt (group : ℕ) : (groupBlocks g group).card < 2 ^ 16 := by
  have hsub : groupBlocks g group
      ⊆ (Finset.range g.sBlocksPerGroup).image
          fun i => g.sFirstDataBlock + group * g.sBlocksPerGroup + i := by
    intro b hb
    rcases Finset.mem_filter.mp hb with ⟨hrange, rfl⟩
    have hlo := (Finset.mem_Ico.mp hrange).1
    refine Finset.mem_image.mpr ⟨(b - g.sFirstDataBlock) % g.sBlocksPerGroup, ?_, ?_⟩
    · exact Finset.mem_range.mpr (Nat.mod_lt _ g.blocksPerGroup_pos)
    · have hdiv : groupOfBlk g b * g.sBlocksPerGroup + _ = _ :=
        Nat.div_add_mod' (b - g.sFirstDataBlock) g.sBlocksPerGroup
      omega
  have hcard := (Finset.card_le_card hsub).trans Finset.card_image_le
  rw [Finset.card_range] at hcard
  exact hcard.trans_lt g.blocksPerGroup_lt

/-! ## §4 — storing one reference -/

/-- `v'` is `v` with the place `p` referring to `t`, a copy of the block it referred to. -/
structure Stored (v v' : View g) (p : Place g) (t : ℕ) : Prop where
  top : ∀ n k, v'.topWord n k = if Place.top n k = p then t else v.topWord n k
  word : ∀ q i h, q ≠ p → v.ref q ≠ 0 →
    v'.blocks (v.ref q) i = if q.child i h = p then t else v.blocks (v.ref q) i
  copy : v'.blocks t = v.blocks (v.ref p)
  data : ∀ q, q ≠ p → q.IsData → v.ref q ≠ 0 → v'.blocks (v.ref q) = v.blocks (v.ref q)

section Stored

variable {v v' : View g} {p : Place g} {t : ℕ}

/-- Only the stored place changes what it refers to. -/
theorem Stored.ref_eq (h : Stored v v' p t) (hp : v.ref p ≠ 0) (ht : t ≠ 0) :
    v'.ref = Function.update v.ref p t := by
  funext q
  induction q using Place.induction with
  | top n k =>
      rw [View.ref_top, h.top, Function.update_apply]
      rfl
  | child q i hq ih =>
      rw [View.ref_child, ih]
      by_cases hqp : q = p
      · -- the words below the moved block were copied with it
        subst hqp
        rw [Function.update_self, Function.update_of_ne (q.child_ne_self i hq), View.ref_child,
          View.deref, View.deref, if_neg ht, if_neg hp, h.copy]
      · rw [Function.update_of_ne hqp, Function.update_apply]
        by_cases hz : v.ref q = 0
        · have hne : q.child i hq ≠ p := by
            rintro rfl
            exact View.ref_child_ne_zero hp hz
          rw [if_neg hne, View.ref_child, View.deref, View.deref, if_pos hz, if_pos hz]
        · rw [View.ref_child, View.deref, View.deref, if_neg hz, if_neg hz, h.word q i hq hqp hz]

/-- Every file reads as before. -/
theorem Stored.readBlock_eq (h : Stored v v' p t) (hp : v.ref p ≠ 0) (ht : t ≠ 0) (n b : ℕ) :
    v'.readBlock n b = v.readBlock n b := by
  unfold View.readBlock
  cases hplace : (offsetPlace n b : Option (Place g)) with
  | none => rfl
  | some q =>
      show (if v'.ref q = 0 then none else some (v'.blocks (v'.ref q)))
        = if v.ref q = 0 then none else some (v.blocks (v.ref q))
      rw [h.ref_eq hp ht]
      by_cases hqp : q = p
      · subst hqp
        rw [Function.update_self, if_neg ht, if_neg hp, h.copy]
      · rw [Function.update_of_ne hqp]
        by_cases hz : v.ref q = 0
        · rw [if_pos hz, if_pos hz]
        · rw [if_neg hz, if_neg hz, h.data q hqp (offsetPlace_isData hplace) hz]

variable {reserved : Set ℕ} {blockMap : ℕ → Bool}

theorem WellFormed.ref_used (h : WellFormed reserved v blockMap) (hp : v.ref p ≠ 0) :
    blockMap (v.ref p) = true := h.owners.used_ref hp

theorem WellFormed.ref_inMap (h : WellFormed reserved v blockMap) (hp : v.ref p ≠ 0) :
    inBlockMap g (v.ref p) = true := h.inMap _ (h.ref_used hp)

/-- The filesystem is well-formed again once the bitmap follows. -/
theorem WellFormed.stored (hwf : WellFormed reserved v blockMap) (h : Stored v v' p t)
    (hp : v.ref p ≠ 0) (ht : t ≠ 0) (hfree : blockMap t = false) (hmap : inBlockMap g t = true) :
    WellFormed reserved v' (Ownership.remark blockMap (v.ref p) t) := by
  refine ⟨?_, fun b hb => ?_, hwf.blockZero⟩
  · rw [h.ref_eq hp ht]
    exact hwf.owners.move hp hfree ht
  · rw [Ownership.remark_apply] at hb
    split_ifs at hb with h1 h2
    · subst h2
      exact hmap
    · exact hwf.inMap b hb

/-- A store in a slot of an inode. -/
theorem stored_top (hwf : WellFormed reserved v blockMap) {n : ℕ} {k : Fin 15} {inode : Ext2Inode}
    (hinode : v.inodes n = some inode) (hvalid : inode.hasValidBlocks = true)
    (ht0 : t ≠ 0) (hfree : blockMap t = false)
    (hinodes : v'.inodes = Function.update v.inodes n (some (inode.setBlock k t)))
    (hblocks : v'.blocks = Function.update v.blocks t (v.blocks (inode.iBlock k))) :
    Stored v v' (Place.top n k) t := by
  have href : v.ref (Place.top n k) = inode.iBlock k := by
    simp [View.ref_top, View.topWord, hinode, hvalid]
  have hold : ∀ q, v'.blocks (v.ref q) = v.blocks (v.ref q) := fun q => by
    rw [hblocks, Function.update_of_ne (hwf.owners.ref_ne_of_free hfree ht0 q)]
  refine ⟨fun n' k' => ?_, fun q i hq _ _ => ?_, ?_, fun q _ _ _ => hold q⟩
  · simp only [View.topWord, hinodes, Place.top_inj]
    by_cases hn : n' = n
    · subst hn
      simp only [Function.update_self, hinode, Ext2Inode.setBlock, hvalid, if_true, true_and]
      rw [Function.update_apply]
    · simp only [Function.update_of_ne hn, hn, false_and, if_false]
  · rw [if_neg (q.child_ne_top i hq n k), hold q]
  · rw [hblocks, Function.update_self, href]

/-- A store in a word of an indirect block. -/
theorem stored_child (hwf : WellFormed reserved v blockMap) {q : Place g} {i : Fin g.addrPerBlock} {hq}
    (hq0 : v.ref q ≠ 0) (hc0 : v.ref (q.child i hq) ≠ 0) (ht0 : t ≠ 0) (hfree : blockMap t = false)
    (hinodes : v'.inodes = v.inodes)
    (hblocks : v'.blocks = Function.update
      (Function.update v.blocks t (v.blocks (v.ref (q.child i hq)))) (v.ref q)
      (Function.update (v.blocks (v.ref q)) i t)) :
    Stored v v' (q.child i hq) t := by
  have hne := hwf.owners.ref_ne_of_free hfree ht0
  have hold : ∀ q', q' ≠ q → v.ref q' ≠ 0 → v'.blocks (v.ref q') = v.blocks (v.ref q') := by
    intro q' hq' hz
    rw [hblocks, Function.update_of_ne fun heq => hq' (hwf.owners.eq_of_ref_eq hz heq),
      Function.update_of_ne (hne q')]
  refine ⟨fun n k => ?_, fun q' j hj hne' hz => ?_, ?_, fun q' hne' hdata hz => ?_⟩
  · rw [if_neg (q.child_ne_top i hq n k).symm]
    simp only [View.topWord, hinodes]
  · simp only [Place.child_inj]
    by_cases hqq : q' = q
    · subst hqq
      rw [hblocks, Function.update_self, Function.update_apply]
      simp
    · rw [hold q' hqq hz]
      simp [hqq]
  · rw [hblocks, Function.update_of_ne (hne q).symm, Function.update_self]
  · refine hold q' ?_ hz
    rintro rfl
    exact absurd hdata hq.ne

end Stored

end Prefetch.MoveBlocks

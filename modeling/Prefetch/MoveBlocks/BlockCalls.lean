/-
# Prefetch.MoveBlocks.BlockCalls — `ext2fs_block_iterate2`, as far as the tools rely on it

The function goes over the blocks of an inode in pre-order and calls another for each of them: an indirect
block with a negative number for its level, a data block with its offset. The function called may renumber
the block, and then the new number is what is written back, and what is below is looked for in the new block.
It may also give the traversal up.

The library is not part of the sources. Here it is a parameter (`Ext2fs`), and what is documented of it is a
named assumption (`Ext2fs.Documented`): what a function sees that only looks at blocks, and what becomes of
the pointers if it renames blocks that were copied before. Both are about inodes with valid blocks, without
`BLOCK_FLAG_HOLE`.
-/
import Prefetch.MoveBlocks.FileVisits

namespace Prefetch.MoveBlocks

open Remap (Visit)

variable {g : Geometry} {τ : Type}

/-! ## §1 — calls -/

/-- `BLOCK_FLAG_HOLE` and `BLOCK_FLAG_DATA_ONLY` -/
structure BlockFlags where
  hole : Bool := false
  dataOnly : Bool := false
  deriving DecidableEq, Repr

/-- What `ext2fs_block_iterate2` calls its function with. -/
structure Call where
  blocknr : ℕ
  blockcnt : ℤ
  refBlk : ℕ
  refOffset : ℕ
  deriving DecidableEq, Repr

/-- What the function returns, and its data; `exited` is the end of the program. -/
inductive Answer (τ : Type)
  /-- `return 0` -/
  | unchanged (data : τ)
  /-- `return BLOCK_CHANGED`, with the new number -/
  | changed (block : ℕ) (data : τ)
  /-- `return BLOCK_ABORT` -/
  | abort (data : τ)
  | exited

/-- The function called. -/
abbrev Callback (τ : Type) := τ → Call → Answer τ

/-- What `ext2fs_block_iterate2` leaves, and whether it returns 0. -/
structure Iterated (g : Geometry) (τ : Type) where
  view : View g
  data : τ
  ok : Bool

/-- The library: `ext2fs_block_iterate2` on an inode; `none` is the end of the program. -/
structure Ext2fs (g : Geometry) where
  blockIterate : {τ : Type} → BlockFlags → Callback τ → View g → ℕ → τ → Option (Iterated g τ)

namespace Place

/-- The indirect block a place is in; the places of an inode are in none. -/
def refBlk (v : View g) (p : Place g) : ℕ :=
  match p.path with
  | [] => 0
  | _ :: _ => v.ref { p with
      path := p.path.dropLast
      path_le := p.path.length_dropLast ▸ (Nat.sub_le _ _).trans p.path_le }

/-- The call for a place. -/
def call (v : View g) (p : Place g) : Call :=
  ⟨v.ref p, (p.visit v).offset, p.refBlk v, p.parentOffset⟩

theorem refBlk_top (v : View g) (n : ℕ) (slot : Fin 15) : (top n slot : Place g).refBlk v = 0 := rfl

theorem refBlk_child (v : View g) (p : Place g) (i h) : (p.child i h).refBlk v = v.ref p := by
  have hlast : (p.child i h).path = p.path ++ [i] := rfl
  unfold refBlk
  split
  · next hnil =>
    rw [hlast] at hnil
    exact absurd hnil (by simp)
  · next heq =>
    congr 1
    rcases p with ⟨n, slot, path, hle⟩
    rw [mk.injEq]
    exact ⟨rfl, rfl, List.dropLast_concat⟩

theorem blockcnt_of_data {v : View g} {p : Place g} (h : p.level = 0) : (p.call v).blockcnt = p.first :=
  if_pos h

theorem blockcnt_of_indirect {v : View g} {p : Place g} (h : p.level ≠ 0) : (p.call v).blockcnt = -p.level :=
  if_neg h

end Place

/-- The place refers to a block of pointers. -/
def PointsToIndirect (v : View g) (p : Place g) : Prop := p.level ≠ 0 ∧ v.ref p ≠ 0

theorem level_ne_zero_iff {p : Place g} : p.level ≠ 0 ↔ p.path.length < slotDepth p.slot := by
  unfold Place.level
  omega

/-- A word of a block of pointers is what the place of the word refers to. -/
theorem ref_child_of_ne {v : View g} {p : Place g} (hp : v.ref p ≠ 0) (i) (h) :
    v.ref (p.child i h) = v.blocks (v.ref p) i := by
  rw [View.ref_child, View.deref, if_neg hp]

/-- The calls for these places; with `BLOCK_FLAG_DATA_ONLY` there is none for an indirect block. -/
def callsAt (v : View g) (dataOnly : Bool) (places : List (Place g)) : List Call :=
  ((places.filter v.present).filter fun p => !dataOnly || p.level = 0).map (Place.call v)

/-- The calls for a file. -/
def fileCalls (v : View g) (inodeNumber : ℕ) (dataOnly : Bool) : List Call :=
  callsAt v dataOnly (filePlaces g inodeNumber)

section CallsAt

variable {v : View g} {dataOnly : Bool}

theorem callsAt_append (places places' : List (Place g)) :
    callsAt v dataOnly (places ++ places') = callsAt v dataOnly places ++ callsAt v dataOnly places' := by
  rw [callsAt, List.filter_append, List.filter_append, List.map_append]
  rfl

theorem callsAt_of_hole {places : List (Place g)} (h : ∀ p ∈ places, v.ref p = 0) :
    callsAt v dataOnly places = [] := by
  have hnone : places.filter v.present = [] := by
    rw [List.filter_eq_nil_iff]
    exact fun p hp hpresent => View.present_iff.mp hpresent (h p hp)
  rw [callsAt, hnone]
  rfl

theorem callsAt_cons_of_called {p : Place g} {places : List (Place g)} (hp : v.ref p ≠ 0)
    (h : dataOnly = false ∨ p.level = 0) :
    callsAt v dataOnly (p :: places) = p.call v :: callsAt v dataOnly places := by
  rw [callsAt, List.filter_cons_of_pos (View.present_iff.mpr hp), List.filter_cons_of_pos, List.map_cons]
  · rfl
  · rcases h with rfl | h
    · rfl
    · simp [h]

theorem callsAt_cons_of_passed {p : Place g} {places : List (Place g)} (hp : v.ref p ≠ 0)
    (h : dataOnly = true) (hlevel : p.level ≠ 0) :
    callsAt v dataOnly (p :: places) = callsAt v dataOnly places := by
  rw [callsAt, List.filter_cons_of_pos (View.present_iff.mpr hp), List.filter_cons_of_neg]
  · rfl
  · simp [h, hlevel]

theorem mem_callsAt {places : List (Place g)} {p : Place g} (hp : p ∈ places) (hne : v.ref p ≠ 0) :
    p.call v ∈ callsAt v false places := by
  exact List.mem_map_of_mem (List.mem_filter.mpr ⟨List.mem_filter.mpr ⟨hp, View.present_iff.mpr hne⟩, rfl⟩)

/-- The call a visit stands for, but for the block its pointer is in. -/
theorem fileCalls_visits (v : View g) (inodeNumber : ℕ) :
    (fileCalls v inodeNumber false).map (fun c => (c.blocknr, c.blockcnt, c.refOffset))
      = (v.fileTree inodeNumber).visits.map fun w => (w.blocknr, w.offset, w.parentOffset) := by
  have hall : ((filePlaces g inodeNumber).filter v.present).filter (fun p => !false || decide (p.level = 0))
      = (filePlaces g inodeNumber).filter v.present := List.filter_eq_self.mpr fun _ _ => rfl
  rw [visits_fileTree, fileCalls, callsAt, hall, List.map_map, List.map_map]
  rfl

/-- A call and the visit it is made for. -/
def CallFor (c : Call) (w : Visit) : Prop :=
  c.blocknr = w.blocknr ∧ c.blockcnt = w.offset ∧ c.refOffset = w.parentOffset

/-- The calls for a file are those for its visits. -/
theorem fileCalls_callFor (v : View g) (inodeNumber : ℕ) :
    List.Forall₂ CallFor (fileCalls v inodeNumber false) (v.fileTree inodeNumber).visits := by
  have hmap := fileCalls_visits v inodeNumber
  rw [← List.forall₂_eq_eq_eq, List.forall₂_map_left_iff, List.forall₂_map_right_iff] at hmap
  exact hmap.imp fun c w h => ⟨congrArg Prod.fst h, congrArg (·.2.1) h, congrArg (·.2.2) h⟩

end CallsAt

/-! ## §2 — a function that only looks -/

/-- The function renumbers no block. -/
def Callback.LooksOnly (f : Callback τ) : Prop := ∀ data c block data', f data c ≠ .changed block data'

/-- A function called for some blocks one after the other, until it gives up; `none` is the end of the
program. -/
def Callback.look (f : Callback τ) : τ → List Call → Option τ
  | data, [] => some data
  | data, c :: calls =>
      match f data c with
      | .unchanged data => f.look data calls
      | .changed _ data => f.look data calls
      | .abort data => some data
      | .exited => none

/-- The inode can be read, and its slots hold block numbers. -/
def HasValidBlocks (v : View g) (inodeNumber : ℕ) : Prop :=
  ∃ inode, v.inodes inodeNumber = some inode ∧ inode.hasValidBlocks = true

/-- What the library needs to go over the blocks of an inode: it has valid blocks, and its indirect blocks
lie in the filesystem. -/
structure Traversable (v : View g) (inodeNumber : ℕ) : Prop where
  valid : HasValidBlocks v inodeNumber
  inMap : ∀ p : Place g, p.inodeNumber = inodeNumber → PointsToIndirect v p → inBlockMap g (v.ref p) = true

theorem WellFormed.traversable {reserved : Set ℕ} {v : View g} {blockMap : ℕ → Bool} {inodeNumber : ℕ}
    (hwf : WellFormed reserved v blockMap)
    (h : HasValidBlocks v inodeNumber) : Traversable v inodeNumber :=
  ⟨h, fun _ _ hind => hwf.ref_inMap hind.2⟩

/-! ## §3 — a function that renames -/

/-- The data of the function, and whether it has given up, or the library has (`ok` is false then). -/
inductive Going (τ : Type)
  | calling (data : τ)
  | gaveUp (data : τ) (ok : Bool)

namespace Going

def data : Going τ → τ
  | calling data => data
  | gaveUp data _ => data

def hasGivenUp : Going τ → Bool
  | calling _ => false
  | gaveUp _ _ => true

def ok : Going τ → Bool
  | calling _ => true
  | gaveUp _ ok => ok

end Going

/-- A pointer, and whether it was changed. -/
structure NewPointer where
  block : ℕ
  changed : Bool

/-- The function is called, unless it has given up. -/
def callAt (f : Callback τ) (s : Going τ) (c : Call) : Option (NewPointer × Going τ) :=
  match s with
  | .gaveUp data ok => some (⟨c.blocknr, false⟩, .gaveUp data ok)
  | .calling data =>
      match f data c with
      | .unchanged data => some (⟨c.blocknr, false⟩, .calling data)
      | .changed block data => some (⟨block, true⟩, .calling data)
      | .abort data => some (⟨c.blocknr, false⟩, .gaveUp data true)
      | .exited => none

/-- The call once the block its pointer is in is renamed. -/
def Call.rename (σ : ℕ → ℕ) (c : Call) : Call := { c with refBlk := σ c.refBlk }

/-- Called for these blocks, one after the other, the function makes `σ b` of each block `b`. -/
def Renames (f : Callback τ) (σ : ℕ → ℕ) : Going τ → List Call → Going τ → Prop
  | s, [], s' => s = s'
  | s, c :: calls, s' => ∃ p s₁, callAt f s (c.rename σ) = some (p, s₁) ∧ p.block = σ c.blocknr
      ∧ Renames f σ s₁ calls s'

/-- The new numbers of the blocks of an inode: those of blocks, and of different blocks for different
places. -/
structure Renaming (v : View g) (σ : ℕ → ℕ) (inodeNumber : ℕ) : Prop where
  zero : σ 0 = 0
  ne_zero : ∀ p : Place g, p.inodeNumber = inodeNumber → v.ref p ≠ 0 → σ (v.ref p) ≠ 0
  inMap : ∀ p : Place g, p.inodeNumber = inodeNumber → v.ref p ≠ 0 → inBlockMap g (σ (v.ref p)) = true
  inj : ∀ p q : Place g, p.inodeNumber = inodeNumber → q.inodeNumber = inodeNumber → v.ref p ≠ 0 →
    v.ref q ≠ 0 → σ (v.ref p) = σ (v.ref q) → p = q

/-- The blocks of pointers at these places have been copied to where they are renamed to. -/
def Copied (v : View g) (σ : ℕ → ℕ) (places : List (Place g)) (blocks : ℕ → Block g) : Prop :=
  ∀ p ∈ places, PointsToIndirect v p → blocks (σ (v.ref p)) = v.blocks (v.ref p)

/-- The pointers in the blocks at these places have been renamed, and nothing else has changed. -/
structure Rewritten (v : View g) (σ : ℕ → ℕ) (places : List (Place g)) (blocks blocks' : ℕ → Block g) :
    Prop where
  inside : ∀ p ∈ places, PointsToIndirect v p → ∀ i, blocks' (σ (v.ref p)) i = σ (v.blocks (v.ref p) i)
  outside : ∀ b, (∀ p ∈ places, PointsToIndirect v p → σ (v.ref p) ≠ b) → blocks' b = blocks b

/-- All pointers of the inode have been renamed, and nothing else has changed. -/
structure RenamedFile (v : View g) (σ : ℕ → ℕ) (inodeNumber : ℕ) (blocks : ℕ → Block g) (v' : View g) : Prop where
  inodes : ∀ m, m ≠ inodeNumber → v'.inodes m = v.inodes m
  topWord : ∀ slot, v'.topWord inodeNumber slot = σ (v.topWord inodeNumber slot)
  rewritten : Rewritten v σ (filePlaces g inodeNumber) blocks v'.blocks

/-- **What places refer to once the pointers of an inode have been renamed**, the blocks of other inodes being as
they were. -/
theorem RenamedFile.ref_eq {v v' : View g} {σ : ℕ → ℕ} {inodeNumber : ℕ} {blocks : ℕ → Block g}
    (h : RenamedFile v σ inodeNumber blocks v') (hσ : Renaming v σ inodeNumber)
    (hkeep : ∀ p : Place g, p.inodeNumber ≠ inodeNumber → v.ref p ≠ 0 → v'.blocks (v.ref p) = v.blocks (v.ref p))
    (p : Place g) : v'.ref p = if p.inodeNumber = inodeNumber then σ (v.ref p) else v.ref p := by
  induction p using Place.induction with
  | top n slot =>
      rw [View.ref_top, View.ref_top]
      show _ = if n = inodeNumber then _ else _
      split_ifs with hn
      · subst hn
        exact h.topWord slot
      · unfold View.topWord
        rw [h.inodes n hn]
  | child p j hj ih =>
      rw [View.ref_child, ih]
      show _ = if p.inodeNumber = inodeNumber then _ else _
      split_ifs with hp
      · by_cases hzero : v.ref p = 0
        · rw [View.ref_child, hzero, hσ.zero, View.deref, View.deref, if_pos rfl, if_pos rfl, hσ.zero]
        · have hind : PointsToIndirect v p := ⟨level_ne_zero_iff.mpr hj, hzero⟩
          rw [View.deref, if_neg (hσ.ne_zero p hp hzero), h.rewritten.inside p (mem_filePlaces.mpr hp) hind,
            ref_child_of_ne hzero]
      · rw [View.ref_child]
        by_cases hzero : v.ref p = 0
        · rw [View.deref, View.deref, if_pos hzero, if_pos hzero]
        · rw [View.deref, View.deref, if_neg hzero, if_neg hzero, hkeep p hp hzero]

/-! ## §4 — what is documented -/

/-- **What the tools rely on.** Both laws are about an inode with valid blocks. -/
structure Ext2fs.Documented (lib : Ext2fs g) : Prop where
  /-- A function that only looks is called for the blocks of the file in pre-order, until it gives up; nothing
  is written. -/
  looks : ∀ {τ : Type} {f : Callback τ} {v : View g} {inodeNumber : ℕ} {data : τ} {dataOnly : Bool},
    Traversable v inodeNumber → f.LooksOnly →
      lib.blockIterate { dataOnly } f v inodeNumber data
        = (f.look data (fileCalls v inodeNumber dataOnly)).map (⟨v, ·, true⟩)
  /-- A function that renames blocks, whose blocks of pointers have been copied before, renames every pointer of
  the file, and nothing else is written. -/
  renames : ∀ {τ : Type} {f : Callback τ} {v : View g} {σ : ℕ → ℕ} {inodeNumber : ℕ} {blocks : ℕ → Block g}
    {data : τ} {s' : Going τ}, Renaming v σ inodeNumber →
      HasValidBlocks v inodeNumber →
      Copied v σ (filePlaces g inodeNumber) blocks →
      Renames f σ (.calling data) (fileCalls v inodeNumber false) s' →
      ∃ v', lib.blockIterate {} f ⟨v.inodes, blocks⟩ inodeNumber data = some ⟨v', s'.data, true⟩
        ∧ RenamedFile v σ inodeNumber blocks v'

end Prefetch.MoveBlocks

/-
# Prefetch.Remap.LoadExtents — loading the extents to remap

`load_extents` reads which blocks of which inodes are to be moved. What of a line is in no extent yet
becomes an extent of the line's inode; the extents are kept in a splay tree, ordered by their blocks, and
in a list for each inode.

A line is cut at the extents it meets. Which of them is at the root after a splay, the one before the
block or the one behind, depends on the lines before; where it is the one before, the loop splays again.
An insertion may read behind the array of the inodes on its way to the inode, and then it has no outcome.
`extent_insert` takes an extent that ends where the root begins for overlapping. Splaying once more has
brought the extent before it to the root then, unless there is none.
-/
import Prefetch.Lib.SplayTree
import Prefetch.Remap.InodeHash

namespace Prefetch.Remap

open SplayTree

/-! ## §1 — the tree of extents -/

/-- A block in an extent. -/
def RemapExtent.Has (e : RemapExtent) (x : ℕ) : Prop := e.block ≤ x ∧ x < e.block + e.len

instance (e : RemapExtent) (x : ℕ) : Decidable (e.Has x) :=
  inferInstanceAs (Decidable (e.block ≤ x ∧ x < e.block + e.len))

/-- How a block is compared with an extent. -/
def probeBlock (blocknr : ℕ) (e : RemapExtent) : Ordering :=
  if blocknr < e.block then .lt else if e.block + e.len ≤ blocknr then .gt else .eq

/-- `extent_splay` -/
def extentSplay (blocknr : ℕ) (extentTree : BinaryTree RemapExtent) : BinaryTree RemapExtent :=
  splay (probeBlock blocknr) extentTree

/-- `extent_insert`; `none` is its exit. -/
def extentInsert (new : RemapExtent) (extentTree : BinaryTree RemapExtent) :
    Option (BinaryTree RemapExtent) :=
  match extentSplay new.block extentTree with
  | .nil => some (.node new .nil .nil)
  | .node root l r =>
      if new.block + new.len < root.block then some (.node new l (.node root .nil r))
      else if root.block + root.len ≤ new.block then some (.node new (.node root l .nil) r)
      else none

/-! ## §2 — `load_extents` -/

/-- `extent_tree`, the inodes and `remap_blocks`. -/
structure Loader (n : ℕ) where
  extentTree : BinaryTree RemapExtent
  table : InodeTable n
  remapBlocks : ℕ

/-- What is left of a line: `blocknr`, `len`, `offset` and `ino`. -/
structure Piece where
  blocknr : ℕ
  len : ℕ
  offset : ℤ
  ino : ℕ
  deriving DecidableEq, Repr

/-- A line of the input whose blocks have numbers of 32 bits, and the block behind the last one too. -/
structure Line extends Piece where
  fits : blocknr + len < 2 ^ 32

section Load

variable {n : ℕ} [NeZero n] (mem : InodeMemory n) (firstIno : ℕ)

/-- `insert_new_extent`, where `EXT2_FIRST_INO` is `firstIno`: first the inode, then the tree. -/
def insertNewExtent (p : Piece) (st : Loader n) : Except MapStop (Loader n) :=
  if firstIno ≤ p.ino then
    let ext : RemapExtent := ⟨p.blocknr, p.len, p.offset, st.remapBlocks⟩
    match addToInode mem st.table p.ino ext with
    | .error stop => .error stop
    | .ok table =>
        match extentInsert ext st.extentTree with
        | none => .error .exited
        | some tree => .ok ⟨tree, table, st.remapBlocks + p.len⟩
  else .ok st

/-- One round of the loop on a line ends it, does not return, or leaves a piece of the line. -/
inductive LineStep (n : ℕ) where
  | done (st : Loader n)
  | stopped (stop : MapStop)
  | more (p : Piece) (st : Loader n)

/-- The last insertion for a line. -/
def insertAll (p : Piece) (st : Loader n) : LineStep n :=
  match insertNewExtent mem firstIno p st with
  | .error stop => .stopped stop
  | .ok st => .done st

/-- The first `k` blocks of a piece, and what is left of it. -/
def Piece.upTo (p : Piece) (k : ℕ) : Piece := { p with len := k }
def Piece.behind (p : Piece) (k : ℕ) : Piece := ⟨p.blocknr + k, p.len - k, p.offset + k, p.ino⟩

/-- The second half of a round, where the block is in an extent or behind it. -/
def lineTail (p : Piece) (st : Loader n) (ext : RemapExtent) (r : BinaryTree RemapExtent) : LineStep n :=
  if ext.Has p.blocknr then
    if p.blocknr + p.len ≤ ext.block + ext.len then .done st
    else .more (p.behind (ext.block + ext.len - p.blocknr)) st
  else if r = .nil then insertAll mem firstIno p st
  else .more p st

/-- One round of the loop on a line. After a piece before an extent was inserted, the next block is in
that extent. -/
def lineStep (p : Piece) (st : Loader n) : LineStep n :=
  let st := { st with extentTree := extentSplay p.blocknr st.extentTree }
  match st.extentTree with
  | .nil => insertAll mem firstIno p st
  | .node ext _ r =>
      if p.blocknr < ext.block then
        if p.blocknr + p.len < ext.block then insertAll mem firstIno p st
        else
          match insertNewExtent mem firstIno (p.upTo (ext.block - p.blocknr)) st with
          | .error stop => .stopped stop
          | .ok st => lineTail mem firstIno (p.behind (ext.block - p.blocknr)) st ext r
      else lineTail mem firstIno p st ext r

/-- How loading ends; `unfinished` is out of fuel. -/
inductive LoadOutcome (n : ℕ) where
  | finished (st : Loader n)
  | stopped (stop : MapStop)
  | unfinished

/-- The loop on a line, with fuel for so many rounds. -/
def loadLine : ℕ → Piece → Loader n → LoadOutcome n
  | 0, _, _ => .unfinished
  | fuel + 1, p, st =>
      if p.len = 0 then .finished st
      else
        match lineStep mem firstIno p st with
        | .done st => .finished st
        | .stopped stop => .stopped stop
        | .more p st => loadLine fuel p st

/-- The lines, one after the other, with fuel for two rounds on each block of a line. -/
def loadLines : List Line → Loader n → LoadOutcome n
  | [], st => .finished st
  | line :: lines, st =>
      match loadLine mem firstIno (2 * line.len + 1) line.toPiece st with
      | .finished st => loadLines lines st
      | r => r

/-- Before the first line. -/
def emptyLoader : Loader n := ⟨.nil, InodeTable.start mem, 0⟩

/-- `load_extents`, on the lines that are not marked as unmapped. -/
def loadExtents (lines : List Line) : LoadOutcome n :=
  loadLines mem firstIno lines (emptyLoader mem)

end Load

end Prefetch.Remap

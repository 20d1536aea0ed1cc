/-
# Prefetch.MoveBlocks.Filesystem — what e2moveblocks sees of an ext2/ext3 filesystem

The state `ext3_layout_optimize.cpp` works on: the device (inode table, blocks, the bitmap and group
descriptors last flushed to it), the copies of bitmap and descriptors libext2fs keeps in memory until
`ext2fs_flush`, and the cursor `relocation_block` of `main`. A block is its `blocksize / 4` words, which
is how an indirect block is read; a data block is copied without being looked at.

Block numbers (`blk_t`) are unsigned 32-bit integers and are written here as natural numbers, with
`% 2 ^ 32` at the expressions that can wrap.
-/
import Mathlib.Algebra.GroupWithZero.Nat
import Mathlib.Data.Nat.Notation
import Mathlib.Tactic.Common

namespace Prefetch.MoveBlocks

/-! ## §1 — geometry -/

/-- The superblock fields the tool reads. The bounds are those of the on-disk format: block numbers
have 32 bits, the free count of a group has 16, and even with the largest block size the direct,
indirect and double-indirect blocks of a file number less than `2 ^ 32`. -/
structure Geometry where
  sBlocksCount : ℕ
  sFirstDataBlock : ℕ
  sBlocksPerGroup : ℕ
  /-- `EXT2_ADDR_PER_BLOCK` -/
  addrPerBlock : ℕ
  addrPerBlock_pos : 0 < addrPerBlock
  blocksCount_lt : sBlocksCount < 2 ^ 32
  blocksPerGroup_pos : 0 < sBlocksPerGroup
  blocksPerGroup_lt : sBlocksPerGroup < 2 ^ 16
  tree_lt : 12 + addrPerBlock + addrPerBlock * addrPerBlock < 2 ^ 32

/-- A filesystem of 1K blocks, counted from 1, with as many of them in a group as a block has bits. -/
def Geometry.kilobyteBlocks (sBlocksCount : ℕ) (h : sBlocksCount < 2 ^ 32) : Geometry where
  sBlocksCount := sBlocksCount
  sFirstDataBlock := 1
  sBlocksPerGroup := 8192
  addrPerBlock := 256
  addrPerBlock_pos := by decide
  blocksCount_lt := h
  blocksPerGroup_pos := by decide
  blocksPerGroup_lt := by decide
  tree_lt := by decide

/-- An inode has 15 slots. -/
instance neZero_slots : NeZero 15 := ⟨by decide⟩

/-- `EXT2_NDIR_BLOCKS`, `EXT2_IND_BLOCK` and `EXT2_DIND_BLOCK`. -/
def ext2NdirBlocks : ℕ := 12
def ext2IndBlock : Fin 15 := 12
def ext2DindBlock : Fin 15 := 13

/-- The words of a block. -/
abbrev Block (g : Geometry) : Type := Fin g.addrPerBlock → ℕ

/-- `block_range`. -/
structure BlockRange where
  startBlock : ℕ
  blocksCount : ℕ
  deriving DecidableEq, Repr

/-- `relocation`. -/
structure Relocation where
  inodeNumber : ℕ
  blockOffset : ℕ
  blocksCount : ℕ
  deriving DecidableEq, Repr

/-- The parts of `ext2_inode` the relocation uses. `hasValidBlocks` is the answer of
`ext2fs_inode_has_valid_blocks`, which looks at fields the tool never writes (file type, size, number
of blocks): false for device nodes and fast symbolic links, whose `i_block` holds no block numbers. -/
structure Ext2Inode where
  hasValidBlocks : Bool
  iBlock : Fin 15 → ℕ

/-- `inode->i_block[index] = block`. -/
def Ext2Inode.setBlock (inode : Ext2Inode) (index : Fin 15) (block : ℕ) : Ext2Inode :=
  { inode with iBlock := Function.update inode.iBlock index block }

/-- `is_direct_block`. -/
def isDirectBlock (blockInInode : ℕ) : Bool := blockInInode < ext2NdirBlocks

theorem isDirectBlock_lt {blockInInode : ℕ} (h : isDirectBlock blockInInode = true) :
    blockInInode < 15 := by
  have hlt : blockInInode < 12 := of_decide_eq_true h
  omega

section Geometry

variable (g : Geometry)

/-- `ext2fs_group_of_blk`. -/
def groupOfBlk (block : ℕ) : ℕ := (block - g.sFirstDataBlock) / g.sBlocksPerGroup

/-- Whether the block bitmap has a bit for this block. -/
def inBlockMap (block : ℕ) : Bool := g.sFirstDataBlock ≤ block && block < g.sBlocksCount

/-- `ext2fs_test_block_bitmap`; outside the bitmap it warns and answers 0. -/
def testBlockBitmap (blockMap : ℕ → Bool) (block : ℕ) : Bool := inBlockMap g block && blockMap block

/-- `ext2fs_mark_block_bitmap` and `ext2fs_unmark_block_bitmap`; outside the bitmap they only warn. -/
def markBlockBitmap (blockMap : ℕ → Bool) (block : ℕ) : ℕ → Bool :=
  if inBlockMap g block then Function.update blockMap block true else blockMap
def unmarkBlockBitmap (blockMap : ℕ → Bool) (block : ℕ) : ℕ → Bool :=
  if inBlockMap g block then Function.update blockMap block false else blockMap

/-! ## §2 — the regions of a file -/

/-- `is_1indirect_block`. -/
def is1IndirectBlock (blockInInode : ℕ) : Bool :=
  if blockInInode < ext2NdirBlocks then false
  else blockInInode - ext2NdirBlocks < g.addrPerBlock

/-- `is_2indirect_block`. -/
def is2IndirectBlock (blockInInode : ℕ) : Bool :=
  if blockInInode < ext2NdirBlocks then false
  else if blockInInode - ext2NdirBlocks < g.addrPerBlock then false
  else blockInInode - ext2NdirBlocks - g.addrPerBlock < g.addrPerBlock * g.addrPerBlock

/-- `is_3indirect_block`; everything past the double-indirect region. -/
def is3IndirectBlock (blockInInode : ℕ) : Bool :=
  if blockInInode < ext2NdirBlocks then false
  else if blockInInode - ext2NdirBlocks < g.addrPerBlock then false
  else if blockInInode - ext2NdirBlocks - g.addrPerBlock < g.addrPerBlock * g.addrPerBlock then false
  else true

end Geometry

/-- `in_range`. -/
def inRange (blockNumber : ℕ) (range : BlockRange) : Bool :=
  if blockNumber < range.startBlock then false
  else if blockNumber ≥ (range.startBlock + range.blocksCount) % 2 ^ 32 then false
  else true

/-! ## §3 — state -/

/-- What the device holds. An inode number without an entry is one `ext2fs_read_inode` rejects. -/
structure Disk (g : Geometry) where
  inodes : ℕ → Option Ext2Inode
  blocks : ℕ → Block g
  blockBitmap : ℕ → Bool
  bgFreeBlocksCount : ℕ → ℕ

/-- The state of a run. Each access to the device or the allocator takes the next answer of `faults`
(`true`: it fails). `written` lists the blocks `relocate_raw_block` has written, newest first. -/
structure RunState (g : Geometry) where
  disk : Disk g
  /-- `fs->block_map` -/
  blockMap : ℕ → Bool
  /-- `fs->group_desc[group].bg_free_blocks_count` -/
  groupDesc : ℕ → ℕ
  /-- `fs->super->s_free_blocks_count` -/
  sFreeBlocksCount : ℕ
  /-- `relocation_block` of `main`, passed down as `target_block` -/
  relocationBlock : ℕ
  faults : ℕ → Bool
  accesses : ℕ
  written : List ℕ

/-- Why the tool stops early. -/
inductive ExitReason
  | sourceFree
  | targetOccupied
  | noMemory
  | readBlock
  | writeBlock
  | readInode
  | writeInode
  | readIndirect
  | writeIndirect
  | relocatingHole
  | noFreeSpace
  | failedAssertion
  deriving DecidableEq, Repr

/-- A piece of the tool: it returns, or exits for a reason, and the state survives either way. -/
abbrev Prog (g : Geometry) := EStateM ExitReason (RunState g)

end Prefetch.MoveBlocks

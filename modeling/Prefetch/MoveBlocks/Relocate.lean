/-
# Prefetch.MoveBlocks.Relocate — moving blocks into the relocation area

The functions of `ext3_layout_optimize.cpp` from `relocate_raw_block` to `relocate_blocks`. The inode
of a block being relocated is changed in memory and written at the end of `relocate_block`; indirect
blocks are read and written as the tree is descended; the bitmap and the group descriptors change in
memory only. The target is the cursor in the state, which the source passes by pointer.
-/
import Prefetch.MoveBlocks.Filesystem
import Mathlib.Logic.Function.Basic

namespace Prefetch.MoveBlocks

variable {g : Geometry}

/-- An access to the device or the allocator, reported as `why` when it fails. -/
def access (why : ExitReason) : Prog g Unit := do
  let s ← get
  modify fun s => { s with accesses := s.accesses + 1 }
  if s.faults s.accesses then throw why

/-- The block copy of `relocate_raw_block`: `io_channel_write_blk` of the data read. -/
def RunState.copyBlock (s : RunState g) (sourceBlock targetBlock : ℕ) : RunState g :=
  { s with
    disk := { s.disk with
      blocks := Function.update s.disk.blocks targetBlock (s.disk.blocks sourceBlock) }
    written := targetBlock :: s.written }

/-- The end of `relocate_raw_block`: bitmap and group descriptors in memory. The free counts are
unsigned 16-bit integers. -/
def RunState.remarkBlocks (s : RunState g) (sourceBlock targetBlock : ℕ) : RunState g :=
  let freed := groupOfBlk g sourceBlock
  let taken := groupOfBlk g targetBlock
  let groupDesc := Function.update s.groupDesc freed ((s.groupDesc freed + 1) % 2 ^ 16)
  { s with
    blockMap := unmarkBlockBitmap g (markBlockBitmap g s.blockMap targetBlock) sourceBlock
    groupDesc := Function.update groupDesc taken ((groupDesc taken + (2 ^ 16 - 1)) % 2 ^ 16) }

/-- `*target_block += 1`. -/
def RunState.advance (s : RunState g) : RunState g :=
  { s with relocationBlock := (s.relocationBlock + 1) % 2 ^ 32 }

/-- `ext2fs_write_ind_block`. -/
def RunState.writeIndBlock (s : RunState g) (block : ℕ) (words : Block g) : RunState g :=
  { s with disk := { s.disk with blocks := Function.update s.disk.blocks block words } }

/-- `ext2fs_write_inode`. -/
def RunState.writeInode (s : RunState g) (inodeNumber : ℕ) (inode : Ext2Inode) : RunState g :=
  { s with disk := { s.disk with inodes := Function.update s.disk.inodes inodeNumber (some inode) } }

/-- `relocate_raw_block`. -/
def relocateRawBlock (sourceBlock targetBlock : ℕ) : Prog g Unit := do
  let s ← get
  if testBlockBitmap g s.blockMap sourceBlock = false then
    throw .sourceFree
  else if testBlockBitmap g s.blockMap targetBlock = true then
    throw .targetOccupied
  else
    access .noMemory
    access .readBlock
    access .writeBlock
    modify fun s => s.copyBlock sourceBlock targetBlock
    modify fun s => s.remarkBlocks sourceBlock targetBlock

/-- `relocate_block_in_inode`; returns the inode as changed in memory. -/
def relocateBlockInInode (inode : Ext2Inode) (indexInInodeBlocks : Fin 15)
    (relocationArea : BlockRange) : Prog g Ext2Inode :=
  let block := inode.iBlock indexInInodeBlocks
  if block = 0 then
    -- a hole is not relocated
    pure inode
  else if inRange block relocationArea then
    pure inode
  else do
    let targetBlock := (← get).relocationBlock
    relocateRawBlock block targetBlock
    modify RunState.advance
    pure (inode.setBlock indexInInodeBlocks targetBlock)

/-- `relocate_block_in_indirect_block`; returns `*next_indirect_block`. -/
def relocateBlockInIndirectBlock (indirectBlockNumber indexInIndirectBlock : ℕ)
    (relocationArea : BlockRange) : Prog g ℕ :=
  if h : indexInIndirectBlock < g.addrPerBlock then
    if indirectBlockNumber = 0 then
      throw .relocatingHole
    else do
      access .readIndirect
      let words := (← get).disk.blocks indirectBlockNumber
      let block := words ⟨indexInIndirectBlock, h⟩
      if block = 0 then
        pure block
      else if inRange block relocationArea then
        pure block
      else do
        let targetBlock := (← get).relocationBlock
        relocateRawBlock block targetBlock
        modify RunState.advance
        access .writeIndirect
        modify fun s =>
          s.writeIndBlock indirectBlockNumber
            (Function.update words ⟨indexInIndirectBlock, h⟩ targetBlock)
        pure targetBlock
  else
    throw .failedAssertion

/-- The single-indirect branch of `relocate_block`. -/
def relocateBlock1Indirect (inode : Ext2Inode) (blockInInode : ℕ) (relocationArea : BlockRange) :
    Prog g Ext2Inode := do
  let inode ← relocateBlockInInode inode ext2IndBlock relocationArea
  let indirectBlock := inode.iBlock ext2IndBlock
  if indirectBlock = 0 then
    pure inode
  else do
    let _ ← relocateBlockInIndirectBlock indirectBlock (blockInInode - ext2NdirBlocks) relocationArea
    pure inode

/-- The double-indirect branch of `relocate_block`. -/
def relocateBlock2Indirect (inode : Ext2Inode) (blockInInode : ℕ) (relocationArea : BlockRange) :
    Prog g Ext2Inode := do
  let inode ← relocateBlockInInode inode ext2DindBlock relocationArea
  let indirectBlock := inode.iBlock ext2DindBlock
  let indexIn1IndirectBlock := (blockInInode - ext2NdirBlocks - g.addrPerBlock) / g.addrPerBlock
  let indexIn2IndirectBlock := (blockInInode - ext2NdirBlocks - g.addrPerBlock) % g.addrPerBlock
  if indirectBlock = 0 then
    pure inode
  else do
    let nextIndirectBlock ←
      relocateBlockInIndirectBlock indirectBlock indexIn1IndirectBlock relocationArea
    if nextIndirectBlock = 0 then
      pure inode
    else do
      let _ ← relocateBlockInIndirectBlock nextIndirectBlock indexIn2IndirectBlock relocationArea
      pure inode

/-- The branches of `relocate_block`, one for each region of the file; triple-indirect blocks are not
relocated. -/
def relocateBlockInRegion (inode : Ext2Inode) (blockInInode : ℕ) (relocationArea : BlockRange) :
    Prog g Ext2Inode :=
  if h : isDirectBlock blockInInode = true then
    relocateBlockInInode inode ⟨blockInInode, isDirectBlock_lt h⟩ relocationArea
  else if is1IndirectBlock g blockInInode then
    relocateBlock1Indirect inode blockInInode relocationArea
  else if is2IndirectBlock g blockInInode then
    relocateBlock2Indirect inode blockInInode relocationArea
  else
    pure inode

/-- `relocate_block`. -/
def relocateBlock (relocationArea : BlockRange) (inodeNumber blockInInode : ℕ) : Prog g Unit := do
  access .readInode
  match (← get).disk.inodes inodeNumber with
  | none => throw .readInode
  | some inode =>
      if inode.hasValidBlocks = false then
        pure ()
      else do
        access .noMemory
        let inode ← relocateBlockInRegion inode blockInInode relocationArea
        access .writeInode
        modify fun s => s.writeInode inodeNumber inode

/-- The (inode, block offset) pairs of one relocation, in order. -/
def relocationPairs (r : Relocation) : List (ℕ × ℕ) :=
  (List.range r.blocksCount).map fun i => (r.inodeNumber, (r.blockOffset + i) % 2 ^ 32)

/-- `relocate_block` on one pair after the other. -/
def relocatePairs (relocationArea : BlockRange) (pairs : List (ℕ × ℕ)) : Prog g Unit :=
  pairs.forM fun q => relocateBlock relocationArea q.1 q.2

/-- `relocate_blocks`. -/
def relocateBlocks (relocationArea : BlockRange) (r : Relocation) : Prog g Unit :=
  relocatePairs relocationArea (relocationPairs r)

/-- The pairs of a whole layout, in order. -/
def layoutPairs (relocations : List Relocation) : List (ℕ × ℕ) := relocations.flatMap relocationPairs

/-- The relocation loop of `main`. -/
def relocationLoop (relocationArea : BlockRange) (relocations : List Relocation) : Prog g Unit :=
  relocations.forM fun r => relocateBlocks relocationArea r

end Prefetch.MoveBlocks

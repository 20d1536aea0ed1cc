/-
# Prefetch.Remap.Remapper — the two passes of e2remapblocks

`e2remapblocks` moves the blocks of an inode into free extents in two passes: `copy_inode_blocks` copies
the data, buffer by buffer, and `remap_block` rewrites the block pointers as `ext2fs_block_iterate2`
finds them. Both ask `find_remapped_offset` where a position of the remapped data lies.

Block numbers and lengths (`blk_t`) and positions are natural numbers: extents are stretches of a device
of less than `2 ^ 32` blocks, so that nothing wraps there. The offsets of extents are signed; a negative
one stands for an indirect block.
-/
import Mathlib.Algebra.GroupWithZero.Nat
import Mathlib.Data.Int.Notation
import Mathlib.Data.Nat.Notation
import Mathlib.Tactic.Common

namespace Prefetch.Remap

/-- Why a function does not return: `exit(1)`, or an access outside of an array. -/
inductive MapStop
  | exited
  | undefined
  deriving DecidableEq, Repr

/-! ## §1 — extents -/

/-- `struct free_extent`; `offset` is the position of its first block in the remapped data. -/
structure FreeExtent where
  block : ℕ
  len : ℕ
  offset : ℕ
  deriving DecidableEq, Repr

/-- `struct remap_extent`. The list of an inode (`inode_next`) is a list of these; the splay tree
pointers are not used here. -/
structure RemapExtent where
  block : ℕ
  len : ℕ
  offset : ℤ
  chunkOffset : ℕ
  deriving DecidableEq, Repr

/-- The loop of `find_remapped_offset`, with `stop` for `end + 1`. -/
def findFrom (freeExtents : List FreeExtent) (offset start stop : ℕ) : Option FreeExtent :=
  if start < stop then
    let mid := (start + (stop - 1)) / 2
    match freeExtents[mid]? with
    | none => none
    | some f =>
        if f.offset ≤ offset ∧ offset < f.offset + f.len then some f
        else if f.offset < offset then findFrom freeExtents offset (mid + 1) stop
        else findFrom freeExtents offset start mid
  else none
termination_by stop - start
decreasing_by all_goals omega

/-- `find_remapped_offset`; `none` is `NULL`. -/
def findRemappedOffset (freeExtents : List FreeExtent) (offset : ℕ) : Option FreeExtent :=
  findFrom freeExtents offset 0 freeExtents.length

/-- What `find_remapped_offset` returns contains the position. -/
theorem findFrom_mem {freeExtents : List FreeExtent} {offset start stop : ℕ} {f : FreeExtent}
    (h : findFrom freeExtents offset start stop = some f) :
    f ∈ freeExtents ∧ f.offset ≤ offset ∧ offset < f.offset + f.len := by
  fun_induction findFrom freeExtents offset start stop with
  | case1 => cases h
  | case2 start stop hlt mid f' hget hin =>
      cases h
      exact ⟨List.mem_of_getElem? hget, hin⟩
  | case3 start stop hlt mid f' hget hin hbelow ih => exact ih h
  | case4 start stop hlt mid f' hget hin hbelow ih => exact ih h
  | case5 => cases h

/-! ## §2 — the copy -/

section Copy

variable {β : Type*}

/-- `write_blocks`: `len` blocks of the buffer to the device from `block` on. -/
def writeBlocks (disk : ℕ → β) (block : ℕ) (buf : ℕ → β) (len : ℕ) : ℕ → β :=
  fun b => if block ≤ b ∧ b < block + len then buf (b - block) else disk b

/-- The inner loop of `copy_inode_blocks`: `curlen` blocks of the buffer go to the positions from
`chunkOffset` on. `none` when `find_remapped_offset` returns `NULL`, which the code dereferences. -/
def writeChunk (freeExtents : List FreeExtent) (chunkOffset : ℕ) (remapBuf : ℕ → β) (curlen : ℕ)
    (writepos : ℕ) (disk : ℕ → β) : Option (ℕ → β) :=
  if writepos < curlen then
    match _h : findRemappedOffset freeExtents (chunkOffset + writepos) with
    | none => none
    | some freeext =>
        let writelen := min (freeext.len - (chunkOffset + writepos - freeext.offset)) (curlen - writepos)
        writeChunk freeExtents chunkOffset remapBuf curlen (writepos + writelen)
          (writeBlocks disk (freeext.block + (chunkOffset + writepos - freeext.offset))
            (fun i => remapBuf (writepos + i)) writelen)
  else some disk
termination_by curlen - writepos
decreasing_by
  have hin := findFrom_mem _h
  omega

/-- `remap_buf` and `remap_buf_blocks`; `parse_options` refuses values below 1. The size of the buffer in
bytes, `fs->blocksize * remap_buf_blocks`, is an unsigned int. -/
structure RemapBuf where
  blocks : ℕ
  blocksize : ℕ
  blocks_pos : 0 < blocks
  bytes_lt : blocksize * blocks < 2 ^ 32

/-- The buffer of `REMAP_BUF_BLOCKS` blocks. -/
def RemapBuf.ofBlocksize (blocksize : ℕ) (h : blocksize * 256 < 2 ^ 32) : RemapBuf where
  blocks := 256
  blocksize := blocksize
  blocks_pos := Nat.zero_lt_succ 255
  bytes_lt := h

/-- The middle loop of `copy_inode_blocks` on one extent, from `curpos` on. The positions written begin
at `chunk_offset` each time the buffer is filled. -/
def copyExtent (remapBuf : RemapBuf) (freeExtents : List FreeExtent) (actext : RemapExtent)
    (curpos : ℕ) (disk : ℕ → β) : Option (ℕ → β) :=
  if curpos < actext.len then
    let curlen := min (actext.len - curpos) remapBuf.blocks
    let buf := fun i => disk (actext.block + curpos + i)
    match writeChunk freeExtents actext.chunkOffset buf curlen 0 disk with
    | none => none
    | some disk => copyExtent remapBuf freeExtents actext (curpos + curlen) disk
  else some disk
termination_by actext.len - curpos
decreasing_by
  have hpos := remapBuf.blocks_pos
  omega

/-- `copy_inode_blocks`, on the extents of the inode. -/
def copyInodeBlocks (remapBuf : RemapBuf) (freeExtents : List FreeExtent) :
    List RemapExtent → (ℕ → β) → Option (ℕ → β)
  | [], disk => some disk
  | actext :: rest, disk =>
      match copyExtent remapBuf freeExtents actext 0 disk with
      | none => none
      | some disk => copyInodeBlocks remapBuf freeExtents rest disk

end Copy

/-! ## §3 — the pointers -/

/-- `INDIRECT_TO_OFF`. -/
def indirectToOff (offset level : ℕ) : ℤ := -((offset * 4 + level : ℕ) : ℤ)

/-- `OFF_TO_DEPTH` and `OFF_TO_DATAOFF`. -/
def offToDepth (offset : ℤ) : ℤ := ((-offset).toNat % 4 : ℕ)
def offToDataoff (offset : ℤ) : ℤ := ((-offset).toNat / 4 : ℕ)

/-- `cmp_ext_offset_ptr_core`. -/
def cmpExtOffsetPtrCore (ao bo : ℤ) : ℤ :=
  let aDepth := if ao < 0 then offToDepth ao else -1
  let a := if ao < 0 then offToDataoff ao else ao
  let bDepth := if bo < 0 then offToDepth bo else -1
  let b := if bo < 0 then offToDataoff bo else bo
  if a < b then -1 else if a > b then 1 else bDepth - aDepth

/-- `index_to_offset`, with `a` addresses per block. The block size is an unsigned int, and so are the
sums and products with it. -/
def indexToOffset (a : ℕ) (depth : ℤ) (treeInd0 treeInd1 : ℕ) : ℕ :=
  if depth = 0 then 12
  else if depth = 1 then (12 + a + treeInd0 * a) % 2 ^ 32
  else if depth = 2 then (12 + a + a * a + treeInd0 * a + treeInd1 * a * a) % 2 ^ 32
  else 0

/-- `struct block_traverse_data`. `actext` is the current extent followed by its `inode_next` list;
the inode number is used in messages only. -/
structure BlockTraverseData where
  treeInd0 : ℕ
  treeInd1 : ℕ
  depth : ℤ
  actext : List RemapExtent
  deriving DecidableEq, Repr

/-- `BLOCK_COUNT_IND`, `BLOCK_COUNT_DIND` and `BLOCK_COUNT_TIND`. -/
def blockCountInd : ℤ := -1
def blockCountDind : ℤ := -2
def blockCountTind : ℤ := -3

/-- The first part of `remap_block`: where the traversal stands, and the offset by which extents know
the block. `none` is the exit on an unknown offset. -/
def traverseOffset (a : ℕ) (tdata : BlockTraverseData) (offset : ℤ) (parentOffset : ℕ) :
    Option (BlockTraverseData × ℤ) :=
  let encode (tdata : BlockTraverseData) (depth : ℕ) : BlockTraverseData × ℤ :=
    (tdata, indirectToOff (indexToOffset a tdata.depth tdata.treeInd0 tdata.treeInd1) depth)
  if offset < 0 then
    if offset = blockCountInd then
      if tdata.depth < 0 then some (encode { tdata with depth := 0 } 0)
      else some (encode { tdata with treeInd0 := parentOffset / 4 } 0)
    else if offset = blockCountDind then
      if tdata.depth < 1 then some (encode { tdata with depth := 1, treeInd0 := 0 } 1)
      else some (encode { tdata with treeInd1 := parentOffset / 4 } 1)
    else if offset = blockCountTind then
      if tdata.depth < 2 then
        some (encode { tdata with depth := 2, treeInd0 := 0, treeInd1 := 0 } 2)
      else some (encode tdata 2)
    else none
  else some (tdata, offset)

/-- The block `remap_block` substitutes for the block of `actext` at a logical offset; `none` when
`find_remapped_offset` returns `NULL`. -/
def remapTarget (freeExtents : List FreeExtent) (actext : RemapExtent) (offset : ℤ) : Option ℕ :=
  let position := ((actext.chunkOffset : ℤ) + offset - actext.offset).toNat
  (findRemappedOffset freeExtents position).map fun freeext =>
    freeext.block + (position - freeext.offset)

/-- How a call of `remap_block` ends. -/
inductive RemapOutcome
  /-- `return 0` -/
  | unchanged (tdata : BlockTraverseData)
  /-- `return BLOCK_CHANGED` -/
  | changed (blocknr : ℕ) (tdata : BlockTraverseData)
  /-- `return BLOCK_ABORT` -/
  | abort
  /-- `exit(1)` -/
  | exited
  /-- the extent `find_remapped_offset` did not find is dereferenced -/
  | nullDeref
  deriving DecidableEq, Repr

/-- The second part of `remap_block`, once the offset is known and `actext` is the current extent. -/
def remapAt (sBlocksCount : ℕ) (freeExtents : List FreeExtent) (tdata : BlockTraverseData)
    (actext : RemapExtent) (blocknr : ℕ) (offset : ℤ) : RemapOutcome :=
  if actext.offset ≤ offset ∧ offset < actext.offset + actext.len then
    if (blocknr : ℤ) ≠ actext.block + (offset - actext.offset) then .exited
    else
      match remapTarget freeExtents actext offset with
      | none => .nullDeref
      | some target => if sBlocksCount ≤ target then .exited else .changed target tdata
  else .unchanged tdata

/-- `remap_block`, with `a` addresses per block. -/
def remapBlock (a sBlocksCount : ℕ) (freeExtents : List FreeExtent) (tdata : BlockTraverseData)
    (blocknr : ℕ) (offset : ℤ) (parentOffset : ℕ) : RemapOutcome :=
  match traverseOffset a tdata offset parentOffset with
  | none => .exited
  | some (tdata, offset) =>
      if sBlocksCount ≤ blocknr then .exited
      else
        match tdata.actext with
        | [] => .abort
        | actext :: rest =>
            if 0 < cmpExtOffsetPtrCore offset (actext.offset + actext.len - 1) then
              match rest with
              | [] => .abort
              | next :: rest =>
                  remapAt sBlocksCount freeExtents { tdata with actext := next :: rest } next blocknr
                    offset
            else remapAt sBlocksCount freeExtents tdata actext blocknr offset

end Prefetch.Remap

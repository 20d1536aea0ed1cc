/-
# Prefetch.MoveBlocks.Main — sizing the relocation area, finding it, and the whole run

`estimate_blocks_for_range` with the self-test that `main` begins with, `find_contiguous_free_space`,
`close_filesystem`, and `main` on the list of relocations. An exit skips `close_filesystem`.

The self-test aborts the program where an estimate is not the expected one. It does so for blocks of 8K and
more, where the number of blocks in the triple-indirect region is a multiple of `2 ^ 32`.
-/
import Prefetch.MoveBlocks.Relocate

namespace Prefetch.MoveBlocks

variable (g : Geometry)

/-! ## §1 — the estimate -/

/-- `last - first + 1` in `blk_t` arithmetic. -/
def blkSpan (first last : ℕ) : ℕ := (last + 2 ^ 32 - first + 1) % 2 ^ 32

/-- The last `if` of `estimate_blocks_for_range`; `none` is its `permanent_assert(false)`. -/
def estimateFrom3Indirect (startBlock endBlock : ℕ) : Option ℕ :=
  let a := g.addrPerBlock
  let first3IndirectBlock := ext2NdirBlocks + a + a * a
  if is3IndirectBlock g startBlock then
    if is3IndirectBlock g endBlock then
      some (blkSpan startBlock endBlock
        + blkSpan ((startBlock - first3IndirectBlock) / a) ((endBlock - first3IndirectBlock) / a)
        + blkSpan ((startBlock - first3IndirectBlock) / (a * a))
            ((endBlock - first3IndirectBlock) / (a * a))
        + 1)
    else none
  else some 0

/-- `estimate_blocks_for_range` from the double-indirect `if` on. Where the range goes on into the next
region, the single-indirect blocks are counted without subtracting the start of the region. -/
def estimateFrom2Indirect (startBlock endBlock : ℕ) : Option ℕ :=
  let a := g.addrPerBlock
  let first2IndirectBlock := ext2NdirBlocks + a
  let last2IndirectBlock := ext2NdirBlocks + a + a * a - 1
  if is2IndirectBlock g startBlock then
    if is2IndirectBlock g endBlock then
      (estimateFrom3Indirect g startBlock endBlock).map
        (blkSpan startBlock endBlock + 1
          + blkSpan ((startBlock - first2IndirectBlock) / a) ((endBlock - first2IndirectBlock) / a) + ·)
    else
      (estimateFrom3Indirect g (last2IndirectBlock + 1) endBlock).map
        (blkSpan startBlock last2IndirectBlock + 1
          + blkSpan (startBlock / a) (last2IndirectBlock / a) + ·)
  else estimateFrom3Indirect g startBlock endBlock

/-- `estimate_blocks_for_range` from the single-indirect `if` on. -/
def estimateFrom1Indirect (startBlock endBlock : ℕ) : Option ℕ :=
  let last1IndirectBlock := ext2NdirBlocks + g.addrPerBlock - 1
  if is1IndirectBlock g startBlock then
    if is1IndirectBlock g endBlock then
      (estimateFrom2Indirect g startBlock endBlock).map (blkSpan startBlock endBlock + 1 + ·)
    else
      (estimateFrom2Indirect g (last1IndirectBlock + 1) endBlock).map
        (blkSpan startBlock last1IndirectBlock + 1 + ·)
  else estimateFrom2Indirect g startBlock endBlock

/-- `estimate_blocks_for_range`. -/
def estimateBlocksForRange (startBlock count : ℕ) : Option ℕ :=
  let endBlock := (startBlock + count + (2 ^ 32 - 1)) % 2 ^ 32
  if count = 0 then some 0
  else if isDirectBlock startBlock then
    if isDirectBlock endBlock then
      (estimateFrom1Indirect g startBlock endBlock).map (blkSpan startBlock endBlock + ·)
    else
      (estimateFrom1Indirect g ext2NdirBlocks endBlock).map
        (blkSpan startBlock (ext2NdirBlocks - 1) + ·)
  else estimateFrom1Indirect g startBlock endBlock

/-- The assertions of `test_estimate_blocks_for_range`: a first block, a count, and the estimate expected. -/
def estimateTests : List (ℕ × ℕ × ℕ) :=
  let a := g.addrPerBlock
  [(0, 0, 0),
    (0, 1, 1),
    (1, 1, 1),
    (4, 5, 5),
    (ext2NdirBlocks, 1, 2),
    (ext2NdirBlocks - 2, 6, 7),
    (ext2NdirBlocks + 2, 6, 7),
    (ext2NdirBlocks + a - 1, 1, 2),
    (ext2NdirBlocks + a, 1, 3),
    (ext2NdirBlocks + a - 2, 6, 9),
    (ext2NdirBlocks + a + 2, 6, 8),
    (ext2NdirBlocks + a + a - 3, 10, 10 + 1 + 2),
    (ext2NdirBlocks + a, a * a, a * a + 1 + a),
    (ext2NdirBlocks + a + a * a - 1, 1, 3),
    (ext2NdirBlocks + a + a * a, 1, 4),
    (ext2NdirBlocks + a + a * a - 3, 10, 15),
    (ext2NdirBlocks + a + a * a, a * a * a, a * a * a + 1 + a + a * a),
    (ext2NdirBlocks + a + a * a + 1, a, a + 1 + 1 + 2),
    (ext2NdirBlocks + a + a * a + a * 5, a * a, a * a + 1 + 2 + a)]

/-- `test_estimate_blocks_for_range`, in `blk_t` arithmetic; false where a `permanent_assert` fails. -/
def testEstimateBlocksForRange : Bool :=
  (estimateTests g).all fun t =>
    estimateBlocksForRange g (t.1 % 2 ^ 32) (t.2.1 % 2 ^ 32) = some (t.2.2 % 2 ^ 32)

/-- The self-test passes for blocks of 1K, 2K and 4K. -/
theorem testEstimateBlocksForRange_small
    (h : g.addrPerBlock = 256 ∨ g.addrPerBlock = 512 ∨ g.addrPerBlock = 1024) :
    testEstimateBlocksForRange g = true := by
  rcases h with h | h | h <;>
    simp [testEstimateBlocksForRange, estimateTests, estimateBlocksForRange, estimateFrom1Indirect,
      estimateFrom2Indirect, estimateFrom3Indirect, isDirectBlock, is1IndirectBlock, is2IndirectBlock,
      is3IndirectBlock, blkSpan, ext2NdirBlocks, h]

/-- It fails for blocks of 8K, 16K, 32K and 64K. -/
theorem testEstimateBlocksForRange_large
    (h : g.addrPerBlock = 2048 ∨ g.addrPerBlock = 4096 ∨ g.addrPerBlock = 8192 ∨ g.addrPerBlock = 16384) :
    testEstimateBlocksForRange g = false := by
  rcases h with h | h | h | h <;>
    simp [testEstimateBlocksForRange, estimateTests, estimateBlocksForRange, estimateFrom1Indirect,
      estimateFrom2Indirect, estimateFrom3Indirect, isDirectBlock, is1IndirectBlock, is2IndirectBlock,
      is3IndirectBlock, blkSpan, ext2NdirBlocks, h]

/-- `*estimated_block_size` as `process_layout_list` sums it over the relocations it records. -/
def estimatedBlockSize : List Relocation → Option ℕ
  | [] => some 0
  | r :: relocations =>
      match estimateBlocksForRange g r.blockOffset r.blocksCount, estimatedBlockSize relocations with
      | some n, some total => some (n + total)
      | _, _ => none

/-! ## §2 — the area -/

/-- The scan of `find_contiguous_free_space` over the blocks not yet looked at, with
`contiguous_free_blocks`. -/
def findFreeRun (blockMap : ℕ → Bool) (sizeInBlocks : ℕ) : List ℕ → ℕ → Option ℕ
  | [], _ => none
  | i :: rest, contiguousFreeBlocks =>
      if testBlockBitmap g blockMap i = false then
        if sizeInBlocks ≤ contiguousFreeBlocks + 1 then some (i + 1 - sizeInBlocks)
        else findFreeRun blockMap sizeInBlocks rest (contiguousFreeBlocks + 1)
      else findFreeRun blockMap sizeInBlocks rest 0

variable {g}

/-- `find_contiguous_free_space`. -/
def findContiguousFreeSpace (s : RunState g) (sizeInBlocks : ℕ) : Option ℕ :=
  if s.sFreeBlocksCount < sizeInBlocks then none
  else
    findFreeRun g s.blockMap sizeInBlocks
      (List.range' g.sFirstDataBlock (g.sBlocksCount - g.sFirstDataBlock)) 0

/-! ## §3 — the run -/

/-- `close_filesystem`: bitmaps and group descriptors reach the device here and nowhere else. -/
def RunState.closeFilesystem (s : RunState g) : RunState g :=
  { s with disk := { s.disk with blockBitmap := s.blockMap, bgFreeBlocksCount := s.groupDesc } }

/-- `blk_t relocation_block = found_first_block`. -/
def RunState.startAt (s : RunState g) (foundFirstBlock : ℕ) : RunState g :=
  { s with relocationBlock := foundFirstBlock }

/-- `main` behind `process_layout_list`, on the relocations that were recorded. The size is passed on as an
unsigned 32-bit integer. -/
def moveLayout (relocations : List Relocation) : Prog g Unit := do
  match estimatedBlockSize g relocations with
  | none => throw .failedAssertion
  | some estimated =>
      let sizeInBlocks := estimated % 2 ^ 32
      let s ← get
      match findContiguousFreeSpace s sizeInBlocks with
      | none => throw .noFreeSpace
      | some foundFirstBlock => do
          modify fun s => s.startAt foundFirstBlock
          relocationLoop ⟨foundFirstBlock, sizeInBlocks⟩ relocations
          modify RunState.closeFilesystem

/-- `main` on an opened filesystem and the relocations `process_layout_list` records. -/
def main (relocations : List Relocation) : Prog g Unit :=
  if testEstimateBlocksForRange g = false then throw .failedAssertion
  else moveLayout relocations

/-- The state in which `open_filesystem` leaves a run: bitmaps and group descriptors as on the device,
nothing written. -/
structure RunState.Opened (s : RunState g) : Prop where
  blockMap_eq : s.blockMap = s.disk.blockBitmap
  groupDesc_eq : s.groupDesc = s.disk.bgFreeBlocksCount
  written_eq : s.written = []

end Prefetch.MoveBlocks

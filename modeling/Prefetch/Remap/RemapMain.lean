/-
# Prefetch.Remap.RemapMain — e2remapblocks from its lines to the new filesystem

The steps of `main`: the lines are loaded, the extents of each inode are brought in the order of the file,
free blocks are chosen for all of them, and the inodes are remapped.

`e2remapblocks_preserves` is about the whole: given lines that say where blocks of files are, every file reads
as before, and the block listed in the `k`-th place is now the `k`-th of the free blocks.
-/
import Prefetch.Lib.Qsort
import Prefetch.MoveBlocks.BlockIterate
import Prefetch.Remap.FindFreeBlocks
import Prefetch.Remap.LinePieces
import Prefetch.Remap.RemapFs

namespace Prefetch.Remap

open MoveBlocks (Geometry View Place inBlockMap WellFormed Ext2fs documentedExt2fs documentedExt2fs_documented)
open Qsort
open RunningSums

/-! ## §1 — the extents of an inode in order -/

/-- `cmp_ext_offset_ptr` -/
def cmpExtOffsetPtr (a b : RemapExtent) : ℤ := cmpExtOffsetPtrCore a.offset b.offset

/-- `sort_inodes_extents` -/
def sortInodesExtents (qsort : List RemapExtent → List RemapExtent) (inodes : List InodeExtents) :
    List InodeExtents :=
  inodes.map fun iext => { iext with extents := qsort iext.extents }

/-- The comparison is one of the first blocks, and then of the depths. -/
theorem cmpExtOffsetPtrCore_nonpos {ao bo : ℤ} :
    cmpExtOffsetPtrCore ao bo ≤ 0 ↔
      (if ao < 0 then offToDataoff ao else ao) < (if bo < 0 then offToDataoff bo else bo) ∨
        (if ao < 0 then offToDataoff ao else ao) = (if bo < 0 then offToDataoff bo else bo) ∧
          (if bo < 0 then offToDepth bo else -1) ≤ (if ao < 0 then offToDepth ao else -1) := by
  unfold cmpExtOffsetPtrCore
  generalize (if ao < 0 then offToDataoff ao else ao) = a
  generalize (if bo < 0 then offToDataoff bo else bo) = b
  generalize (if ao < 0 then offToDepth ao else -1) = aDepth
  generalize (if bo < 0 then offToDepth bo else -1) = bDepth
  dsimp only
  split_ifs <;> omega

theorem cmpExtOffsetPtr_consistent (extents : List RemapExtent) : Consistent cmpExtOffsetPtr extents where
  total a _ b _ := by
    unfold cmpExtOffsetPtr
    rw [cmp_swap a.offset b.offset]
    omega
  trans a _ b _ c _ hab hbc := by
    unfold cmpExtOffsetPtr at *
    rw [cmpExtOffsetPtrCore_nonpos] at *
    omega

/-! ## §2 — `main` -/

/-- The options, the numbers of links in the inodes, and the C library. `n` is `inode_hash_size`. -/
structure RemapSettings (n : ℕ) where
  /-- `EXT2_FIRST_INO` -/
  firstIno : ℕ
  minFreeExtentSize : ℕ
  remapBuf : RemapBuf
  linksCount : ℕ → ℕ
  inodeMemory : InodeMemory n
  qsort : List RemapExtent → List RemapExtent
  findEnv : FindEnv

section Main

variable {g : Geometry} {n : ℕ} [NeZero n]

/-- `fs->block_map` of a filesystem at the end of which block numbers do not wrap. -/
def blockBitmap (hblocks : g.sBlocksCount + 7 ≤ 2 ^ 32) (fs : FsBitmap) : BlockBitmap where
  start := g.sFirstDataBlock
  stop := g.sBlocksCount - 1
  used := fs.blockMap
  stop_le := by omega

/-- `main`, the filesystem being opened and closed without an error; `none` where the program exits, or goes
over more than `fuel` groups for an extent. -/
def e2remapblocks (lib : Ext2fs g) (hblocks : g.sBlocksCount + 7 ≤ 2 ^ 32) (fuel : ℕ) (s : RemapSettings n)
    (lines : List Line) (v : View g) (fs : FsBitmap) : Option (View g × FsBitmap) :=
  match loadExtents s.inodeMemory s.firstIno lines with
  | .finished st =>
      match findFreeBlocks (blockBitmap hblocks fs) st.remapBlocks s.minFreeExtentSize s.findEnv with
      | .returned freeExtents =>
          copyAndRemapExtents lib fuel ⟨s.remapBuf, freeExtents, s.linksCount⟩
            (sortInodesExtents s.qsort st.table.inodes) v fs
      | .exited _ => none
  | .stopped _ => none
  | .unfinished => none

end Main

/-! ## §3 — the free extents -/

/-- The blocks of free extents, in order. -/
def freeBlocks (exts : List FreeExtent) : List ℕ := exts.flatMap fun f => List.range' f.block f.len

section Free

variable {map : BlockBitmap} {remapBlocks : ℕ} {exts : List FreeExtent}

/-- What the second pass takes is not empty, and neither is the last extent once it has its length. -/
theorem Taken.pos {kept : List Stretch} {taken : List FreeExtent × ℕ} (h : Taken remapBlocks 0 kept taken)
    (hkept : ∀ s ∈ kept, IsStretch map s) {excess : ℤ}
    (hright : totalLen FreeExtent.len (shortenLast excess taken.1) = remapBlocks) :
    ∀ e ∈ shortenLast excess taken.1, 0 < e.len := by
  rcases List.eq_nil_or_concat taken.1 with hnil | ⟨es, e, hes⟩
  · rw [hnil]
    exact fun e he => absurd he List.not_mem_nil
  · have hsubset := h.isPrefix.subset
    have hoffsets := h.offsets
    have hlast := h.offset_lt e (by rw [hes, List.concat_eq_append]; exact List.mem_append_right _ (.head _))
    rw [hes, List.concat_eq_append] at hsubset hoffsets hright ⊢
    obtain ⟨-, hoff, -⟩ := running_append.mp hoffsets
    rw [Nat.zero_add] at hoff
    rw [shortenLast_append] at hright ⊢
    intro e' he'
    rcases List.mem_append.mp he' with he' | he'
    · exact (hkept _ (hsubset (List.mem_map_of_mem (List.mem_append_left _ he')))).pos
    · rw [List.mem_singleton.mp he']
      have hsum : totalLen FreeExtent.len es + ((e.len - excess) % 2 ^ 32).toNat = remapBlocks := by
        rw [← hright, totalLen_append]
        rfl
      show 0 < ((e.len - excess) % 2 ^ 32).toNat
      omega

theorem findFreeBlocks_pos {minFreeExtentSize : ℕ} {env : FindEnv} (hremap : 0 < remapBlocks)
    (h : findFreeBlocks map remapBlocks minFreeExtentSize env = .returned exts)
    (hright : Right map remapBlocks exts) : ∀ e ∈ exts, 0 < e.len := by
  unfold findFreeBlocks at h
  split at h
  · cases h
  · split at h
    · cases h
    · have hsearched := scan_searched remapBlocks minFreeExtentSize env.memory (.inl rfl : Edge map map.start)
        [] 1024
      split at h
      · cases h
      · cases h
        intro e he
        rw [List.mem_singleton.mp he]
        exact hremap
      · next found hscan =>
        rw [hscan] at hsearched
        have hstretch : ∀ s ∈ (found.insertionSort byLen).insertionSort byStart, IsStretch map s := by
          intro s hs
          rw [List.mem_insertionSort, List.mem_insertionSort, hsearched.found_eq.1] at hs
          exact mem_stretches.mp (List.mem_filter.mp hs).1
        unfold chooseExtents at h
        dsimp only at h
        split at h
        · cases h
        · split at h
          · cases h
          · next s _ =>
            split at h
            · cases h
              exact (takeExtents_spec remapBlocks (s.len / 2) _ 0).pos
                (fun s hs => hstretch s (List.mem_filter.mp hs).1) hright.total
            · cases h

/-- Right free extents are disjoint, and their offsets are running sums. -/
theorem Right.freeExtents (h : Right map remapBlocks exts) (hpos : ∀ e ∈ exts, 0 < e.len) :
    ∃ F : FreeExtents remapBlocks, F.list = exts := by
  refine ⟨⟨exts, hpos, ?_, h.offsets, h.total⟩, rfl⟩
  refine h.disjoint.imp_of_mem fun {e e'} he he' hapart => ?_
  have := hpos e he
  have := hpos e' he'
  by_contra hnot
  rw [not_or, not_le, not_le] at hnot
  exact hapart (max e.block e'.block) ⟨⟨by omega, by omega⟩, by omega, by omega⟩

theorem getElem?_freeBlocks_of_running {acc pos : ℕ} {fs : List FreeExtent}
    (h : Running FreeExtent.len FreeExtent.offset acc fs) {f : FreeExtent} (hf : f ∈ fs) (hlo : f.offset ≤ pos)
    (hhi : pos < f.offset + f.len) : (freeBlocks fs)[pos - acc]? = some (f.block + (pos - f.offset)) := by
  induction fs generalizing acc with
  | nil => cases hf
  | cons f' fs ih =>
      obtain ⟨rfl, hrest⟩ := h
      unfold freeBlocks
      rw [List.flatMap_cons]
      rcases List.mem_cons.mp hf with rfl | hf
      · rw [List.getElem?_append_left (by rw [List.length_range']; omega), List.getElem?_range' (by omega),
          Nat.one_mul]
      · have hbehind := hrest.ordered.1 f hf
        rw [List.getElem?_append_right (by rw [List.length_range']; omega), List.length_range', Nat.sub_sub]
        exact ih hrest hf

/-- The block of a position, counted off in the free extents. -/
theorem FreeExtents.getElem?_freeBlocks {total : ℕ} (F : FreeExtents total) {pos : ℕ} (hpos : pos < total) :
    (freeBlocks F.list)[pos]? = some (F.place pos) := by
  obtain ⟨f, hf, -, hlo, hhi⟩ := F.find_isSome hpos
  rw [F.place_eq hf ⟨hlo, hhi⟩]
  exact getElem?_freeBlocks_of_running F.offsets hf hlo hhi

end Free

/-! ## §4 — lines that are right -/

section Lines

variable {g : Geometry} {n : ℕ} [NeZero n]

/-- Lines that can be loaded and say where blocks of linked files are. A line has one indirect block, or a run of
data blocks that no listed indirect block of the file lies in, and it fits in the buffer. The tool computes the
offsets of these files right. -/
structure Described (s : RemapSettings n) (lines : List Line) (v : View g) : Prop where
  loads : ∀ pre l post, lines = pre ++ l :: post →
    ¬ ReachesFirst s.firstIno pre l ∧ ¬ AddsLost s.inodeMemory s.firstIno pre l
  nonempty : ∃ l ∈ lines, l.Counts s.firstIno
  mapped : ∀ l ∈ lines, l.Counts s.firstIno → ∀ j < l.len,
    ∃ w ∈ (v.fileTree l.ino).visits, w.code = l.offset + j ∧ w.blocknr = l.blocknr + j
  single : ∀ l ∈ lines, l.Counts s.firstIno → l.offset < 0 → l.len = 1
  uncrossed : ∀ l ∈ lines, ∀ l' ∈ lines, l.Counts s.firstIno → l'.Counts s.firstIno → l.ino = l'.ino →
    0 ≤ l.offset → l'.offset < 0 →
    offToDataoff l'.offset ≤ l.offset ∨ l.offset + l.len ≤ offToDataoff l'.offset
  offsets : ∀ l ∈ lines, l.Counts s.firstIno →
    FirstsFit (v.fileTree l.ino) ∧ IndicesSettled (v.fileTree l.ino)
  linked : ∀ l ∈ lines, l.Counts s.firstIno → s.linksCount l.ino ≠ 0
  short : ∀ l ∈ lines, l.Counts s.firstIno → l.len ≤ s.remapBuf.blocks

variable {s : RemapSettings n} {lines : List Line} {v : View g} {inserted : Inserted}
  {st : Loader n} {iext : InodeExtents} {e e' : RemapExtent}

/-- What has been loaded from the lines, all their blocks in order. -/
structure LoadedFrom (s : RemapSettings n) (lines : List Line) (inserted : Inserted) (st : Loader n) : Prop where
  loaded : Loaded s.inodeMemory (firstListed s.firstIno lines) inserted st
  fromLines : st.FromLines s.firstIno lines (wantedBlocks s.firstIno lines)

theorem LoadedFrom.entry (h : LoadedFrom s lines inserted st) (hiext : iext ∈ st.table.inodes)
    (he : e ∈ iext.extents) : (iext.ino, e) ∈ inserted := by
  rw [h.loaded.inodes.extents iext hiext] at he
  obtain ⟨⟨ino, e⟩, hmem, rfl⟩ := List.mem_map.mp he
  obtain ⟨hentry, hino⟩ := List.mem_filter.mp hmem
  rw [decide_eq_true_iff] at hino
  exact hino ▸ hentry

theorem LoadedFrom.pos (h : LoadedFrom s lines inserted st) (hiext : iext ∈ st.table.inodes)
    (he : e ∈ iext.extents) : 0 < e.len :=
  h.loaded.ordered.pos e (h.loaded.perm.mem_iff.mpr (List.mem_map_of_mem (h.entry hiext he)))

theorem LoadedFrom.placedAt (h : LoadedFrom s lines inserted st) (hiext : iext ∈ st.table.inodes)
    (he : e ∈ iext.extents) : PlacedAt (wantedBlocks s.firstIno lines) e :=
  ((h.fromLines.filled iext hiext).2 e he).2

/-- An extent is a part of a line that counts. -/
theorem LoadedFrom.part (h : LoadedFrom s lines inserted st) (hiext : iext ∈ st.table.inodes)
    (he : e ∈ iext.extents) :
    ∃ l ∈ lines, l.Counts s.firstIno ∧ Piece.PartOf ⟨e.block, e.len, e.offset, iext.ino⟩ l := by
  obtain ⟨⟨l, hl, hgood, hpart⟩, -⟩ := (h.fromLines.filled iext hiext).2 e he
  have hpos := h.pos hiext he
  have hlo : l.blocknr ≤ e.block := hpart.lo
  have hhi : e.block + e.len ≤ l.blocknr + l.len := hpart.hi
  have hino : iext.ino = l.ino := hpart.ino
  exact ⟨l, hl, ⟨hino ▸ hgood, by omega⟩, hpart⟩

/-- Extents share no block. -/
theorem LoadedFrom.inode_apart (h : LoadedFrom s lines inserted st) (hiext : iext ∈ st.table.inodes) :
    iext.extents.Pairwise fun e e' => ∀ b, ¬ (e.Has b ∧ e'.Has b) := by
  rw [h.loaded.inodes.extents iext hiext]
  exact List.pairwise_map.mpr (h.loaded.right.disjoint.sublist List.filter_sublist)

variable {total : ℕ} {F : FreeExtents total}

/-- The blocks of an extent are where the file has them. -/
theorem Described.mapped_extent (h : Described s lines v) (hloaded : LoadedFrom s lines inserted st)
    (hiext : iext ∈ st.table.inodes) (he : e ∈ iext.extents) {j : ℕ} (hj : j < e.len) :
    ∃ w ∈ (v.fileTree iext.ino).visits, w.code = e.offset + j ∧ w.blocknr = e.block + j := by
  obtain ⟨l, hl, hcounts, hpart⟩ := hloaded.part hiext he
  have hlo : l.blocknr ≤ e.block := hpart.lo
  have hhi : e.block + e.len ≤ l.blocknr + l.len := hpart.hi
  have hoffset : e.offset = l.offset + (e.block - l.blocknr : ℕ) := hpart.offset
  have hino : iext.ino = l.ino := hpart.ino
  obtain ⟨w, hw, hcode, hblock⟩ := h.mapped l hl hcounts (e.block - l.blocknr + j) (by omega)
  exact ⟨w, hino ▸ hw, by omega, by omega⟩

/-- A part of a line with an indirect block is the line. -/
theorem Described.part_indirect (h : Described s lines v) {l : Line} (hl : l ∈ lines)
    (hcounts : l.Counts s.firstIno) (hpos : 0 < e.len) {ino : ℕ}
    (hpart : Piece.PartOf ⟨e.block, e.len, e.offset, ino⟩ l) :
    (e.offset < 0 ↔ l.offset < 0) ∧ (l.offset < 0 → e.offset = l.offset ∧ e.len = 1) := by
  have hlo : l.blocknr ≤ e.block := hpart.lo
  have hhi : e.block + e.len ≤ l.blocknr + l.len := hpart.hi
  have hoffset : e.offset = l.offset + (e.block - l.blocknr : ℕ) := hpart.offset
  have hsingle := h.single l hl hcounts
  refine ⟨⟨fun hneg => by omega, fun hneg => ?_⟩, fun hneg => ?_⟩
  · have := hsingle hneg
    omega
  · have := hsingle hneg
    omega

/-- The sorted extents of an inode are a listing of its file. -/
theorem Described.listing (h : Described s lines v) (hloaded : LoadedFrom s lines inserted st)
    (hq : Sorts cmpExtOffsetPtr s.qsort) (htotal : st.remapBlocks = total) (hiext : iext ∈ st.table.inodes) :
    Listing (v.fileTree iext.ino) F (s.qsort iext.extents) := by
  have hperm := hq.perm iext.extents
  exact {
    nonempty := fun hnil => by
      rw [hnil] at hperm
      exact (hloaded.fromLines.filled iext hiext).1 hperm.symm.eq_nil
    sorted := hq.ordered iext.extents (cmpExtOffsetPtr_consistent iext.extents)
    pos := fun e he => hloaded.pos hiext (hperm.mem_iff.mp he)
    single := fun e he hneg => by
      have he := hperm.mem_iff.mp he
      obtain ⟨l, hl, hcounts, hpart⟩ := hloaded.part hiext he
      obtain ⟨hiff, hone⟩ := h.part_indirect hl hcounts (hloaded.pos hiext he) hpart
      exact (hone (hiff.mp hneg)).2
    mapped := fun e he j hj => h.mapped_extent hloaded hiext (hperm.mem_iff.mp he) hj
    uncrossed := fun e he e' he' hdata hneg => by
      have he := hperm.mem_iff.mp he
      have he' := hperm.mem_iff.mp he'
      obtain ⟨l, hl, hcounts, hpart⟩ := hloaded.part hiext he
      obtain ⟨l', hl', hcounts', hpart'⟩ := hloaded.part hiext he'
      obtain ⟨hiff, -⟩ := h.part_indirect hl hcounts (hloaded.pos hiext he) hpart
      obtain ⟨hiff', hone'⟩ := h.part_indirect hl' hcounts' (hloaded.pos hiext he') hpart'
      have hino : iext.ino = l.ino := hpart.ino
      have hino' : iext.ino = l'.ino := hpart'.ino
      have huncrossed := h.uncrossed l hl l' hl' hcounts hcounts' (hino.symm.trans hino')
        (by omega) (hiff'.mp hneg)
      rw [(hone' (hiff'.mp hneg)).1]
      have hlo : l.blocknr ≤ e.block := hpart.lo
      have hhi : e.block + e.len ≤ l.blocknr + l.len := hpart.hi
      have hoffset : e.offset = l.offset + (e.block - l.blocknr : ℕ) := hpart.offset
      omega
    once := by
      have hapart : (s.qsort iext.extents).Pairwise fun e e' => ∀ b, ¬ (e.Has b ∧ e'.Has b) :=
        (hperm.pairwise_iff fun {e e'} h b hb => h b hb.symm).mpr (hloaded.inode_apart hiext)
      refine hapart.imp_of_mem fun {e e'} he he' hdisjoint offset hboth => ?_
      obtain ⟨⟨hlo, hhi⟩, hlo', hhi'⟩ := hboth
      -- a block of the file at an offset of both would be in both
      obtain ⟨w, hw, hcode, hblock⟩ :=
        h.mapped_extent hloaded hiext (hperm.mem_iff.mp he) (j := (offset - e.offset).toNat) (by omega)
      obtain ⟨w', hw', hcode', hblock'⟩ :=
        h.mapped_extent hloaded hiext (hperm.mem_iff.mp he') (j := (offset - e'.offset).toNat) (by omega)
      obtain rfl : w = w' := code_inj g.addrPerBlock_pos hw hw' (by omega)
      exact hdisjoint w.blocknr ⟨⟨by omega, by omega⟩, by omega, by omega⟩
    room := fun e he => by
      have he := hperm.mem_iff.mp he
      have hpos := hloaded.pos hiext he
      have hlast := hloaded.placedAt hiext he (e.len - 1) (by omega)
      have hlt := (List.getElem?_eq_some_iff.mp hlast).1
      rw [hloaded.fromLines.length, htotal] at hlt
      omega }

theorem mem_sortInodesExtents {qsort : List RemapExtent → List RemapExtent} {inodes : List InodeExtents}
    {i : InodeExtents} :
    i ∈ sortInodesExtents qsort inodes ↔ ∃ iext ∈ inodes, ⟨iext.ino, qsort iext.extents⟩ = i := List.mem_map

/-- Sorting leaves the extents of an inode with it. -/
theorem mem_allExtents_sorted {qsort : List RemapExtent → List RemapExtent} (hq : Sorts cmpExtOffsetPtr qsort)
    {inodes : List InodeExtents} :
    e ∈ allExtents (sortInodesExtents qsort inodes) ↔ ∃ iext ∈ inodes, e ∈ iext.extents := by
  rw [mem_allExtents]
  constructor
  · rintro ⟨i, hi, he⟩
    obtain ⟨iext, hiext, rfl⟩ := mem_sortInodesExtents.mp hi
    exact ⟨iext, hiext, (hq.perm _).mem_iff.mp he⟩
  · rintro ⟨iext, hiext, he⟩
    exact ⟨_, mem_sortInodesExtents.mpr ⟨iext, hiext, rfl⟩, (hq.perm _).mem_iff.mpr he⟩

/-- No two extents share a block. -/
theorem LoadedFrom.apart (h : LoadedFrom s lines inserted st) (hq : Sorts cmpExtOffsetPtr s.qsort) :
    (allExtents (sortInodesExtents s.qsort st.table.inodes)).Pairwise fun e e' => ∀ b, ¬ (e.Has b ∧ e'.Has b) := by
  refine List.pairwise_flatMap.mpr ⟨fun i hi => ?_, ?_⟩
  · obtain ⟨iext, hiext, rfl⟩ := mem_sortInodesExtents.mp hi
    exact ((hq.perm _).pairwise_iff fun {e e'} h b hb => h b hb.symm).mpr (h.inode_apart hiext)
  · refine List.pairwise_map.mpr ((List.pairwise_map.mp h.loaded.inodes.nodup).imp_of_mem ?_)
    intro iext iext' hiext hiext' hne e he e' he' b hb
    have hentry := h.entry hiext ((hq.perm _).mem_iff.mp he)
    have hentry' := h.entry hiext' ((hq.perm _).mem_iff.mp he')
    exact hne (congrArg Prod.fst (h.loaded.eq_of_has hentry hentry' hb.1 hb.2))

/-- No two extents have a place in the data in common. -/
theorem LoadedFrom.chunks_apart (h : LoadedFrom s lines inserted st) (hq : Sorts cmpExtOffsetPtr s.qsort) :
    (allExtents (sortInodesExtents s.qsort st.table.inodes)).Pairwise fun e e' =>
      e.chunkOffset + e.len ≤ e'.chunkOffset ∨ e'.chunkOffset + e'.len ≤ e.chunkOffset := by
  refine (h.apart hq).imp_of_mem fun {e e'} he he' hapart => ?_
  obtain ⟨iext, hiext, he⟩ := (mem_allExtents_sorted hq).mp he
  obtain ⟨iext', hiext', he'⟩ := (mem_allExtents_sorted hq).mp he'
  have hpos := h.pos hiext he
  have hpos' := h.pos hiext' he'
  -- a position in both would be that of a block in both
  by_contra hnot
  rw [not_or, not_le, not_le] at hnot
  have hplaced := h.placedAt hiext he (max e.chunkOffset e'.chunkOffset - e.chunkOffset) (by omega)
  have hplaced' := h.placedAt hiext' he' (max e.chunkOffset e'.chunkOffset - e'.chunkOffset) (by omega)
  rw [Nat.add_sub_cancel' (Nat.le_max_left _ _)] at hplaced
  rw [Nat.add_sub_cancel' (Nat.le_max_right _ _), hplaced] at hplaced'
  have hsame := Option.some.inj hplaced'
  exact hapart (e.block + (max e.chunkOffset e'.chunkOffset - e.chunkOffset))
    ⟨⟨by omega, by omega⟩, by omega, by omega⟩

/-- What is loaded can be moved. -/
theorem Described.movable (h : Described s lines v) (hloaded : LoadedFrom s lines inserted st)
    (hq : Sorts cmpExtOffsetPtr s.qsort) (htotal : st.remapBlocks = total) {blockMap : ℕ → Bool}
    (hfree : ∀ f ∈ F.list, ∀ b, f.block ≤ b → b < f.block + f.len → inBlockMap g b = true ∧ blockMap b = false) :
    Movable F ⟨s.remapBuf, F.list, s.linksCount⟩ (sortInodesExtents s.qsort st.table.inodes) v blockMap := by
  have hline : ∀ iext ∈ st.table.inodes, ∃ l ∈ lines, l.Counts s.firstIno ∧ iext.ino = l.ino := by
    intro iext hiext
    obtain ⟨e, rest, hextents⟩ := List.exists_cons_of_ne_nil (hloaded.fromLines.filled iext hiext).1
    obtain ⟨l, hl, hcounts, hpart⟩ := hloaded.part hiext (hextents ▸ List.mem_cons_self : e ∈ iext.extents)
    exact ⟨l, hl, hcounts, hpart.ino⟩
  exact {
    freeExtents := rfl
    nodup := by
      have hnumbers : (sortInodesExtents s.qsort st.table.inodes).map InodeExtents.ino
          = st.table.inodes.map InodeExtents.ino := List.map_map
      rw [hnumbers]
      exact hloaded.loaded.inodes.nodup
    listed := fun i hi => by
      obtain ⟨iext, hiext, rfl⟩ := mem_sortInodesExtents.mp hi
      exact h.listing hloaded hq htotal hiext
    offsets := fun i hi => by
      obtain ⟨iext, hiext, rfl⟩ := mem_sortInodesExtents.mp hi
      obtain ⟨l, hl, hcounts, hino⟩ := hline iext hiext
      exact hino ▸ h.offsets l hl hcounts
    linked := fun i hi => by
      obtain ⟨iext, hiext, rfl⟩ := mem_sortInodesExtents.mp hi
      obtain ⟨l, hl, hcounts, hino⟩ := hline iext hiext
      exact hino ▸ h.linked l hl hcounts
    apart := hloaded.chunks_apart hq
    filled := fun pos hpos => by
      rw [← htotal, hloaded.loaded.remapBlocks] at hpos
      obtain ⟨entry, hentry, hin⟩ := hloaded.loaded.chunks.exists_mem (Nat.zero_le pos) (by omega)
      obtain ⟨iext, hiext, -, he⟩ := hloaded.loaded.mem_inode hentry
      exact ⟨entry.2, (mem_allExtents_sorted hq).mpr ⟨iext, hiext, he⟩, hin⟩
    short := fun e he => by
      obtain ⟨iext, hiext, he⟩ := (mem_allExtents_sorted hq).mp he
      obtain ⟨l, hl, hcounts, hpart⟩ := hloaded.part hiext he
      have hlo : l.blocknr ≤ e.block := hpart.lo
      have hhi : e.block + e.len ≤ l.blocknr + l.len := hpart.hi
      have := h.short l hl hcounts
      show e.len ≤ s.remapBuf.blocks
      omega
    free := hfree }

end Lines

/-! ## §5 — the whole program -/

section Whole

variable {g : Geometry} {lib : Ext2fs g} {n : ℕ} [NeZero n] {s : RemapSettings n} {lines : List Line} {v : View g}

/-- Lines that can be loaded are. -/
theorem Described.loadExtents (h : Described s lines v) :
    ∃ st, loadExtents s.inodeMemory s.firstIno lines = .finished st := by
  rcases loadExtents_cases s.inodeMemory s.firstIno lines with
    ⟨inserted, st, hfinished, -⟩ | ⟨-, -, pre, l, post, hsplit, hstops⟩
  · exact ⟨st, hfinished⟩
  · have hloads := h.loads pre l post hsplit
    exact absurd hstops (not_or.mpr hloads)

theorem Described.wanted_pos (h : Described s lines v) : 0 < (wantedBlocks s.firstIno lines).length := by
  obtain ⟨l, hl, hgood, hlen⟩ := h.nonempty
  have hlists : l.Lists l.blocknr := ⟨Nat.le_refl _, Nat.lt_add_of_pos_right hlen⟩
  exact List.length_pos_of_mem (mem_wantedBlocks.mpr ⟨l, hl, hgood, hlists⟩)

/-- There is a block of a file. -/
theorem Described.blocks_pos (h : Described s lines v) {reserved : Set ℕ} {blockMap : ℕ → Bool}
    (hwf : WellFormed reserved v blockMap) : 0 < g.sBlocksCount := by
  obtain ⟨l, hl, hcounts⟩ := h.nonempty
  obtain ⟨w, hw, -⟩ := h.mapped l hl hcounts 0 hcounts.2
  rw [MoveBlocks.visits_fileTree] at hw
  obtain ⟨p, hp, -⟩ := List.mem_map.mp hw
  have hmap := hwf.ref_inMap (MoveBlocks.View.present_iff.mp (List.mem_filter.mp hp).2)
  unfold inBlockMap at hmap
  rw [Bool.and_eq_true, decide_eq_true_iff, decide_eq_true_iff] at hmap
  omega

/-- Right free extents lie in the filesystem. -/
theorem Right.inBlockMap {hblocks : g.sBlocksCount + 7 ≤ 2 ^ 32} {fs : FsBitmap} {remapBlocks : ℕ}
    {exts : List FreeExtent} (hright : Right (blockBitmap hblocks fs) remapBlocks exts)
    (hcount : 0 < g.sBlocksCount) {f : FreeExtent} (hf : f ∈ exts) {b : ℕ} (hlo : f.block ≤ b)
    (hhi : b < f.block + f.len) : inBlockMap g b = true ∧ fs.blockMap b = false := by
  obtain ⟨hstart, hstop, hunused⟩ := hright.free f hf b hlo hhi
  have hfirst : g.sFirstDataBlock ≤ b := hstart
  have hlast : b ≤ g.sBlocksCount - 1 := hstop
  refine ⟨?_, hunused⟩
  unfold MoveBlocks.inBlockMap
  rw [Bool.and_eq_true, decide_eq_true_iff, decide_eq_true_iff]
  exact ⟨hfirst, by omega⟩

/-- What a run does once it has its free extents. -/
theorem Described.remap (hlib : lib.Documented) (h : Described s lines v) (hblocks : g.sBlocksCount + 7 ≤ 2 ^ 32)
    {reserved : Set ℕ} {fs : FsBitmap} (hwf : WellFormed reserved v fs.blockMap)
    (hq : Sorts cmpExtOffsetPtr s.qsort) {F : FreeExtents (wantedBlocks s.firstIno lines).length}
    (hfind : findFreeBlocks (blockBitmap hblocks fs) (wantedBlocks s.firstIno lines).length
      s.minFreeExtentSize s.findEnv = .returned F.list)
    (hfree : ∀ f ∈ F.list, ∀ b, f.block ≤ b → b < f.block + f.len →
      inBlockMap g b = true ∧ fs.blockMap b = false)
    (hgroups : ∀ b ∈ wantedBlocks s.firstIno lines ++ freeBlocks F.list, b < groupEnd g b) :
    ∃ fuel v' fs', e2remapblocks lib hblocks fuel s lines v fs = some (v', fs') ∧
      (∀ i k, v'.readBlock i k = v.readBlock i k) ∧
      (∀ p (k : ℕ), (wantedBlocks s.firstIno lines)[k]? = some (v.ref p) →
        (freeBlocks F.list)[k]? = some (v'.ref p)) ∧
      (∀ p, v.ref p ∉ wantedBlocks s.firstIno lines → v'.ref p = v.ref p) ∧
      WellFormed reserved v' fs'.blockMap ∧ ∀ grp, Counted g fs grp → Counted g fs' grp := by
  obtain ⟨st, hload⟩ := h.loadExtents
  obtain ⟨inserted, hinserted, hfrom⟩ := loadExtents_wanted hload
  have hloaded : LoadedFrom s lines inserted st := ⟨hinserted, hfrom⟩
  have hmovable := h.movable hloaded hq hfrom.length.symm hfree
  -- a listed block is one of the lines
  have hlisted : ∀ e ∈ allExtents (sortInodesExtents s.qsort st.table.inodes), ∀ b, e.Has b →
      b ∈ wantedBlocks s.firstIno lines := by
    intro e he b hb
    obtain ⟨iext, hiext, he⟩ := (mem_allExtents_sorted hq).mp he
    obtain ⟨hlo, hhi⟩ := hb
    have hplaced := hloaded.placedAt hiext he (b - e.block) (by omega)
    rw [Nat.add_sub_cancel' hlo] at hplaced
    exact List.mem_of_getElem? hplaced
  have hends : ∀ b, Covered (freeRanges F.list ++
      originalRanges ((sortInodesExtents s.qsort st.table.inodes).map InodeExtents.extents)) b →
      b < groupEnd g b := by
    rintro b ⟨range, hr, hb⟩
    apply hgroups
    rcases List.mem_append.mp hr with hr | hr
    · obtain ⟨f, hf, rfl⟩ := List.mem_map.mp hr
      exact List.mem_append_right _ (List.mem_flatMap.mpr ⟨f, hf, List.mem_range'_1.mpr hb⟩)
    · obtain ⟨e, he, hhas⟩ := covered_original_iff.mp ⟨range, hr, hb⟩
      exact List.mem_append_left _ (hlisted e he b hhas)
  obtain ⟨fuel, v', fs', hrun, hread, hmoved, hstay, hwf', hcounted⟩ :=
    copyAndRemapExtents_preserves hlib hwf hmovable rfl hends
  refine ⟨fuel, v', fs', ?_, hread, fun p k hk => ?_, fun p hp => ?_, hwf', hcounted⟩
  · unfold e2remapblocks
    rw [hload]
    dsimp only
    rw [← hfrom.length, hfind]
    exact hrun
  · obtain ⟨entry, hentry, hhas, rfl⟩ := hinserted.getElem?_order hfrom hk
    obtain ⟨iext, hiext, -, he⟩ := hinserted.mem_inode hentry
    obtain ⟨hlo, hhi⟩ := hhas
    have hnew := hmoved ⟨iext.ino, s.qsort iext.extents⟩ (mem_sortInodesExtents.mpr ⟨iext, hiext, rfl⟩) entry.2
      ((hq.perm _).mem_iff.mpr he) (v.ref p - entry.2.block) (by omega) p (Nat.add_sub_cancel' hlo).symm
    rw [hnew]
    exact F.getElem?_freeBlocks (List.getElem?_eq_some_iff.mp hk).1
  · exact hstay p fun e he hhas => hp (hlisted e he _ hhas)

/-- **A run of e2remapblocks**, with a library that does as is documented. The lines say where blocks of files
are, and the free extents found for them are right. Then every file reads as before, the block listed in the
`k`-th place is moved to the `k`-th of the free blocks and no other block is moved, and the filesystem is
well-formed with its free blocks counted. -/
theorem e2remapblocks_preserves (hlib : lib.Documented) (hblocks : g.sBlocksCount + 7 ≤ 2 ^ 32) {reserved : Set ℕ}
    {fs : FsBitmap} (hwf : WellFormed reserved v fs.blockMap) (h : Described s lines v)
    (hq : Sorts cmpExtOffsetPtr s.qsort) {exts : List FreeExtent}
    (hfind : findFreeBlocks (blockBitmap hblocks fs) (wantedBlocks s.firstIno lines).length
      s.minFreeExtentSize s.findEnv = .returned exts)
    (hright : Right (blockBitmap hblocks fs) (wantedBlocks s.firstIno lines).length exts)
    (hgroups : ∀ b ∈ wantedBlocks s.firstIno lines ++ freeBlocks exts, b < groupEnd g b) :
    ∃ fuel v' fs', e2remapblocks lib hblocks fuel s lines v fs = some (v', fs') ∧
      (∀ i k, v'.readBlock i k = v.readBlock i k) ∧
      (∀ p (k : ℕ), (wantedBlocks s.firstIno lines)[k]? = some (v.ref p) → (freeBlocks exts)[k]? = some (v'.ref p)) ∧
      (∀ p, v.ref p ∉ wantedBlocks s.firstIno lines → v'.ref p = v.ref p) ∧
      WellFormed reserved v' fs'.blockMap ∧ ∀ grp, Counted g fs grp → Counted g fs' grp := by
  obtain ⟨F, rfl⟩ := hright.freeExtents (findFreeBlocks_pos h.wanted_pos hfind hright)
  have hcount := h.blocks_pos hwf
  exact h.remap hlib hblocks hwf hq hfind (fun f hf b hlo hhi => hright.inBlockMap hcount hf hlo hhi) hgroups

end Whole

/-! ## §6 — two blocks in the wrong order

On a filesystem with blocks of 1K, the blocks of a file of two are 25 and 23. -/

section Sample

def roomyGeometry : Geometry := .kilobyteBlocks 81 (by decide)

def swappedView : View roomyGeometry where
  inodes := fun n =>
    if n = 11 then some ⟨true, fun slot => if slot = 0 then 25 else if slot = 1 then 23 else 0⟩ else none
  blocks := fun b _ => 100 + b

/-- The superblock, the group descriptors, the bitmaps and the inodes. -/
def roomyReserved : Set ℕ := {b | 1 ≤ b ∧ b ≤ 20}

def swappedBitmap : FsBitmap where
  blockMap := fun b => decide ((1 ≤ b ∧ b ≤ 20) ∨ b = 23 ∨ b = 25)
  groupDesc := fun _ => 58

def swappedLines : List Line := [⟨⟨25, 1, 0, 11⟩, by decide⟩, ⟨⟨23, 1, 1, 11⟩, by decide⟩]

def swappedSettings : RemapSettings 8192 where
  firstIno := 11
  minFreeExtentSize := 16
  remapBuf := .ofBlocksize 1024 (by decide)
  linksCount := fun _ => 1
  inodeMemory := movingMemory
  qsort := attachSort cmpExtOffsetPtr
  findEnv := {}

theorem roomyGeometry_blocks : roomyGeometry.sBlocksCount + 7 ≤ 2 ^ 32 := by decide

theorem swapped_ref (p : Place roomyGeometry) :
    swappedView.ref p = if p = Place.top 11 0 then 25 else if p = Place.top 11 1 then 23 else 0 := by
  induction p using MoveBlocks.Place.induction with
  | top n slot =>
      simp only [View.ref_top, Place.top_inj]
      by_cases hn : n = 11
      · subst hn
        simp [View.topWord, swappedView]
      · simp [View.topWord, swappedView, hn]
  | child p i hi ih =>
      have h0 : p.child i hi ≠ Place.top 11 0 := Place.child_ne_top _ _ _ _ _
      have h1 : p.child i hi ≠ Place.top 11 1 := Place.child_ne_top _ _ _ _ _
      rw [if_neg h0, if_neg h1, View.ref_child, ih, View.deref, if_pos]
      -- a direct block has no words
      have hp0 : p ≠ Place.top 11 0 := by
        rintro rfl
        exact absurd hi (by decide)
      have hp1 : p ≠ Place.top 11 1 := by
        rintro rfl
        exact absurd hi (by decide)
      rw [if_neg hp0, if_neg hp1]

theorem swapped_wellFormed : WellFormed roomyReserved swappedView swappedBitmap.blockMap := by
  have h25 : ∀ p, swappedView.ref p = 25 ↔ p = Place.top 11 0 := by
    intro p
    rw [swapped_ref]
    split_ifs <;> simp_all
  have h23 : ∀ p, swappedView.ref p = 23 ↔ p = Place.top 11 1 := by
    intro p
    rw [swapped_ref]
    split_ifs with h
    · subst h
      decide
    all_goals simp_all
  have hval : ∀ p, swappedView.ref p = 0 ∨ swappedView.ref p = 25 ∨ swappedView.ref p = 23 := by
    intro p
    rw [swapped_ref]
    split_ifs <;> simp
  have hused : ∀ b, swappedBitmap.blockMap b = true ↔ b ∈ roomyReserved ∨ b = 23 ∨ b = 25 := by
    intro b
    simp [swappedBitmap, roomyReserved]
  have hreserved : ∀ b, b ∈ roomyReserved ↔ 1 ≤ b ∧ b ≤ 20 := fun b => Iff.rfl
  refine ⟨⟨fun b => ?_, fun p hp => ?_, fun b hb hres => ?_⟩, fun b hb => ?_, fun hzero => ?_⟩
  · rw [hused]
    refine or_congr_right ⟨?_, ?_⟩
    · rintro (rfl | rfl)
      · exact ⟨by decide, _, (h23 _).mpr rfl⟩
      · exact ⟨by decide, _, (h25 _).mpr rfl⟩
    · rintro ⟨hb, p, rfl⟩
      have := hval p
      omega
  · have := hval p
    rw [hreserved]
    omega
  · rcases (hused b).mp hb with hres' | rfl | rfl
    · exact absurd hres' hres
    · exact ⟨_, (h23 _).mpr rfl, fun p hp => (h23 p).mp hp⟩
    · exact ⟨_, (h25 _).mpr rfl, fun p hp => (h25 p).mp hp⟩
  · have := (hused b).mp hb
    rw [hreserved] at this
    unfold inBlockMap
    rw [Bool.and_eq_true, decide_eq_true_iff, decide_eq_true_iff]
    show 1 ≤ b ∧ b < 81
    omega
  · exact absurd hzero (by decide)

theorem swapped_offsets :
    FirstsFit (swappedView.fileTree 11) ∧ IndicesSettled (swappedView.fileTree 11) := by
  refine ⟨?_, fun block dinds hnode => by cases hnode⟩
  unfold FirstsFit
  decide

theorem swapped_described : Described swappedSettings swappedLines swappedView where
  loads pre l post hsplit := by
    rcases pre with - | ⟨first, - | ⟨second, pre⟩⟩
    · refine ⟨?_, not_addsLost_of_few (Nat.zero_le _) (fun _ => rfl) l⟩
      rintro ⟨-, -, l', hl', -⟩
      cases hl'
    · -- the second line begins two blocks before the first
      have hone : [first].length ≤ inodeAllocEntries := Nat.succ_le_succ (Nat.zero_le 8191)
      refine ⟨?_, not_addsLost_of_few hone (fun _ => rfl) l⟩
      rintro ⟨-, -, l', hl', -, hle⟩
      obtain ⟨rfl, hrest⟩ := List.cons_eq_cons.mp hsplit
      obtain ⟨rfl, -⟩ := List.cons_eq_cons.mp hrest
      rw [List.mem_singleton.mp hl'] at hle
      exact absurd hle (by decide)
    · obtain ⟨-, hrest⟩ := List.cons_eq_cons.mp hsplit
      obtain ⟨-, hnil⟩ := List.cons_eq_cons.mp hrest
      exact absurd hnil (by simp)
  nonempty := ⟨_, List.mem_cons_self, by decide, by decide⟩
  mapped l hl _ := (show ∀ l ∈ swappedLines, ∀ j < l.len, ∃ w ∈ (swappedView.fileTree l.ino).visits,
    w.code = l.offset + j ∧ w.blocknr = l.blocknr + j by decide) l hl
  single l hl _ hneg := absurd hneg ((show ∀ l ∈ swappedLines, ¬ l.offset < 0 by decide) l hl)
  uncrossed l _ l' hl' _ _ _ _ hneg := absurd hneg ((show ∀ l ∈ swappedLines, ¬ l.offset < 0 by decide) l' hl')
  offsets l hl _ := by
    have hino : l.ino = 11 := (show ∀ l ∈ swappedLines, l.ino = 11 by decide) l hl
    rw [hino]
    exact swapped_offsets
  linked l _ _ := Nat.one_ne_zero
  short l hl _ := (show ∀ l ∈ swappedLines, l.len ≤ 256 by decide) l hl

theorem swapped_found :
    findFreeBlocks (blockBitmap roomyGeometry_blocks swappedBitmap) (wantedBlocks 11 swappedLines).length 16 {}
      = .returned [⟨32, 2, 0⟩] := by decide +kernel

theorem swapped_right :
    Right (blockBitmap roomyGeometry_blocks swappedBitmap) (wantedBlocks 11 swappedLines).length [⟨32, 2, 0⟩] where
  disjoint := List.pairwise_singleton _ _
  free e he b hlo hhi := by
    rw [List.mem_singleton.mp he] at hlo hhi
    have hb : b = 32 ∨ b = 33 := by
      simp only at hlo hhi
      omega
    rcases hb with rfl | rfl
    · exact ⟨by decide, by decide, by decide⟩
    · exact ⟨by decide, by decide, by decide⟩
  total := by decide
  offsets := ⟨rfl, trivial⟩

theorem e2remapblocks_preserves_swapped :
    ∃ fuel v' fs',
      e2remapblocks (documentedExt2fs roomyGeometry) roomyGeometry_blocks fuel swappedSettings swappedLines
          swappedView swappedBitmap = some (v', fs') ∧
      (∀ i k, v'.readBlock i k = swappedView.readBlock i k) ∧
      (∀ p (k : ℕ), (wantedBlocks 11 swappedLines)[k]? = some (swappedView.ref p) →
        (freeBlocks [⟨32, 2, 0⟩])[k]? = some (v'.ref p)) ∧
      (∀ p, swappedView.ref p ∉ wantedBlocks 11 swappedLines → v'.ref p = swappedView.ref p) ∧
      WellFormed roomyReserved v' fs'.blockMap ∧
      ∀ grp, Counted roomyGeometry swappedBitmap grp → Counted roomyGeometry fs' grp :=
  e2remapblocks_preserves documentedExt2fs_documented roomyGeometry_blocks swapped_wellFormed
    swapped_described (attachSort_sorts cmpExtOffsetPtr) swapped_found swapped_right (by decide)

end Sample

end Prefetch.Remap

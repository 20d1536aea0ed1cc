/-
# Prefetch.Remap.CopySpec — when the copy and the pointers agree

The pointer pass sends block `k` of an extent to position `chunk_offset + k`. The copy does so only for the
first bufferful: each further one starts again at `chunk_offset`. The two agree exactly when no extent is
longer than the buffer.
-/
import Prefetch.Remap.FreeExtents
import Mathlib.Logic.Nontrivial.Basic

namespace Prefetch.Remap

/-! ## §1 — what the copy writes -/

section Written

variable {β : Type*} {total : ℕ} {F : FreeExtents total} {disk disk' disk'' : ℕ → β} {data : ℕ → β}

/-- From `disk` to `disk'`, the positions from `lo` to `hi` have been given `data` and nothing else has
changed. -/
structure Written (F : FreeExtents total) (disk disk' : ℕ → β) (lo hi : ℕ) (data : ℕ → β) : Prop where
  inside : ∀ pos, lo ≤ pos → pos < hi → disk' (F.place pos) = data pos
  outside : ∀ b, (∀ pos, lo ≤ pos → pos < hi → F.place pos ≠ b) → disk' b = disk b

theorem Written.refl {lo : ℕ} : Written F disk disk lo lo data :=
  ⟨fun _ _ _ => by omega, fun _ _ => rfl⟩

theorem Written.trans {lo mid hi : ℕ} (hlo : lo ≤ mid) (hmid : mid ≤ hi) (hhi : hi ≤ total)
    (h : Written F disk disk' lo mid data) (h' : Written F disk' disk'' mid hi data) :
    Written F disk disk'' lo hi data := by
  constructor
  · intro pos hpos hpos'
    rcases Nat.lt_or_ge pos mid with hlt | hge
    · rw [h'.outside, h.inside pos hpos hlt]
      intro p hp hp' heq
      have := F.place_inj (by omega) (by omega) heq
      omega
    · exact h'.inside pos hge hpos'
  · intro b hb
    rw [h'.outside b fun pos h1 h2 => hb pos (by omega) h2,
      h.outside b fun pos h1 h2 => hb pos h1 (by omega)]

/-- One `write_blocks` inside a free extent. -/
theorem written_writeBlocks {f : FreeExtent} (hf : f ∈ F.list) {pos len : ℕ} {buf : ℕ → β}
    (hpos : f.offset ≤ pos) (hlen : pos + len ≤ f.offset + f.len)
    (hdata : ∀ i, i < len → buf i = data (pos + i)) :
    Written F disk (writeBlocks disk (f.block + (pos - f.offset)) buf len) pos (pos + len) data := by
  constructor
  · intro p hp hp'
    rw [F.place_eq hf ⟨by omega, by omega⟩, writeBlocks, if_pos (by omega)]
    have hi : f.block + (p - f.offset) - (f.block + (pos - f.offset)) = p - pos := by omega
    rw [hi, hdata _ (by omega)]
    congr 1
    omega
  · intro b hb
    rw [writeBlocks, if_neg]
    intro hin
    refine hb (pos + (b - (f.block + (pos - f.offset)))) (by omega) (by omega) ?_
    rw [F.place_eq hf ⟨by omega, by omega⟩]
    omega

/-- The inner loop writes the buffer to the positions from `chunkOffset` on. -/
theorem writeChunk_written {chunkOffset curlen writepos : ℕ} (buf disk : ℕ → β)
    (hfits : chunkOffset + curlen ≤ total) (hw : writepos ≤ curlen) :
    ∃ disk', writeChunk F.list chunkOffset buf curlen writepos disk = some disk'
      ∧ Written F disk disk' (chunkOffset + writepos) (chunkOffset + curlen)
        fun pos => buf (pos - chunkOffset) := by
  fun_induction writeChunk F.list chunkOffset buf curlen writepos disk with
  | case1 writepos disk hlt hfind =>
      -- the position is one of the data
      rcases F.find_isSome (by omega : chunkOffset + writepos < total) with ⟨f, -, hsome, -⟩
      rw [hfind] at hsome
      cases hsome
  | case2 writepos disk hlt freeext hfind writelen ih =>
      have hin := findFrom_mem hfind
      rcases ih (by omega) with ⟨disk', hrun, hwritten⟩
      refine ⟨disk', hrun, ?_⟩
      have hstep : Written F disk
          (writeBlocks disk (freeext.block + (chunkOffset + writepos - freeext.offset))
            (fun i => buf (writepos + i)) writelen)
          (chunkOffset + writepos) (chunkOffset + writepos + writelen)
          fun pos => buf (pos - chunkOffset) :=
        written_writeBlocks hin.1 hin.2.1 (by omega) fun i hi => by
          rw [Nat.add_assoc, Nat.add_sub_cancel_left]
      rw [Nat.add_assoc] at hstep
      exact Written.trans (by omega) (by omega) hfits hstep hwritten
  | case3 writepos disk hlt =>
      have heq : writepos = curlen := by omega
      subst heq
      exact ⟨disk, rfl, Written.refl⟩

variable {remapBuf : RemapBuf} {actext : RemapExtent}

/-- Copying an extent never fails, and writes to the positions of the first bufferful only. -/
theorem copyExtent_frame (remapBuf : RemapBuf) (curpos : ℕ) (disk : ℕ → β)
    (hfits : actext.chunkOffset + actext.len ≤ total) :
    ∃ disk', copyExtent remapBuf F.list actext curpos disk = some disk'
      ∧ ∀ b, (∀ k, k < min actext.len remapBuf.blocks → F.place (actext.chunkOffset + k) ≠ b) →
        disk' b = disk b := by
  fun_induction copyExtent remapBuf F.list actext curpos disk with
  | case1 curpos disk hlt curlen buf hnone =>
      have hpos : actext.chunkOffset + curlen ≤ total := by omega
      rcases writeChunk_written (F := F) buf disk hpos (Nat.zero_le _) with ⟨disk', hrun, -⟩
      cases hnone.symm.trans hrun
  | case2 curpos disk hlt curlen buf disk₁ hsome ih =>
      have hpos : actext.chunkOffset + curlen ≤ total := by omega
      rcases writeChunk_written (F := F) buf disk hpos (Nat.zero_le _) with ⟨disk₁', hrun, hwritten⟩
      cases hsome.symm.trans hrun
      rcases ih with ⟨disk', hrest, hkeep⟩
      refine ⟨disk', hrest, ?_⟩
      intro b hb
      rw [hkeep b hb, hwritten.outside b]
      intro pos hlo hhi
      have hk := hb (pos - actext.chunkOffset) (by omega)
      rwa [Nat.add_sub_cancel' (by omega)] at hk
  | case3 curpos disk hlt => exact ⟨disk, rfl, fun _ _ => rfl⟩

/-- An extent no longer than the buffer is copied to its positions. -/
theorem copyExtent_written (disk : ℕ → β)
    (hfits : actext.chunkOffset + actext.len ≤ total)
    (hshort : actext.len ≤ remapBuf.blocks) :
    ∃ disk', copyExtent remapBuf F.list actext 0 disk = some disk'
      ∧ Written F disk disk' actext.chunkOffset (actext.chunkOffset + actext.len)
        fun pos => disk (actext.block + (pos - actext.chunkOffset)) := by
  have hend : ∀ d : ℕ → β, copyExtent remapBuf F.list actext actext.len d = some d := by
    intro d
    unfold copyExtent
    rw [if_neg (Nat.lt_irrefl _)]
  rcases Nat.eq_zero_or_pos actext.len with h0 | hpos
  · refine ⟨disk, ?_, ?_⟩
    · rw [← h0]
      exact hend disk
    · rw [h0]
      exact Written.refl
  · have hcurlen : min (actext.len - 0) remapBuf.blocks = actext.len := by omega
    rcases writeChunk_written (F := F) (fun i => disk (actext.block + 0 + i)) disk hfits
      (Nat.zero_le _) with ⟨disk', hrun, hwritten⟩
    refine ⟨disk', ?_, hwritten⟩
    unfold copyExtent
    rw [if_pos hpos, hcurlen]
    simp only [hrun]
    show copyExtent remapBuf F.list actext (0 + actext.len) disk' = some disk'
    rw [Nat.zero_add]
    exact hend disk'

/-! ## §2 — the two passes -/

variable {extents : List RemapExtent}

/-- Extents of an inode that `load_extents` can hand over: their positions are among those of the data
and do not overlap, and their blocks are in use, so that no free extent contains one. -/
structure Placeable (F : FreeExtents total) (extents : List RemapExtent) : Prop where
  fits : ∀ ext ∈ extents, ext.chunkOffset + ext.len ≤ total
  apart : extents.Pairwise fun ext ext' =>
    ext.chunkOffset + ext.len ≤ ext'.chunkOffset ∨ ext'.chunkOffset + ext'.len ≤ ext.chunkOffset
  used : ∀ ext ∈ extents, ∀ k, k < ext.len → ∀ f ∈ F.list,
    ¬ (f.block ≤ ext.block + k ∧ ext.block + k < f.block + f.len)

theorem Placeable.tail {ext : RemapExtent} (h : Placeable F (ext :: extents)) : Placeable F extents :=
  ⟨fun e he => h.fits e (List.mem_cons_of_mem _ he), (List.pairwise_cons.mp h.apart).2,
    fun e he => h.used e (List.mem_cons_of_mem _ he)⟩

/-- No position of the data lies in a block to be copied. -/
theorem Placeable.place_ne (h : Placeable F extents) {ext : RemapExtent} (hext : ext ∈ extents) {k : ℕ}
    (hk : k < ext.len) {pos : ℕ} (hpos : pos < total) : F.place pos ≠ ext.block + k := by
  intro heq
  rcases F.place_mem hpos with ⟨f, hf, hin⟩
  rw [heq] at hin
  exact h.used ext hext k hk f hf hin

/-- Copying an inode never fails, and writes to the positions of first bufferfuls only. -/
theorem copyInodeBlocks_frame (remapBuf : RemapBuf) (disk : ℕ → β) (h : Placeable F extents) :
    ∃ disk', copyInodeBlocks remapBuf F.list extents disk = some disk'
      ∧ ∀ b, (∀ ext ∈ extents, ∀ k, k < min ext.len remapBuf.blocks →
          F.place (ext.chunkOffset + k) ≠ b) → disk' b = disk b := by
  induction extents generalizing disk with
  | nil => exact ⟨disk, rfl, fun _ _ => rfl⟩
  | cons ext extents ih =>
      rcases copyExtent_frame remapBuf 0 disk (h.fits ext List.mem_cons_self) with ⟨disk₁, hrun, hkeep⟩
      rcases ih disk₁ h.tail with ⟨disk', hrest, hkeep'⟩
      refine ⟨disk', ?_, ?_⟩
      · rw [copyInodeBlocks, hrun]
        exact hrest
      · intro b hb
        rw [hkeep' b fun e he => hb e (List.mem_cons_of_mem _ he), hkeep b (hb ext List.mem_cons_self)]

/-- When no extent is longer than the buffer, every block is copied to its position. -/
theorem copyInodeBlocks_written (disk : ℕ → β) (h : Placeable F extents)
    (hshort : ∀ ext ∈ extents, ext.len ≤ remapBuf.blocks) :
    ∃ disk', copyInodeBlocks remapBuf F.list extents disk = some disk'
      ∧ ∀ ext ∈ extents, ∀ k, k < ext.len →
        disk' (F.place (ext.chunkOffset + k)) = disk (ext.block + k) := by
  induction extents generalizing disk with
  | nil => exact ⟨disk, rfl, fun ext hext => absurd hext List.not_mem_nil⟩
  | cons ext extents ih =>
      have hfits := h.fits ext List.mem_cons_self
      rcases copyExtent_written disk hfits (hshort ext List.mem_cons_self) with
        ⟨disk₁, hrun, hwritten⟩
      rcases ih disk₁ h.tail fun e he => hshort e (List.mem_cons_of_mem _ he) with
        ⟨disk', hrest, hcopied⟩
      rcases copyInodeBlocks_frame remapBuf disk₁ h.tail with
        ⟨disk'', hrest', hkeep⟩
      cases hrest.symm.trans hrest'
      refine ⟨disk', ?_, ?_⟩
      · rw [copyInodeBlocks, hrun]
        exact hrest
      · intro e he k hk
        rcases List.mem_cons.mp he with rfl | he
        · -- the extents copied later go elsewhere
          rw [hkeep, hwritten.inside _ (by omega) (by omega), Nat.add_sub_cancel_left]
          intro e' he' k' hk' heq
          have hfits' := h.tail.fits e' he'
          have hpos := F.place_inj (by omega) (by omega) heq
          have hapart := (List.pairwise_cons.mp h.apart).1 e' he'
          omega
        · -- the copy of the first extent leaves the blocks still to copy alone
          rw [hcopied e he k hk, hwritten.outside]
          intro pos _ hpos
          exact h.tail.place_ne he hk (by omega)

/-- The block substituted for block `k` of an extent is the one at position `chunk_offset + k`. -/
theorem remapTarget_eq {ext : RemapExtent} (hfits : ext.chunkOffset + ext.len ≤ total) {k : ℕ}
    (hk : k < ext.len) :
    remapTarget F.list ext (ext.offset + k) = some (F.place (ext.chunkOffset + k)) := by
  rcases F.find_isSome (by omega : ext.chunkOffset + k < total) with ⟨f, hf, hfind, hin⟩
  have hpos : ((ext.chunkOffset : ℤ) + (ext.offset + k) - ext.offset).toNat = ext.chunkOffset + k := by
    omega
  rw [remapTarget, hpos, hfind, F.place_eq hf hin]
  rfl

/-- A block `remap_block` changes is one of the current extent, and the new block is its target. -/
theorem remapBlock_changed {a sBlocksCount : ℕ} {freeExtents : List FreeExtent}
    {tdata tdata' : BlockTraverseData} {blocknr parentOffset target : ℕ} {offset : ℤ}
    (h : remapBlock a sBlocksCount freeExtents tdata blocknr offset parentOffset
      = .changed target tdata') :
    ∃ ext rest k, tdata'.actext = ext :: rest ∧ k < ext.len ∧ blocknr = ext.block + k
      ∧ remapTarget freeExtents ext (ext.offset + k) = some target := by
  have hat : ∀ (td : BlockTraverseData) (ext : RemapExtent) (rest : List RemapExtent) (offset : ℤ),
      td.actext = ext :: rest →
      remapAt sBlocksCount freeExtents td ext blocknr offset = .changed target tdata' →
      ∃ ext rest k, tdata'.actext = ext :: rest ∧ k < ext.len ∧ blocknr = ext.block + k
        ∧ remapTarget freeExtents ext (ext.offset + k) = some target := by
    intro td ext rest offset hact hrun
    unfold remapAt at hrun
    split at hrun
    next hin =>
      split at hrun
      next => cases hrun
      next hblock =>
        split at hrun
        next => cases hrun
        next t ht =>
          split at hrun
          next => cases hrun
          next =>
            cases hrun
            have hk : offset = ext.offset + ((offset - ext.offset).toNat : ℕ) := by omega
            refine ⟨ext, rest, (offset - ext.offset).toNat, hact, by omega, by omega, ?_⟩
            rw [← hk]
            exact ht
    next => cases hrun
  unfold remapBlock at h
  split at h
  next => cases h
  next td offset' htraverse =>
    split at h
    next => cases h
    next =>
      split at h
      next => cases h
      next ext rest hact =>
        split at h
        next =>
          split at h
          next => cases h
          next next' rest' => exact hat _ next' rest' _ rfl h
        next => exact hat td ext rest _ hact h

/-- The two passes agree: whatever the device holds, the copy goes through without a `NULL` extent, each
block of each extent has a target (again no `NULL`) which after the copy holds the original contents of
the block, and so does the block `remap_block` puts in place of any block of the extents. -/
def PathsAgree (β : Type*) (remapBuf : RemapBuf) (freeExtents : List FreeExtent)
    (extents : List RemapExtent) : Prop :=
  ∀ disk : ℕ → β, ∃ disk', copyInodeBlocks remapBuf freeExtents extents disk = some disk'
    ∧ (∀ ext ∈ extents, ∀ k, k < ext.len →
        ∃ target, remapTarget freeExtents ext (ext.offset + k) = some target
          ∧ disk' target = disk (ext.block + k))
    ∧ ∀ a sBlocksCount tdata blocknr offset parentOffset target tdata',
        remapBlock a sBlocksCount freeExtents tdata blocknr offset parentOffset
          = .changed target tdata' →
        (∃ ext ∈ extents, tdata'.actext.head? = some ext) → disk' target = disk blocknr

/-- An extent longer than the buffer has a block that is never written to its target. -/
theorem PathsAgree.len_le [Nontrivial β] (h : Placeable F extents)
    (hagree : PathsAgree β remapBuf F.list extents) {ext : RemapExtent} (hext : ext ∈ extents) :
    ext.len ≤ remapBuf.blocks := by
  by_contra hlong
  have hk : remapBuf.blocks < ext.len := by omega
  have hfits := h.fits ext hext
  rcases exists_pair_ne β with ⟨x, y, hxy⟩
  -- a device on which just that block differs from the rest
  let disk : ℕ → β := fun b => if b = ext.block + remapBuf.blocks then y else x
  rcases hagree disk with ⟨disk', hrun, htarget, -⟩
  rcases htarget ext hext remapBuf.blocks hk with ⟨target, hremap, hdata⟩
  rw [remapTarget_eq hfits hk] at hremap
  cases hremap
  rcases copyInodeBlocks_frame remapBuf disk h with ⟨disk'', hrun', hkeep⟩
  cases hrun.symm.trans hrun'
  have hne : F.place (ext.chunkOffset + remapBuf.blocks) ≠ ext.block + remapBuf.blocks :=
    h.place_ne hext hk (by omega)
  rw [hkeep] at hdata
  · apply hxy
    have hx : disk (F.place (ext.chunkOffset + remapBuf.blocks)) = x := if_neg hne
    have hy : disk (ext.block + remapBuf.blocks) = y := if_pos rfl
    rw [← hx, hdata, hy]
  · intro e he k hk' heq
    have hfits' := h.fits e he
    have hpos := F.place_inj (by omega) (by omega) heq
    by_cases hee : e = ext
    · subst hee
      omega
    · have hsymm : Std.Symm fun e e' : RemapExtent => e.chunkOffset + e.len ≤ e'.chunkOffset
          ∨ e'.chunkOffset + e'.len ≤ e.chunkOffset := ⟨fun _ _ h => h.symm⟩
      have hapart := h.apart.forall he hext hee
      omega

/-- **When the copy and the pointers agree.** Exactly when no extent is longer than the buffer. -/
theorem pathsAgree_iff [Nontrivial β] (h : Placeable F extents) :
    PathsAgree β remapBuf F.list extents ↔ ∀ ext ∈ extents, ext.len ≤ remapBuf.blocks := by
  constructor
  · intro hagree ext hext
    exact hagree.len_le h hext
  · intro hshort disk
    rcases copyInodeBlocks_written disk h hshort with ⟨disk', hrun, hcopied⟩
    refine ⟨disk', hrun, ?_, ?_⟩
    · intro ext hext k hk
      exact ⟨_, remapTarget_eq (h.fits ext hext) hk, hcopied ext hext k hk⟩
    · intro a sBlocksCount tdata blocknr offset parentOffset target tdata' hchanged hcurrent
      rcases remapBlock_changed hchanged with ⟨ext, rest, k, hact, hk, rfl, htarget⟩
      rcases hcurrent with ⟨ext', hext', hhead⟩
      rw [hact] at hhead
      cases hhead
      rw [remapTarget_eq (h.fits ext hext') hk] at htarget
      cases htarget
      exact hcopied ext hext' k hk

end Written

/-! ## §3 — an extent of 257 blocks -/

/-- The buffer of 256 blocks the tool has by default, for blocks of 4K. -/
def defaultRemapBuf : RemapBuf := .ofBlocksize 4096 (by decide)

/-- Three free extents. -/
def sampleFree : FreeExtents 600 where
  list := [⟨1000, 200, 0⟩, ⟨2000, 150, 200⟩, ⟨3000, 250, 350⟩]
  nonempty := by decide
  disjoint := by decide
  offsets := ⟨rfl, rfl, rfl, trivial⟩
  total_eq := rfl

/-- Three extents to go there; the second and the last do not fit in one of them. -/
def sampleExtents (len : ℕ) : List RemapExtent := [⟨500, 120, 0, 0⟩, ⟨700, 200, 120, 120⟩, ⟨100, len, 320, 320⟩]

theorem sample_placeable {len : ℕ} (h : len ≤ 257) : Placeable sampleFree (sampleExtents len) where
  fits := by
    simp only [sampleExtents, List.forall_mem_cons, List.not_mem_nil, false_imp_iff, implies_true, and_true]
    omega
  apart := by
    simp [sampleExtents]
  used := by
    simp only [sampleExtents, sampleFree, List.forall_mem_cons, List.not_mem_nil, false_imp_iff, implies_true,
      and_true]
    refine ⟨?_, ?_, ?_⟩ <;> omega

theorem pathsAgree_iff_sample :
    PathsAgree ℕ defaultRemapBuf sampleFree.list (sampleExtents 256)
      ↔ ∀ ext ∈ sampleExtents 256, ext.len ≤ defaultRemapBuf.blocks :=
  pathsAgree_iff (sample_placeable (by decide))

/-- The 257th block of an extent is not copied to where its pointer goes. -/
theorem pathsAgree_fails :
    Placeable sampleFree (sampleExtents 257)
      ∧ ¬ PathsAgree ℕ defaultRemapBuf sampleFree.list (sampleExtents 257) := by
  refine ⟨sample_placeable le_rfl, fun hagree => ?_⟩
  have hlen : 257 ≤ 256 :=
    hagree.len_le (sample_placeable le_rfl) (by decide : ⟨100, 257, 320, 320⟩ ∈ sampleExtents 257)
  omega

end Prefetch.Remap

/-
# Prefetch.Remap.RemapFs — what a run of e2remapblocks does to a filesystem

`copy_and_remap_extents` goes over the inodes one by one: it copies the extents of an inode to their places,
lets `remap_block` rewrite its pointers, and at the end brings the bitmap up to date. On the way the inodes
done refer to the new blocks, the others still to the old ones.

All together this renames blocks: a listed block becomes the one at its position among the free extents, and
every other block stays. `copyAndRemapExtents_preserves`: every file reads as before, the filesystem is
well-formed again, and the listed blocks lie in the order they were listed in.
-/
import Prefetch.Remap.Bitmap
import Prefetch.MoveBlocks.BlockCalls
import Prefetch.Remap.LoadExtents
import Prefetch.Remap.PointerPass

namespace Prefetch.Remap

open MoveBlocks (Geometry Block View Place Ext2Inode inBlockMap filePlaces WellFormed Ext2fs Call Callback Answer
  Renames Renaming Copied callAt fileCalls CallFor fileCalls_callFor)

variable {g : Geometry}

/-! ## §1 — `copy_and_remap_extents` -/

/-- What a traversal makes of the end of a call. Behind `BLOCK_ABORT` the data are looked at no more. -/
def RemapOutcome.answer (tdata : BlockTraverseData) : RemapOutcome → Answer BlockTraverseData
  | .unchanged tdata => .unchanged tdata
  | .changed blocknr tdata => .changed blocknr tdata
  | .abort => .abort { tdata with actext := [] }
  | .exited => .exited
  | .nullDeref => .exited

/-- `remap_block` as the function of a traversal. -/
def remapCallback (a sBlocksCount : ℕ) (freeExtents : List FreeExtent) : Callback BlockTraverseData :=
  fun tdata c => (remapBlock a sBlocksCount freeExtents tdata c.blocknr c.blockcnt c.refOffset).answer tdata

/-- What stays the same during a run: the buffer, the free extents and `i_links_count` of each inode. -/
structure RemapEnv where
  remapBuf : RemapBuf
  freeExtents : List FreeExtent
  linksCount : ℕ → ℕ

/-- One inode; `none` where the program ends. -/
def remapInode (lib : Ext2fs g) (env : RemapEnv) (v : View g) (i : InodeExtents) : Option (View g) :=
  match v.inodes i.ino with
  | none => none
  | some _ =>
      if env.linksCount i.ino = 0 then none
      else
        match copyInodeBlocks env.remapBuf env.freeExtents i.extents v.blocks with
        | none => none
        | some blocks =>
            match lib.blockIterate {} (remapCallback g.addrPerBlock g.sBlocksCount env.freeExtents)
                ⟨v.inodes, blocks⟩ i.ino ⟨0, 0, -1, i.extents⟩ with
            | none => none
            | some iterated => if iterated.ok then some iterated.view else none

/-- `copy_and_remap_extents`, the bitmap being written without an error; `none` where the program ends, or
goes over more than `fuel` groups for an extent. -/
def copyAndRemapExtents (lib : Ext2fs g) (fuel : ℕ) (env : RemapEnv) (inodes : List InodeExtents) (v : View g)
    (fs : FsBitmap) : Option (View g × FsBitmap) :=
  match inodes.foldlM (remapInode lib env) v with
  | none => none
  | some v =>
      (updateBitmap g fuel env.freeExtents (inodes.map InodeExtents.extents) false fs).map fun fs => (v, fs)

/-! ## §2 — the pass over one file, as a renaming -/

section Pass

variable {a sBlocksCount total : ℕ} {freeExtents : List FreeExtent} {σ : ℕ → ℕ}

/-- The pointers after the pass are those of a traversal that renames blocks. -/
theorem renames_of_remapPointers {tdata : BlockTraverseData} {calls : List Call} {vs : List Visit}
    {pointers : List ℕ} (hcalls : List.Forall₂ CallFor calls vs)
    (hrun : remapPointers a sBlocksCount freeExtents tdata vs = some pointers)
    (hσ : List.Forall₂ (fun v pointer => pointer = σ v.blocknr) vs pointers) :
    ∃ s', Renames (remapCallback a sBlocksCount freeExtents) σ (.calling tdata) calls s' := by
  induction hcalls generalizing tdata pointers with
  | nil => exact ⟨.calling tdata, rfl⟩
  | @cons c v calls vs hc hcalls ih =>
      obtain _ | @⟨_, pointer, _, rest, hpointer, hrest⟩ := hσ
      obtain ⟨hblock, hoffset, hparent⟩ := hc
      rw [remapPointers, ← hblock, ← hoffset, ← hparent] at hrun
      rw [← hblock] at hpointer
      cases hcall : remapBlock a sBlocksCount freeExtents tdata c.blocknr c.blockcnt c.refOffset with
      | unchanged tdata' =>
          rw [hcall] at hrun
          obtain ⟨rest', hrun', heq⟩ := Option.map_eq_some_iff.mp hrun
          obtain ⟨rfl, rfl⟩ := List.cons_eq_cons.mp heq
          obtain ⟨s', hs'⟩ := ih hrun' hrest
          refine ⟨s', ⟨c.blocknr, false⟩, .calling tdata', ?_, hpointer, hs'⟩
          simp only [callAt, remapCallback, MoveBlocks.Call.rename, hcall, RemapOutcome.answer]
      | changed block tdata' =>
          rw [hcall] at hrun
          obtain ⟨rest', hrun', heq⟩ := Option.map_eq_some_iff.mp hrun
          obtain ⟨rfl, rfl⟩ := List.cons_eq_cons.mp heq
          obtain ⟨s', hs'⟩ := ih hrun' hrest
          refine ⟨s', ⟨block, true⟩, .calling tdata', ?_, hpointer, hs'⟩
          simp only [callAt, remapCallback, MoveBlocks.Call.rename, hcall, RemapOutcome.answer]
      | abort =>
          -- the pointers behind stay, and are renamed to themselves
          rw [hcall] at hrun
          obtain ⟨rfl, rfl⟩ := List.cons_eq_cons.mp (Option.some.inj hrun)
          refine ⟨.gaveUp { tdata with actext := [] } true, ⟨c.blocknr, false⟩,
            .gaveUp { tdata with actext := [] } true, ?_, hpointer, ?_⟩
          · simp only [callAt, remapCallback, MoveBlocks.Call.rename, hcall, RemapOutcome.answer]
          · clear hcall hrun ih
            induction hcalls with
            | nil => rfl
            | @cons c' w calls vs hc' hcalls ih =>
                rw [List.map_cons] at hrest
                obtain ⟨hw, hvs⟩ := List.forall₂_cons.mp hrest
                rw [← hc'.1] at hw
                exact ⟨⟨c'.blocknr, false⟩, _, rfl, hw, ih hvs⟩
      | exited =>
          rw [hcall] at hrun
          cases hrun
      | nullDeref =>
          rw [hcall] at hrun
          cases hrun

/-- The pass over a file whose offsets the tool computes right. -/
theorem Listing.remapPointers_file {file : FileTree a} {F : FreeExtents total} {extents : List RemapExtent}
    (ha : 0 < a) (h : Listing file F extents) (hfs : OnFilesystem sBlocksCount file F) (hright : FileRight file) :
    ∃ pointers, remapPointers a sBlocksCount F.list ⟨0, 0, -1, extents⟩ file.visits = some pointers ∧
      List.Forall₂ (Replaced F extents) file.visits pointers := by
  obtain ⟨s', offsets, hrun, -, hcodes⟩ := follows_file file
  rw [hcodes.2 hright] at hrun
  obtain ⟨e, rest, hextents⟩ := List.exists_cons_of_ne_nil h.nonempty
  obtain ⟨last, hlast⟩ := h.exists_last (hextents ▸ List.mem_cons_self : e ∈ extents)
  have hstart : (⟨0, 0, -1, extents⟩ : BlockTraverseData) = { position (-1) 0 0 with actext := e :: rest } := by
    rw [hextents]
    rfl
  rw [hstart]
  exact h.remapPointers_from ha hfs (List.nil_append _).symm hrun (hextents.trans (List.nil_append _).symm)
    (fun v _ e' he' => absurd he' List.not_mem_nil) hlast (.inl hlast.1)

end Pass

/-! ## §3 — what is to be moved -/

/-- All extents, inode by inode. -/
def allExtents (inodes : List InodeExtents) : List RemapExtent := inodes.flatMap InodeExtents.extents

variable {total : ℕ}

/-- The number of a block after the run: that of its position, if it is listed. -/
def newBlock (F : FreeExtents total) (inodes : List InodeExtents) (b : ℕ) : ℕ :=
  match (allExtents inodes).find? fun e => e.Has b with
  | none => b
  | some e => F.place (e.chunkOffset + (b - e.block))

/-- What a run is started with: extents of linked inodes, listed as their files have them, the positions of
which are those of the free extents, and which fit in the buffer. The tool computes the offsets of these files
right, and the free extents are free. -/
structure Movable (F : FreeExtents total) (env : RemapEnv) (inodes : List InodeExtents) (v : View g)
    (blockMap : ℕ → Bool) : Prop where
  freeExtents : env.freeExtents = F.list
  nodup : (inodes.map InodeExtents.ino).Nodup
  listed : ∀ i ∈ inodes, Listing (v.fileTree i.ino) F i.extents
  offsets : ∀ i ∈ inodes, FirstsFit (v.fileTree i.ino) ∧ IndicesSettled (v.fileTree i.ino)
  linked : ∀ i ∈ inodes, env.linksCount i.ino ≠ 0
  apart : (allExtents inodes).Pairwise fun e e' =>
    e.chunkOffset + e.len ≤ e'.chunkOffset ∨ e'.chunkOffset + e'.len ≤ e.chunkOffset
  filled : ∀ pos < total, ∃ e ∈ allExtents inodes, e.chunkOffset ≤ pos ∧ pos < e.chunkOffset + e.len
  short : ∀ e ∈ allExtents inodes, e.len ≤ env.remapBuf.blocks
  free : ∀ f ∈ F.list, ∀ b, f.block ≤ b → b < f.block + f.len → inBlockMap g b = true ∧ blockMap b = false

section Movable

variable {lib : Ext2fs g} {F : FreeExtents total} {env : RemapEnv} {inodes : List InodeExtents} {v : View g}
  {blockMap : ℕ → Bool} {reserved : Set ℕ} {i i' : InodeExtents} {e e' : RemapExtent} {b : ℕ} {p q : Place g}

theorem mem_allExtents : e ∈ allExtents inodes ↔ ∃ i ∈ inodes, e ∈ i.extents := List.mem_flatMap

/-- A listed block is that of a place of its inode. -/
theorem Movable.exists_place (h : Movable F env inodes v blockMap) (hi : i ∈ inodes) (he : e ∈ i.extents)
    (hb : e.Has b) : ∃ p : Place g, p.inodeNumber = i.ino ∧ v.ref p ≠ 0 ∧ v.ref p = b ∧
      (p.visit v).code = e.offset + (b - e.block : ℕ) := by
  have hlt : b - e.block < e.len := by
    have hlo : e.block ≤ b := hb.1
    have hhi : b < e.block + e.len := hb.2
    omega
  obtain ⟨w, hw, hcode, hblock⟩ := (h.listed i hi).mapped e he (b - e.block) hlt
  rw [MoveBlocks.visits_fileTree] at hw
  obtain ⟨p, hp, rfl⟩ := List.mem_map.mp hw
  obtain ⟨hmem, hpresent⟩ := List.mem_filter.mp hp
  refine ⟨p, MoveBlocks.mem_filePlaces.mp hmem, MoveBlocks.View.present_iff.mp hpresent, ?_, hcode⟩
  rw [Nat.add_sub_cancel' hb.1] at hblock
  exact hblock

/-- A block is listed once. -/
theorem Movable.extent_unique (hwf : WellFormed reserved v blockMap) (h : Movable F env inodes v blockMap)
    (hi : i ∈ inodes) (he : e ∈ i.extents) (hi' : i' ∈ inodes) (he' : e' ∈ i'.extents) (hb : e.Has b)
    (hb' : e'.Has b) : i = i' ∧ e = e' := by
  obtain ⟨p, hp, hne, href, hcode⟩ := h.exists_place hi he hb
  obtain ⟨p', hp', hne', href', hcode'⟩ := h.exists_place hi' he' hb'
  obtain rfl := hwf.owners.eq_of_ref_eq hne (href.trans href'.symm)
  obtain rfl : i = i' := List.inj_on_of_nodup_map h.nodup hi hi' (hp.symm.trans hp')
  refine ⟨rfl, ?_⟩
  by_contra hdiff
  have hsymm : Std.Symm fun e e' : RemapExtent => ∀ offset, ¬ (e.Covers offset ∧ e'.Covers offset) :=
    ⟨fun _ _ h offset hboth => h offset hboth.symm⟩
  refine (h.listed i hi).once.forall he he' hdiff (p.visit v).code ⟨?_, ?_⟩
  · have hhi : b < e.block + e.len := hb.2
    have hlo : e.block ≤ b := hb.1
    exact ⟨by omega, by omega⟩
  · have hhi : b < e'.block + e'.len := hb'.2
    have hlo : e'.block ≤ b := hb'.1
    exact ⟨by omega, by omega⟩

theorem Movable.newBlock_of_has (hwf : WellFormed reserved v blockMap) (h : Movable F env inodes v blockMap)
    (hi : i ∈ inodes) (he : e ∈ i.extents) (hb : e.Has b) :
    newBlock F inodes b = F.place (e.chunkOffset + (b - e.block)) := by
  unfold newBlock
  cases hfind : (allExtents inodes).find? fun e => e.Has b with
  | none =>
      have hnone := List.find?_eq_none.mp hfind e (mem_allExtents.mpr ⟨i, hi, he⟩)
      exact absurd (decide_eq_true hb) hnone
  | some e' =>
      obtain ⟨i', hi', he'⟩ := mem_allExtents.mp (List.mem_of_find?_eq_some hfind)
      have hb' := List.find?_some hfind
      rw [decide_eq_true_iff] at hb'
      rw [(h.extent_unique hwf hi he hi' he' hb hb').2]

theorem newBlock_of_not_listed (h : ∀ e ∈ allExtents inodes, ¬ e.Has b) : newBlock F inodes b = b := by
  have hnone : (allExtents inodes).find? (fun e => e.Has b) = none :=
    List.find?_eq_none.mpr fun e he hb => h e he (of_decide_eq_true hb)
  rw [newBlock, hnone]

/-- Nothing is known of block `0`. -/
theorem Movable.newBlock_zero (h : Movable F env inodes v blockMap) : newBlock F inodes 0 = 0 := by
  apply newBlock_of_not_listed
  intro e he hb
  obtain ⟨i, hi, he⟩ := mem_allExtents.mp he
  obtain ⟨p, -, hne, hzero, -⟩ := h.exists_place hi he hb
  exact hne hzero

theorem Movable.room (h : Movable F env inodes v blockMap) (he : e ∈ allExtents inodes) :
    e.chunkOffset + e.len ≤ total := by
  obtain ⟨i, hi, he⟩ := mem_allExtents.mp he
  exact (h.listed i hi).room e he

/-- The block of a position is a free one. -/
theorem Movable.place_free (hwf : WellFormed reserved v blockMap) (h : Movable F env inodes v blockMap) {pos : ℕ}
    (hpos : pos < total) :
    inBlockMap g (F.place pos) = true ∧ blockMap (F.place pos) = false ∧ F.place pos ≠ 0 := by
  obtain ⟨f, hf, hlo, hhi⟩ := F.place_mem hpos
  obtain ⟨hmap, hfree⟩ := h.free f hf _ hlo hhi
  refine ⟨hmap, hfree, fun hzero => ?_⟩
  rw [hzero] at hmap hfree
  have hused := (hwf.owners.used_iff 0).mpr (.inl (hwf.blockZero hmap))
  exact Bool.noConfusion (hfree.symm.trans hused)

/-- No place refers to the block of a position. -/
theorem Movable.ref_ne_place (hwf : WellFormed reserved v blockMap) (h : Movable F env inodes v blockMap) {pos : ℕ}
    (hpos : pos < total) (p : Place g) : v.ref p ≠ F.place pos := by
  obtain ⟨-, hfree, hne⟩ := h.place_free hwf hpos
  exact hwf.owners.ref_ne_of_free hfree hne p

/-- A block is listed and gets the block of its position, or keeps its number. -/
theorem Movable.newBlock_cases (hwf : WellFormed reserved v blockMap) (h : Movable F env inodes v blockMap) (b : ℕ) :
    (∃ e ∈ allExtents inodes, e.Has b ∧ e.chunkOffset + (b - e.block) < total ∧
        newBlock F inodes b = F.place (e.chunkOffset + (b - e.block))) ∨
      (∀ e ∈ allExtents inodes, ¬ e.Has b) ∧ newBlock F inodes b = b := by
  by_cases hlisted : ∃ e ∈ allExtents inodes, e.Has b
  · obtain ⟨e, he, hb⟩ := hlisted
    obtain ⟨i, hi, hei⟩ := mem_allExtents.mp he
    have hroom := h.room he
    have hlo : e.block ≤ b := hb.1
    have hhi : b < e.block + e.len := hb.2
    exact .inl ⟨e, he, hb, by omega, h.newBlock_of_has hwf hi hei hb⟩
  · have hnone : ∀ e ∈ allExtents inodes, ¬ e.Has b := fun e he hb => hlisted ⟨e, he, hb⟩
    exact .inr ⟨hnone, newBlock_of_not_listed hnone⟩

theorem Movable.newBlock_ne_zero (hwf : WellFormed reserved v blockMap) (h : Movable F env inodes v blockMap)
    (hp : v.ref p ≠ 0) : newBlock F inodes (v.ref p) ≠ 0 := by
  rcases h.newBlock_cases hwf (v.ref p) with ⟨e, -, -, hpos, heq⟩ | ⟨-, heq⟩
  · rw [heq]
    exact (h.place_free hwf hpos).2.2
  · rw [heq]
    exact hp

theorem Movable.newBlock_inMap (hwf : WellFormed reserved v blockMap) (h : Movable F env inodes v blockMap)
    (hp : v.ref p ≠ 0) : inBlockMap g (newBlock F inodes (v.ref p)) = true := by
  rcases h.newBlock_cases hwf (v.ref p) with ⟨e, -, -, hpos, heq⟩ | ⟨-, heq⟩
  · rw [heq]
    exact (h.place_free hwf hpos).1
  · rw [heq]
    exact hwf.ref_inMap hp

/-- Different blocks get different numbers. -/
theorem Movable.newBlock_inj (hwf : WellFormed reserved v blockMap) (h : Movable F env inodes v blockMap)
    (heq : newBlock F inodes (v.ref p) = newBlock F inodes (v.ref q)) : v.ref p = v.ref q := by
  rcases h.newBlock_cases hwf (v.ref p) with ⟨e, he, hb, hpos, hnew⟩ | ⟨-, hnew⟩
  · rcases h.newBlock_cases hwf (v.ref q) with ⟨e', he', hb', hpos', hnew'⟩ | ⟨-, hnew'⟩
    · rw [hnew, hnew'] at heq
      have hsame := F.place_inj hpos hpos' heq
      have hhi : v.ref p < e.block + e.len := hb.2
      have hlo : e.block ≤ v.ref p := hb.1
      have hhi' : v.ref q < e'.block + e'.len := hb'.2
      have hlo' : e'.block ≤ v.ref q := hb'.1
      have hsymm : Std.Symm fun e e' : RemapExtent =>
          e.chunkOffset + e.len ≤ e'.chunkOffset ∨ e'.chunkOffset + e'.len ≤ e.chunkOffset :=
        ⟨fun _ _ h => h.symm⟩
      by_cases hee : e = e'
      · subst hee
        omega
      · have := h.apart.forall he he' hee
        omega
    · rw [hnew, hnew'] at heq
      exact absurd heq.symm (h.ref_ne_place hwf hpos q)
  · rcases h.newBlock_cases hwf (v.ref q) with ⟨e', -, -, hpos', hnew'⟩ | ⟨-, hnew'⟩
    · rw [hnew, hnew'] at heq
      exact absurd heq (h.ref_ne_place hwf hpos' p)
    · rw [hnew, hnew'] at heq
      exact heq

/-- A new number is not the old one of another place. -/
theorem Movable.newBlock_ne_ref (hwf : WellFormed reserved v blockMap) (h : Movable F env inodes v blockMap)
    (hp : v.ref p ≠ 0) (hpq : p ≠ q) : newBlock F inodes (v.ref p) ≠ v.ref q := by
  rcases h.newBlock_cases hwf (v.ref p) with ⟨e, -, -, hpos, heq⟩ | ⟨-, heq⟩
  · rw [heq]
    exact (h.ref_ne_place hwf hpos q).symm
  · rw [heq]
    exact fun hsame => hpq (hwf.owners.eq_of_ref_eq hp hsame)

/-! ## §4 — one inode -/

/-- The inodes in `done` refer to the new blocks, which hold what the old ones held; the others are as they
were, and so are their blocks. -/
structure Moved (F : FreeExtents total) (inodes : List InodeExtents) (v : View g) (done : List ℕ) (v' : View g) :
    Prop where
  ref : ∀ p, v'.ref p = if p.inodeNumber ∈ done then newBlock F inodes (v.ref p) else v.ref p
  data : ∀ p : Place g, p.inodeNumber ∈ done → p.IsData → v.ref p ≠ 0 →
    v'.blocks (newBlock F inodes (v.ref p)) = v.blocks (v.ref p)
  inodes : ∀ n, n ∉ done → v'.inodes n = v.inodes n
  blocks : ∀ p : Place g, p.inodeNumber ∉ done → v.ref p ≠ 0 → v'.blocks (v.ref p) = v.blocks (v.ref p)

theorem moved_nil : Moved F inodes v [] v :=
  ⟨fun _ => rfl, fun _ hp => absurd hp List.not_mem_nil, fun _ _ => rfl, fun _ _ _ => rfl⟩

/-- An inode with a block can be read. -/
theorem exists_inode {n : ℕ} (hp : p.inodeNumber = n) (hne : v.ref p ≠ 0) :
    MoveBlocks.HasValidBlocks v n := by
  by_contra hnone
  have htop : v.topWord n p.slot = 0 := by
    unfold View.topWord
    cases hinode : v.inodes n with
    | none => rfl
    | some inode => exact if_neg fun hvalid => hnone ⟨inode, hinode, hvalid⟩
  have hzero : ∀ path : List (Fin g.addrPerBlock), path.foldl v.deref 0 = 0 := by
    intro path
    induction path with
    | nil => rfl
    | cons i path ih => exact ih
  apply hne
  rw [View.ref, hp, htop, hzero]

/-- What the copy of the extents of an inode leaves: the blocks of the inode at their new numbers, and all
other blocks as they were. -/
structure CopiedInode (F : FreeExtents total) (inodes : List InodeExtents) (v : View g) (n : ℕ)
    (before after : ℕ → Block g) : Prop where
  copied : ∀ p : Place g, p.inodeNumber = n → v.ref p ≠ 0 →
    after (newBlock F inodes (v.ref p)) = before (v.ref p)
  outside : ∀ b, (∀ p : Place g, p.inodeNumber = n → v.ref p ≠ 0 → newBlock F inodes (v.ref p) ≠ b) →
    after b = before b

theorem Movable.placeable (hwf : WellFormed reserved v blockMap) (h : Movable F env inodes v blockMap)
    (hi : i ∈ inodes) : Placeable F i.extents where
  fits e he := h.room (mem_allExtents.mpr ⟨i, hi, he⟩)
  apart := by
    have hall := h.apart
    unfold allExtents at hall
    rw [List.pairwise_flatMap] at hall
    exact hall.1 i hi
  used e he k hk f hf hin := by
    obtain ⟨p, -, hne, href, -⟩ := h.exists_place hi he (⟨by omega, by omega⟩ : e.Has (e.block + k))
    have hused := hwf.ref_used hne
    rw [href, (h.free f hf _ hin.1 hin.2).2] at hused
    exact Bool.noConfusion hused

/-- **The copy.** -/
theorem Movable.copyInodeBlocks (hwf : WellFormed reserved v blockMap) (h : Movable F env inodes v blockMap)
    (hi : i ∈ inodes) (before : ℕ → Block g) :
    ∃ after, copyInodeBlocks env.remapBuf env.freeExtents i.extents before = some after ∧
      CopiedInode F inodes v i.ino before after := by
  have hplaceable := h.placeable hwf hi
  have hshort : ∀ e ∈ i.extents, e.len ≤ env.remapBuf.blocks :=
    fun e he => h.short e (mem_allExtents.mpr ⟨i, hi, he⟩)
  obtain ⟨after, hrun, hcopied⟩ := copyInodeBlocks_written before hplaceable hshort
  obtain ⟨after', hrun', houtside⟩ := copyInodeBlocks_frame env.remapBuf before hplaceable
  cases hrun.symm.trans hrun'
  rw [h.freeExtents]
  refine ⟨after, hrun, fun p hp hne => ?_, fun b hb => ?_⟩
  · rcases h.newBlock_cases hwf (v.ref p) with ⟨e, he, hb, -, heq⟩ | ⟨hnone, heq⟩
    · -- the extent is one of this inode
      obtain ⟨i', hi', he'⟩ := mem_allExtents.mp he
      obtain ⟨q, hq, hqne, hqref, -⟩ := h.exists_place hi' he' hb
      have hsame := hwf.owners.eq_of_ref_eq hqne hqref
      have hii : i' = i := List.inj_on_of_nodup_map h.nodup hi' hi (by rw [← hq, hsame, hp])
      subst hii
      have hhi : v.ref p < e.block + e.len := hb.2
      have hlo : e.block ≤ v.ref p := hb.1
      rw [heq, hcopied e he' (v.ref p - e.block) (by omega), Nat.add_sub_cancel' hlo]
    · rw [heq]
      apply houtside
      intro e he k hk hsame
      have hroom := h.room (mem_allExtents.mpr ⟨i, hi, he⟩)
      exact h.ref_ne_place hwf (by omega : e.chunkOffset + k < total) p hsame.symm
  · apply houtside
    intro e he k hk hsame
    obtain ⟨p, hp, hne, href, -⟩ := h.exists_place hi he (⟨by omega, by omega⟩ : e.Has (e.block + k))
    have hnew := h.newBlock_of_has hwf hi he (⟨by omega, by omega⟩ : e.Has (e.block + k))
    rw [Nat.add_sub_cancel_left, ← href] at hnew
    exact hb p hp hne (hnew.trans hsame)

/-- **The pointers** of an inode are renamed by the pass. -/
theorem Movable.renames (hwf : WellFormed reserved v blockMap) (h : Movable F env inodes v blockMap)
    (hi : i ∈ inodes) {calls : List Call} (hcalls : List.Forall₂ CallFor calls (v.fileTree i.ino).visits) :
    ∃ s', Renames (remapCallback g.addrPerBlock g.sBlocksCount env.freeExtents)
      (newBlock F inodes) (.calling ⟨0, 0, -1, i.extents⟩) calls s' := by
  have hlisting := h.listed i hi
  have hvisit : ∀ w ∈ (v.fileTree i.ino).visits, ∃ p : Place g,
      p.inodeNumber = i.ino ∧ v.ref p ≠ 0 ∧ p.visit v = w := by
    intro w hw
    rw [MoveBlocks.visits_fileTree] at hw
    obtain ⟨p, hp, rfl⟩ := List.mem_map.mp hw
    obtain ⟨hmem, hpresent⟩ := List.mem_filter.mp hp
    exact ⟨p, MoveBlocks.mem_filePlaces.mp hmem, MoveBlocks.View.present_iff.mp hpresent, rfl⟩
  have hfs : OnFilesystem g.sBlocksCount (v.fileTree i.ino) F := by
    refine ⟨fun w hw => ?_, fun f hf => ?_⟩
    · obtain ⟨p, -, hne, rfl⟩ := hvisit w hw
      have hmap := hwf.ref_inMap hne
      unfold inBlockMap at hmap
      rw [Bool.and_eq_true, decide_eq_true_iff, decide_eq_true_iff] at hmap
      exact hmap.2
    · have hpos := F.nonempty f hf
      have hlast := (h.free f hf (f.block + f.len - 1) (by omega) (by omega)).1
      unfold inBlockMap at hlast
      rw [Bool.and_eq_true, decide_eq_true_iff, decide_eq_true_iff] at hlast
      omega
  have hright := (fileRight_iff g.addrPerBlock_pos _).mpr (h.offsets i hi)
  obtain ⟨pointers, hrun, hreplaced⟩ := hlisting.remapPointers_file g.addrPerBlock_pos hfs hright
  rw [h.freeExtents]
  refine renames_of_remapPointers hcalls hrun (List.forall₂_iff_get.mpr ⟨hreplaced.length_eq, fun k hk hk' => ?_⟩)
  have hone := (List.forall₂_iff_get.mp hreplaced).2 k hk hk'
  generalize pointers.get ⟨k, hk'⟩ = pointer at hone
  obtain ⟨p, hp, hne, hw⟩ := hvisit _ (List.get_mem (v.fileTree i.ino).visits ⟨k, hk⟩)
  rw [← hw] at hone ⊢
  show pointer = newBlock F inodes (v.ref p)
  rcases h.newBlock_cases hwf (v.ref p) with ⟨e, he, hb, -, heq⟩ | ⟨hnone, heq⟩
  · obtain ⟨i', hi', he'⟩ := mem_allExtents.mp he
    obtain ⟨q, hq, hqne, hqref, hcode⟩ := h.exists_place hi' he' hb
    have hsame := hwf.owners.eq_of_ref_eq hqne hqref
    subst hsame
    have hii : i' = i := List.inj_on_of_nodup_map h.nodup hi' hi (hq.symm.trans hp)
    subst hii
    have hhi : v.ref q < e.block + e.len := hb.2
    have hlo : e.block ≤ v.ref q := hb.1
    rw [heq]
    exact hone.listed e he' (v.ref q - e.block) (by omega) hcode
  · rw [heq]
    apply hone.other
    rintro e he ⟨hlo, hhi⟩
    -- a covered block is a listed one
    obtain ⟨j, hj⟩ : ∃ j : ℕ, (p.visit v).code = e.offset + j := ⟨((p.visit v).code - e.offset).toNat, by omega⟩
    have hblock : e.Has (e.block + j) := ⟨by omega, by omega⟩
    obtain ⟨q, hq, hqne, hqref, hcode⟩ := h.exists_place hi he hblock
    rw [Nat.add_sub_cancel_left] at hcode
    have hmem : ∀ {q : Place g}, q.inodeNumber = i.ino → v.ref q ≠ 0 → q.visit v ∈ (v.fileTree i.ino).visits := by
      intro q hq hqne
      rw [MoveBlocks.visits_fileTree]
      exact List.mem_map_of_mem (List.mem_filter.mpr
        ⟨MoveBlocks.mem_filePlaces.mpr hq, MoveBlocks.View.present_iff.mpr hqne⟩)
    have hvisits := code_inj g.addrPerBlock_pos (hmem hp hne) (hmem hq hqne) (hj.trans hcode.symm)
    have hblocks : v.ref p = v.ref q := congrArg Visit.blocknr hvisits
    refine hnone e (mem_allExtents.mpr ⟨i, hi, he⟩) ?_
    rw [hblocks, hqref]
    exact hblock

section Moved

variable {done : List ℕ} {v₁ : View g} {n : ℕ}

/-- An inode that is not done refers to what it referred to. -/
theorem Moved.ref_new (hmoved : Moved F inodes v done v₁) (hnew : n ∉ done) (hp : p.inodeNumber = n) :
    v₁.ref p = v.ref p := by
  rw [hmoved.ref, if_neg (hp ▸ hnew)]

theorem Moved.ref_eq_zero_iff (hmoved : Moved F inodes v done v₁) (hwf : WellFormed reserved v blockMap)
    (h : Movable F env inodes v blockMap) : v₁.ref p = 0 ↔ v.ref p = 0 := by
  rw [hmoved.ref]
  split_ifs
  · refine ⟨fun hzero => ?_, fun hzero => by rw [hzero, h.newBlock_zero]⟩
    by_contra hne
    exact h.newBlock_ne_zero hwf hne hzero
  · exact Iff.rfl

theorem Moved.visits_new (hmoved : Moved F inodes v done v₁) (hnew : n ∉ done) :
    (v₁.fileTree n).visits = (v.fileTree n).visits := by
  rw [MoveBlocks.visits_fileTree, MoveBlocks.visits_fileTree]
  have hpresent : (filePlaces g n).filter v₁.present = (filePlaces g n).filter v.present := by
    refine List.filter_congr fun p hp => ?_
    unfold View.present
    rw [hmoved.ref_new hnew (MoveBlocks.mem_filePlaces.mp hp)]
  rw [hpresent]
  refine List.map_congr_left fun p hp => ?_
  unfold Place.visit
  rw [hmoved.ref_new hnew (MoveBlocks.mem_filePlaces.mp (List.mem_filter.mp hp).1)]

/-- What a place of another inode refers to is no new block of the inode. -/
theorem Moved.newBlock_ne_ref (hmoved : Moved F inodes v done v₁) (hwf : WellFormed reserved v blockMap)
    (h : Movable F env inodes v blockMap) {q : Place g} (hq : q.inodeNumber = n) (hqne : v.ref q ≠ 0)
    (hp : p.inodeNumber ≠ n) : newBlock F inodes (v.ref q) ≠ v₁.ref p := by
  have hqp : q ≠ p := by
    rintro rfl
    exact hp hq
  rw [hmoved.ref]
  split_ifs
  · intro heq
    exact hqp (hwf.owners.eq_of_ref_eq hqne (h.newBlock_inj hwf heq))
  · exact h.newBlock_ne_ref hwf hqne hqp

theorem Moved.renaming (hmoved : Moved F inodes v done v₁) (hwf : WellFormed reserved v blockMap)
    (h : Movable F env inodes v blockMap) (hnew : n ∉ done) : Renaming v₁ (newBlock F inodes) n := by
  refine ⟨h.newBlock_zero, fun p hp hne => ?_, fun p hp hne => ?_, fun p q hp hq hne _ heq => ?_⟩
  · rw [hmoved.ref_new hnew hp] at hne ⊢
    exact h.newBlock_ne_zero hwf hne
  · rw [hmoved.ref_new hnew hp] at hne ⊢
    exact h.newBlock_inMap hwf hne
  · rw [hmoved.ref_new hnew hp] at hne heq
    rw [hmoved.ref_new hnew hq] at heq
    exact hwf.owners.eq_of_ref_eq hne (h.newBlock_inj hwf heq)

/-- An inode with extents has valid blocks. -/
theorem Movable.hasValidBlocks (h : Movable F env inodes v blockMap) (hi : i ∈ inodes) :
    MoveBlocks.HasValidBlocks v i.ino := by
  obtain ⟨e, rest, hextents⟩ := List.exists_cons_of_ne_nil (h.listed i hi).nonempty
  have he : e ∈ i.extents := hextents ▸ List.mem_cons_self
  obtain ⟨p, hp, hne, -, -⟩ := h.exists_place hi he
    (⟨Nat.le_refl _, Nat.lt_add_of_pos_right ((h.listed i hi).pos e he)⟩ : e.Has e.block)
  exact exists_inode hp hne

/-- **One inode**: it comes to the inodes done. -/
theorem Moved.remapInode (hlib : lib.Documented) (hwf : WellFormed reserved v blockMap)
    (h : Movable F env inodes v blockMap) (hmoved : Moved F inodes v done v₁) (hi : i ∈ inodes)
    (hnew : i.ino ∉ done) :
    ∃ v₂, remapInode lib env v₁ i = some v₂ ∧ Moved F inodes v (i.ino :: done) v₂ := by
  obtain ⟨inode, hinode, hvalid⟩ := h.hasValidBlocks hi
  have hinode₁ : v₁.inodes i.ino = some inode := (hmoved.inodes _ hnew).trans hinode
  obtain ⟨blocks, hcopy, hcopied⟩ := h.copyInodeBlocks hwf hi v₁.blocks
  obtain ⟨s', hrun⟩ := h.renames hwf hi (hmoved.visits_new hnew ▸ fileCalls_callFor v₁ i.ino)
  have hσ := hmoved.renaming hwf h hnew
  -- a block of pointers of the inode, as the places it has now and had before
  have hown : ∀ q ∈ filePlaces g i.ino, MoveBlocks.PointsToIndirect v₁ q →
      q.inodeNumber = i.ino ∧ v₁.ref q = v.ref q ∧ v.ref q ≠ 0 := by
    intro q hq hind
    have hino := MoveBlocks.mem_filePlaces.mp hq
    have href := hmoved.ref_new hnew hino
    exact ⟨hino, href, href ▸ hind.2⟩
  have hpointers : Copied v₁ (newBlock F inodes) (filePlaces g i.ino) blocks := by
    intro q hq hind
    obtain ⟨hino, href, hne⟩ := hown q hq hind
    rw [href]
    exact hcopied.copied q hino hne
  obtain ⟨v₂, hiterate, hrenamed⟩ := hlib.renames hσ ⟨inode, hinode₁, hvalid⟩ hpointers hrun
  -- what other inodes refer to is neither copied to nor rewritten
  have hkeep : ∀ p : Place g, p.inodeNumber ≠ i.ino → v₁.ref p ≠ 0 → v₂.blocks (v₁.ref p) = v₁.blocks (v₁.ref p) := by
    intro p hp _
    rw [hrenamed.rewritten.outside, hcopied.outside]
    · exact fun q hq hqne => hmoved.newBlock_ne_ref hwf h hq hqne hp
    · intro q hq hind
      obtain ⟨hino, href, hne⟩ := hown q hq hind
      rw [href]
      exact hmoved.newBlock_ne_ref hwf h hino hne hp
  have hkeep' : ∀ p : Place g, p.inodeNumber ≠ i.ino → v.ref p ≠ 0 → v₂.blocks (v₁.ref p) = v₁.blocks (v₁.ref p) :=
    fun p hp hne => hkeep p hp (mt (hmoved.ref_eq_zero_iff hwf h).mp hne)
  refine ⟨v₂, ?_, fun p => ?_, fun p hp hdata hne => ?_, fun n hn => ?_, fun p hp hne => ?_⟩
  · rw [Remap.remapInode, hinode₁]
    dsimp only
    rw [if_neg (h.linked i hi), hcopy]
    dsimp only
    rw [hiterate]
    rfl
  · rw [hrenamed.ref_eq hσ hkeep, hmoved.ref]
    by_cases hp : p.inodeNumber = i.ino
    · rw [if_pos hp, if_neg (hp ▸ hnew), if_pos (hp ▸ List.mem_cons_self)]
    · rw [if_neg hp]
      simp only [List.mem_cons, hp, false_or]
  · by_cases hpi : p.inodeNumber = i.ino
    · rw [hrenamed.rewritten.outside, hcopied.copied p hpi hne]
      · exact hmoved.blocks p (hpi ▸ hnew) hne
      · intro q hq hind heq
        obtain ⟨-, href, hqne⟩ := hown q hq hind
        rw [href] at heq
        have hsame := hwf.owners.eq_of_ref_eq hqne (h.newBlock_inj hwf heq)
        subst hsame
        exact hind.1 (Place.level_eq (n := 0) hdata)
    · have hdone : p.inodeNumber ∈ done := by
        rcases List.mem_cons.mp hp with hp | hp
        · exact absurd hp hpi
        · exact hp
      have hold := hkeep' p hpi hne
      rw [hmoved.ref, if_pos hdone] at hold
      rw [hold]
      exact hmoved.data p hdone hdata hne
  · rw [List.mem_cons, not_or] at hn
    rw [hrenamed.inodes n hn.1, hmoved.inodes n hn.2]
  · rw [List.mem_cons, not_or] at hp
    have hold := hkeep' p hp.1 hne
    rw [hmoved.ref_new hp.2 rfl] at hold
    rw [hold]
    exact hmoved.blocks p hp.2 hne

end Moved

/-- The inodes, one after the other. -/
theorem Moved.foldlM (hlib : lib.Documented) (hwf : WellFormed reserved v blockMap)
    (h : Movable F env inodes v blockMap) {done : List ℕ} {v₁ : View g} (hmoved : Moved F inodes v done v₁)
    {is : List InodeExtents}
    (his : ∀ i ∈ is, i ∈ inodes) (hnodup : (is.map InodeExtents.ino).Nodup) (hnew : ∀ i ∈ is, i.ino ∉ done) :
    ∃ v₂ done', is.foldlM (Remap.remapInode lib env) v₁ = some v₂ ∧ Moved F inodes v done' v₂ ∧
      ∀ n, n ∈ done' ↔ n ∈ done ∨ ∃ i ∈ is, i.ino = n := by
  induction is generalizing done v₁ with
  | nil => exact ⟨v₁, done, rfl, hmoved, fun n => by simp⟩
  | cons i is ih =>
      obtain ⟨hi, hnodup'⟩ := List.nodup_cons.mp hnodup
      obtain ⟨v₂, hone, hmoved'⟩ := hmoved.remapInode hlib hwf h (his i List.mem_cons_self)
        (hnew i List.mem_cons_self)
      have hnew' : ∀ j ∈ is, j.ino ∉ i.ino :: done := by
        intro j hj hmem
        rcases List.mem_cons.mp hmem with heq | hmem
        · exact hi (heq ▸ List.mem_map_of_mem hj)
        · exact hnew j (List.mem_cons_of_mem i hj) hmem
      obtain ⟨v₃, done', hrest, hmoved'', hdone⟩ := ih hmoved' (fun j hj => his j (List.mem_cons_of_mem i hj))
        hnodup' hnew'
      refine ⟨v₃, done', ?_, hmoved'', fun n => ?_⟩
      · rw [List.foldlM_cons, hone]
        exact hrest
      · rw [hdone, List.mem_cons, List.exists_mem_cons_iff, @eq_comm _ n, or_comm (a := i.ino = n), or_assoc]

/-! ## §5 — the whole run -/

/-- Listed blocks are those of inodes that are moved. -/
theorem Movable.newBlock_of_other (hwf : WellFormed reserved v blockMap) (h : Movable F env inodes v blockMap)
    (hother : ∀ i ∈ inodes, i.ino ≠ p.inodeNumber) : newBlock F inodes (v.ref p) = v.ref p := by
  apply newBlock_of_not_listed
  intro e he hb
  obtain ⟨i, hi, he⟩ := mem_allExtents.mp he
  obtain ⟨q, hq, hqne, href, -⟩ := h.exists_place hi he hb
  have hsame := hwf.owners.eq_of_ref_eq hqne href
  exact hother i hi (hsame ▸ hq.symm)

/-- Every place refers to the new block. -/
structure Renumbered (F : FreeExtents total) (inodes : List InodeExtents) (v v' : View g) : Prop where
  ref : ∀ p, v'.ref p = newBlock F inodes (v.ref p)
  data : ∀ p : Place g, p.IsData → v.ref p ≠ 0 → v'.blocks (v'.ref p) = v.blocks (v.ref p)

theorem Moved.renumbered (hwf : WellFormed reserved v blockMap) (h : Movable F env inodes v blockMap)
    {done : List ℕ} {v' : View g} (hmoved : Moved F inodes v done v') (hdone : ∀ i ∈ inodes, i.ino ∈ done) :
    Renumbered F inodes v v' := by
  have href : ∀ p, v'.ref p = newBlock F inodes (v.ref p) := by
    intro p
    rw [hmoved.ref]
    split_ifs with hp
    · rfl
    · exact (h.newBlock_of_other hwf fun i hi heq => hp (heq ▸ hdone i hi)).symm
  refine ⟨href, fun p hdata hne => ?_⟩
  by_cases hp : p.inodeNumber ∈ done
  · rw [href]
    exact hmoved.data p hp hdata hne
  · rw [hmoved.ref, if_neg hp]
    exact hmoved.blocks p hp hne

/-- Every file reads as before. -/
theorem Renumbered.readBlock_eq (hwf : WellFormed reserved v blockMap) (h : Movable F env inodes v blockMap)
    {v' : View g} (hv : Renumbered F inodes v v') (n k : ℕ) : v'.readBlock n k = v.readBlock n k := by
  unfold View.readBlock
  cases hplace : (MoveBlocks.offsetPlace n k : Option (Place g)) with
  | none => rfl
  | some p =>
      show (if v'.ref p = 0 then none else some (v'.blocks (v'.ref p)))
        = if v.ref p = 0 then none else some (v.blocks (v.ref p))
      by_cases hne : v.ref p = 0
      · rw [hv.ref, hne, h.newBlock_zero, if_pos rfl, if_pos rfl]
      · have hne' : v'.ref p ≠ 0 := by
          rw [hv.ref]
          exact h.newBlock_ne_zero hwf hne
        rw [if_neg hne', if_neg hne, hv.data p (MoveBlocks.offsetPlace_isData hplace) hne]

/-- The blocks of the original extents are the listed ones. -/
theorem covered_original_iff :
    Covered (originalRanges (inodes.map InodeExtents.extents)) b ↔ ∃ e ∈ allExtents inodes, e.Has b := by
  have hflat : (inodes.map InodeExtents.extents).flatten = allExtents inodes := List.flatMap_def.symm
  unfold Covered originalRanges
  rw [hflat]
  constructor
  · rintro ⟨range, hr, hb⟩
    obtain ⟨e, he, rfl⟩ := List.mem_map.mp hr
    exact ⟨e, he, hb⟩
  · rintro ⟨e, he, hb⟩
    exact ⟨_, List.mem_map_of_mem he, hb⟩

/-- The blocks of the free extents are those of the positions. -/
theorem covered_free_iff : Covered (freeRanges F.list) b ↔ ∃ pos < total, F.place pos = b := by
  unfold Covered freeRanges
  constructor
  · rintro ⟨range, hr, hlo, hhi⟩
    obtain ⟨f, hf, rfl⟩ := List.mem_map.mp hr
    have hlo' : f.block ≤ b := hlo
    have hhi' : b < f.block + f.len := hhi
    have hend := F.offsets.le_end hf
    rw [Nat.zero_add, F.total_eq] at hend
    refine ⟨f.offset + (b - f.block), by omega, ?_⟩
    rw [F.place_eq hf ⟨by omega, by omega⟩]
    omega
  · rintro ⟨pos, hpos, rfl⟩
    obtain ⟨f, hf, hlo, hhi⟩ := F.place_mem hpos
    exact ⟨_, List.mem_map_of_mem hf, hlo, hhi⟩

/-- The extents fit together as `update_bitmap` needs it. -/
theorem Movable.fits (hwf : WellFormed reserved v blockMap) (h : Movable F env inodes v blockMap) {fs : FsBitmap}
    (hfs : fs.blockMap = blockMap) : Fits g F.list (inodes.map InodeExtents.extents) fs := by
  have hused : ∀ b, Covered (originalRanges (inodes.map InodeExtents.extents)) b → blockMap b = true := by
    intro b hb
    obtain ⟨e, he, hb⟩ := covered_original_iff.mp hb
    obtain ⟨i, hi, he⟩ := mem_allExtents.mp he
    obtain ⟨p, -, hne, rfl, -⟩ := h.exists_place hi he hb
    exact hwf.ref_used hne
  have hunused : ∀ b, Covered (freeRanges F.list) b → blockMap b = false := by
    rintro b ⟨range, hr, hlo, hhi⟩
    obtain ⟨f, hf, rfl⟩ := List.mem_map.mp hr
    exact (h.free f hf b hlo hhi).2
  have hinFs : ∀ range : ℕ × ℕ, 0 < range.2 → (∀ b, InRange range b → inBlockMap g b = true) → InFs g range := by
    intro range hpos hmap
    have hfirst := hmap range.1 ⟨Nat.le_refl _, by omega⟩
    have hlast := hmap (range.1 + range.2 - 1) ⟨by omega, by omega⟩
    unfold inBlockMap at hfirst hlast
    rw [Bool.and_eq_true, decide_eq_true_iff, decide_eq_true_iff] at hfirst hlast
    exact ⟨hfirst.1, by omega⟩
  have hpos : ∀ e ∈ allExtents inodes, 0 < e.len := by
    intro e he
    obtain ⟨i, hi, he⟩ := mem_allExtents.mp he
    exact (h.listed i hi).pos e he
  have horiginal : ∀ range ∈ originalRanges (inodes.map InodeExtents.extents),
      ∃ e ∈ allExtents inodes, range = (e.block, e.len) := by
    intro range hr
    obtain ⟨e, he, rfl⟩ := List.mem_map.mp hr
    rw [← List.flatMap_def] at he
    exact ⟨e, he, rfl⟩
  refine ⟨fun range hr => ?_, List.pairwise_append.mpr ⟨?_, ?_, ?_⟩, ?_, ?_⟩
  · rcases List.mem_append.mp hr with hr | hr
    · obtain ⟨f, hf, rfl⟩ := List.mem_map.mp hr
      exact hinFs _ (F.nonempty f hf) fun b hb => (h.free f hf b hb.1 hb.2).1
    · obtain ⟨e, he, rfl⟩ := horiginal range hr
      exact hinFs _ (hpos e he) fun b hb =>
        hwf.inMap b (hused b (covered_original_iff.mpr ⟨e, he, hb⟩))
  · unfold freeRanges
    rw [List.pairwise_map]
    refine F.disjoint.imp fun hapart b hb => ?_
    obtain ⟨⟨hlo, hhi⟩, hlo', hhi'⟩ := hb
    simp only at hlo hhi hlo' hhi'
    omega
  · unfold originalRanges
    rw [List.pairwise_map, ← List.flatMap_def]
    refine h.apart.imp_of_mem fun {e e'} he he' hapart b hb => ?_
    obtain ⟨i, hi, hei⟩ := mem_allExtents.mp he
    obtain ⟨i', hi', hei'⟩ := mem_allExtents.mp he'
    obtain ⟨-, rfl⟩ := h.extent_unique hwf hi hei hi' hei' hb.1 hb.2
    have := hpos e he
    omega
  · intro range hr range' hr' b hb
    have hfree := hunused b ⟨range, hr, hb.1⟩
    rw [hused b ⟨range', hr', hb.2⟩] at hfree
    exact Bool.noConfusion hfree
  · rw [hfs]
    exact hunused
  · rw [hfs]
    exact hused

/-- The filesystem is well-formed again once the bitmap is up to date. -/
theorem Renumbered.wellFormed (hwf : WellFormed reserved v blockMap) (h : Movable F env inodes v blockMap)
    {v' : View g} (hv : Renumbered F inodes v v') {used : ℕ → Bool}
    (hused : ∀ b, used b = true ↔ Covered (freeRanges F.list) b ∨
      blockMap b = true ∧ ¬ Covered (originalRanges (inodes.map InodeExtents.extents)) b) :
    WellFormed reserved v' used := by
  have hlisted : ∀ e ∈ allExtents inodes, ∀ b, e.Has b → ∃ p : Place g, v.ref p ≠ 0 ∧ v.ref p = b ∧
      v'.ref p = F.place (e.chunkOffset + (b - e.block)) := by
    intro e he b hb
    obtain ⟨i, hi, he⟩ := mem_allExtents.mp he
    obtain ⟨p, -, hne, rfl, -⟩ := h.exists_place hi he hb
    exact ⟨p, hne, rfl, (hv.ref p).trans (h.newBlock_of_has hwf hi he hb)⟩
  have hne_iff : ∀ p, v'.ref p ≠ 0 → v.ref p ≠ 0 := by
    intro p hp hzero
    rw [hv.ref, hzero, h.newBlock_zero] at hp
    exact hp rfl
  -- the blocks of positions belong to no inode yet
  have hfree : ∀ pos < total, F.place pos ∉ reserved := by
    intro pos hpos hres
    have hmem := (hwf.owners.used_iff _).mpr (.inl hres)
    rw [(h.place_free hwf hpos).2.1] at hmem
    exact Bool.noConfusion hmem
  refine ⟨hwf.owners.rename hne_iff (fun p q hp _ heq => ?_) (fun p hp => ?_) fun b => ?_, fun b hb => ?_,
    hwf.blockZero⟩
  · rw [hv.ref, hv.ref] at heq
    exact h.newBlock_inj hwf heq
  · rw [hv.ref]
    rcases h.newBlock_cases hwf (v.ref p) with ⟨e, -, -, hpos, heq⟩ | ⟨-, heq⟩
    · rw [heq]
      exact hfree _ hpos
    · rw [heq]
      exact hwf.owners.not_reserved p (hne_iff p hp)
  · rw [hused, covered_free_iff, covered_original_iff]
    constructor
    · rintro (⟨pos, hpos, rfl⟩ | ⟨hb, hnot⟩)
      · obtain ⟨e, he, hlo, hhi⟩ := h.filled pos hpos
        obtain ⟨p, hne, href, hnew⟩ := hlisted e he (e.block + (pos - e.chunkOffset)) ⟨by omega, by omega⟩
        rw [Nat.add_sub_cancel_left, Nat.add_sub_cancel' hlo] at hnew
        exact .inr ⟨(h.place_free hwf hpos).2.2, p, hnew⟩
      · rcases (hwf.owners.used_iff b).mp hb with hres | ⟨hne, p, rfl⟩
        · exact .inl hres
        · refine .inr ⟨hne, p, (hv.ref p).trans (newBlock_of_not_listed fun e he hb => hnot ⟨e, he, hb⟩)⟩
    · rintro (hres | ⟨hne, p, rfl⟩)
      · refine .inr ⟨(hwf.owners.used_iff b).mpr (.inl hres), ?_⟩
        rintro ⟨e, he, hb⟩
        obtain ⟨p, hne, href, -⟩ := hlisted e he b hb
        exact hwf.owners.not_reserved p hne (href ▸ hres)
      · rw [hv.ref]
        rcases h.newBlock_cases hwf (v.ref p) with ⟨e, -, -, hpos, heq⟩ | ⟨hnone, heq⟩
        · exact .inl ⟨_, hpos, heq.symm⟩
        · rw [heq]
          exact .inr ⟨hwf.ref_used (hne_iff p hne), fun ⟨e, he, hb⟩ => hnone e he hb⟩
  · rcases (hused b).mp hb with hb | ⟨hb, -⟩
    · obtain ⟨pos, hpos, rfl⟩ := covered_free_iff.mp hb
      exact (h.place_free hwf hpos).1
    · exact hwf.inMap b hb

/-- **A run of `copy_and_remap_extents`.** Every file reads as before, every pointer to a listed block leads to
its position among the free extents and every other one where it did, and with the bitmap brought up to date
the filesystem is well-formed and its free blocks are counted. -/
theorem copyAndRemapExtents_preserves (hlib : lib.Documented) (hwf : WellFormed reserved v blockMap)
    (h : Movable F env inodes v blockMap) {fs : FsBitmap} (hfs : fs.blockMap = blockMap)
    (hgroups : ∀ b, Covered (freeRanges F.list ++ originalRanges (inodes.map InodeExtents.extents)) b →
      b < groupEnd g b) :
    ∃ fuel v' fs', copyAndRemapExtents lib fuel env inodes v fs = some (v', fs') ∧
      (∀ n k, v'.readBlock n k = v.readBlock n k) ∧
      (∀ i ∈ inodes, ∀ e ∈ i.extents, ∀ k < e.len, ∀ p, v.ref p = e.block + k →
        v'.ref p = F.place (e.chunkOffset + k)) ∧
      (∀ p, (∀ e ∈ allExtents inodes, ¬ e.Has (v.ref p)) → v'.ref p = v.ref p) ∧
      WellFormed reserved v' fs'.blockMap ∧ ∀ grp, Counted g fs grp → Counted g fs' grp := by
  obtain ⟨v', done, hrun, hmoved, hdone⟩ := moved_nil.foldlM hlib hwf h (fun i hi => hi) h.nodup
    fun i _ => List.not_mem_nil
  have hv := hmoved.renumbered hwf h fun i hi => (hdone i.ino).mpr (.inr ⟨i, hi, rfl⟩)
  have hupdated : Updated g F.list (inodes.map InodeExtents.extents) false fs :=
    (updated_iff_groupEnd (h.fits hwf hfs)).mpr hgroups
  obtain ⟨fuel, fs', hupdate, hmap, hcounted⟩ := hupdated
  rw [hfs] at hmap
  refine ⟨fuel, v', fs', ?_, hv.readBlock_eq hwf h, fun i hi e he k hk p hp => ?_, fun p hp => ?_,
    hv.wellFormed hwf h hmap, hcounted⟩
  · rw [copyAndRemapExtents, hrun, h.freeExtents]
    dsimp only
    rw [hupdate]
    rfl
  · have hb : e.Has (e.block + k) := ⟨by omega, by omega⟩
    have hnew := h.newBlock_of_has hwf hi he hb
    rw [hv.ref, hp, hnew, Nat.add_sub_cancel_left]
  · rw [hv.ref, newBlock_of_not_listed hp]

end Movable

end Prefetch.Remap

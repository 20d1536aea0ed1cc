/-
# Prefetch.Remap.MapBlocks — `map_blocks`, the extents of all files

e2block2file goes over the inodes of a filesystem and the blocks of each file, and keeps those it is asked
for, a run of blocks with consecutive offsets as one extent. Written out again block by block, the extents of a
file are the blocks that were met and asked for (`RunsOf`). No block is in two files, so the extents of all
of them make a table that can be searched (`MapsTo.mappedTable`).
-/
import Prefetch.Lib.Ownership
import Prefetch.MoveBlocks.BlockCalls
import Prefetch.Remap.DumpTimes
import Prefetch.Remap.FindBlock
import Prefetch.Remap.Offsets

namespace Prefetch.Remap

open MoveBlocks (Geometry View Place WellFormed inBlockMap filePlaces Ext2fs Call Callback Traversable CallFor
  fileCalls fileCalls_callFor)

/-! ## §1 — `map_blocks` -/

/-- What `ext2fs_get_next_inode` hands out: the number of an inode, its links, and whether it is a regular
file or a directory. -/
structure ScannedInode where
  inum : ℕ
  linksCount : ℕ
  regOrDir : Bool
  deriving DecidableEq

/-- What `find_block` comes to, other than a read outside of the table. -/
def Lookup.defined : Lookup → Bool
  | .found _ => true
  | .missing => true
  | .outside => false
  | .running => false

/-- `find_block` gives an extent. -/
def asked (iextents : List InputExtent) (blocknr : ℕ) : Bool :=
  match findBlock iextents blocknr with
  | .found _ => true
  | _ => false

/-- `store_block` as the function of a traversal. The program ends on an unknown offset, and has no outcome where
`find_block` reads outside of the table. -/
def storeCallback (a : ℕ) (iextents : List InputExtent) : Callback TraverseData := fun tdata c =>
  if (findBlock iextents c.blocknr).defined then
    match storeBlock a (asked iextents) tdata c.blocknr c.blockcnt c.refOffset with
    | none => .exited
    | some tdata => .unchanged tdata
  else .exited

/-- The extents of an inode as they are in `bmap`, nothing being known of its name. -/
def tagExtents (ino : ℕ) (blocks : List BlockMap) : List MappedExtent :=
  blocks.map fun e => ⟨e.block, e.len, e.offset, ino, none⟩

variable {g : Geometry}

/-- The traversal of a file: the list of extents of its inode; `none` is the end of the program. -/
def mapFile (lib : Ext2fs g) (v : View g) (iextents : List InputExtent) (inum : ℕ) : Option (List BlockMap) :=
  match lib.blockIterate {} (storeCallback g.addrPerBlock iextents) v inum {} with
  | none => none
  | some iterated => if iterated.ok then some iterated.data.blocks else none

/-- One turn of `map_blocks`, for an inode. -/
def mapInode (lib : Ext2fs g) (v : View g) (iextents : List InputExtent) (i : ScannedInode) :
    Option (List MappedExtent) :=
  if i.linksCount = 0 ∨ i.regOrDir = false then some []
  else (mapFile lib v iextents i.inum).map (tagExtents i.inum)

/-- `map_blocks` with `-t`: the extents in `bmap`, the array staying where it is. -/
def mapBlocks (lib : Ext2fs g) (v : View g) (iextents : List InputExtent) (scan : List ScannedInode) :
    Option (List MappedExtent) :=
  (scan.mapM (mapInode lib v iextents)).map List.flatten

/-! ## §2 — runs of blocks -/

/-- The blocks of an extent with their offsets. -/
def BlockMap.expand (e : BlockMap) : List (ℕ × ℤ) := (List.range e.len).map fun j => (e.block + j, e.offset + j)

/-- A block that was met, with the offset by which extents know it. -/
def Visit.entry (w : Visit) : ℕ × ℤ := (w.blocknr, w.code)

/-- Extents for blocks that were met, in order, an indirect block being one by itself. -/
structure RunsOf (ws : List Visit) (blocks : List BlockMap) : Prop where
  expand : blocks.flatMap BlockMap.expand = ws.map Visit.entry
  pos : ∀ e ∈ blocks, 0 < e.len
  single : ∀ e ∈ blocks, e.offset < 0 → e.len = 1
  coded : ∀ e ∈ blocks, e.offset ≠ -1

theorem runsOf_nil : RunsOf [] [] := ⟨rfl, by simp, by simp, by simp⟩

section Runs

variable {ws : List Visit} {blocks : List BlockMap} {w : Visit}

theorem BlockMap.expand_one (block : ℕ) (offset : ℤ) : BlockMap.expand ⟨block, 1, offset⟩ = [(block, offset)] := by
  show [(block + 0, offset + ((0 : ℕ) : ℤ))] = _
  rw [Nat.add_zero, Int.natCast_zero, Int.add_zero]

theorem BlockMap.expand_succ (e : BlockMap) :
    BlockMap.expand { e with len := e.len + 1 } = e.expand ++ [(e.block + e.len, e.offset + e.len)] := by
  unfold BlockMap.expand
  rw [List.range_succ, List.map_append, List.map_singleton]

/-- A new extent. -/
theorem RunsOf.push (h : RunsOf ws blocks) (hw : w.code ≠ -1) :
    RunsOf (ws ++ [w]) (blocks ++ [⟨w.blocknr, 1, w.code⟩]) := by
  refine ⟨?_, fun e he => ?_, fun e he hneg => ?_, fun e he => ?_⟩
  · rw [List.flatMap_append, List.flatMap_singleton, BlockMap.expand_one, h.expand, List.map_append,
      List.map_singleton]
    rfl
  · rcases List.mem_append.mp he with he | he
    · exact h.pos e he
    · rw [List.mem_singleton.mp he]
      exact Nat.one_pos
  · rcases List.mem_append.mp he with he | he
    · exact h.single e he hneg
    · rw [List.mem_singleton.mp he]
  · rcases List.mem_append.mp he with he | he
    · exact h.coded e he
    · rw [List.mem_singleton.mp he]
      exact hw

/-- **`insert_new_block` keeps them so.** -/
theorem RunsOf.insert (h : RunsOf ws blocks) (hw : w.code ≠ -1) :
    RunsOf (ws ++ [w]) (insertNewBlock blocks w.code w.blocknr) := by
  unfold insertNewBlock
  split
  · next last hlast =>
    obtain ⟨init, rfl⟩ := List.getLast?_eq_some_iff.mp hlast
    split
    · next hcontinues =>
      obtain ⟨hdata, hblock, hoffset⟩ := hcontinues
      have hmem : last ∈ init ++ [last] := List.mem_append_right _ List.mem_cons_self
      have hlastData : ¬ last.offset < 0 := by
        intro hneg
        have hone := h.single last hmem hneg
        have hne := h.coded last hmem
        omega
      have hexpand := h.expand
      rw [List.flatMap_append, List.flatMap_singleton] at hexpand
      rw [List.dropLast_concat]
      refine ⟨?_, fun e he => ?_, fun e he hneg => ?_, fun e he => ?_⟩
      · rw [List.flatMap_append, List.flatMap_singleton, BlockMap.expand_succ, ← List.append_assoc, hexpand,
          List.map_append, List.map_singleton, hblock, hoffset]
        rfl
      · rcases List.mem_append.mp he with he | he
        · exact h.pos e (List.mem_append_left _ he)
        · rw [List.mem_singleton.mp he]
          exact Nat.succ_pos _
      · rcases List.mem_append.mp he with he | he
        · exact h.single e (List.mem_append_left _ he) hneg
        · rw [List.mem_singleton.mp he] at hneg
          exact absurd hneg hlastData
      · rcases List.mem_append.mp he with he | he
        · exact h.coded e (List.mem_append_left _ he)
        · rw [List.mem_singleton.mp he]
          exact h.coded last hmem
    · exact h.push hw
  · exact h.push hw

/-- The calls of `store_block` for some blocks whose offsets it computes right. -/
theorem RunsOf.storeBlocks {a : ℕ} {findBlock : ℕ → Bool} {tdata : TraverseData} {vs : List Visit}
    (h : RunsOf ws tdata.blocks) (hright : storeOffsets a findBlock tdata vs = some (vs.map Visit.code))
    (hcoded : ∀ w ∈ vs, w.code ≠ -1) :
    ∃ tdata', vs.foldlM (fun tdata w => storeBlock a findBlock tdata w.blocknr w.offset w.parentOffset) tdata
        = some tdata' ∧ RunsOf (ws ++ vs.filter fun w => findBlock w.blocknr) tdata'.blocks := by
  induction vs generalizing tdata ws with
  | nil =>
      refine ⟨tdata, rfl, ?_⟩
      rw [List.filter_nil, List.append_nil]
      exact h
  | cons w vs ih =>
      rw [storeOffsets] at hright
      split at hright
      · next offset tdata₁ hoffset hstore =>
        obtain ⟨offsets, hrest, heq⟩ := Option.map_eq_some_iff.mp hright
        obtain ⟨rfl, rfl⟩ := List.cons_eq_cons.mp heq
        have hcoded' : ∀ w ∈ vs, w.code ≠ -1 := fun w hw => hcoded w (List.mem_cons_of_mem _ hw)
        -- the part common with `remap_block` leaves the list alone
        have hblocks : tdata₁.blocks =
            if findBlock w.blocknr then insertNewBlock tdata.blocks w.code w.blocknr else tdata.blocks := by
          unfold storeBlock at hstore
          rw [hoffset, Option.map_some, Option.some.injEq] at hstore
          unfold storeOffset at hoffset
          obtain ⟨r, -, hr⟩ := Option.map_eq_some_iff.mp hoffset
          obtain ⟨rfl, hcode⟩ := Prod.mk.inj hr
          rw [← hstore]
          split_ifs <;> rfl
        rw [List.foldlM_cons, hstore]
        by_cases hfound : findBlock w.blocknr = true
        · rw [if_pos hfound] at hblocks
          have hinsert := h.insert (hcoded w List.mem_cons_self)
          rw [← hblocks] at hinsert
          obtain ⟨tdata', hrun, hruns⟩ := ih hinsert hrest hcoded'
          refine ⟨tdata', hrun, ?_⟩
          rw [List.filter_cons, if_pos hfound, List.append_cons]
          exact hruns
        · rw [if_neg hfound] at hblocks
          rw [← hblocks] at h
          obtain ⟨tdata', hrun, hruns⟩ := ih h hrest hcoded'
          refine ⟨tdata', hrun, ?_⟩
          rw [List.filter_cons, if_neg hfound]
          exact hruns
      · cases hright

end Runs

/-! ## §3 — all inodes -/

/-- The blocks `map_blocks` meets in an inode. -/
def ScannedInode.visits (v : View g) (i : ScannedInode) : List Visit :=
  if i.linksCount = 0 ∨ i.regOrDir = false then [] else (v.fileTree i.inum).visits

/-- What `map_blocks` leaves: for each inode extents of the blocks asked for. -/
structure MapsTo (v : View g) (findBlock : ℕ → Bool) (scan : List ScannedInode)
    (blocks : ScannedInode → List BlockMap) (bmap : List MappedExtent) : Prop where
  eq : bmap = scan.flatMap fun i => tagExtents i.inum (blocks i)
  runs : ∀ i ∈ scan, RunsOf ((i.visits v).filter fun w => findBlock w.blocknr) (blocks i)

section Inodes

variable {lib : Ext2fs g} {v : View g} {iextents : List InputExtent}

theorem storeCallback_looksOnly (a : ℕ) : (storeCallback a iextents).LooksOnly := by
  intro data c block data' hchanged
  unfold storeCallback at hchanged
  split at hchanged
  · split at hchanged <;> cases hchanged
  · cases hchanged

/-- The calls made for some visits are those of `store_block`, one after the other. -/
theorem storeCallback_look {a : ℕ} {tdata tdata' : TraverseData} {calls : List Call} {vs : List Visit}
    (hcalls : List.Forall₂ CallFor calls vs) (hlook : (storeCallback a iextents).look tdata calls = some tdata') :
    vs.foldlM (fun tdata w => storeBlock a (asked iextents) tdata w.blocknr w.offset w.parentOffset) tdata
      = some tdata' := by
  induction hcalls generalizing tdata with
  | nil => exact hlook
  | @cons c w calls vs hc hcalls ih =>
      obtain ⟨hblock, hoffset, hparent⟩ := hc
      rw [List.foldlM_cons, ← hblock, ← hoffset, ← hparent]
      unfold Callback.look at hlook
      cases hcall : storeBlock a (asked iextents) tdata c.blocknr c.blockcnt c.refOffset with
      | none =>
          simp only [storeCallback, hcall, ite_self] at hlook
          cases hlook
      | some tdata₁ =>
          by_cases hdefined : (findBlock iextents c.blocknr).defined = true
          · simp only [storeCallback, hcall, if_pos hdefined] at hlook
            exact ih hlook
          · simp only [storeCallback, if_neg hdefined] at hlook
            cases hlook

theorem mapFile_spec (hlib : lib.Documented) {n : ℕ} {blocks : List BlockMap} (htraversable : Traversable v n)
    (hright : (v.fileTree n).visits ≠ [] → FileRight (v.fileTree n))
    (hrun : mapFile lib v iextents n = some blocks) :
    RunsOf ((v.fileTree n).visits.filter fun w => asked iextents w.blocknr) blocks := by
  unfold mapFile at hrun
  have hiterate : lib.blockIterate {} (storeCallback g.addrPerBlock iextents) v n {}
      = ((storeCallback g.addrPerBlock iextents).look {} (fileCalls v n false)).map (⟨v, ·, true⟩) :=
    hlib.looks htraversable (storeCallback_looksOnly g.addrPerBlock)
  rw [hiterate] at hrun
  cases hlook : (storeCallback g.addrPerBlock iextents).look {} (fileCalls v n false) with
  | none =>
      rw [hlook] at hrun
      cases hrun
  | some tdata =>
      rw [hlook] at hrun
      cases hrun
      have hfold := storeCallback_look (fileCalls_callFor v n) hlook
      have hstart : RunsOf [] ({} : TraverseData).blocks := runsOf_nil
      by_cases hempty : (v.fileTree n).visits = []
      · rw [hempty] at hfold ⊢
        cases hfold
        exact hstart
      · have hstore := ((offsetsEncoded_iff g.addrPerBlock_pos _).mpr (hright hempty)).store (asked iextents)
        have hcoded : ∀ w ∈ (v.fileTree n).visits, w.code ≠ -1 := by
          intro w hw heq
          obtain ⟨-, hpos⟩ := file_visits_coded g.addrPerBlock_pos hw
          unfold Visit.code indirectToOff at heq
          split_ifs at heq
          omega
        obtain ⟨tdata', hstored, hruns⟩ := hstart.storeBlocks hstore hcoded
        cases hfold.symm.trans hstored
        exact hruns

theorem mapInode_spec (hlib : lib.Documented) {i : ScannedInode} {tagged : List MappedExtent}
    (htraversable : i.linksCount ≠ 0 → i.regOrDir = true → Traversable v i.inum)
    (hright : i.visits v ≠ [] → FileRight (v.fileTree i.inum)) (hrun : mapInode lib v iextents i = some tagged) :
    ∃ blocks, tagged = tagExtents i.inum blocks ∧
      RunsOf ((i.visits v).filter fun w => asked iextents w.blocknr) blocks := by
  unfold mapInode at hrun
  unfold ScannedInode.visits at hright ⊢
  split_ifs at hright hrun ⊢ with hskip
  · cases hrun
    exact ⟨[], rfl, runsOf_nil⟩
  · obtain ⟨blocks, hfile, rfl⟩ := Option.map_eq_some_iff.mp hrun
    rw [not_or, Bool.not_eq_false] at hskip
    exact ⟨blocks, rfl, mapFile_spec hlib (htraversable hskip.1 hskip.2) hright hfile⟩

/-- **What `map_blocks` leaves**, if the offsets of the files are computed right. -/
theorem mapBlocks_spec (hlib : lib.Documented) {scan : List ScannedInode} {bmap : List MappedExtent}
    (hscan : (scan.map ScannedInode.inum).Nodup)
    (htraversable : ∀ i ∈ scan, i.linksCount ≠ 0 → i.regOrDir = true → Traversable v i.inum)
    (hright : ∀ i ∈ scan, i.visits v ≠ [] → FileRight (v.fileTree i.inum))
    (hrun : mapBlocks lib v iextents scan = some bmap) : ∃ blocks, MapsTo v (asked iextents) scan blocks bmap := by
  obtain ⟨tagged, htagged, rfl⟩ := Option.map_eq_some_iff.mp hrun
  clear hrun
  induction scan generalizing tagged with
  | nil =>
      cases htagged
      exact ⟨fun _ => [], rfl, fun i hi => absurd hi List.not_mem_nil⟩
  | cons i scan ih =>
      obtain ⟨hnew, hscan'⟩ := List.nodup_cons.mp hscan
      rw [List.mapM_cons] at htagged
      obtain ⟨first, hfirst, hbind⟩ := Option.bind_eq_some_iff.mp htagged
      obtain ⟨rest, hrest, heq⟩ := Option.bind_eq_some_iff.mp hbind
      cases heq
      obtain ⟨run, rfl, hruns⟩ :=
        mapInode_spec hlib (htraversable i List.mem_cons_self) (hright i List.mem_cons_self) hfirst
      obtain ⟨blocks, hblocks⟩ := ih hscan' (fun j hj => htraversable j (List.mem_cons_of_mem i hj))
        (fun j hj => hright j (List.mem_cons_of_mem i hj)) rest hrest
      have hother : ∀ j ∈ scan, j ≠ i := by
        rintro j hj rfl
        exact hnew (List.mem_map_of_mem hj)
      refine ⟨fun j => if j = i then run else blocks j, ?_, fun j hj => ?_⟩
      · rw [List.flatten_cons, List.flatMap_cons, if_pos rfl, hblocks.eq]
        congr 1
        exact List.flatMap_congr fun j hj => by rw [if_neg (hother j hj)]
      · rcases List.mem_cons.mp hj with rfl | hj
        · rw [if_pos rfl]
          exact hruns
        · rw [if_neg (hother j hj)]
          exact hblocks.runs j hj

end Inodes

/-! ## §4 — the table of extents -/

section Table

variable {v : View g} {reserved : Set ℕ} {used : ℕ → Bool} {scan : List ScannedInode} {findBlock : ℕ → Bool}
  {blocks : ScannedInode → List BlockMap} {bmap : List MappedExtent} {e : MappedExtent} {w : Visit} {n : ℕ}

/-- A block met in a file is that of a place. -/
theorem exists_place_of_visit (hw : w ∈ (v.fileTree n).visits) :
    ∃ p : Place g, p.inodeNumber = n ∧ v.ref p ≠ 0 ∧ p.visit v = w := by
  rw [MoveBlocks.visits_fileTree] at hw
  obtain ⟨p, hp, rfl⟩ := List.mem_map.mp hw
  obtain ⟨hmem, hpresent⟩ := List.mem_filter.mp hp
  exact ⟨p, MoveBlocks.mem_filePlaces.mp hmem, MoveBlocks.View.present_iff.mp hpresent, rfl⟩

theorem ScannedInode.mem_visits {i : ScannedInode} (hw : w ∈ i.visits v) :
    i.linksCount ≠ 0 ∧ w ∈ (v.fileTree i.inum).visits := by
  unfold ScannedInode.visits at hw
  split_ifs at hw with hskip
  · cases hw
  · exact ⟨fun hzero => hskip (.inl hzero), hw⟩

/-- No block is met twice. -/
theorem blocks_nodup (hwf : WellFormed reserved v used) (hscan : (scan.map ScannedInode.inum).Nodup) :
    (scan.flatMap fun i => (i.visits v).map Visit.blocknr).Nodup := by
  have hfile : ∀ n, ((v.fileTree n).visits.map Visit.blocknr).Nodup := by
    intro n
    have hordered := file_visits_ordered g.addrPerBlock_pos (v.fileTree n)
    rw [List.Nodup, List.pairwise_map]
    refine hordered.imp_of_mem fun {w w'} hw hw' hbefore heq => ?_
    obtain ⟨p, -, hne, rfl⟩ := exists_place_of_visit hw
    obtain ⟨p', -, -, rfl⟩ := exists_place_of_visit hw'
    obtain rfl := hwf.owners.eq_of_ref_eq hne heq
    unfold Visit.Before at hbefore
    omega
  refine List.nodup_flatMap.mpr ⟨fun i _ => ?_, (List.pairwise_map.mp hscan).imp fun {i i'} hne => ?_⟩
  · unfold ScannedInode.visits
    split_ifs
    · exact List.nodup_nil
    · exact hfile i.inum
  · intro b hb hb'
    obtain ⟨w, hw, rfl⟩ := List.mem_map.mp hb
    obtain ⟨w', hw', heq⟩ := List.mem_map.mp hb'
    obtain ⟨p, hp, hpne, rfl⟩ := exists_place_of_visit (ScannedInode.mem_visits hw).2
    obtain ⟨p', hp', -, rfl⟩ := exists_place_of_visit (ScannedInode.mem_visits hw').2
    obtain rfl := hwf.owners.eq_of_ref_eq hpne heq.symm
    exact hne (hp.symm.trans hp')

theorem BlockMap.map_fst_expand (e : BlockMap) : e.expand.map Prod.fst = List.range' e.block e.len := by
  unfold BlockMap.expand
  rw [List.map_map, List.range'_eq_map_range]
  rfl

/-- The blocks of all extents are those met and asked for, in order. -/
theorem MapsTo.flatMap_blocks (h : MapsTo v findBlock scan blocks bmap) :
    (bmap.flatMap fun e => List.range' e.block e.len) =
      scan.flatMap fun i => ((i.visits v).filter fun w => findBlock w.blocknr).map Visit.blocknr := by
  rw [h.eq, List.flatMap_assoc]
  refine List.flatMap_congr fun i hi => ?_
  have hexpand := congrArg (List.map Prod.fst) (h.runs i hi).expand
  rw [List.map_flatMap, List.map_map] at hexpand
  unfold tagExtents
  rw [List.flatMap_map]
  refine Eq.trans ?_ hexpand
  exact List.flatMap_congr fun e _ => e.map_fst_expand.symm

/-- An extent belongs to a scanned inode. -/
theorem MapsTo.exists_run (h : MapsTo v findBlock scan blocks bmap) (he : e ∈ bmap) :
    ∃ i ∈ scan, e.ino = i.inum ∧ e.name = none ∧ (⟨e.block, e.len, e.offset⟩ : BlockMap) ∈ blocks i := by
  rw [h.eq] at he
  obtain ⟨i, hi, he⟩ := List.mem_flatMap.mp he
  obtain ⟨run, hrun, rfl⟩ := List.mem_map.mp he
  exact ⟨i, hi, rfl, rfl, hrun⟩

/-- The blocks of an extent are met in its inode, with consecutive offsets. -/
theorem MapsTo.mapped (h : MapsTo v findBlock scan blocks bmap) (he : e ∈ bmap) :
    ∃ i ∈ scan, e.ino = i.inum ∧ ∀ j < e.len,
      ∃ w ∈ i.visits v, findBlock w.blocknr = true ∧ w.code = e.offset + j ∧ w.blocknr = e.block + j := by
  obtain ⟨i, hi, hino, -, hrun⟩ := h.exists_run he
  refine ⟨i, hi, hino, fun j hj => ?_⟩
  have hentry : (e.block + j, e.offset + j) ∈ (blocks i).flatMap BlockMap.expand :=
    List.mem_flatMap.mpr ⟨_, hrun, List.mem_map.mpr ⟨j, List.mem_range.mpr hj, rfl⟩⟩
  rw [(h.runs i hi).expand] at hentry
  obtain ⟨w, hw, heq⟩ := List.mem_map.mp hentry
  obtain ⟨hblock, hcode⟩ := Prod.mk.inj heq
  obtain ⟨hmet, hfound⟩ := List.mem_filter.mp hw
  exact ⟨w, hmet, hfound, hcode, hblock⟩

theorem MapsTo.pos (h : MapsTo v findBlock scan blocks bmap) (he : e ∈ bmap) : 0 < e.len := by
  obtain ⟨i, hi, -, -, hrun⟩ := h.exists_run he
  exact (h.runs i hi).pos _ hrun

/-- Every block of an extent is a block of the filesystem. -/
theorem MapsTo.lt_blocksCount (h : MapsTo v findBlock scan blocks bmap) (hwf : WellFormed reserved v used)
    (he : e ∈ bmap) : e.block + e.len ≤ g.sBlocksCount := by
  have hpos := h.pos he
  obtain ⟨i, -, -, hmapped⟩ := h.mapped he
  obtain ⟨w, hw, -, -, hblock⟩ := hmapped (e.len - 1) (by omega)
  obtain ⟨p, -, hne, rfl⟩ := exists_place_of_visit (ScannedInode.mem_visits hw).2
  have hmap := hwf.ref_inMap hne
  have href : v.ref p = e.block + (e.len - 1) := hblock
  unfold inBlockMap at hmap
  rw [Bool.and_eq_true, decide_eq_true_iff, decide_eq_true_iff] at hmap
  omega

/-- **The extents of a well-formed filesystem make a table** that `dump_times` can search. -/
theorem MapsTo.mappedTable (h : MapsTo v findBlock scan blocks bmap) (hwf : WellFormed reserved v used)
    (hscan : (scan.map ScannedInode.inum).Nodup) (hsmall : g.sBlocksCount ≤ 2 ^ 31) : MappedTable bmap where
  nonempty _ he := h.pos he
  below _ he := (h.lt_blocksCount hwf he).trans hsmall
  disjoint := by
    have hnodup : (bmap.flatMap fun e => List.range' e.block e.len).Nodup := by
      rw [h.flatMap_blocks]
      refine (blocks_nodup hwf hscan).sublist ?_
      refine List.Sublist.flatMap_right _ fun i _ => ?_
      exact List.filter_sublist.map _
    refine (List.nodup_flatMap.mp hnodup).2.imp_of_mem fun {e e'} he he' hapart => ?_
    have hpos := h.pos he
    have hpos' := h.pos he'
    by_contra hnot
    rw [not_or, not_le, not_le] at hnot
    have hin : max e.block e'.block ∈ List.range' e.block e.len := List.mem_range'_1.mpr ⟨by omega, by omega⟩
    have hin' : max e.block e'.block ∈ List.range' e'.block e'.len := List.mem_range'_1.mpr ⟨by omega, by omega⟩
    exact hapart hin hin'

end Table

end Prefetch.Remap

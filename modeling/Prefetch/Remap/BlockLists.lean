/-
# Prefetch.Remap.BlockLists — the lists of `insert_new_block`, and when they break

The entries of the array belong to inodes in turn, and those of an inode are linked one to the next
(`BlockTable.LaidFor`). A call that does not strand keeps this layout (`Laid.insertNewBlock`), in which
all addresses are good and the lists complete (`Laid.pointersCurrent`, `Laid.lists`). Moving an array that
anything else points to strands, and so does a count of its entries that wraps around to zero;
`recording_right_iff` says that this is exactly when a run goes wrong.
-/
import Prefetch.Lib.LinkedSegments
import Prefetch.Lib.Runs
import Prefetch.Remap.BlockTable

namespace Prefetch.Remap

open Function LinkedSegments Runs
open MovedArray (Pointer)

variable {ι : Type*}

/-! ## §1 — how the table is laid out -/

namespace BlockTable

/-- The entries belong to `owners` in turn. Those of an inode are its extents, and they are one list
through the array, or with `-t` lead to the inode. The last one is `last_block`, for the inodes that
keep it. -/
structure LaidFor [DecidableEq ι] (s : BlockTable ι) (keeps : ι → Prop) (owners : List ι)
    (recorded : ι → List BlockMap) : Prop where
  length_eq : owners.length = s.mapCount
  fits : s.mapCount ≤ s.bmapAllocated
  allocated : bmapAllocEntries ∣ s.bmapAllocated
  bounded : s.bmapAllocated < 2 ^ 32
  recorded_eq : ∀ i, recorded i = (positions owners i).map fun k => (s.entries k).extent
  last : ∀ i, keeps i → (s.inodes i).lastBlock = (positions owners i).getLast?.map (Pointer.mk s.bmap)
  linked : s.dumpTimes = false → ∀ i,
    Segment s.next (s.inodes i).blocks ((positions owners i).map (Pointer.mk s.bmap)) none
  unlisted : s.dumpTimes = true → ∀ i, (s.inodes i).blocks = none
  tagged : s.dumpTimes = true → ∀ k < s.mapCount, ∃ i, owners[k]? = some i ∧ (s.entries k).u = .inode i

/-- All inodes keep their last one. -/
abbrev Laid [DecidableEq ι] (s : BlockTable ι) (owners : List ι) (recorded : ι → List BlockMap) :
    Prop :=
  s.LaidFor (fun _ => True) owners recorded

variable {s s' : BlockTable ι} {keeps : ι → Prop} {owners : List ι} {recorded : ι → List BlockMap}
  {call : InsertCall ι} {i j : ι} {k : ℕ} {ks : List ℕ} {p : Pointer} {ps : List Pointer}
  {q : Option Pointer} {offset : ℤ} {block : ℕ}

theorem read_eq (ha : p.array = s.bmap) (hi : p.index < s.bmapAllocated) :
    s.read p = some (s.entries p.index) := if_pos ⟨ha, hi⟩

theorem read_entry (hk : k < s.bmapAllocated) : s.read ⟨s.bmap, k⟩ = some (s.entries k) :=
  read_eq rfl hk

theorem read_stale (ha : p.array ≠ s.bmap) : s.read p = none := if_neg fun h => ha h.1

theorem next_eq (ha : p.array = s.bmap) (hi : p.index < s.bmapAllocated)
    (hu : (s.entries p.index).u = .next q) : s.next p = some q := by
  rw [next, read_eq ha hi]
  cases hentry : s.entries p.index with
  | mk extent u =>
      rw [hentry] at hu
      cases hu
      rfl

/-- A link is an entry that can be read, and its `u.next`. -/
theorem next_eq_some_iff :
    s.next p = some q ↔
      (p.array = s.bmap ∧ p.index < s.bmapAllocated) ∧ (s.entries p.index).u = .next q := by
  constructor
  · intro h
    unfold next read at h
    by_cases hread : p.array = s.bmap ∧ p.index < s.bmapAllocated
    · rw [if_pos hread] at h
      cases hentry : s.entries p.index with
      | mk extent u =>
          rw [hentry] at h
          cases u with
          | next q' =>
              cases h
              exact ⟨hread, rfl⟩
          | inode i => exact absurd h nofun
    · rw [if_neg hread] at h
      exact absurd h nofun
  · rintro ⟨⟨ha, hi⟩, hu⟩
    exact next_eq ha hi hu

/-- A link stays while its entry does. -/
theorem next_congr (hbmap : s'.bmap = s.bmap)
    (hroom : p.index < s'.bmapAllocated ↔ p.index < s.bmapAllocated)
    (hu : (s'.entries p.index).u = (s.entries p.index).u) : s'.next p = s.next p := by
  apply Option.ext
  intro q
  rw [next_eq_some_iff, next_eq_some_iff, hbmap, hroom, hu]

/-- **Over the entries of a list, `dump_inode` lists their extents.** -/
theorem dumpBlocks_of_segment (h : Segment s.next q ps none) {n : ℕ} (hn : ps.length ≤ n) :
    s.dumpBlocks n q = some (ps.map fun p => (s.entries p.index).extent) := by
  induction ps generalizing q n with
  | nil =>
      cases h
      unfold dumpBlocks
      rfl
  | cons p ps ih =>
      obtain ⟨rfl, q', hlink, hrest⟩ := h
      obtain ⟨⟨ha, hi⟩, hu⟩ := next_eq_some_iff.1 hlink
      cases n with
      | zero => exact absurd hn (Nat.not_succ_le_zero _)
      | succ n =>
          rw [dumpBlocks, read_eq ha hi]
          cases hentry : s.entries p.index with
          | mk extent u =>
              rw [hentry] at hu
              cases hu
              dsimp only
              rw [ih hrest (Nat.le_of_succ_le_succ hn), List.map_cons, hentry]
              rfl

section Laid

variable [DecidableEq ι]

theorem LaidFor.lt_of_mem (h : s.LaidFor keeps owners recorded) (hk : k ∈ positions owners i) :
    k < s.mapCount := by
  rw [← h.length_eq]
  exact lt_of_mem_positions hk

theorem LaidFor.lt_of_last (h : s.LaidFor keeps owners recorded) (hks : positions owners i = ks ++ [k]) :
    k < s.mapCount := by
  have hk : k ∈ positions owners i := hks ▸ List.mem_concat_self
  exact h.lt_of_mem hk

/-- An inode has no entries yet, or its `last_block` is the last of them. -/
theorem LaidFor.lastBlock_cases (h : s.LaidFor keeps owners recorded) (hi : keeps i) :
    (positions owners i = [] ∧ (s.inodes i).lastBlock = none) ∨
      ∃ ks k, positions owners i = ks ++ [k] ∧ (s.inodes i).lastBlock = some ⟨s.bmap, k⟩ := by
  have hlast := h.last i hi
  rcases List.eq_nil_or_concat' (positions owners i) with hks | ⟨ks, k, hks⟩
  · rw [hks] at hlast
    exact Or.inl ⟨hks, hlast⟩
  · rw [hks, List.getLast?_concat] at hlast
    exact Or.inr ⟨ks, k, hks, hlast⟩

/-- The last entry of an inode is not one of the others, nor one of another inode. -/
theorem ne_of_mem_front (hks : positions owners i = ks ++ [k]) {m : ℕ} (hm : m ∈ ks) : m ≠ k := by
  rintro rfl
  have hnodup : (ks ++ [m]).Nodup := hks ▸ positions_nodup
  exact (List.nodup_append.1 hnodup).2.2 m hm m (List.mem_singleton_self m) rfl

theorem ne_of_mem_other (hks : positions owners i = ks ++ [k]) (hj : j ≠ i) {m : ℕ}
    (hm : m ∈ positions owners j) : m ≠ k := by
  rintro rfl
  have hi : m ∈ positions owners i := hks ▸ List.mem_concat_self
  exact hj (owner_unique hm hi)

theorem LaidFor.refersTo (h : s.LaidFor keeps owners recorded)
    (hp : p ∈ (positions owners i).map (Pointer.mk s.bmap)) : s.RefersTo p := by
  obtain ⟨k, hk, rfl⟩ := List.mem_map.1 hp
  exact ⟨rfl, h.lt_of_mem hk⟩

/-- **In a table that is laid out all addresses are of entries**, and `dump_inode` lists the extents. -/
theorem Laid.pointersCurrent (h : s.Laid owners recorded) : s.PointersCurrent := by
  refine ⟨fun i p hp => ?_, fun i p hp => ?_, fun k hk p hu => ?_⟩
  · cases ht : s.dumpTimes with
    | true =>
        rw [h.unlisted ht i] at hp
        exact absurd hp nofun
    | false =>
        have hlist := h.linked ht i
        rw [Option.mem_def.1 hp] at hlist
        exact h.refersTo hlist.head_mem
  · rcases h.lastBlock_cases (i := i) trivial with ⟨-, hnone⟩ | ⟨ks, m, hks, hsome⟩
    · rw [hnone] at hp
      exact absurd hp nofun
    · rw [hsome] at hp
      obtain rfl := Option.some.inj hp
      exact ⟨rfl, h.lt_of_last hks⟩
  · cases ht : s.dumpTimes with
    | true =>
        obtain ⟨i, -, htag⟩ := h.tagged ht k hk
        rw [htag] at hu
        exact absurd hu nofun
    | false =>
        obtain ⟨i, hi⟩ := exists_mem_positions (h.length_eq ▸ hk)
        have hlink : s.next ⟨s.bmap, k⟩ = some (some p) := next_eq rfl (hk.trans_le h.fits) hu
        exact h.refersTo ((h.linked ht i).link_mem (List.mem_map_of_mem hi) hlink)

theorem Laid.lists (h : s.Laid owners recorded) (ht : s.dumpTimes = false) : s.Lists recorded := by
  intro i n hn
  have hlength : ((positions owners i).map (Pointer.mk s.bmap)).length ≤ n := by
    rw [List.length_map]
    exact (length_positions_le.trans_eq h.length_eq).trans hn
  rw [dumpInode, dumpBlocks_of_segment (h.linked ht i) hlength, List.map_map, h.recorded_eq i]
  rfl

/-- The last extent of an inode becomes longer. -/
theorem Laid.prolongEntry (h : s.Laid owners recorded) (hks : positions owners i = ks ++ [k])
    (hcontinues : (s.entries k).extent.Continues offset block) :
    (s.prolongEntry k).Laid owners (update recorded i (recordBlock (recorded i) offset block)) := by
  have hother : ∀ m, m ≠ k → (s.prolongEntry k).entries m = s.entries m :=
    fun m hm => update_of_ne hm _ _
  have hself : (s.prolongEntry k).entries k =
      { s.entries k with extent := (s.entries k).extent.prolong } := update_self _ _ _
  have hu : ∀ m, ((s.prolongEntry k).entries m).u = (s.entries m).u := by
    intro m
    by_cases hm : m = k
    · rw [hm, hself]
    · rw [hother m hm]
  refine { h with
    recorded_eq := fun j => ?_
    linked := fun ht j => (h.linked ht j).congr fun p _ => next_congr rfl Iff.rfl (hu p.index)
    tagged := fun ht m hm => ?_ }
  · by_cases hj : j = i
    · rw [hj, update_self, h.recorded_eq i, hks, List.map_append, List.map_append, List.map_singleton,
        List.map_singleton, recordBlock_prolong hcontinues, hself]
      congr 1
      exact List.map_congr_left fun m hm => by rw [hother m (ne_of_mem_front hks hm)]
    · rw [update_of_ne hj, h.recorded_eq j]
      exact List.map_congr_left fun m hm => by rw [hother m (ne_of_mem_other hks hj hm)]
  · obtain ⟨j, hj, htag⟩ := h.tagged ht m hm
    exact ⟨j, hj, (hu m).trans htag⟩

/-! ## §2 — a new entry -/

/-- What a new entry leaves in the table, whatever its links. -/
structure Adds (s s' : BlockTable ι) (call : InsertCall ι) : Prop where
  dumpTimes : s'.dumpTimes = s.dumpTimes
  bmap : s'.bmap = s.bmap
  mapCount : s'.mapCount = s.mapCount + 1
  bmapAllocated : s'.bmapAllocated = s.bmapAllocated
  extent : (s'.entries s.mapCount).extent = ⟨call.block, 1, call.offset⟩
  extent_of_ne : ∀ k, k ≠ s.mapCount → (s'.entries k).extent = (s.entries k).extent
  last : (s'.inodes call.inode).lastBlock = some ⟨s.bmap, s.mapCount⟩
  last_of_ne : ∀ j, j ≠ call.inode → (s'.inodes j).lastBlock = (s.inodes j).lastBlock

theorem addEntry_full (hfull : s.bmapAllocated ≤ s.mapCount) : s.addEntry call = .error .undefined :=
  if_pos hfull

theorem addEntry_tag (hroom : s.mapCount < s.bmapAllocated) (ht : s.dumpTimes = true) :
    s.addEntry call = .ok (s.tagEntry call) := by
  rw [addEntry, if_neg hroom.not_ge, if_pos ht]

theorem addEntry_first (hroom : s.mapCount < s.bmapAllocated) (ht : s.dumpTimes = false)
    (hlast : (s.inodes call.inode).lastBlock = none) : s.addEntry call = .ok (s.firstEntry call) := by
  rw [addEntry, if_neg hroom.not_ge, ht, if_neg Bool.false_ne_true, hlast]

theorem addEntry_link (hroom : s.mapCount < s.bmapAllocated) (ht : s.dumpTimes = false)
    (hlast : (s.inodes call.inode).lastBlock = some ⟨s.bmap, k⟩) (hk : k < s.bmapAllocated) :
    s.addEntry call = .ok (s.linkEntry call k) := by
  rw [addEntry, if_neg hroom.not_ge, ht, if_neg Bool.false_ne_true, hlast]
  simp only [read_entry hk]

/-- The last entry of the inode was in an array that was given up. -/
theorem addEntry_stale (ht : s.dumpTimes = false) (hlast : (s.inodes call.inode).lastBlock = some p)
    (ha : p.array ≠ s.bmap) : s.addEntry call = .error .undefined := by
  by_cases hfull : s.bmapAllocated ≤ s.mapCount
  · exact addEntry_full hfull
  · rw [addEntry, if_neg hfull, ht, if_neg Bool.false_ne_true, hlast]
    simp only [read_stale ha]

theorem adds_tagEntry : Adds s (s.tagEntry call) call where
  dumpTimes := rfl
  bmap := rfl
  mapCount := rfl
  bmapAllocated := rfl
  extent := by simp [tagEntry]
  extent_of_ne k hk := by simp [tagEntry, hk]
  last := by simp [tagEntry]
  last_of_ne j hj := by simp [tagEntry, hj]

theorem adds_firstEntry : Adds s (s.firstEntry call) call where
  dumpTimes := rfl
  bmap := rfl
  mapCount := rfl
  bmapAllocated := rfl
  extent := by simp [firstEntry]
  extent_of_ne k hk := by simp [firstEntry, hk]
  last := by simp [firstEntry]
  last_of_ne j hj := by simp [firstEntry, hj]

theorem adds_linkEntry (hk : k ≠ s.mapCount) : Adds s (s.linkEntry call k) call where
  dumpTimes := rfl
  bmap := rfl
  mapCount := rfl
  bmapAllocated := rfl
  extent := by simp [linkEntry, hk.symm]
  extent_of_ne m hm := by
    by_cases hmk : m = k
    · simp [linkEntry, hmk, hk]
    · simp [linkEntry, hm, hmk]
  last := by simp [linkEntry]
  last_of_ne j hj := by simp [linkEntry, hj]

/-- **A new entry keeps the layout**: it is the last of its inode, and nothing else is changed. -/
theorem LaidFor.laid_of_adds (h : s.LaidFor keeps owners recorded)
    (hroom : s.mapCount < s.bmapAllocated) (hkeeps : ∀ j, j ≠ call.inode → keeps j)
    (hnew : recordBlock (recorded call.inode) call.offset call.block =
      recorded call.inode ++ [⟨call.block, 1, call.offset⟩])
    (hadds : Adds s s' call)
    (hlinked : s.dumpTimes = false → ∀ j, Segment s'.next (s'.inodes j).blocks
      ((positions (owners ++ [call.inode]) j).map (Pointer.mk s.bmap)) none)
    (hunlisted : s.dumpTimes = true → ∀ j, (s'.inodes j).blocks = none)
    (htagged : s.dumpTimes = true → ∀ k < s.mapCount + 1,
      ∃ j, (owners ++ [call.inode])[k]? = some j ∧ (s'.entries k).u = .inode j) :
    s'.Laid (owners ++ [call.inode])
      (update recorded call.inode (recordBlock (recorded call.inode) call.offset call.block)) where
  length_eq := by rw [List.length_append, h.length_eq, hadds.mapCount, List.length_singleton]
  fits := by rw [hadds.mapCount, hadds.bmapAllocated]; exact hroom
  allocated := hadds.bmapAllocated ▸ h.allocated
  bounded := hadds.bmapAllocated ▸ h.bounded
  recorded_eq j := by
    have hbefore : (positions owners j).map (fun k => (s'.entries k).extent) = recorded j := by
      rw [h.recorded_eq j]
      exact List.map_congr_left fun k hk => hadds.extent_of_ne k (h.lt_of_mem hk).ne
    by_cases hj : j = call.inode
    · subst hj
      rw [update_self, hnew, positions_concat_self, List.map_append, hbefore, List.map_singleton,
        h.length_eq, hadds.extent]
    · rw [update_of_ne hj, positions_concat_of_ne hj, hbefore]
  last j _ := by
    by_cases hj : j = call.inode
    · subst hj
      rw [hadds.last, positions_concat_self, List.getLast?_concat, h.length_eq, hadds.bmap]
      rfl
    · rw [hadds.last_of_ne j hj, positions_concat_of_ne hj, hadds.bmap]
      exact h.last j (hkeeps j hj)
  linked ht := by
    rw [hadds.bmap]
    exact hlinked (hadds.dumpTimes ▸ ht)
  unlisted ht := hunlisted (hadds.dumpTimes ▸ ht)
  tagged ht := by
    rw [hadds.mapCount]
    exact htagged (hadds.dumpTimes ▸ ht)

section Entries

variable (h : s.LaidFor keeps owners recorded) (hroom : s.mapCount < s.bmapAllocated)
include h

theorem LaidFor.tagged_tagEntry (ht : s.dumpTimes = true) (hk : k < s.mapCount + 1) :
    ∃ j, (owners ++ [call.inode])[k]? = some j ∧ ((s.tagEntry call).entries k).u = .inode j := by
  rcases Nat.lt_succ_iff_lt_or_eq.1 hk with hlt | rfl
  · obtain ⟨j, hj, htag⟩ := h.tagged ht k hlt
    refine ⟨j, ?_, ?_⟩
    · rw [List.getElem?_append_left (h.length_eq ▸ hlt), hj]
    · simpa [tagEntry, hlt.ne] using htag
  · refine ⟨call.inode, ?_, ?_⟩
    · rw [← h.length_eq, List.getElem?_concat_length]
    · simp [tagEntry]

include hroom

theorem LaidFor.linked_firstEntry (ht : s.dumpTimes = false) (hfirst : positions owners call.inode = [])
    (j : ι) :
    Segment (s.firstEntry call).next ((s.firstEntry call).inodes j).blocks
      ((positions (owners ++ [call.inode]) j).map (Pointer.mk s.bmap)) none := by
  by_cases hj : j = call.inode
  · subst hj
    have hblocks : ((s.firstEntry call).inodes call.inode).blocks = some ⟨s.bmap, s.mapCount⟩ := by
      simp [firstEntry]
    have hend : (s.firstEntry call).next ⟨s.bmap, s.mapCount⟩ = some none :=
      next_eq rfl hroom (by simp [firstEntry])
    rw [positions_concat_self, hfirst, List.nil_append, List.map_singleton, h.length_eq, hblocks]
    exact segment_singleton.2 ⟨rfl, hend⟩
  -- the list of another inode does not come to the new entry
  · have hblocks : ((s.firstEntry call).inodes j).blocks = (s.inodes j).blocks := by
      simp [firstEntry, hj]
    rw [positions_concat_of_ne hj, hblocks]
    refine (h.linked ht j).congr fun p hp => next_congr rfl Iff.rfl ?_
    obtain ⟨k, hk, rfl⟩ := List.mem_map.1 hp
    simp [firstEntry, (h.lt_of_mem hk).ne]

theorem LaidFor.linked_linkEntry (ht : s.dumpTimes = false)
    (hks : positions owners call.inode = ks ++ [k]) (j : ι) :
    Segment (s.linkEntry call k).next ((s.linkEntry call k).inodes j).blocks
      ((positions (owners ++ [call.inode]) j).map (Pointer.mk s.bmap)) none := by
  have hk : k < s.mapCount := h.lt_of_last hks
  have hblocks : ((s.linkEntry call k).inodes j).blocks = (s.inodes j).blocks := by
    simp [linkEntry]
  have hkept : ∀ m, m < s.mapCount → m ≠ k →
      (s.linkEntry call k).next ⟨s.bmap, m⟩ = s.next ⟨s.bmap, m⟩ := by
    intro m hm hmk
    refine next_congr rfl Iff.rfl ?_
    simp [linkEntry, hmk, hm.ne]
  rw [hblocks]
  have hlist := h.linked ht j
  by_cases hj : j = call.inode
  · subst hj
    rw [hks, List.map_append, List.map_singleton] at hlist
    rw [positions_concat_self, hks, List.map_append, List.map_append, List.map_singleton,
      List.map_singleton, h.length_eq]
    refine hlist.concat ?_ ?_ ?_
    · intro c hc
      obtain ⟨m, hm, rfl⟩ := List.mem_map.1 hc
      exact hkept m (h.lt_of_mem (hks ▸ List.mem_append_left _ hm)) (ne_of_mem_front hks hm)
    · exact next_eq rfl (hk.trans hroom) (by simp [linkEntry])
    · exact next_eq rfl hroom (by simp [linkEntry, hk.ne'])
  · rw [positions_concat_of_ne hj]
    refine hlist.congr fun p hp => ?_
    obtain ⟨m, hm, rfl⟩ := List.mem_map.1 hp
    exact hkept m (h.lt_of_mem hm) (ne_of_mem_other hks hj hm)

/-- **With room for it, a new entry is added.** -/
theorem LaidFor.addEntry (hkeeps : ∀ j, j ≠ call.inode → keeps j)
    (hself : s.dumpTimes = false → keeps call.inode)
    (hnew : recordBlock (recorded call.inode) call.offset call.block =
      recorded call.inode ++ [⟨call.block, 1, call.offset⟩]) :
    ∃ s', s.addEntry call = .ok s' ∧ s'.Laid (owners ++ [call.inode])
      (update recorded call.inode (recordBlock (recorded call.inode) call.offset call.block)) := by
  cases ht : s.dumpTimes with
  | true =>
      refine ⟨s.tagEntry call, addEntry_tag hroom ht, ?_⟩
      refine h.laid_of_adds hroom hkeeps hnew adds_tagEntry (fun hf => ?_) (fun _ j => ?_) ?_
      · exact absurd (ht.symm.trans hf) nofun
      · have hblocks : ((s.tagEntry call).inodes j).blocks = (s.inodes j).blocks := by
          simp [tagEntry]
        rw [hblocks, h.unlisted ht j]
      · exact fun _ k hk => h.tagged_tagEntry ht hk
  | false =>
      have htrue : s.dumpTimes ≠ true := by
        rw [ht]
        decide
      rcases h.lastBlock_cases (hself ht) with ⟨hfirst, hlast⟩ | ⟨ks, k, hks, hlast⟩
      · refine ⟨s.firstEntry call, addEntry_first hroom ht hlast, ?_⟩
        exact h.laid_of_adds hroom hkeeps hnew adds_firstEntry
          (fun _ => h.linked_firstEntry hroom ht hfirst) (fun hf => absurd hf htrue)
          (fun hf => absurd hf htrue)
      · have hk : k < s.mapCount := h.lt_of_last hks
        refine ⟨s.linkEntry call k, addEntry_link hroom ht hlast (hk.trans hroom), ?_⟩
        exact h.laid_of_adds hroom hkeeps hnew (adds_linkEntry hk.ne)
          (fun _ => h.linked_linkEntry hroom ht hks) (fun hf => absurd hf htrue)
          (fun hf => absurd hf htrue)

end Entries

/-! ## §3 — one call -/

/-- The last extent of an inode that the block continues is made longer. -/
theorem Laid.prolongLast_of_prolongs (h : s.Laid owners recorded) (hprolongs : s.Prolongs call) :
    ∃ s', s.prolongLast call = .ok (some s') ∧ s'.Laid owners
      (update recorded call.inode (recordBlock (recorded call.inode) call.offset call.block)) := by
  obtain ⟨last, hlast, hcontinues⟩ := hprolongs
  rcases h.lastBlock_cases (i := call.inode) trivial with ⟨-, hnone⟩ | ⟨ks, k, hks, hsome⟩
  · rw [hnone] at hlast
    exact absurd hlast nofun
  · rw [hsome] at hlast
    obtain rfl := Option.some.inj hlast
    have hk : k < s.mapCount := h.lt_of_last hks
    have hread := read_entry (hk.trans_le h.fits)
    refine ⟨s.prolongEntry k, ?_, h.prolongEntry hks hcontinues⟩
    rw [prolongLast, hsome]
    simp only [hread]
    rw [if_pos hcontinues.1, if_pos hcontinues]

/-- One that it does not continue stays, and another one is recorded. -/
theorem Laid.prolongLast_of_not (h : s.Laid owners recorded) (hnot : ¬ s.Prolongs call) :
    s.prolongLast call = .ok none ∧ recordBlock (recorded call.inode) call.offset call.block =
      recorded call.inode ++ [⟨call.block, 1, call.offset⟩] := by
  rcases h.lastBlock_cases (i := call.inode) trivial with ⟨hfirst, hnone⟩ | ⟨ks, k, hks, hsome⟩
  · refine ⟨by rw [prolongLast, hnone], ?_⟩
    rw [h.recorded_eq, hfirst]
    exact recordBlock_nil
  · have hk : k < s.mapCount := h.lt_of_last hks
    have hread := read_entry (hk.trans_le h.fits)
    have hbreaks : ¬ (s.entries k).extent.Continues call.offset call.block :=
      fun hcontinues => hnot ⟨⟨s.bmap, k⟩, hsome, hcontinues⟩
    constructor
    · rw [prolongLast, hsome]
      simp only [hread]
      rw [if_neg hbreaks, ite_self]
    · apply recordBlock_append
      intro last hlast
      rw [h.recorded_eq, hks, List.map_append, List.map_singleton, List.getLast?_concat] at hlast
      obtain rfl := Option.some.inj hlast
      exact hbreaks

/-- The array `realloc` hands out, where the old one is and elsewhere. -/
def longer (s : BlockTable ι) : BlockTable ι :=
  { s with bmapAllocated := s.bmapAllocated + bmapAllocEntries }

def moved (s : BlockTable ι) : BlockTable ι := { s.longer with bmap := s.bmap + 1 }

omit [DecidableEq ι] in
theorem grow_stays (hfull : s.bmapAllocated ≤ s.mapCount)
    (hfits : s.bmapAllocated + bmapAllocEntries < 2 ^ 32) : s.grow .stays = .ok s.longer := by
  rw [grow, if_pos hfull, Nat.mod_eq_of_lt hfits]
  rfl

omit [DecidableEq ι] in
theorem grow_moves (hfull : s.bmapAllocated ≤ s.mapCount)
    (hfits : s.bmapAllocated + bmapAllocEntries < 2 ^ 32) : s.grow .moves = .ok s.moved := by
  rw [grow, if_pos hfull, Nat.mod_eq_of_lt hfits]
  rfl

omit [DecidableEq ι] in
/-- With 8192 entries more there is room. -/
theorem lt_allocated (h : s.mapCount ≤ s.bmapAllocated) :
    s.mapCount < s.bmapAllocated + bmapAllocEntries :=
  h.trans_lt (Nat.lt_add_of_pos_right (by decide))

theorem LaidFor.weaken {keeps' : ι → Prop} (h : s.LaidFor keeps owners recorded)
    (hkeeps : ∀ i, keeps' i → keeps i) : s.LaidFor keeps' owners recorded :=
  { h with last := fun i hi => h.last i (hkeeps i hi) }

/-- The array becomes longer where it is. -/
theorem Laid.longer (h : s.Laid owners recorded) (hfits : s.bmapAllocated + bmapAllocEntries < 2 ^ 32) :
    s.longer.Laid owners recorded where
  length_eq := h.length_eq
  fits := h.fits.trans (Nat.le_add_right _ _)
  allocated := h.allocated.add (dvd_refl _)
  bounded := hfits
  recorded_eq := h.recorded_eq
  last := h.last
  linked ht i := by
    refine (h.linked ht i).congr fun p hp => ?_
    have hp : p.index < s.bmapAllocated := (h.refersTo hp).2.trans_le h.fits
    exact next_congr rfl (iff_of_true (hp.trans_le (Nat.le_add_right _ _)) hp) rfl
  unlisted := h.unlisted
  tagged := h.tagged

/-- Where a call for `i` leaves no addresses, the other inodes have no entries, nor `i` without `-t`. -/
theorem Laid.positions_eq_nil (h : s.Laid owners recorded) (hleaves : ¬ s.LeavesPointers i)
    (hj : s.dumpTimes = true → j ≠ i) : positions owners j = [] := by
  unfold LeavesPointers at hleaves
  cases ht : s.dumpTimes with
  | true =>
      rw [if_pos ht] at hleaves
      rcases h.lastBlock_cases (i := j) trivial with ⟨hnil, -⟩ | ⟨ks, k, -, hsome⟩
      · exact hnil
      · exact absurd ⟨j, hj ht, by rw [hsome]; exact nofun⟩ hleaves
  | false =>
      rw [ht, if_neg Bool.false_ne_true, ← h.length_eq, List.length_pos_iff, not_not] at hleaves
      rw [hleaves, positions_nil]

/-- The array moves, and no address is left behind: with `-t` that of the inode is written anew. -/
theorem Laid.moved (h : s.Laid owners recorded) (hfits : s.bmapAllocated + bmapAllocEntries < 2 ^ 32)
    (hleaves : ¬ s.LeavesPointers i) :
    s.moved.LaidFor (fun j => s.dumpTimes = true → j ≠ i) owners recorded where
  length_eq := h.length_eq
  fits := h.fits.trans (Nat.le_add_right _ _)
  allocated := h.allocated.add (dvd_refl _)
  bounded := hfits
  recorded_eq := h.recorded_eq
  last j hj := by
    have hnil := h.positions_eq_nil hleaves hj
    have hlast := h.last j trivial
    rw [hnil] at hlast ⊢
    exact hlast
  linked ht j := by
    have hnil := h.positions_eq_nil (j := j) hleaves fun hf => absurd (ht.symm.trans hf) nofun
    have hlist := h.linked ht j
    rw [hnil] at hlist ⊢
    exact hlist
  unlisted := h.unlisted
  tagged := h.tagged

theorem Laid.allocated_le (h : s.Laid owners recorded) :
    s.bmapAllocated + bmapAllocEntries ≤ 2 ^ 32 := by
  obtain ⟨n, hn⟩ := h.allocated
  have hbounded := h.bounded
  unfold bmapAllocEntries at hn ⊢
  omega

/-- **A call that does not strand finds room, or the program exits.** -/
theorem Laid.grow (h : s.Laid owners recorded) (hnew : ¬ s.Prolongs call) (hnot : ¬ s.Strands call) :
    s.grow call.realloc = .error .exited ∨
      ∃ s', s.grow call.realloc = .ok s' ∧ s'.mapCount < s'.bmapAllocated ∧ s'.dumpTimes = s.dumpTimes ∧
        s'.LaidFor (fun j => s.dumpTimes = true → j ≠ call.inode) owners recorded := by
  by_cases hfull : s.bmapAllocated ≤ s.mapCount
  · have hcount := lt_allocated h.fits
    by_cases hrefused : call.realloc = .refused
    · rw [hrefused]
      exact Or.inl (if_pos hfull)
    · right
      have hfits : s.bmapAllocated + bmapAllocEntries < 2 ^ 32 :=
        lt_of_not_ge fun hwraps => hnot ⟨hfull, hnew, hrefused, Or.inl hwraps⟩
      cases hrealloc : call.realloc with
      | refused => exact absurd hrealloc hrefused
      | stays =>
          exact ⟨_, grow_stays hfull hfits, hcount, rfl, (h.longer hfits).weaken fun _ _ => trivial⟩
      | moves =>
          have hleaves : ¬ s.LeavesPointers call.inode :=
            fun hleaves => hnot ⟨hfull, hnew, hrefused, Or.inr ⟨hrealloc, hleaves⟩⟩
          exact ⟨_, grow_moves hfull hfits, hcount, rfl, h.moved hfits hleaves⟩
  · exact Or.inr ⟨s, if_neg hfull, Nat.lt_of_not_le hfull, rfl, h.weaken fun _ _ => trivial⟩

/-- **A call that does not strand keeps the layout**, or the program exits. -/
theorem Laid.insertNewBlock (h : s.Laid owners recorded) (hnot : ¬ s.Strands call) :
    s.insertNewBlock call = .error .exited ∨
      ∃ s' owners', s.insertNewBlock call = .ok s' ∧ s'.Laid owners'
        (update recorded call.inode (recordBlock (recorded call.inode) call.offset call.block)) := by
  by_cases hprolongs : s.Prolongs call
  · obtain ⟨s', hlast, hlaid⟩ := h.prolongLast_of_prolongs hprolongs
    exact Or.inr ⟨s', owners, by rw [BlockTable.insertNewBlock, hlast], hlaid⟩
  · obtain ⟨hlast, hnew⟩ := h.prolongLast_of_not hprolongs
    rcases h.grow hprolongs hnot with hexit | ⟨s₁, hgrow, hroom, htimes, hlaid⟩
    · left
      rw [BlockTable.insertNewBlock, hlast, hexit]
      rfl
    · have hself : s₁.dumpTimes = false → s.dumpTimes = true → call.inode ≠ call.inode := by
        rw [htimes]
        intro hf ht
        exact absurd (hf.symm.trans ht) nofun
      obtain ⟨s', hadd, hlaid'⟩ := hlaid.addEntry hroom (fun j hj _ => hj) hself hnew
      refine Or.inr ⟨s', owners ++ [call.inode], ?_, hlaid'⟩
      rw [BlockTable.insertNewBlock, hlast, hgrow]
      exact hadd

/-- Addresses are left behind: with `-t` or for the first extent of its inode, another inode has a
`last_block`. -/
theorem Laid.exists_last (h : s.Laid owners recorded) (hleaves : s.LeavesPointers i)
    (hfirst : s.dumpTimes = false → (s.inodes i).lastBlock = none) :
    ∃ j k, j ≠ i ∧ (s.inodes j).lastBlock = some ⟨s.bmap, k⟩ := by
  have hother : ∃ j, j ≠ i ∧ (s.inodes j).lastBlock ≠ none := by
    unfold LeavesPointers at hleaves
    cases ht : s.dumpTimes with
    | true => rwa [if_pos ht] at hleaves
    | false =>
        rw [ht, if_neg Bool.false_ne_true, ← h.length_eq] at hleaves
        obtain ⟨j, hj⟩ := exists_mem_positions hleaves
        have hsome : (s.inodes j).lastBlock ≠ none := by
          rcases h.lastBlock_cases (i := j) trivial with ⟨hnil, -⟩ | ⟨ks, k, -, hsome⟩
          · rw [hnil] at hj
            exact absurd hj List.not_mem_nil
          · rw [hsome]
            exact nofun
        refine ⟨j, ?_, hsome⟩
        rintro rfl
        exact hsome (hfirst ht)
  obtain ⟨j, hj, hsome⟩ := hother
  rcases h.lastBlock_cases (i := j) trivial with ⟨-, hnone⟩ | ⟨ks, k, -, hk⟩
  · exact absurd hnone hsome
  · exact ⟨j, k, hj, hk⟩

/-- **A call that strands leaves an address into the array that was given up**, or goes through one. -/
theorem Laid.insertNewBlock_strands (h : s.Laid owners recorded) (hstrands : s.Strands call) :
    s.insertNewBlock call = .error .undefined ∨
      ∃ s', s.insertNewBlock call = .ok s' ∧ ¬ s'.PointersCurrent := by
  obtain ⟨hfull, hnew, hgranted, hleaves⟩ := hstrands
  have hinsert : s.insertNewBlock call = (s.grow call.realloc).bind fun s' => s'.addEntry call := by
    rw [BlockTable.insertNewBlock, (h.prolongLast_of_not hnew).1]
  rw [hinsert]
  by_cases hwraps : 2 ^ 32 ≤ s.bmapAllocated + bmapAllocEntries
  -- the count of the entries allocated is zero again
  · left
    have hzero : (s.bmapAllocated + bmapAllocEntries) % 2 ^ 32 = 0 := by
      rw [le_antisymm h.allocated_le hwraps, Nat.mod_self]
    unfold BlockTable.grow
    rw [if_pos hfull, hzero]
    cases hrealloc : call.realloc with
    | refused => exact absurd hrealloc hgranted
    | stays => exact addEntry_full (Nat.zero_le _)
    | moves => exact addEntry_full (Nat.zero_le _)
  · obtain ⟨hmoves, hleft⟩ := hleaves.resolve_left hwraps
    have hroom : s.moved.mapCount < s.moved.bmapAllocated := lt_allocated h.fits
    rw [hmoves, grow_moves hfull (Nat.lt_of_not_le hwraps)]
    -- whatever becomes of the entry, another inode keeps its `last_block`
    have hdangles : ∀ s', Adds s.moved s' call →
        (s.dumpTimes = false → (s.inodes call.inode).lastBlock = none) → ¬ s'.PointersCurrent := by
      intro s' hadds hfirst hcurrent
      obtain ⟨j, k, hj, hlast⟩ := h.exists_last hleft hfirst
      have hrefers := hcurrent.lastBlock j ⟨s.bmap, k⟩ ((hadds.last_of_ne j hj).trans hlast)
      exact (Nat.succ_ne_self s.bmap) (hadds.bmap.symm.trans hrefers.1.symm)
    cases ht : s.dumpTimes with
    | true =>
        refine Or.inr ⟨_, addEntry_tag hroom ht, hdangles _ adds_tagEntry ?_⟩
        exact fun hf => absurd (ht.symm.trans hf) nofun
    | false =>
        rcases h.lastBlock_cases (i := call.inode) trivial with ⟨-, hnone⟩ | ⟨ks, k, -, hsome⟩
        · exact Or.inr ⟨_, addEntry_first hroom ht hnone, hdangles _ adds_firstEntry fun _ => hnone⟩
        · exact Or.inl (addEntry_stale ht hsome (Nat.succ_ne_self s.bmap).symm)

end Laid

end BlockTable

/-! ## §4 — all calls -/

section Recording

variable [DecidableEq ι] {r : Recording ι} {call : InsertCall ι} {calls : List (InsertCall ι)}
  {dumpTimes : Bool} {ino : ι → ℕ} {name : ι → Option (List UInt8)}

/-- The table is laid out for what was recorded, if the program is still running. -/
def Recording.LaidOut (r : Recording ι) : Prop :=
  match r.table with
  | .ok s => ∃ owners, s.Laid owners r.recorded
  | .error stop => stop = .exited

theorem Recording.laidOut_start : (Recording.start dumpTimes ino name).LaidOut := by
  refine ⟨[], ?_⟩
  exact {
    length_eq := rfl
    fits := le_rfl
    allocated := dvd_zero _
    bounded := Nat.two_pow_pos 32
    recorded_eq := fun _ => rfl
    last := fun _ _ => rfl
    linked := fun _ _ => rfl
    unlisted := fun _ _ => rfl
    tagged := fun _ _ hk => absurd hk (Nat.not_lt_zero _) }

theorem Recording.LaidOut.right (h : r.LaidOut) : r.Right := by
  unfold LaidOut at h
  unfold Right
  cases htable : r.table with
  | ok s =>
      rw [htable] at h
      obtain ⟨owners, hlaid⟩ := h
      exact ⟨hlaid.pointersCurrent, hlaid.lists⟩
  | error stop =>
      rw [htable] at h
      cases h
      trivial

/-- **A call that does not strand keeps the table laid out.** -/
theorem Recording.LaidOut.insert (h : r.LaidOut) (hnot : ¬ r.Strands call) :
    (r.insert call).LaidOut := by
  unfold LaidOut at h
  unfold Recording.insert LaidOut
  cases htable : r.table with
  | ok s =>
      rw [htable] at h
      obtain ⟨owners, hlaid⟩ := h
      have hnot : ¬ s.Strands call := fun hstrands => hnot ⟨s, htable, hstrands⟩
      rcases hlaid.insertNewBlock hnot with hexit | ⟨s', owners', hok, hlaid'⟩
      · simp only [Except.bind, hexit]
      · simp only [Except.bind, hok]
        exact ⟨owners', hlaid'⟩
  | error stop =>
      rw [htable] at h
      exact h

/-- **A call that strands spoils it.** -/
theorem Recording.LaidOut.not_right_insert (h : r.LaidOut) (hstrands : r.Strands call) :
    ¬ (r.insert call).Right := by
  obtain ⟨s, htable, hstrands⟩ := hstrands
  unfold LaidOut at h
  rw [htable] at h
  obtain ⟨owners, hlaid⟩ := h
  unfold Recording.insert Right
  rw [htable]
  rcases hlaid.insertNewBlock_strands hstrands with hundefined | ⟨s', hok, hdangles⟩
  · simp only [Except.bind, hundefined, not_false_eq_true]
  · simp only [Except.bind, hok]
    exact fun hright => hdangles hright.1

theorem Recording.run_step_total (r : Recording ι) (calls : List (InsertCall ι)) :
    ∃ t, run Recording.step r calls = some t := by
  induction calls generalizing r with
  | nil => exact ⟨r, rfl⟩
  | cons call calls ih => exact ih (r.insert call)

/-- From a table that is laid out, all is right as long as no call strands. -/
theorem Recording.LaidOut.throughout_iff (h : r.LaidOut) :
    Throughout Recording.step Recording.Right r calls ↔
      StepsMeet Recording.step (fun r call => ¬ r.Strands call) r calls := by
  obtain ⟨t, hrun⟩ := r.run_step_total calls
  refine throughout_iff_stepsMeet (fun _ => LaidOut.right) ?_ ?_ hrun h
  · rintro r call r' - hnot hlaid hstep
    cases hstep
    exact hlaid.insert hnot
  · intro r call r' hstrands hlaid hstep
    cases hstep
    exact hlaid.not_right_insert (not_not.1 hstrands)

/-- **The addresses are good and `dump_inode` lists what was recorded, after every call, if and only if
no call strands**: none makes the array longer with a count that wraps around, or in another place while
addresses are left. -/
theorem recording_right_iff (dumpTimes : Bool) (ino : ι → ℕ) (name : ι → Option (List UInt8))
    (calls : List (InsertCall ι)) :
    Throughout Recording.step Recording.Right (Recording.start dumpTimes ino name) calls ↔
      StepsMeet Recording.step (fun r call => ¬ r.Strands call) (Recording.start dumpTimes ino name)
        calls :=
  Recording.laidOut_start.throughout_iff

/-- The blocks of two files in turn; the third one continues the first. -/
example : ((run Recording.step (Recording.start false id fun _ => none)
    [⟨5, 0, 10, .moves⟩, ⟨6, 0, 40, .moves⟩, ⟨5, 1, 11, .moves⟩, ⟨5, 2, 20, .moves⟩]).bind fun r =>
      r.table.toOption.bind fun s => s.dumpInode 8 5) =
    some ⟨none, 5, [⟨10, 2, 0⟩, ⟨20, 1, 2⟩]⟩ := by
  decide

end Recording

/-! ## §5 — more than 8192 extents -/

/-- Files of one block each, every other block from 10000 on; `realloc` moves the array. -/
def oneBlockCall (k : ℕ) : InsertCall ℕ := ⟨k, 0, 10000 + 2 * k, .moves⟩

/-- Their inodes. -/
def oneBlockIno (k : ℕ) : ℕ := 12 + k

/-- The table with the extents of the first `n` of them, in the array made for the first. -/
structure BlockTable.FilledTo (s : BlockTable ℕ) (n : ℕ) : Prop where
  dumpTimes : s.dumpTimes = false
  mapCount : s.mapCount = n
  bmapAllocated : s.bmapAllocated = if n = 0 then 0 else bmapAllocEntries
  last : ∀ k, n ≤ k → (s.inodes k).lastBlock = none

namespace BlockTable

variable {s : BlockTable ℕ} {n : ℕ}

/-- There is room for 8192 of them. -/
theorem FilledTo.grow (h : s.FilledTo n) (hn : n < bmapAllocEntries) :
    ∃ s', s.grow .moves = .ok s' ∧ s'.mapCount < s'.bmapAllocated ∧
      s'.bmapAllocated = bmapAllocEntries ∧ s'.dumpTimes = s.dumpTimes ∧ s'.mapCount = s.mapCount ∧
      s'.inodes = s.inodes := by
  have hallocated := h.bmapAllocated
  by_cases hzero : n = 0
  · rw [if_pos hzero] at hallocated
    have hcount : s.mapCount = 0 := h.mapCount.trans hzero
    have hfull : s.bmapAllocated ≤ s.mapCount := by rw [hallocated, hcount]
    have hfits : s.bmapAllocated + bmapAllocEntries < 2 ^ 32 := by
      rw [hallocated]
      decide
    have hlonger : s.moved.bmapAllocated = bmapAllocEntries := by
      change s.bmapAllocated + bmapAllocEntries = bmapAllocEntries
      rw [hallocated, Nat.zero_add]
    refine ⟨s.moved, grow_moves hfull hfits, ?_, hlonger, rfl, rfl, rfl⟩
    rw [hlonger]
    exact hcount.trans_lt (by decide)
  · rw [if_neg hzero] at hallocated
    have hroom : s.mapCount < s.bmapAllocated := by rwa [h.mapCount, hallocated]
    exact ⟨s, if_neg hroom.not_ge, hroom, hallocated, rfl, rfl, rfl⟩

theorem FilledTo.insertNewBlock (h : s.FilledTo n) (hn : n < bmapAllocEntries) :
    ∃ s', s.insertNewBlock (oneBlockCall n) = .ok s' ∧ s'.FilledTo (n + 1) := by
  obtain ⟨s₁, hgrow, hroom, hallocated, htimes, hcount, hinodes⟩ := h.grow hn
  have hfirst : (s.inodes n).lastBlock = none := h.last n le_rfl
  have hskip : s.prolongLast (oneBlockCall n) = .ok none := by
    simp only [prolongLast, oneBlockCall, hfirst]
  have hadd : s₁.addEntry (oneBlockCall n) = .ok (s₁.firstEntry (oneBlockCall n)) :=
    addEntry_first hroom (htimes.trans h.dumpTimes) (by rw [hinodes]; exact hfirst)
  have hadds : Adds s₁ (s₁.firstEntry (oneBlockCall n)) (oneBlockCall n) := adds_firstEntry
  refine ⟨s₁.firstEntry (oneBlockCall n), ?_, ?_⟩
  · rw [BlockTable.insertNewBlock, hskip]
    exact (congrArg (Except.bind · _) hgrow).trans hadd
  · constructor
    · rw [hadds.dumpTimes, htimes, h.dumpTimes]
    · rw [hadds.mapCount, hcount, h.mapCount]
    · rw [hadds.bmapAllocated, hallocated, if_neg (Nat.succ_ne_zero n)]
    · intro k hk
      have hne : k ≠ (oneBlockCall n).inode := (Nat.lt_of_succ_le hk).ne'
      rw [hadds.last_of_ne k hne, hinodes]
      exact h.last k (Nat.le_of_succ_le hk)

end BlockTable

theorem run_oneBlockCalls {n : ℕ} (hn : n ≤ bmapAllocEntries) :
    ∃ r s, run Recording.step (Recording.start false oneBlockIno fun _ => none)
      ((List.range n).map oneBlockCall) = some r ∧ r.table = .ok s ∧ s.FilledTo n := by
  induction n with
  | zero => exact ⟨_, _, rfl, rfl, ⟨rfl, rfl, rfl, fun _ _ => rfl⟩⟩
  | succ n ih =>
      obtain ⟨r, s, hrun, htable, hfilled⟩ := ih (Nat.le_of_succ_le hn)
      obtain ⟨s', hinsert, hfilled'⟩ := hfilled.insertNewBlock (Nat.lt_of_succ_le hn)
      refine ⟨r.insert (oneBlockCall n), s', ?_, ?_, hfilled'⟩
      · rw [List.range_succ, List.map_append]
        exact run_trans hrun rfl
      · rw [Recording.insert, htable]
        exact hinsert

/-- **With 8193 files of one block each**, the array moves while it is in use. -/
theorem oneBlockCalls_strand :
    ¬ Throughout Recording.step Recording.Right (Recording.start false oneBlockIno fun _ => none)
      ((List.range 8193).map oneBlockCall) := by
  obtain ⟨r, s, hrun, htable, hfilled⟩ := run_oneBlockCalls le_rfl
  have hsplit : (List.range 8193).map oneBlockCall =
      (List.range bmapAllocEntries).map oneBlockCall ++ [oneBlockCall bmapAllocEntries] := by
    rw [show 8193 = bmapAllocEntries + 1 from rfl, List.range_succ, List.map_append]
    rfl
  have hstrands : s.Strands (oneBlockCall bmapAllocEntries) := by
    have hfirst : (s.inodes bmapAllocEntries).lastBlock = none := hfilled.last _ le_rfl
    refine ⟨?_, ?_, by decide, Or.inr ⟨rfl, ?_⟩⟩
    · rw [hfilled.bmapAllocated, hfilled.mapCount]
      exact le_rfl
    · rintro ⟨last, hsome, -⟩
      exact absurd (hfirst.symm.trans hsome) nofun
    · rw [BlockTable.LeavesPointers, hfilled.dumpTimes, if_neg Bool.false_ne_true, hfilled.mapCount]
      decide
  rw [Recording.laidOut_start.throughout_iff, hsplit, stepsMeet_append hrun, stepsMeet_cons rfl]
  exact fun hmeet => hmeet.2.1 ⟨s, htable, hstrands⟩

end Prefetch.Remap

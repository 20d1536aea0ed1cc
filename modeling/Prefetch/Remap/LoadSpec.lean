/-
# Prefetch.Remap.LoadSpec — what loading the extents ends with

Each block belongs to the inode and the offset of the first line that lists it (`firstListed`). Extents
that say the same of the lines so far are `Loaded`; a round of the loop on a line keeps that for the part
of the line it has done (`lineStep_spec`).

`loaded_iff` is about all lines: loading them ends with the extents the lines ask for just when no line
that begins before all extents reaches the first of them, and no line that adds blocks is for an inode that
is lost. On the former `extent_insert` exits, and on the latter `lookup_inode` reads behind the array.
-/
import Prefetch.Lib.RunningSums
import Prefetch.Remap.LoadExtents

namespace Prefetch.Remap

open SplayTree
open RunningSums
open Distinct (insertNew)

/-! ## §1 — where blocks belong -/

/-- A block of a piece. -/
def Piece.Lists (p : Piece) (x : ℕ) : Prop := p.blocknr ≤ x ∧ x < p.blocknr + p.len

instance (p : Piece) (x : ℕ) : Decidable (p.Lists x) :=
  inferInstanceAs (Decidable (p.blocknr ≤ x ∧ x < p.blocknr + p.len))

/-- The blocks of a piece. -/
def Piece.blocks (p : Piece) : List ℕ := List.range' p.blocknr p.len

theorem Piece.mem_blocks {p : Piece} {x : ℕ} : x ∈ p.blocks ↔ p.Lists x := List.mem_range'_1

/-- The inode and the offset a piece says of a block. -/
def Piece.place (p : Piece) (x : ℕ) : ℕ × ℤ := (p.ino, p.offset + (x - p.blocknr))

/-- What is known of blocks, the inode and the offset each belongs to. -/
abbrev Places := ℕ → Option (ℕ × ℤ)

section Places

variable (firstIno : ℕ)

/-- What a piece adds: the places of its blocks that were not known. -/
def record (m : Places) (p : Piece) : Places :=
  fun x => (m x).or (if firstIno ≤ p.ino ∧ p.Lists x then some (p.place x) else none)

/-- The place of a block by the first line of a good inode that lists it. -/
def firstListed (lines : List Line) : Places :=
  fun x => (lines.find? fun l => firstIno ≤ l.ino ∧ l.Lists x).map fun l => l.place x

variable {firstIno}

theorem firstListed_concat (lines : List Line) (l : Line) :
    firstListed firstIno (lines ++ [l]) = record firstIno (firstListed firstIno lines) l.toPiece := by
  funext x
  show Option.map _ (List.find? _ (lines ++ [l])) = Option.or (Option.map _ (List.find? _ lines)) _
  rw [List.find?_append]
  cases hfind : lines.find? fun l => firstIno ≤ l.ino ∧ l.Lists x with
  | some l' => rfl
  | none =>
      rw [Option.none_or, Option.map_none, Option.none_or, List.find?_singleton]
      by_cases hl : firstIno ≤ l.ino ∧ l.Lists x
      · rw [if_pos hl, if_pos (by simpa using hl)]
        rfl
      · rw [if_neg hl, if_neg (by simpa using hl)]
        rfl

/-- A block has a place if a line of a good inode lists it. -/
theorem firstListed_ne_none {lines : List Line} {x : ℕ} :
    firstListed firstIno lines x ≠ none ↔ ∃ l ∈ lines, firstIno ≤ l.ino ∧ l.Lists x := by
  unfold firstListed
  rw [Option.map_eq_none_iff.ne, ← Option.isSome_iff_ne_none, List.find?_isSome]
  simp only [decide_eq_true_eq]

/-- A piece may be recorded in two parts. -/
theorem record_cut (firstIno : ℕ) (m : Places) (p : Piece) {k : ℕ} (hk : k ≤ p.len) :
    record firstIno (record firstIno m (p.upTo k)) (p.behind k) = record firstIno m p := by
  funext x
  unfold record
  rw [Option.or_assoc]
  congr 1
  have hgood : (p.upTo k).ino = p.ino ∧ (p.behind k).ino = p.ino := ⟨rfl, rfl⟩
  rw [hgood.1, hgood.2]
  by_cases hino : firstIno ≤ p.ino
  · simp only [hino, true_and]
    by_cases hfirst : (p.upTo k).Lists x
    · have hall : p.Lists x := ⟨hfirst.1, lt_of_lt_of_le hfirst.2 (Nat.add_le_add_left hk _)⟩
      rw [if_pos hfirst, if_pos hall]
      rfl
    · rw [if_neg hfirst, Option.none_or]
      have hiff : (p.behind k).Lists x ↔ p.Lists x := by
        have hnot : ¬ (p.blocknr ≤ x ∧ x < p.blocknr + k) := hfirst
        show p.blocknr + k ≤ x ∧ x < p.blocknr + k + (p.len - k) ↔ p.blocknr ≤ x ∧ x < p.blocknr + p.len
        omega
      have hplace : (p.behind k).place x = p.place x := by
        show (p.ino, p.offset + k + ((x : ℤ) - (p.blocknr + k : ℕ))) = (p.ino, p.offset + (x - p.blocknr))
        congr 1
        omega
      rw [hplace]
      exact if_congr hiff rfl rfl
  · simp only [hino, false_and, if_false]
    rfl

/-- A piece of blocks whose places are known says nothing. -/
theorem record_of_known {m : Places} {p : Piece} (h : ∀ x, p.Lists x → m x ≠ none) :
    record firstIno m p = m := by
  funext x
  unfold record
  by_cases hx : p.Lists x
  · obtain ⟨place, hplace⟩ := Option.ne_none_iff_exists'.1 (h x hx)
    rw [hplace]
    rfl
  · rw [if_neg fun h => hx h.2, Option.or_none]

/-- A piece of an inode that may not be remapped says nothing. -/
theorem record_of_bad {m : Places} {p : Piece} (h : ¬ firstIno ≤ p.ino) : record firstIno m p = m := by
  funext x
  unfold record
  rw [if_neg fun hp => h hp.1, Option.or_none]

end Places

/-! ## §2 — the tree -/

section Tree

/-- Extents in the order of their blocks, none of them empty. -/
structure Ordered (es : List RemapExtent) : Prop where
  apart : es.Pairwise fun e e' => e.block + e.len ≤ e'.block
  pos : ∀ e ∈ es, 0 < e.len

variable {e : RemapExtent} {es : List RemapExtent} {blocknr : ℕ}

theorem probeBlock_lt : probeBlock blocknr e = .lt ↔ blocknr < e.block := by
  unfold probeBlock
  split
  · exact iff_of_true rfl ‹_›
  · split <;> exact iff_of_false nofun ‹_›

theorem probeBlock_gt : probeBlock blocknr e = .gt ↔ e.block + e.len ≤ blocknr := by
  unfold probeBlock
  split
  · exact iff_of_false nofun (by omega)
  · split
    · exact iff_of_true rfl ‹_›
    · exact iff_of_false nofun ‹_›

theorem Ordered.sorted (h : Ordered es) (blocknr : ℕ) : Sorted (probeBlock blocknr) es := by
  refine h.apart.imp fun {e e'} hlt => ?_
  simp only [probeBlock_lt, probeBlock_gt]
  omega

/-- A new extent in between others. -/
theorem Ordered.insert {as bs : List RemapExtent} {new : RemapExtent} (h : Ordered (as ++ bs))
    (hpos : 0 < new.len) (has : ∀ e ∈ as, e.block + e.len ≤ new.block)
    (hbs : ∀ e ∈ bs, new.block + new.len ≤ e.block) : Ordered (as ++ new :: bs) := by
  obtain ⟨hasApart, hbsApart, hbetween⟩ := List.pairwise_append.1 h.apart
  refine ⟨List.pairwise_append.2 ⟨hasApart, List.pairwise_cons.2 ⟨hbs, hbsApart⟩, ?_⟩, ?_⟩
  · intro a ha b hb
    rcases List.mem_cons.1 hb with rfl | hb
    · exact has a ha
    · exact hbetween a ha b hb
  · intro e he
    rcases List.mem_append.1 he with he | he
    · exact h.pos e (List.mem_append_left _ he)
    · rcases List.mem_cons.1 he with rfl | he
      · exact hpos
      · exact h.pos e (List.mem_append_right _ he)

/-- The extents up to one of them end where it does at the latest. -/
theorem Ordered.up_to {as bs : List RemapExtent} {root : RemapExtent} (h : Ordered (as ++ root :: bs)) :
    ∀ e ∈ as ++ [root], e.block + e.len ≤ root.block + root.len := by
  intro e he
  rcases List.mem_append.1 he with he | he
  · have hbefore := (List.pairwise_append.1 h.apart).2.2 e he root List.mem_cons_self
    omega
  · cases List.mem_singleton.1 he
    exact Nat.le_refl _

/-- The extents from one of them on begin where it does at the earliest. -/
theorem Ordered.from_root {as bs : List RemapExtent} {root : RemapExtent} (h : Ordered (as ++ root :: bs)) :
    ∀ e ∈ root :: bs, root.block ≤ e.block := by
  intro e he
  rcases List.mem_cons.1 he with rfl | he
  · exact Nat.le_refl _
  · have hbehind := (List.pairwise_cons.1 (List.pairwise_append.1 h.apart).2.1).1 e he
    omega

/-- The extent went to its place in the order. -/
def InsertedInto (t : BinaryTree RemapExtent) (new : RemapExtent) (t' : BinaryTree RemapExtent) : Prop :=
  ∃ as bs, inorder t = as ++ bs ∧ inorder t' = as ++ new :: bs ∧
    (∀ e ∈ as, e.block + e.len ≤ new.block) ∧ ∀ e ∈ bs, new.block + new.len ≤ e.block

/-- Inserting where the extent before it comes to the root. -/
theorem extentInsert_of_gt {t l r : BinaryTree RemapExtent} {new root : RemapExtent}
    (hsplay : extentSplay new.block t = .node root l r)
    (hinorder : inorder l ++ root :: inorder r = inorder t) (horder : Ordered (inorder t))
    (hroot : root.block + root.len ≤ new.block)
    (hr : ∀ e ∈ inorder r, new.block + new.len ≤ e.block) :
    ∃ t', extentInsert new t = some t' ∧ InsertedInto t new t' := by
  refine ⟨.node new (.node root l .nil) r, ?_, inorder l ++ [root], inorder r, ?_, ?_, ?_, hr⟩
  · have hnot : ¬ new.block + new.len < root.block := by omega
    unfold extentInsert
    rw [hsplay]
    exact (if_neg hnot).trans (if_pos hroot)
  · rw [← hinorder, List.append_assoc]
    rfl
  · rfl
  · rw [← hinorder] at horder
    exact fun e he => (horder.up_to e he).trans hroot

/-- **Inserting an extent that touches none behind it.** -/
theorem extentInsert_apart {t : BinaryTree RemapExtent} {new : RemapExtent} (horder : Ordered (inorder t))
    (happart : ∀ e ∈ inorder t, e.block + e.len ≤ new.block ∨ new.block + new.len < e.block) :
    ∃ t', extentInsert new t = some t' ∧ InsertedInto t new t' := by
  by_cases hne : t = .nil
  · subst hne
    exact ⟨.node new .nil .nil, rfl, [], [], rfl, rfl, nofun, nofun⟩
  obtain ⟨root, l, r, hsplay, hinorder, hnear⟩ := splay_spec hne (horder.sorted new.block)
  have hmem : ∀ e, e ∈ inorder l ++ root :: inorder r → e ∈ inorder t := fun e he => hinorder ▸ he
  rcases happart root (hmem root (by simp)) with hbefore | hbehind
  · refine extentInsert_of_gt hsplay hinorder horder hbefore fun e he => ?_
    have hlt := probeBlock_lt.1 (hnear.behind_of_gt (probeBlock_gt.2 hbefore) e he)
    rcases happart e (hmem e (by simp [he])) with h | h <;> omega
  · refine ⟨.node new l (.node root .nil r), ?_, inorder l, root :: inorder r, hinorder.symm, rfl, ?_, ?_⟩
    · unfold extentInsert
      rw [extentSplay, hsplay]
      exact if_pos hbehind
    · exact fun e he => probeBlock_gt.1 (hnear.before_of_lt (probeBlock_lt.2 (by omega)) e he)
    · rw [← hinorder] at horder
      exact fun e he => hbehind.le.trans (horder.from_root e he)

/-- **Inserting an extent that ends where the root begins**: the one before it comes to the root. -/
theorem extentInsert_touching {new root : RemapExtent} {l r : BinaryTree RemapExtent}
    (horder : Ordered (inorder (.node root l r))) (hpos : 0 < new.len)
    (htouch : new.block + new.len = root.block) (hl : ∀ e ∈ inorder l, e.block + e.len ≤ new.block)
    (hne : l ≠ .nil) :
    ∃ t', extentInsert new (.node root l r) = some t' ∧ InsertedInto (.node root l r) new t' := by
  obtain ⟨before, l', r', hsplay, hinorder, hgt, hr⟩ :=
    splay_again_lt (horder.sorted new.block) (probeBlock_lt.2 (by omega))
      (fun e he => probeBlock_gt.2 (hl e he)) hne
  refine extentInsert_of_gt hsplay hinorder horder (probeBlock_gt.1 hgt) fun e he => ?_
  have hlt := probeBlock_lt.1 (hr e he)
  have hmem : e ∈ inorder (.node root l r) := hinorder ▸ List.mem_append_right _ (List.mem_cons_of_mem _ he)
  rcases List.mem_append.1 hmem with he | he
  · have := hl e he
    omega
  · exact htouch.le.trans (horder.from_root e he)

/-- **It exits where there is no extent before.** -/
theorem extentInsert_first {new root : RemapExtent} {r : BinaryTree RemapExtent} (hpos : 0 < new.len)
    (htouch : new.block + new.len = root.block) : extentInsert new (.node root .nil r) = none := by
  have hlt : probeBlock new.block root = .lt := probeBlock_lt.2 (by omega)
  have hsplay : extentSplay new.block (.node root .nil r) = .node root .nil r := by
    rw [extentSplay, splay, splayLoop.eq_def]
    exact if_pos hlt
  unfold extentInsert
  rw [hsplay]
  have hnot : ¬ new.block + new.len < root.block := by omega
  have hnot' : ¬ root.block + root.len ≤ new.block := by omega
  exact (if_neg hnot).trans (if_neg hnot')

end Tree

/-! ## §3 — what is loaded -/

section Loaded

variable {n : ℕ} [NeZero n] {mem : InodeMemory n} {firstIno : ℕ}

/-- The extents say of each block what is known of it; they are in the tree and with their inodes. -/
structure Loaded (mem : InodeMemory n) (m : Places) (inserted : Inserted) (st : Loader n) : Prop where
  ordered : Ordered (inorder st.extentTree)
  perm : (inorder st.extentTree).Perm (inserted.map Prod.snd)
  inodes : InodesHold mem st.table inserted
  places : ∀ x place, m x = some place ↔
    ∃ entry ∈ inserted, entry.2.Has x ∧ place = (entry.1, entry.2.offset + (x - entry.2.block))
  chunks : Running (·.2.len) (·.2.chunkOffset) 0 inserted
  remapBlocks : st.remapBlocks = totalLen (·.2.len) inserted

variable {m : Places} {inserted : Inserted} {st : Loader n} {p : Piece}

/-- A block is known if it is in an extent of the tree. -/
theorem Loaded.known (h : Loaded mem m inserted st) {x : ℕ} :
    m x ≠ none ↔ ∃ e ∈ inorder st.extentTree, e.Has x := by
  rw [Option.ne_none_iff_exists']
  constructor
  · rintro ⟨place, hplace⟩
    obtain ⟨entry, hmem, hhas, -⟩ := (h.places x place).1 hplace
    exact ⟨entry.2, h.perm.mem_iff.2 (List.mem_map_of_mem hmem), hhas⟩
  · rintro ⟨e, hmem, hhas⟩
    obtain ⟨entry, hentry, rfl⟩ := List.mem_map.1 (h.perm.mem_iff.1 hmem)
    exact ⟨_, (h.places x _).2 ⟨entry, hentry, hhas, rfl⟩⟩

theorem Loaded.known_block (h : Loaded mem m inserted st) {e : RemapExtent} (he : e ∈ inorder st.extentTree) :
    m e.block ≠ none :=
  h.known.2 ⟨e, he, Nat.le_refl _, Nat.lt_add_of_pos_right (h.ordered.pos e he)⟩

/-- A splay changes the tree, not what is in it. -/
theorem Loaded.splayed (h : Loaded mem m inserted st) {t : BinaryTree RemapExtent}
    (ht : inorder t = inorder st.extentTree) : Loaded mem m inserted { st with extentTree := t } :=
  ⟨ht ▸ h.ordered, ht ▸ h.perm, h.inodes, h.places, h.chunks, h.remapBlocks⟩

/-- A piece that went to its place. -/
theorem Loaded.insert (h : Loaded mem m inserted st) (hgood : firstIno ≤ p.ino) (hpos : 0 < p.len)
    {t : BinaryTree RemapExtent}
    (hinto : InsertedInto st.extentTree ⟨p.blocknr, p.len, p.offset, st.remapBlocks⟩ t) {table : InodeTable n}
    (htable : InodesHold mem table (inserted ++ [(p.ino, ⟨p.blocknr, p.len, p.offset, st.remapBlocks⟩)])) :
    Loaded mem (record firstIno m p) (inserted ++ [(p.ino, ⟨p.blocknr, p.len, p.offset, st.remapBlocks⟩)])
      ⟨t, table, st.remapBlocks + p.len⟩ := by
  obtain ⟨as, bs, hold, hnew, has, hbs⟩ := hinto
  have hfree : ∀ x, p.Lists x → m x = none := by
    intro x hx
    by_contra hknown
    obtain ⟨e, he, hlo, hhi⟩ := h.known.1 hknown
    have hlists : p.blocknr ≤ x ∧ x < p.blocknr + p.len := hx
    rw [hold] at he
    rcases List.mem_append.1 he with he | he
    · have : e.block + e.len ≤ p.blocknr := has e he
      omega
    · have : p.blocknr + p.len ≤ e.block := hbs e he
      omega
  refine ⟨?_, ?_, htable, fun x place => ?_, ?_, ?_⟩
  · show Ordered (inorder t)
    rw [hnew]
    exact Ordered.insert (hold ▸ h.ordered) hpos has hbs
  · show (inorder t).Perm _
    rw [hnew, List.map_append, List.map_singleton]
    exact List.perm_middle.trans ((hold ▸ h.perm).cons _ |>.trans (List.perm_append_singleton _ _).symm)
  · unfold record
    rw [Option.or_eq_some_iff]
    constructor
    · rintro (hknown | ⟨-, hnew⟩)
      · obtain ⟨entry, hentry, hsays⟩ := (h.places x place).1 hknown
        exact ⟨entry, List.mem_append_left _ hentry, hsays⟩
      · split at hnew
        · next hlists =>
          cases hnew
          exact ⟨_, List.mem_append_right _ (List.mem_singleton.2 rfl), hlists.2, rfl⟩
        · cases hnew
    · rintro ⟨entry, hentry, hhas, hsays⟩
      rcases List.mem_append.1 hentry with hentry | hentry
      · exact .inl ((h.places x place).2 ⟨entry, hentry, hhas, hsays⟩)
      · cases List.mem_singleton.1 hentry
        have hlists : p.Lists x := hhas
        exact .inr ⟨hfree x hlists, by rw [if_pos ⟨hgood, hlists⟩, hsays]; rfl⟩
  · refine running_append.2 ⟨h.chunks, ?_, trivial⟩
    rw [Nat.zero_add]
    exact h.remapBlocks
  · show st.remapBlocks + p.len = totalLen _ _
    rw [h.remapBlocks, totalLen_append]
    rfl

/-- The inodes, in the order of their creation. -/
def Loader.inos (st : Loader n) : List ℕ := st.table.inos

/-- A piece of a good inode has a block that is not known. -/
def Unknown (firstIno : ℕ) (m : Places) (p : Piece) : Prop := firstIno ≤ p.ino ∧ ∃ x, p.Lists x ∧ m x = none

/-- A piece with something to add, for an inode that is lost. -/
def UnknownLost (mem : InodeMemory n) (firstIno : ℕ) (m : Places) (p : Piece) (inos : List ℕ) : Prop :=
  Unknown firstIno m p ∧ Lost mem inos p.ino

/-- The inodes once a piece is done: there is one for it if there was something to add. -/
structure InosAfter (mem : InodeMemory n) (firstIno : ℕ) (m : Places) (p : Piece) (inos inos' : List ℕ) :
    Prop where
  added : Unknown firstIno m p → ¬ Lost mem inos p.ino ∧ inos' = insertNew inos p.ino
  kept : ¬ Unknown firstIno m p → inos' = inos

/-- What comes of inserting a piece: it is recorded, and the extents of the tree stay. -/
structure Recorded (mem : InodeMemory n) (firstIno : ℕ) (m : Places) (p : Piece) (st st' : Loader n) : Prop where
  loaded : ∃ inserted, Loaded mem (record firstIno m p) inserted st'
  keeps : ∀ e ∈ inorder st.extentTree, e ∈ inorder st'.extentTree
  inos : InosAfter mem firstIno m p st.inos st'.inos

theorem not_unknown_of_bad (hbad : ¬ firstIno ≤ p.ino) : ¬ Unknown firstIno m p := fun h => hbad h.1

/-- Nothing is added for an inode that may not be remapped. -/
theorem Loaded.insertNewExtent_bad (h : Loaded mem m inserted st) (hbad : ¬ firstIno ≤ p.ino) :
    insertNewExtent mem firstIno p st = .ok st ∧ Recorded mem firstIno m p st st := by
  refine ⟨if_neg hbad, ⟨inserted, ?_⟩, fun e he => he, fun hnew => absurd hnew (not_unknown_of_bad hbad),
    fun _ => rfl⟩
  rw [record_of_bad hbad]
  exact h

/-- `insert_new_extent` for a piece of unknown blocks, where the insertion in the tree goes well. -/
theorem Loaded.insertNewExtent_of (h : Loaded mem m inserted st) (firstIno : ℕ) (hpos : 0 < p.len)
    (hfirst : m p.blocknr = none)
    (hinsert : ∃ t, extentInsert ⟨p.blocknr, p.len, p.offset, st.remapBlocks⟩ st.extentTree = some t ∧
      InsertedInto st.extentTree ⟨p.blocknr, p.len, p.offset, st.remapBlocks⟩ t) :
    (∃ st', insertNewExtent mem firstIno p st = .ok st' ∧ Recorded mem firstIno m p st st') ∨
      insertNewExtent mem firstIno p st = .error .undefined ∧ UnknownLost mem firstIno m p st.inos := by
  by_cases hgood : firstIno ≤ p.ino
  · obtain ⟨t, ht, hinto⟩ := hinsert
    have hnew : Unknown firstIno m p := ⟨hgood, p.blocknr, ⟨Nat.le_refl _, Nat.lt_add_of_pos_right hpos⟩, hfirst⟩
    unfold insertNewExtent
    rw [if_pos hgood]
    rcases h.inodes.addToInode p.ino ⟨p.blocknr, p.len, p.offset, st.remapBlocks⟩ with
      ⟨table, htable, hholds, hinos, hnotLost⟩ | ⟨hundefined, hlost⟩
    · refine .inl ⟨⟨t, table, st.remapBlocks + p.len⟩, ?_, ⟨_, h.insert hgood hpos hinto hholds⟩, fun e he => ?_,
        fun _ => ⟨hnotLost, hinos⟩, fun hnot => absurd hnew hnot⟩
      · simp only [htable, ht]
      · obtain ⟨as, bs, hold, hnew, -⟩ := hinto
        show e ∈ inorder t
        rw [hold] at he
        rw [hnew]
        rcases List.mem_append.1 he with he | he
        · exact List.mem_append_left _ he
        · exact List.mem_append_right _ (List.mem_cons_of_mem _ he)
    · refine .inr ⟨?_, hnew, hlost⟩
      simp only [hundefined]
  · exact .inl ⟨st, h.insertNewExtent_bad hgood⟩

/-! ## §4 — a round of the loop -/

/-- A piece that begins before all known blocks and reaches the first of them. -/
def Collides (firstIno : ℕ) (m : Places) (p : Piece) : Prop :=
  firstIno ≤ p.ino ∧ 0 < p.len ∧ (∀ x, m x ≠ none → p.blocknr < x) ∧
    ∃ x, m x ≠ none ∧ x ≤ p.blocknr + p.len

theorem not_collides_of_known {x : ℕ} (hx : m x ≠ none) (hle : x ≤ p.blocknr) : ¬ Collides firstIno m p :=
  fun h => absurd (h.2.2.1 x hx) (Nat.not_lt_of_le hle)

/-- No extent behind the piece touches it. -/
def NoneTouches (p : Piece) (st : Loader n) : Prop :=
  ∀ e ∈ inorder st.extentTree, e.block + e.len ≤ p.blocknr ∨ p.blocknr + p.len < e.block

theorem Loaded.unknown_of_noneTouches (h : Loaded mem m inserted st) (hapart : NoneTouches p st) :
    m p.blocknr = none := by
  by_contra hknown
  obtain ⟨e, he, hlo, hhi⟩ := h.known.1 hknown
  rcases hapart e he with h | h <;> omega

theorem Loaded.not_collides_of_noneTouches (h : Loaded mem m inserted st) (hapart : NoneTouches p st) :
    ¬ Collides firstIno m p := by
  rintro ⟨-, -, hbehind, x, hx, hle⟩
  have hlt := hbehind x hx
  obtain ⟨e, he, hlo, hhi⟩ := h.known.1 hx
  rcases hapart e he with h | h <;> omega

/-- The extent before a block is at the root, and there is one behind. -/
def BehindRoot (blocknr : ℕ) (t : BinaryTree RemapExtent) : Prop :=
  ∃ root l r, t = .node root l r ∧ root.block + root.len ≤ blocknr ∧ (∀ e ∈ inorder r, blocknr < e.block) ∧
    r ≠ .nil

/-- What is left of a piece, with the inodes there are then: nothing was added yet, or something was. -/
structure InosDuring (mem : InodeMemory n) (firstIno : ℕ) (m : Places) (p : Piece) (inos : List ℕ) (m' : Places)
    (p' : Piece) (inos' : List ℕ) : Prop where
  ino : p'.ino = p.ino
  cases : inos' = inos ∧ (Unknown firstIno m' p' ↔ Unknown firstIno m p) ∨
    Unknown firstIno m p ∧ ¬ Lost mem inos p.ino ∧ inos' = insertNew inos p.ino

/-- What a round may come to: the line is done, a shorter piece of it is left, or the next splay will bring
another extent to the root. It stops on a collision only, or for an inode that is lost. -/
inductive RoundSpec (mem : InodeMemory n) (firstIno : ℕ) (m : Places) (p : Piece) (st : Loader n) :
    LineStep n → Prop
  | done (st' : Loader n) (inserted' : Inserted) (h : Loaded mem (record firstIno m p) inserted' st')
      (hok : ¬ Collides firstIno m p) (hinos : InosAfter mem firstIno m p st.inos st'.inos) :
      RoundSpec mem firstIno m p st (.done st')
  | stopped (stop : MapStop) (h : Collides firstIno m p ∨ UnknownLost mem firstIno m p st.inos) :
      RoundSpec mem firstIno m p st (.stopped stop)
  | shorter (m' : Places) (inserted' : Inserted) (p' : Piece) (st' : Loader n) (h : Loaded mem m' inserted' st')
      (hrecord : record firstIno m' p' = record firstIno m p) (hlen : p'.len < p.len)
      (hok : ¬ Collides firstIno m p) (hok' : ¬ Collides firstIno m' p')
      (hinos : InosDuring mem firstIno m p st.inos m' p' st'.inos) : RoundSpec mem firstIno m p st (.more p' st')
  | again (inserted' : Inserted) (st' : Loader n) (h : Loaded mem m inserted' st')
      (hbehind : BehindRoot p.blocknr st'.extentTree) (hpos : 0 < p.len)
      (hbefore : ¬ BehindRoot p.blocknr st.extentTree) (hinos : st'.inos = st.inos) :
      RoundSpec mem firstIno m p st (.more p st')

/-- The last insertion. -/
theorem Loaded.insertAll_spec (h : Loaded mem m inserted st) (hpos : 0 < p.len) (hapart : NoneTouches p st)
    {before : Loader n} (hbefore : st.inos = before.inos) :
    RoundSpec mem firstIno m p before (insertAll mem firstIno p st) := by
  unfold insertAll
  rcases h.insertNewExtent_of firstIno hpos (h.unknown_of_noneTouches hapart)
    (extentInsert_apart h.ordered hapart) with ⟨st', hst', ⟨inserted', h'⟩, -, hinos⟩ | ⟨hundefined, hlost⟩
  · rw [hst']
    exact .done st' inserted' h' (h.not_collides_of_noneTouches hapart) (hbefore ▸ hinos)
  · rw [hundefined]
    exact .stopped _ (.inr (hbefore ▸ hlost))

/-- Where the block is in an extent, its blocks are passed over. -/
theorem Loaded.lineTail_has (h : Loaded mem m inserted st) (firstIno : ℕ) {ext : RemapExtent}
    (r : BinaryTree RemapExtent) (hext : ext ∈ inorder st.extentTree) (hhas : ext.Has p.blocknr) :
    lineTail mem firstIno p st ext r = .done st ∧ record firstIno m p = m ∧ ¬ Unknown firstIno m p ∨
      ∃ p', lineTail mem firstIno p st ext r = .more p' st ∧ record firstIno m p' = record firstIno m p ∧
        p'.len < p.len ∧ ¬ Collides firstIno m p' ∧ p'.ino = p.ino ∧
        (Unknown firstIno m p' ↔ Unknown firstIno m p) := by
  have hlo : ext.block ≤ p.blocknr := hhas.1
  have hhi : p.blocknr < ext.block + ext.len := hhas.2
  have hknown : ∀ x, ext.block ≤ x → x < ext.block + ext.len → m x ≠ none :=
    fun x hlo hhi => h.known.2 ⟨ext, hext, hlo, hhi⟩
  unfold lineTail
  rw [if_pos hhas]
  by_cases hin : p.blocknr + p.len ≤ ext.block + ext.len
  · rw [if_pos hin]
    have hall : ∀ x, p.Lists x → m x ≠ none := fun x hx =>
      hknown x (by have := hx.1; omega) (by have := hx.2; omega)
    exact .inl ⟨rfl, record_of_known hall, fun ⟨_, x, hx, hnone⟩ => hall x hx hnone⟩
  · rw [if_neg hin]
    refine .inr ⟨_, rfl, ?_, ?_, ?_, rfl, and_congr_right fun _ => exists_congr fun x => and_congr_left fun hnone => ?_⟩
    · have hfirst : record firstIno m (p.upTo (ext.block + ext.len - p.blocknr)) = m := by
        refine record_of_known fun x hx => ?_
        have hupTo : p.blocknr ≤ x ∧ x < p.blocknr + (ext.block + ext.len - p.blocknr) := hx
        exact hknown x (by omega) (by omega)
      have hcut := record_cut firstIno m p (k := ext.block + ext.len - p.blocknr) (by omega)
      rwa [hfirst] at hcut
    · show p.len - (ext.block + ext.len - p.blocknr) < p.len
      omega
    · refine not_collides_of_known (hknown ext.block (Nat.le_refl _) (by omega)) ?_
      show ext.block ≤ p.blocknr + (ext.block + ext.len - p.blocknr)
      omega
    · have hout : ¬ (ext.block ≤ x ∧ x < ext.block + ext.len) := fun hx => hknown x hx.1 hx.2 hnone
      show p.blocknr + (ext.block + ext.len - p.blocknr) ≤ x ∧
        x < p.blocknr + (ext.block + ext.len - p.blocknr) + (p.len - (ext.block + ext.len - p.blocknr)) ↔
        p.blocknr ≤ x ∧ x < p.blocknr + p.len
      omega

/-- A round that finds the block in an extent. -/
theorem Loaded.round_has (h : Loaded mem m inserted st) {ext : RemapExtent} (r : BinaryTree RemapExtent)
    (hext : ext ∈ inorder st.extentTree) (hhas : ext.Has p.blocknr) {before : Loader n}
    (hbefore : st.inos = before.inos) : RoundSpec mem firstIno m p before (lineTail mem firstIno p st ext r) := by
  have hok : ¬ Collides firstIno m p :=
    not_collides_of_known (h.known.2 ⟨ext, hext, hhas⟩) (Nat.le_refl _)
  rcases h.lineTail_has firstIno r hext hhas with
    ⟨hdone, hrecord, hnothing⟩ | ⟨p', hmore, hrecord, hlen, hok', hino, hnew⟩
  · rw [hdone]
    exact .done st inserted (hrecord.symm ▸ h) hok ⟨fun hnew => absurd hnew hnothing, fun _ => hbefore⟩
  · rw [hmore]
    exact .shorter m inserted p' st h hrecord hlen hok hok' ⟨hino, .inl ⟨hbefore, hnew⟩⟩

/-- A block between the extents left of the root and the root is not known. -/
theorem Loaded.unknown_before_root (h : Loaded mem m inserted st) {root : RemapExtent} {l r : BinaryTree RemapExtent}
    (hroot : st.extentTree = .node root l r) {x : ℕ} (hlt : x < root.block)
    (hl : ∀ e ∈ inorder l, e.block + e.len ≤ x) : m x = none := by
  by_contra hknown
  obtain ⟨e, he, hlo, hhi⟩ := h.known.1 hknown
  have horder := h.ordered
  rw [hroot] at he horder
  rcases List.mem_append.1 he with he | he
  · have := hl e he
    omega
  · have := horder.from_root e he
    omega

/-- A piece up to the first extent is refused. -/
theorem insertNewExtent_first {root : RemapExtent} {r : BinaryTree RemapExtent} (hgood : firstIno ≤ p.ino)
    (hroot : st.extentTree = .node root .nil r) (hlt : p.blocknr < root.block) :
    ∃ stop, insertNewExtent mem firstIno (p.upTo (root.block - p.blocknr)) st = .error stop := by
  have hinsert : extentInsert ⟨p.blocknr, root.block - p.blocknr, p.offset, st.remapBlocks⟩
      (.node root .nil r) = none :=
    extentInsert_first (Nat.sub_pos_of_lt hlt) (Nat.add_sub_cancel' hlt.le)
  simp only [insertNewExtent, Piece.upTo, if_pos hgood, hroot, hinsert]
  split
  · exact ⟨_, rfl⟩
  · exact ⟨_, rfl⟩

/-- A round that inserts a piece up to the root. -/
theorem Loaded.round_touching (h : Loaded mem m inserted st) {root : RemapExtent} {l r : BinaryTree RemapExtent}
    (hroot : st.extentTree = .node root l r) (hlt : p.blocknr < root.block)
    (hreach : root.block ≤ p.blocknr + p.len) (hl : ∀ e ∈ inorder l, e.block + e.len ≤ p.blocknr)
    {before : Loader n} (hbefore : st.inos = before.inos) :
    RoundSpec mem firstIno m p before
      (match insertNewExtent mem firstIno (p.upTo (root.block - p.blocknr)) st with
        | .error stop => .stopped stop
        | .ok st => lineTail mem firstIno (p.behind (root.block - p.blocknr)) st root r) := by
  have hmem : ∀ e, e ∈ inorder l ++ root :: inorder r → e ∈ inorder st.extentTree := fun e he => hroot ▸ he
  have hrootMem : root ∈ inorder st.extentTree := hmem root (by simp)
  have hblock : p.blocknr + (root.block - p.blocknr) = root.block := Nat.add_sub_cancel' hlt.le
  have hpos : 0 < root.block - p.blocknr := Nat.sub_pos_of_lt hlt
  have hunknown := h.unknown_before_root hroot hlt hl
  by_cases hfirst : firstIno ≤ p.ino ∧ l = .nil
  · -- there is no extent before the piece
    obtain ⟨hgood, rfl⟩ := hfirst
    obtain ⟨stop, hstop⟩ := insertNewExtent_first hgood hroot hlt
    rw [hstop]
    refine .stopped stop (.inl ⟨hgood, by omega, fun x hx => ?_, root.block, h.known_block hrootMem, hreach⟩)
    obtain ⟨e, he, hlo, -⟩ := h.known.1 hx
    have horder := h.ordered
    rw [hroot] at he horder
    exact lt_of_lt_of_le hlt ((horder.from_root e he).trans hlo)
  · have hinsert : (∃ st', insertNewExtent mem firstIno (p.upTo (root.block - p.blocknr)) st = .ok st' ∧
        Recorded mem firstIno m (p.upTo (root.block - p.blocknr)) st st') ∨
        insertNewExtent mem firstIno (p.upTo (root.block - p.blocknr)) st = .error .undefined ∧
          UnknownLost mem firstIno m (p.upTo (root.block - p.blocknr)) st.inos := by
      by_cases hgood : firstIno ≤ p.ino
      · refine h.insertNewExtent_of firstIno hpos hunknown ?_
        have horder := h.ordered
        rw [hroot] at horder ⊢
        exact extentInsert_touching horder hpos hblock hl fun hnil => hfirst ⟨hgood, hnil⟩
      · exact .inl ⟨st, h.insertNewExtent_bad hgood⟩
    have hnew : ∀ q : Piece, q.ino = p.ino → (∃ x, q.Lists x ∧ m x = none) →
        (Unknown firstIno m q ↔ Unknown firstIno m p) := by
      rintro q hq hlists
      refine ⟨fun hnew => ⟨hq ▸ hnew.1, p.blocknr, ⟨Nat.le_refl _, by omega⟩, hunknown⟩, fun hnew => ?_⟩
      exact ⟨hq.symm ▸ hnew.1, hlists⟩
    have hpart : Unknown firstIno m (p.upTo (root.block - p.blocknr)) ↔ Unknown firstIno m p :=
      hnew _ rfl ⟨p.blocknr, ⟨Nat.le_refl _, Nat.lt_add_of_pos_right hpos⟩, hunknown⟩
    rcases hinsert with ⟨st', hst', ⟨inserted', h'⟩, hkeep, hinos⟩ | ⟨hundefined, hlost⟩
    swap
    · rw [hundefined]
      exact .stopped _ (.inr ⟨hpart.mp hlost.1, hbefore ▸ hlost.2⟩)
    have hok : ¬ Collides firstIno m p := by
      intro hcollides
      obtain ⟨e, he⟩ : ∃ e, e ∈ inorder l := by
        refine List.exists_mem_of_ne_nil _ fun hnil => hfirst ⟨hcollides.1, inorder_eq_nil.1 hnil⟩
      have hbefore := hl e he
      exact not_collides_of_known (h.known_block (hmem e (by simp [he]))) (by omega) hcollides
    have hrootHas : root.Has (p.behind (root.block - p.blocknr)).blocknr := by
      have := h.ordered.pos root hrootMem
      show root.block ≤ p.blocknr + (root.block - p.blocknr) ∧
        p.blocknr + (root.block - p.blocknr) < root.block + root.len
      omega
    have hcut := record_cut firstIno m p (k := root.block - p.blocknr) (by omega)
    simp only [hst']
    rcases h'.lineTail_has firstIno r (hkeep root hrootMem) hrootHas with
      ⟨hdone, hrecord, -⟩ | ⟨p', hmore, hrecord, hlen, hok', hino, hrest⟩
    · rw [hdone]
      refine .done st' inserted' ?_ hok ⟨fun hp => hbefore ▸ hinos.added (hpart.mpr hp),
        fun hp => (hinos.kept fun hq => hp (hpart.mp hq)).trans hbefore⟩
      rw [← hcut, hrecord]
      exact h'
    · rw [hmore]
      refine .shorter _ inserted' p' st' h' (hrecord.trans hcut) (lt_of_lt_of_le hlen (Nat.sub_le _ _)) hok hok'
        ⟨hino, ?_⟩
      by_cases hp : Unknown firstIno m p
      · obtain ⟨hnotLost, heq⟩ := hinos.added (hpart.mpr hp)
        exact .inr ⟨hp, hbefore ▸ hnotLost, hbefore ▸ heq⟩
      · -- an inode that may not be remapped
        have hbad : ¬ firstIno ≤ p.ino := fun hgood =>
          hp ⟨hgood, p.blocknr, ⟨Nat.le_refl _, by omega⟩, hunknown⟩
        refine .inl ⟨(hinos.kept fun hq => hp (hpart.mp hq)).trans hbefore, ?_⟩
        exact iff_of_false (not_unknown_of_bad (hino.symm ▸ hbad)) hp

/-- **What a round does.** -/
theorem Loaded.lineStep_spec (h : Loaded mem m inserted st) (firstIno : ℕ) (hpos : 0 < p.len) :
    RoundSpec mem firstIno m p st (lineStep mem firstIno p st) := by
  have hsplayed : Loaded mem m inserted { st with extentTree := extentSplay p.blocknr st.extentTree } :=
    h.splayed (inorder_splay (probeBlock p.blocknr) st.extentTree)
  unfold lineStep
  by_cases hne : st.extentTree = .nil
  · have hsplay : extentSplay p.blocknr st.extentTree = .nil := by
      rw [hne]
      rfl
    have hapart : NoneTouches p { st with extentTree := extentSplay p.blocknr st.extentTree } := by
      intro e he
      rw [hsplay] at he
      cases he
    simp only [hsplay] at hapart ⊢
    exact (hsplay ▸ hsplayed).insertAll_spec hpos hapart rfl
  have hsorted := h.ordered.sorted p.blocknr
  -- the root, and what lies on its other side from the block
  obtain ⟨root, l, r, hsplay, hbefore, hbehind, hturn⟩ : ∃ root l r,
      extentSplay p.blocknr st.extentTree = .node root l r ∧
        (p.blocknr < root.block → ∀ e ∈ inorder l, e.block + e.len ≤ p.blocknr) ∧
        (root.block + root.len ≤ p.blocknr → ∀ e ∈ inorder r, p.blocknr < e.block) ∧
        (BehindRoot p.blocknr st.extentTree → p.blocknr < root.block) := by
    by_cases hagain : BehindRoot p.blocknr st.extentTree
    · obtain ⟨root, l, r, hroot, hgt, hr, hrne⟩ := hagain
      rw [hroot] at hsorted
      obtain ⟨root', l', r', hsplay, -, hlt, hl'⟩ := splay_again_gt hsorted (probeBlock_gt.2 hgt)
        (fun e he => probeBlock_lt.2 (hr e he)) hrne
      have hlt := probeBlock_lt.1 hlt
      exact ⟨root', l', r', hroot ▸ hsplay, fun _ e he => probeBlock_gt.1 (hl' e he),
        fun hge => absurd hge (by omega), fun _ => hlt⟩
    · obtain ⟨root, l, r, hsplay, -, hnear⟩ := splay_spec hne hsorted
      exact ⟨root, l, r, hsplay,
        fun hlt e he => probeBlock_gt.1 (hnear.before_of_lt (probeBlock_lt.2 hlt) e he),
        fun hge e he => probeBlock_lt.1 (hnear.behind_of_gt (probeBlock_gt.2 hge) e he),
        fun hyes => absurd hyes hagain⟩
  have hst : Loaded mem m inserted { st with extentTree := .node root l r } := hsplay ▸ hsplayed
  have hrootMem : root ∈ inorder (.node root l r) := by simp
  have horder : Ordered (inorder l ++ root :: inorder r) := hst.ordered
  simp only [hsplay]
  by_cases hlt : p.blocknr < root.block
  · rw [if_pos hlt]
    by_cases hgap : p.blocknr + p.len < root.block
    · rw [if_pos hgap]
      refine hst.insertAll_spec hpos (fun e he => ?_) rfl
      rcases List.mem_append.1 he with he | he
      · exact .inl (hbefore hlt e he)
      · exact .inr (lt_of_lt_of_le hgap (horder.from_root e he))
    · rw [if_neg hgap]
      exact hst.round_touching rfl hlt (Nat.le_of_not_lt hgap) (hbefore hlt) rfl
  · rw [if_neg hlt]
    by_cases hhas : root.Has p.blocknr
    · exact hst.round_has r hrootMem hhas rfl
    · have hge : root.block + root.len ≤ p.blocknr := by
        have hnot : ¬ (root.block ≤ p.blocknr ∧ p.blocknr < root.block + root.len) := hhas
        omega
      unfold lineTail
      rw [if_neg hhas]
      by_cases hr : r = .nil
      · rw [if_pos hr]
        subst hr
        exact hst.insertAll_spec hpos (fun e he => .inl ((horder.up_to e he).trans hge)) rfl
      · rw [if_neg hr]
        exact .again inserted _ hst ⟨root, l, r, rfl, hge, hbehind hge, hr⟩ hpos (fun hyes => hlt (hturn hyes)) rfl

/-! ## §5 — a line -/

/-- Two rounds are enough for each block of a piece, one of them where the next splay will bring another
extent to the root. -/
def EnoughFuel (fuel : ℕ) (p : Piece) (st : Loader n) : Prop :=
  2 * p.len < fuel ∨ 0 < p.len ∧ 2 * p.len ≤ fuel ∧ BehindRoot p.blocknr st.extentTree

/-- What is left of a piece ends as the piece does. -/
theorem InosDuring.after {p' : Piece} {m' : Places} {inos inos' inos'' : List ℕ}
    (h : InosDuring mem firstIno m p inos m' p' inos') (hafter : InosAfter mem firstIno m' p' inos' inos'') :
    InosAfter mem firstIno m p inos inos'' := by
  have hino := h.ino
  rcases h.cases with ⟨rfl, hiff⟩ | ⟨hnew, hnotLost, rfl⟩
  · exact ⟨fun hnew => hino ▸ hafter.added (hiff.mpr hnew), fun hnot => hafter.kept fun hnew => hnot (hiff.mp hnew)⟩
  · refine ⟨fun _ => ⟨hnotLost, ?_⟩, fun hnot => absurd hnew hnot⟩
    by_cases hrest : Unknown firstIno m' p'
    · rw [(hafter.added hrest).2, hino, Distinct.insertNew_insertNew]
    · exact hafter.kept hrest

/-- If the inode is lost for what is left, it was lost for the piece. -/
theorem InosDuring.lost {p' : Piece} {m' : Places} {inos inos' : List ℕ}
    (h : InosDuring mem firstIno m p inos m' p' inos') (hlost : UnknownLost mem firstIno m' p' inos') :
    UnknownLost mem firstIno m p inos := by
  have hino := h.ino
  obtain ⟨hrest, hrestLost⟩ := hlost
  rw [hino] at hrestLost
  rcases h.cases with ⟨rfl, hiff⟩ | ⟨-, hnotLost, rfl⟩
  · exact ⟨hiff.mp hrest, hrestLost⟩
  · exact absurd hrestLost (not_lost_insertNew hnotLost)

/-- **The loop on a line** ends, and it records the line unless it collides or its inode is lost. -/
theorem Loaded.loadLine_spec (h : Loaded mem m inserted st) (firstIno : ℕ) {fuel : ℕ}
    (hfuel : EnoughFuel fuel p st) :
    (∃ inserted' st', loadLine mem firstIno fuel p st = .finished st' ∧
        Loaded mem (record firstIno m p) inserted' st' ∧ ¬ Collides firstIno m p ∧
        InosAfter mem firstIno m p st.inos st'.inos) ∨
      ∃ stop, loadLine mem firstIno fuel p st = .stopped stop ∧
        (Collides firstIno m p ∨ UnknownLost mem firstIno m p st.inos) := by
  induction fuel generalizing m inserted st p with
  | zero => rcases hfuel with h | h <;> omega
  | succ fuel ih =>
      unfold loadLine
      by_cases hempty : p.len = 0
      · rw [if_pos hempty]
        have hnothing : ∀ x, ¬ p.Lists x := fun x hx => absurd (Nat.lt_of_le_of_lt hx.1 hx.2) (by omega)
        refine .inl ⟨inserted, st, rfl, ?_, fun hcollides => absurd hcollides.2.1 (by omega),
          fun hnew => absurd hnew.2.choose_spec.1 (hnothing _), fun _ => rfl⟩
        rw [record_of_known fun x hx => absurd hx (hnothing x)]
        exact h
      · rw [if_neg hempty]
        have hround := h.lineStep_spec firstIno (Nat.pos_of_ne_zero hempty)
        generalize lineStep mem firstIno p st = step at hround
        cases hround with
        | done st' inserted' h' hok hinos => exact .inl ⟨inserted', st', rfl, h', hok, hinos⟩
        | stopped stop hstops => exact .inr ⟨stop, rfl, hstops⟩
        | shorter m' inserted' p' st' h' hrecord hlen hok hok' hinos =>
            have hfuel' : EnoughFuel fuel p' st' := by
              refine .inl ?_
              rcases hfuel with h | h <;> omega
            rcases ih h' hfuel' with ⟨inserted'', st'', hfinished, h'', -, hinos''⟩ | ⟨stop, hstopped, hstops⟩
            · exact .inl ⟨inserted'', st'', hfinished, hrecord ▸ h'', hok, hinos.after hinos''⟩
            · rcases hstops with hcollides | hlost
              · exact absurd hcollides hok'
              · exact .inr ⟨stop, hstopped, .inr (hinos.lost hlost)⟩
        | again inserted' st' h' hbehind hpos hbefore hinos =>
            rw [← hinos]
            refine ih h' (.inr ⟨hpos, ?_, hbehind⟩)
            rcases hfuel with h | h
            · omega
            · exact absurd h.2.2 hbefore

/-! ## §6 — all lines -/

/-- The line is of a good inode, and has a block that no such line before has. -/
def Line.Adds (firstIno : ℕ) (before : List Line) (l : Line) : Prop :=
  firstIno ≤ l.ino ∧ ∃ x ∈ l.blocks, ∀ l' ∈ before, firstIno ≤ l'.ino → ¬ l'.Lists x

instance (firstIno : ℕ) (before : List Line) (l : Line) : Decidable (l.Adds firstIno before) :=
  inferInstanceAs (Decidable (_ ∧ _))

/-- The inodes of the lines that add blocks to those before. -/
def addingInos (firstIno : ℕ) : List Line → List Line → List ℕ
  | _, [] => []
  | before, l :: lines =>
      if l.Adds firstIno before then l.ino :: addingInos firstIno (before ++ [l]) lines
      else addingInos firstIno (before ++ [l]) lines

/-- The inodes in the order in which they first have something to add. -/
def createdInos (firstIno : ℕ) (lines : List Line) : List ℕ := (addingInos firstIno [] lines).eraseDups

/-- A line that adds blocks, for an inode that is lost. -/
def AddsLost (mem : InodeMemory n) (firstIno : ℕ) (before : List Line) (l : Line) : Prop :=
  l.Adds firstIno before ∧ Lost mem (createdInos firstIno before) l.ino

theorem unknown_iff {before : List Line} {l : Line} :
    Unknown firstIno (firstListed firstIno before) l.toPiece ↔ l.Adds firstIno before := by
  refine and_congr_right fun _ => exists_congr fun x => and_congr Piece.mem_blocks.symm ?_
  rw [← not_iff_not, ← ne_eq, firstListed_ne_none]
  push Not
  rfl

theorem addingInos_concat (before lines : List Line) (l : Line) :
    addingInos firstIno before (lines ++ [l])
      = addingInos firstIno before lines ++ if l.Adds firstIno (before ++ lines) then [l.ino] else [] := by
  induction lines generalizing before with
  | nil =>
      rw [List.nil_append, List.append_nil, addingInos, addingInos, addingInos]
      rfl
  | cons l' lines ih =>
      rw [List.cons_append, addingInos, addingInos, ih, List.append_assoc, List.singleton_append]
      split_ifs <;> rfl

theorem createdInos_concat (before : List Line) (l : Line) :
    createdInos firstIno (before ++ [l])
      = if l.Adds firstIno before then insertNew (createdInos firstIno before) l.ino
        else createdInos firstIno before := by
  unfold createdInos
  rw [addingInos_concat, List.nil_append, Distinct.insertNew_eraseDups]
  split_ifs
  · rfl
  · rw [List.append_nil]

theorem InosAfter.createdInos_eq {before : List Line} {l : Line} {inos' : List ℕ}
    (h : InosAfter mem firstIno (firstListed firstIno before) l.toPiece (createdInos firstIno before) inos') :
    inos' = createdInos firstIno (before ++ [l]) := by
  rw [createdInos_concat]
  split_ifs with hadds
  · exact (h.added (unknown_iff.mpr hadds)).2
  · exact h.kept fun hnew => hadds (unknown_iff.mp hnew)

theorem length_createdInos_le (lines : List Line) : (createdInos firstIno lines).length ≤ lines.length := by
  induction lines using List.reverseRecOn with
  | nil => exact Nat.le_refl _
  | append_singleton lines l ih =>
      rw [createdInos_concat, List.length_append, List.length_singleton]
      unfold insertNew
      split_ifs
      · omega
      · rw [List.length_append, List.length_singleton]
        omega
      · omega

/-- **A short list of lines loses no inode**, if `inode_hash` is clear at first. -/
theorem not_addsLost_of_few {before : List Line} (hfew : before.length ≤ inodeAllocEntries)
    (hclear : ∀ b, mem.leftover b = false) (l : Line) : ¬ AddsLost mem firstIno before l := fun h =>
  not_lost_of_few ((length_createdInos_le before).trans hfew) (hclear _) h.2

/-- What stops the loading, at a line. -/
def StopsAt (mem : InodeMemory n) (firstIno : ℕ) (before : List Line) (l : Line) : Prop :=
  Collides firstIno (firstListed firstIno before) l.toPiece ∨ AddsLost mem firstIno before l

/-- The lines, from those before on: each of them is recorded, or one stops it. -/
theorem Loaded.loadLines_spec {before : List Line} (h : Loaded mem (firstListed firstIno before) inserted st)
    (hinos : st.inos = createdInos firstIno before) (lines : List Line) :
    (∃ inserted' st', loadLines mem firstIno lines st = .finished st' ∧
        Loaded mem (firstListed firstIno (before ++ lines)) inserted' st' ∧
        ∀ pre l post, lines = pre ++ l :: post → ¬ StopsAt mem firstIno (before ++ pre) l) ∨
      ∃ stop, loadLines mem firstIno lines st = .stopped stop ∧
        ∃ pre l post, lines = pre ++ l :: post ∧ StopsAt mem firstIno (before ++ pre) l := by
  induction lines generalizing before inserted st with
  | nil =>
      refine .inl ⟨inserted, st, rfl, by rwa [List.append_nil], fun pre l post hsplit => ?_⟩
      exact absurd hsplit (by simp)
  | cons line lines ih =>
      have hline := h.loadLine_spec firstIno
        (.inl (Nat.lt_succ_self _) : EnoughFuel (2 * line.len + 1) line.toPiece st)
      unfold loadLines
      rcases hline with ⟨inserted', st', hfinished, h', hok, hafter⟩ | ⟨stop, hstopped, hstops⟩
      · rw [← firstListed_concat] at h'
        rw [hinos] at hafter
        simp only [hfinished]
        have hassoc : ∀ pre, before ++ line :: pre = before ++ [line] ++ pre := fun pre => by simp
        rcases ih h' hafter.createdInos_eq with
          ⟨inserted'', st'', hfinished', h'', hok'⟩ | ⟨stop, hstopped, pre, l, post, rfl, hstops⟩
        · refine .inl ⟨inserted'', st'', hfinished', hassoc lines ▸ h'', fun pre l post hsplit => ?_⟩
          cases pre with
          | nil =>
              cases hsplit
              rw [List.append_nil]
              exact fun hstops => hstops.elim hok fun hlost =>
                (hafter.added (unknown_iff.mpr hlost.1)).1 hlost.2
          | cons first pre =>
              obtain ⟨rfl, hrest⟩ := List.cons_eq_cons.1 hsplit
              rw [hassoc]
              exact hok' pre l post hrest
        · exact .inr ⟨stop, hstopped, line :: pre, l, post, rfl, hassoc pre ▸ hstops⟩
      · simp only [hstopped]
        refine .inr ⟨stop, rfl, [], line, lines, rfl, ?_⟩
        rw [List.append_nil]
        rw [hinos] at hstops
        exact hstops.imp_right fun hlost => ⟨unknown_iff.mp hlost.1, hlost.2⟩

end Loaded

section Result

variable {n : ℕ} [NeZero n] {mem : InodeMemory n} (firstIno : ℕ)

/-- What loading should end with: the extents are disjoint, they cover the blocks listed for good inodes,
each block with the inode and the offset of the first line, and their chunk offsets are the running sums
of their lengths. -/
structure LoadedRight (lines : List Line) (inserted : Inserted) (st : Loader n) : Prop where
  tree : (inorder st.extentTree).Perm (inserted.map Prod.snd)
  inodes : InodesRight st.table.inodes inserted
  disjoint : inserted.Pairwise fun a b => ∀ x, ¬ (a.2.Has x ∧ b.2.Has x)
  covers : ∀ x, (∃ entry ∈ inserted, entry.2.Has x) ↔ ∃ l ∈ lines, firstIno ≤ l.ino ∧ l.Lists x
  first : ∀ entry ∈ inserted, ∀ x, entry.2.Has x →
    firstListed firstIno lines x = some (entry.1, entry.2.offset + (x - entry.2.block))
  chunks : Running (·.2.len) (·.2.chunkOffset) 0 inserted

variable {firstIno}

theorem Loaded.right {lines : List Line} {inserted : Inserted} {st : Loader n}
    (h : Loaded mem (firstListed firstIno lines) inserted st) : LoadedRight firstIno lines inserted st := by
  refine ⟨h.perm, h.inodes.toInodesRight, ?_, fun x => ?_, fun entry hentry x hx => ?_, h.chunks⟩
  · have hapart : (inorder st.extentTree).Pairwise fun a b => ∀ x, ¬ (a.Has x ∧ b.Has x) := by
      refine h.ordered.apart.imp fun {a b} hab x hx => ?_
      have ha : x < a.block + a.len := hx.1.2
      have hb : b.block ≤ x := hx.2.1
      omega
    have hperm := h.perm.pairwise_iff (R := fun a b : RemapExtent => ∀ x, ¬ (a.Has x ∧ b.Has x))
      fun {a b} hab x hx => hab x hx.symm
    exact List.pairwise_map.1 (hperm.1 hapart)
  · rw [← firstListed_ne_none, h.known]
    constructor
    · rintro ⟨entry, hentry, hx⟩
      exact ⟨entry.2, h.perm.mem_iff.2 (List.mem_map_of_mem hentry), hx⟩
    · rintro ⟨e, he, hx⟩
      obtain ⟨entry, hentry, rfl⟩ := List.mem_map.1 (h.perm.mem_iff.1 he)
      exact ⟨entry, hentry, hx⟩
  · exact (h.places x _).2 ⟨entry, hentry, hx, rfl⟩

/-- The extents end below `2 ^ 32` as the lines do, so that no sum of a block and a length wraps. -/
theorem Loaded.fits {lines : List Line} {inserted : Inserted} {st : Loader n}
    (h : Loaded mem (firstListed firstIno lines) inserted st) {e : RemapExtent} (he : e ∈ inorder st.extentTree) :
    e.block + e.len < 2 ^ 32 := by
  have hpos := h.ordered.pos e he
  have hlast : firstListed firstIno lines (e.block + e.len - 1) ≠ none :=
    h.known.2 ⟨e, he, by omega, by omega⟩
  obtain ⟨l, -, -, hlists⟩ := firstListed_ne_none.1 hlast
  have hhi : e.block + e.len - 1 < l.blocknr + l.len := hlists.2
  have := l.fits
  omega

/-- A line of a good inode that lists blocks. -/
def Line.Counts (firstIno : ℕ) (l : Line) : Prop := firstIno ≤ l.ino ∧ 0 < l.len

/-- A line that begins before all those before it and reaches one of them. -/
def ReachesFirst (firstIno : ℕ) (before : List Line) (l : Line) : Prop :=
  l.Counts firstIno ∧ (∀ l' ∈ before, l'.Counts firstIno → l.blocknr < l'.blocknr) ∧
    ∃ l' ∈ before, l'.Counts firstIno ∧ l'.blocknr ≤ l.blocknr + l.len

theorem collides_iff {before : List Line} {l : Line} :
    Collides firstIno (firstListed firstIno before) l.toPiece ↔ ReachesFirst firstIno before l := by
  have hcounts : ∀ {l' : Line}, l'.Counts firstIno → l'.Lists l'.blocknr :=
    fun hl' => ⟨Nat.le_refl _, Nat.lt_add_of_pos_right hl'.2⟩
  have hlists : ∀ {l' : Line} {x : ℕ}, firstIno ≤ l'.ino → l'.Lists x → l'.Counts firstIno := by
    intro l' x hgood hx
    have hlo : l'.blocknr ≤ x := hx.1
    have hhi : x < l'.blocknr + l'.len := hx.2
    exact ⟨hgood, by omega⟩
  unfold Collides ReachesFirst
  simp only [firstListed_ne_none]
  constructor
  · rintro ⟨hgood, hpos, hbehind, x, ⟨l', hmem, hgood', hx⟩, hle⟩
    refine ⟨⟨hgood, hpos⟩, fun l' hmem hl' => hbehind _ ⟨l', hmem, hl'.1, hcounts hl'⟩, l', hmem,
      hlists hgood' hx, hx.1.trans hle⟩
  · rintro ⟨⟨hgood, hpos⟩, hbehind, l', hmem, hl', hle⟩
    refine ⟨hgood, hpos, ?_, l'.blocknr, ⟨l', hmem, hl'.1, hcounts hl'⟩, hle⟩
    rintro x ⟨l', hmem, hgood', hx⟩
    exact lt_of_lt_of_le (hbehind l' hmem (hlists hgood' hx)) hx.1

/-- Nothing is loaded before the first line. -/
theorem loaded_empty (mem : InodeMemory n) (firstIno : ℕ) :
    Loaded mem (firstListed firstIno []) [] (emptyLoader mem) :=
  ⟨⟨List.Pairwise.nil, nofun⟩, List.Perm.nil, inodesHold_start mem, fun _ _ => ⟨nofun, nofun⟩, trivial, rfl⟩

/-- Loading comes to its end, or a line stops it. -/
theorem loadExtents_cases (mem : InodeMemory n) (firstIno : ℕ) (lines : List Line) :
    (∃ inserted st, loadExtents mem firstIno lines = .finished st ∧
        Loaded mem (firstListed firstIno lines) inserted st ∧
        ∀ pre l post, lines = pre ++ l :: post → ¬ ReachesFirst firstIno pre l ∧ ¬ AddsLost mem firstIno pre l) ∨
      ∃ stop, loadExtents mem firstIno lines = .stopped stop ∧
        ∃ pre l post, lines = pre ++ l :: post ∧ (ReachesFirst firstIno pre l ∨ AddsLost mem firstIno pre l) := by
  have hlines := (loaded_empty mem firstIno).loadLines_spec rfl lines
  unfold StopsAt at hlines
  simp only [List.nil_append, collides_iff, not_or] at hlines
  exact hlines

/-- **When loading goes right**: no line that begins before all those before it reaches one of them, and no line
that adds blocks is for an inode that is lost. -/
theorem loaded_iff (mem : InodeMemory n) (firstIno : ℕ) (lines : List Line) :
    (∃ inserted st, loadExtents mem firstIno lines = .finished st ∧ LoadedRight firstIno lines inserted st) ↔
      ∀ pre l post, lines = pre ++ l :: post → ¬ ReachesFirst firstIno pre l ∧ ¬ AddsLost mem firstIno pre l := by
  rcases loadExtents_cases mem firstIno lines with
    ⟨inserted, st, hfinished, h, hok⟩ | ⟨stop, hstopped, pre, l, post, hsplit, hstops⟩
  · exact iff_of_true ⟨inserted, st, hfinished, h.right⟩ hok
  · refine iff_of_false ?_ fun h => hstops.elim (h pre l post hsplit).1 (h pre l post hsplit).2
    rintro ⟨inserted, st, hfinished, -⟩
    rw [hstopped] at hfinished
    cases hfinished

end Result

/-- Five blocks of one file, and the ten blocks before them of another. -/
def adjoining : List Line := [⟨⟨20, 5, 0, 12⟩, by decide⟩, ⟨⟨10, 10, 0, 13⟩, by decide⟩]

/-- `inode_hash` of the default size, clear at first, and an array that moves whenever it can. -/
def movingMemory : InodeMemory 8192 := ⟨fun _ => false, fun _ => true⟩

theorem loaded_iff_adjoining :
    (∃ inserted st, loadExtents movingMemory 11 adjoining = .finished st ∧ LoadedRight 11 adjoining inserted st) ↔
      ∀ pre l post, adjoining = pre ++ l :: post → ¬ ReachesFirst 11 pre l ∧ ¬ AddsLost movingMemory 11 pre l :=
  loaded_iff movingMemory 11 adjoining

/-- The extents only touch, and the second one is taken for overlapping. -/
theorem not_loaded_adjoining :
    ¬ ∀ (n : ℕ) [NeZero n] (mem : InodeMemory n) (firstIno : ℕ) (lines : List Line),
      ∃ inserted st, loadExtents mem firstIno lines = .finished st ∧ LoadedRight firstIno lines inserted st := by
  intro h
  obtain ⟨inserted, st, hfinished, -⟩ := h 8192 movingMemory 11 adjoining
  have hexited : loadExtents movingMemory 11 adjoining = .stopped .exited := rfl
  rw [hexited] at hfinished
  cases hfinished

end Prefetch.Remap

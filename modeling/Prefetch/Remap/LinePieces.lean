/-
# Prefetch.Remap.LinePieces — what loading takes from the lines

What `load_extents` inserts is always a part of the line it is reading: it begins at some block of the line,
with the offset of that block, and ends within it. An inode is only created to receive an extent.

Each extent gets the next positions, so the blocks in the order of their positions are listed as the lines
have them, and a block that several lines have, as the first of them has it (`loadExtents_wanted`).
-/
import Prefetch.Lib.Distinct
import Prefetch.Remap.LoadSpec

namespace Prefetch.Remap

open SplayTree

/-! ## §1 — parts of a line -/

/-- A part of a line, with the offset it has there. -/
structure Piece.PartOf (p : Piece) (l : Line) : Prop where
  ino : p.ino = l.ino
  lo : l.blocknr ≤ p.blocknr
  hi : p.blocknr + p.len ≤ l.blocknr + l.len
  offset : p.offset = l.offset + (p.blocknr - l.blocknr : ℕ)

namespace Piece.PartOf

variable {p : Piece} {l : Line} {k : ℕ}

theorem refl (l : Line) : l.toPiece.PartOf l := ⟨rfl, Nat.le_refl _, Nat.le_refl _, by simp⟩

theorem upTo (h : p.PartOf l) (hk : k ≤ p.len) : (p.upTo k).PartOf l := by
  have hhi := h.hi
  exact ⟨h.ino, h.lo, by show p.blocknr + k ≤ _; omega, h.offset⟩

theorem behind (h : p.PartOf l) (hk : k ≤ p.len) : (p.behind k).PartOf l := by
  have hlo := h.lo
  have hhi := h.hi
  have hoffset := h.offset
  refine ⟨h.ino, ?_, ?_, ?_⟩
  · show l.blocknr ≤ p.blocknr + k
    omega
  · show p.blocknr + k + (p.len - k) ≤ _
    omega
  · show p.offset + k = l.offset + (p.blocknr + k - l.blocknr : ℕ)
    omega

end Piece.PartOf

theorem Piece.behind_behind (p : Piece) (k k' : ℕ) : (p.behind k).behind k' = p.behind (k + k') := by
  show Piece.mk (p.blocknr + k + k') (p.len - k - k') (p.offset + k + k') p.ino
    = ⟨p.blocknr + (k + k'), p.len - (k + k'), p.offset + (k + k' : ℕ), p.ino⟩
  rw [Nat.add_assoc, Nat.sub_sub, Int.add_assoc, Int.natCast_add]

/-- The first blocks of a piece and those behind them. -/
theorem Piece.blocks_split (p : Piece) {k : ℕ} (hk : k ≤ p.len) :
    (p.upTo k).blocks ++ (p.behind k).blocks = p.blocks := by
  show List.range' p.blocknr k ++ List.range' (p.blocknr + k) (p.len - k) = List.range' p.blocknr p.len
  rw [List.range'_append_1, Nat.add_sub_cancel' hk]

/-! ## §2 — the extents of the inodes -/

section Table

variable {n : ℕ} [NeZero n] {mem : InodeMemory n} {P Q : ℕ → RemapExtent → Prop}

/-- No inode without an extent, and `P` of every extent. -/
def Filled (P : ℕ → RemapExtent → Prop) (t : InodeTable n) : Prop :=
  ∀ iext ∈ t.inodes, iext.extents ≠ [] ∧ ∀ e ∈ iext.extents, P iext.ino e

omit [NeZero n] in
theorem Filled.imp {t : InodeTable n} (h : Filled P t) (himp : ∀ ino e, P ino e → Q ino e) : Filled Q t :=
  fun iext hmem => ⟨(h iext hmem).1, fun e he => himp _ _ ((h iext hmem).2 e he)⟩

omit [NeZero n] in
/-- An extent comes to an inode of its number, which may have been empty. -/
theorem filled_appendExtent {t : InodeTable n} {i : ℕ} {ext : RemapExtent}
    (h : ∀ j iext, t.inodes[j]? = some iext → (j = i → P iext.ino ext) ∧
      (j ≠ i → iext.extents ≠ []) ∧ ∀ e ∈ iext.extents, P iext.ino e) : Filled P (appendExtent t i ext) := by
  intro iext hmem
  obtain ⟨j, hj⟩ := List.mem_iff_getElem?.mp hmem
  have hget : (t.inodes.modify i fun iext => { iext with extents := iext.extents ++ [ext] })[j]? = some iext := hj
  rw [List.getElem?_modify] at hget
  obtain ⟨old, hold, heq⟩ := Option.map_eq_some_iff.mp hget
  obtain ⟨hnew, hother, hall⟩ := h j old hold
  by_cases hij : i = j
  · rw [if_pos hij] at heq
    subst heq
    refine ⟨List.append_ne_nil_of_right_ne_nil _ (List.cons_ne_nil _ _), fun e he => ?_⟩
    rcases List.mem_append.mp he with he | he
    · exact hall e he
    · rw [List.mem_singleton.mp he]
      exact hnew hij.symm
  · rw [if_neg hij] at heq
    obtain rfl : old = iext := heq
    exact ⟨hother (Ne.symm hij), hall⟩

omit [NeZero n] in
/-- The inodes stay as they are when the array is made longer. -/
theorem makeRoom_inodes {t t' : InodeTable n} (h : makeRoom mem t = .ok t') : t'.inodes = t.inodes := by
  unfold makeRoom at h
  split at h
  · split at h
    · cases h
      rfl
    · cases h
  · cases h
    rfl

theorem Filled.addToInode {t t' : InodeTable n} (h : Filled P t) {ino : ℕ} {ext : RemapExtent}
    (hext : P ino ext) (hrun : addToInode mem t ino ext = .ok t') : Filled P t' := by
  unfold Remap.addToInode at hrun
  split at hrun
  · next i hi =>
    cases hrun
    obtain ⟨iext', hget', hino⟩ := InodesHold.of_lookup_found hi
    refine filled_appendExtent fun j iext hget => ?_
    obtain ⟨hne, hall⟩ := h iext (List.mem_of_getElem? hget)
    refine ⟨?_, fun _ => hne, hall⟩
    rintro rfl
    cases hget.symm.trans hget'
    exact hino ▸ hext
  · unfold createNewInode at hrun
    cases hroom : makeRoom mem t with
    | error stop =>
        rw [hroom] at hrun
        cases hrun
    | ok t₁ =>
    rw [hroom] at hrun
    cases hrun
    refine filled_appendExtent fun j iext hget => ?_
    have hget' : (t₁.inodes ++ [⟨ino, []⟩])[j]? = some iext := hget
    rw [makeRoom_inodes hroom] at hget'
    rcases Nat.lt_trichotomy j t.inodes.length with hlt | rfl | hgt
    · rw [List.getElem?_append_left hlt] at hget'
      obtain ⟨hne, hall⟩ := h iext (List.mem_of_getElem? hget')
      exact ⟨fun heq => absurd heq hlt.ne, fun _ => hne, hall⟩
    · rw [List.getElem?_concat_length] at hget'
      cases hget'
      exact ⟨fun _ => hext, fun hne => absurd rfl hne, fun e he => absurd he List.not_mem_nil⟩
    · rw [List.getElem?_eq_none (by rw [List.length_append, List.length_singleton]; omega)] at hget'
      cases hget'
  · cases hrun

end Table

/-! ## §3 — the blocks in the order of their positions -/

/-- An extent of an inode is a part of one of these lines. -/
def FromLines (firstIno : ℕ) (lines : List Line) (ino : ℕ) (e : RemapExtent) : Prop :=
  ∃ l ∈ lines, firstIno ≤ ino ∧ Piece.PartOf ⟨e.block, e.len, e.offset, ino⟩ l

/-- The blocks of an extent are those listed from its position on. -/
def PlacedAt (order : List ℕ) (e : RemapExtent) : Prop :=
  ∀ k < e.len, order[e.chunkOffset + k]? = some (e.block + k)

theorem PlacedAt.append {order : List ℕ} {e : RemapExtent} (h : PlacedAt order e) (new : List ℕ) :
    PlacedAt (order ++ new) e := by
  intro k hk
  rw [List.getElem?_append_left (List.getElem?_eq_some_iff.mp (h k hk)).1]
  exact h k hk

section Load

variable {n : ℕ} [NeZero n] {mem : InodeMemory n} {firstIno : ℕ} {lines : List Line} {l : Line} {p : Piece}
  {st st' : Loader n}
  {order : List ℕ}

/-- The inodes have parts of these lines only, and `order` lists the blocks by their positions. -/
structure Loader.FromLines (firstIno : ℕ) (lines : List Line) (order : List ℕ) (st : Loader n) : Prop where
  filled : Filled (fun ino e => Remap.FromLines firstIno lines ino e ∧ PlacedAt order e) st.table
  length : order.length = st.remapBlocks

/-- An insertion puts the blocks of the piece at the end, or none. -/
theorem Loader.FromLines.insertNewExtent (h : st.FromLines firstIno lines order) (hl : l ∈ lines)
    (hp : p.PartOf l) (hrun : insertNewExtent mem firstIno p st = .ok st') :
    ∃ new, new.Sublist p.blocks ∧ st'.FromLines firstIno lines (order ++ new) := by
  unfold Remap.insertNewExtent at hrun
  split at hrun
  · next hgood =>
    dsimp only at hrun
    split at hrun
    · cases hrun
    · next table htable =>
      split at hrun
      · cases hrun
      cases hrun
      refine ⟨p.blocks, List.Sublist.refl _, ?_, ?_⟩
      · have hgrown := h.filled.imp fun ino e he => (⟨he.1, he.2.append p.blocks⟩ :
          Remap.FromLines firstIno lines ino e ∧ PlacedAt (order ++ p.blocks) e)
        refine hgrown.addToInode ⟨⟨l, hl, hgood, hp⟩, fun k hk => ?_⟩ htable
        have hk' : k < p.len := hk
        show (order ++ p.blocks)[st.remapBlocks + k]? = some (p.blocknr + k)
        rw [← h.length, List.getElem?_append_right (Nat.le_add_right _ _), Nat.add_sub_cancel_left, Piece.blocks,
          List.getElem?_range' hk', Nat.one_mul]
      · rw [List.length_append, h.length, Piece.blocks, List.length_range']
  · cases hrun
    refine ⟨[], List.nil_sublist _, ?_⟩
    rw [List.append_nil]
    exact h

/-- What a round on a piece of a line leaves: blocks of the piece at the end, and the piece behind them. -/
def LineStep.Within (firstIno : ℕ) (lines : List Line) (order : List ℕ) (p : Piece) : LineStep n → Prop
  | .done st => ∃ new, new.Sublist p.blocks ∧ st.FromLines firstIno lines (order ++ new)
  | .stopped _ => True
  | .more p' st => ∃ k ≤ p.len, p' = p.behind k ∧
      ∃ new, new.Sublist (p.upTo k).blocks ∧ st.FromLines firstIno lines (order ++ new)

omit [NeZero n] in
/-- A round on what is left of a piece, as one on the piece. -/
theorem LineStep.Within.of_behind {s : LineStep n} {k : ℕ} (hk : k ≤ p.len) {first : List ℕ}
    (hfirst : first.Sublist (p.upTo k).blocks) (h : s.Within firstIno lines (order ++ first) (p.behind k)) :
    s.Within firstIno lines order p := by
  cases s with
  | done st =>
      obtain ⟨new, hnew, hst⟩ := h
      refine ⟨first ++ new, p.blocks_split hk ▸ hfirst.append hnew, ?_⟩
      rwa [← List.append_assoc]
  | stopped stop => trivial
  | more p' st =>
      obtain ⟨k', hk', rfl, new, hnew, hst⟩ := h
      have hle : k' ≤ p.len - k := hk'
      refine ⟨k + k', by omega, p.behind_behind k k', first ++ new, ?_, by rwa [← List.append_assoc]⟩
      have hsplit := (p.upTo (k + k')).blocks_split (Nat.le_add_right k k')
      have hrest : ((p.upTo (k + k')).behind k).blocks = ((p.behind k).upTo k').blocks := by
        show List.range' (p.blocknr + k) (k + k' - k) = List.range' (p.blocknr + k) k'
        rw [Nat.add_sub_cancel_left]
      rw [hrest] at hsplit
      exact hsplit ▸ hfirst.append hnew

theorem insertAll_within (h : st.FromLines firstIno lines order) (hl : l ∈ lines) (hp : p.PartOf l) :
    (insertAll mem firstIno p st).Within firstIno lines order p := by
  unfold insertAll
  split
  · trivial
  · next st' hrun => exact h.insertNewExtent hl hp hrun

theorem lineTail_within (h : st.FromLines firstIno lines order) (hl : l ∈ lines) (hp : p.PartOf l)
    (ext : RemapExtent) (r : BinaryTree RemapExtent) :
    (lineTail mem firstIno p st ext r).Within firstIno lines order p := by
  have hnone : st.FromLines firstIno lines (order ++ []) := (List.append_nil order).symm ▸ h
  unfold lineTail
  split_ifs with hhas hend hnil
  · exact ⟨[], List.nil_sublist _, hnone⟩
  · exact ⟨_, by omega, rfl, [], List.nil_sublist _, hnone⟩
  · exact insertAll_within h hl hp
  · exact ⟨0, Nat.zero_le _, by simp [Piece.behind], [], List.nil_sublist _, hnone⟩

theorem lineStep_within (h : st.FromLines firstIno lines order) (hl : l ∈ lines) (hp : p.PartOf l) :
    (lineStep mem firstIno p st).Within firstIno lines order p := by
  -- splaying leaves the inodes alone
  have hsplayed : ({ st with extentTree := extentSplay p.blocknr st.extentTree } : Loader n).FromLines
      firstIno lines order := ⟨h.filled, h.length⟩
  unfold lineStep
  dsimp only
  split
  · exact insertAll_within hsplayed hl hp
  · next ext left r _ =>
    split_ifs with hbefore hapart
    · exact insertAll_within hsplayed hl hp
    · split
      · trivial
      · next st' hrun =>
        have hcut : ext.block - p.blocknr ≤ p.len := by omega
        obtain ⟨first, hfirst, hinserted⟩ := hsplayed.insertNewExtent hl (hp.upTo hcut) hrun
        exact (lineTail_within hinserted hl (hp.behind hcut) ext r).of_behind hcut hfirst
    · exact lineTail_within hsplayed hl hp ext r

/-- What a line adds are blocks of it, in its order. -/
theorem loadLine_fromLines (fuel : ℕ) (h : st.FromLines firstIno lines order) (hl : l ∈ lines)
    (hp : p.PartOf l) (hrun : loadLine mem firstIno fuel p st = .finished st') :
    ∃ new, new.Sublist p.blocks ∧ st'.FromLines firstIno lines (order ++ new) := by
  induction fuel generalizing p st order with
  | zero => cases hrun
  | succ fuel ih =>
      unfold loadLine at hrun
      split_ifs at hrun
      · cases hrun
        exact ⟨[], List.nil_sublist _, (List.append_nil order).symm ▸ h⟩
      · have hstep : (lineStep mem firstIno p st).Within firstIno lines order p := lineStep_within h hl hp
        split at hrun
        · next hdone =>
          cases hrun
          rw [hdone] at hstep
          exact hstep
        · cases hrun
        · next hmore =>
          rw [hmore] at hstep
          obtain ⟨k, hk, rfl, first, hfirst, hst⟩ := hstep
          obtain ⟨new, hnew, hst'⟩ := ih hst (hp.behind hk) hrun
          refine ⟨first ++ new, p.blocks_split hk ▸ hfirst.append hnew, ?_⟩
          rwa [← List.append_assoc]

end Load

/-! ## §4 — the order of the lines -/

/-- The blocks of a line that counts. -/
def Line.wanted (firstIno : ℕ) (l : Line) : List ℕ := if firstIno ≤ l.ino then l.blocks else []

/-- The blocks of the lines, each where it is listed first. -/
def wantedBlocks (firstIno : ℕ) (lines : List Line) : List ℕ :=
  (lines.flatMap (Line.wanted firstIno)).eraseDups

theorem mem_wantedBlocks {firstIno : ℕ} {lines : List Line} {b : ℕ} :
    b ∈ wantedBlocks firstIno lines ↔ ∃ l ∈ lines, firstIno ≤ l.ino ∧ l.Lists b := by
  unfold wantedBlocks
  rw [List.mem_eraseDups, List.mem_flatMap]
  refine exists_congr fun l => and_congr_right fun _ => ?_
  unfold Line.wanted
  split_ifs with hgood
  · rw [Piece.blocks, List.mem_range'_1]
    exact (and_iff_right hgood).symm
  · exact iff_of_false List.not_mem_nil fun h => hgood h.1

section Order

variable {n : ℕ} [NeZero n] {mem : InodeMemory n} {firstIno : ℕ} {m : Places} {inserted : Inserted}
  {lines : List Line} {st : Loader n}
  {order : List ℕ}

/-- An extent is in the list of its inode. -/
theorem Loaded.mem_inode (h : Loaded mem m inserted st) {entry : ℕ × RemapExtent} (hentry : entry ∈ inserted) :
    ∃ iext ∈ st.table.inodes, iext.ino = entry.1 ∧ entry.2 ∈ iext.extents := by
  obtain ⟨iext, hmem, hino⟩ := h.inodes.has entry hentry
  refine ⟨iext, hmem, hino, ?_⟩
  rw [h.inodes.extents iext hmem]
  exact List.mem_map.mpr ⟨entry, List.mem_filter.mpr ⟨hentry, decide_eq_true hino.symm⟩, rfl⟩

theorem Loaded.placedAt (h : Loaded mem m inserted st) (hfrom : st.FromLines firstIno lines order)
    {entry : ℕ × RemapExtent} (hentry : entry ∈ inserted) : PlacedAt order entry.2 := by
  obtain ⟨iext, hmem, -, he⟩ := h.mem_inode hentry
  exact ((hfrom.filled iext hmem).2 _ he).2

/-- The block at a position is one of an extent. -/
theorem Loaded.getElem?_order (h : Loaded mem m inserted st) (hfrom : st.FromLines firstIno lines order) {pos b : ℕ}
    (hget : order[pos]? = some b) : ∃ entry ∈ inserted, entry.2.Has b ∧
      pos = entry.2.chunkOffset + (b - entry.2.block) := by
  have hpos := (List.getElem?_eq_some_iff.mp hget).1
  rw [hfrom.length, h.remapBlocks] at hpos
  obtain ⟨entry, hentry, hlo, hhi⟩ := h.chunks.exists_mem (Nat.zero_le pos) (by omega)
  have hplaced := h.placedAt hfrom hentry (pos - entry.2.chunkOffset) (by omega)
  rw [Nat.add_sub_cancel' hlo, hget] at hplaced
  have hb := Option.some.inj hplaced
  exact ⟨entry, hentry, ⟨by omega, by omega⟩, by omega⟩

/-- The list of the blocks has those of all extents. -/
theorem Loaded.mem_order (h : Loaded mem m inserted st) (hfrom : st.FromLines firstIno lines order) {b : ℕ} :
    b ∈ order ↔ m b ≠ none := by
  rw [List.mem_iff_getElem?, h.known]
  constructor
  · rintro ⟨pos, hget⟩
    obtain ⟨entry, hentry, hb, -⟩ := h.getElem?_order hfrom hget
    exact ⟨entry.2, h.perm.mem_iff.mpr (List.mem_map_of_mem hentry), hb⟩
  · rintro ⟨e, he, hlo, hhi⟩
    obtain ⟨entry, hentry, rfl⟩ := List.mem_map.mp (h.perm.mem_iff.mp he)
    have hplaced := h.placedAt hfrom hentry (b - entry.2.block) (by omega)
    rw [Nat.add_sub_cancel' hlo] at hplaced
    exact ⟨_, hplaced⟩

/-- A block is in one extent only. -/
theorem Loaded.eq_of_has {before : List Line} (h : Loaded mem (firstListed firstIno before) inserted st)
    {entry entry' : ℕ × RemapExtent} (hentry : entry ∈ inserted) (hentry' : entry' ∈ inserted) {b : ℕ}
    (hb : entry.2.Has b) (hb' : entry'.2.Has b) : entry = entry' := by
  have hsymm : Std.Symm fun a b : ℕ × RemapExtent => ∀ x, ¬ (a.2.Has x ∧ b.2.Has x) :=
    ⟨fun _ _ h x hx => h x hx.symm⟩
  by_contra hne
  exact h.right.disjoint.forall hentry hentry' hne b ⟨hb, hb'⟩

theorem Loaded.nodup_order {before : List Line} (h : Loaded mem (firstListed firstIno before) inserted st)
    (hfrom : st.FromLines firstIno lines order) : order.Nodup := by
  rw [List.nodup_iff_injective_get]
  intro i j heq
  have hi : order[(i : ℕ)]? = some (order.get i) := List.getElem?_eq_getElem i.isLt
  have hj : order[(j : ℕ)]? = some (order.get i) := heq ▸ List.getElem?_eq_getElem j.isLt
  obtain ⟨entry, hentry, hb, hpos⟩ := h.getElem?_order hfrom hi
  obtain ⟨entry', hentry', hb', hpos'⟩ := h.getElem?_order hfrom hj
  obtain rfl := h.eq_of_has hentry hentry' hb hb'
  exact Fin.ext (hpos.trans hpos'.symm)

/-- After a line: its blocks that were not listed are listed behind the others. -/
theorem Loaded.wanted_concat {before : List Line} {l : Line} {new : List ℕ}
    (h : Loaded mem (firstListed firstIno (before ++ [l])) inserted st) (hnew : new.Sublist l.blocks)
    (hfrom : st.FromLines firstIno lines (wantedBlocks firstIno before ++ new)) :
    wantedBlocks firstIno before ++ new = wantedBlocks firstIno (before ++ [l]) := by
  have hnodup := h.nodup_order hfrom
  have hmem : ∀ b, b ∈ wantedBlocks firstIno before ++ new ↔ b ∈ wantedBlocks firstIno (before ++ [l]) := by
    intro b
    rw [h.mem_order hfrom, firstListed_ne_none, mem_wantedBlocks]
  -- a line of a bad inode has nothing new
  have hgood : new.Sublist (l.wanted firstIno) := by
    unfold Line.wanted
    split_ifs with hgood
    · exact hnew
    · rw [List.sublist_nil, List.eq_nil_iff_forall_not_mem]
      intro b hb
      have hold := mem_wantedBlocks.mp ((hmem b).mp (List.mem_append_right _ hb))
      obtain ⟨l', hl', hl'good, hl'b⟩ := hold
      rcases List.mem_append.mp hl' with hl' | hl'
      · have hboth := mem_wantedBlocks.mpr ⟨l', hl', hl'good, hl'b⟩
        exact List.disjoint_of_nodup_append hnodup hboth hb
      · cases List.mem_singleton.mp hl'
        exact hgood hl'good
  have hline : (l.wanted firstIno).Nodup := by
    unfold Line.wanted
    split_ifs
    · exact List.nodup_range'
    · exact List.nodup_nil
  unfold wantedBlocks
  rw [List.flatMap_append, List.flatMap_singleton]
  refine (Distinct.eraseDups_append_of_sublist hgood hline fun b hb => ?_).symm
  have hwanted : b ∈ wantedBlocks firstIno (before ++ [l]) := by
    unfold wantedBlocks
    rw [List.mem_eraseDups, List.flatMap_append, List.flatMap_singleton]
    exact List.mem_append_right _ hb
  constructor
  · intro hb hold
    exact List.disjoint_of_nodup_append hnodup (List.mem_eraseDups.mpr hold) hb
  · intro hold
    rcases List.mem_append.mp ((hmem b).mpr hwanted) with hold' | hb
    · exact absurd (List.mem_eraseDups.mp hold') hold
    · exact hb

/-- The lines, one after the other. -/
theorem Loaded.loadLines_wanted {before todo : List Line} {st' : Loader n}
    (h : Loaded mem (firstListed firstIno before) inserted st) (htodo : ∀ l ∈ todo, l ∈ lines)
    (hfrom : st.FromLines firstIno lines (wantedBlocks firstIno before))
    (hrun : loadLines mem firstIno todo st = .finished st') :
    ∃ inserted', Loaded mem (firstListed firstIno (before ++ todo)) inserted' st' ∧
      st'.FromLines firstIno lines (wantedBlocks firstIno (before ++ todo)) := by
  induction todo generalizing before inserted st with
  | nil =>
      cases hrun
      rw [List.append_nil]
      exact ⟨inserted, h, hfrom⟩
  | cons l todo ih =>
      rw [loadLines] at hrun
      split at hrun
      · next st₁ hline =>
        have hspec := h.loadLine_spec firstIno
          (.inl (Nat.lt_succ_self _) : EnoughFuel (2 * l.len + 1) l.toPiece st)
        rcases hspec with ⟨inserted₁, st₂, hfinished, h₁, -⟩ | ⟨stop, hstopped, -⟩
        · obtain ⟨new, hnew, hfrom₁⟩ := loadLine_fromLines _ hfrom (htodo l List.mem_cons_self) (.refl l) hline
          rw [hline] at hfinished
          cases hfinished
          rw [← firstListed_concat] at h₁
          rw [h₁.wanted_concat hnew hfrom₁] at hfrom₁
          obtain ⟨inserted', h', hfrom'⟩ := ih h₁ (fun l' hl' => htodo l' (List.mem_cons_of_mem l hl')) hfrom₁ hrun
          rw [List.append_assoc, List.singleton_append] at h' hfrom'
          exact ⟨inserted', h', hfrom'⟩
        · rw [hline] at hstopped
          cases hstopped
      · next hne => exact absurd hrun (hne st')

/-- **Loading the lines**: every extent is a part of a line and has its place in the list of all blocks. -/
theorem loadExtents_wanted (hrun : loadExtents mem firstIno lines = .finished st) :
    ∃ inserted, Loaded mem (firstListed firstIno lines) inserted st ∧
      st.FromLines firstIno lines (wantedBlocks firstIno lines) := by
  have hempty : (emptyLoader mem).FromLines firstIno lines (wantedBlocks firstIno []) :=
    ⟨fun iext hmem => absurd hmem List.not_mem_nil, rfl⟩
  exact (loaded_empty mem firstIno).loadLines_wanted (fun l hl => hl) hempty hrun

end Order

end Prefetch.Remap

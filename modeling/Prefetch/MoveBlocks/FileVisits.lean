/-
# Prefetch.MoveBlocks.FileVisits — the blocks of a file as a traversal meets them

`Prefetch.Remap.FileTree` describes a file as a tree of blocks, and what `ext2fs_block_iterate2` visits as
a list. Here that tree is read from the device a filesystem is on: the tree of an inode, and its places in
the order of the traversal. The visits are those of the places that refer to a block.
-/
import Prefetch.MoveBlocks.PointerTree
import Prefetch.Remap.FileTree

namespace Prefetch.MoveBlocks

open Remap (FileTree Subtree Visit)

variable {g : Geometry}

/-! ## §1 — the tree of a file -/

namespace View

/-- What a block number leads to, so many levels above the data. -/
def subtree (v : View g) : (n : ℕ) → ℕ → Subtree g.addrPerBlock n
  | 0, block => if block = 0 then none else some block
  | n + 1, block =>
      if block = 0 then none else some (block, fun i => v.subtree n (v.blocks block i))

/-- The tree of an inode. -/
def fileTree (v : View g) (inodeNumber : ℕ) : FileTree g.addrPerBlock where
  direct i := v.subtree 0 (v.topWord inodeNumber (i.castLE (by decide)))
  ind := v.subtree 1 (v.topWord inodeNumber 12)
  dind := v.subtree 2 (v.topWord inodeNumber 13)
  tind := v.subtree 3 (v.topWord inodeNumber 14)

/-- The place refers to a block. -/
def present (v : View g) (p : Place g) : Bool := v.ref p ≠ 0

theorem present_iff {v : View g} {p : Place g} : v.present p = true ↔ v.ref p ≠ 0 := decide_eq_true_iff

end View

/-! ## §2 — places in the order of the traversal -/

variable (g) in
/-- The first offset addressable through a slot. -/
def slotFirst (slot : Fin 15) : ℕ :=
  if slot ≤ 12 then slot
  else if slot = 13 then 12 + g.addrPerBlock
  else 12 + g.addrPerBlock + g.addrPerBlock * g.addrPerBlock

namespace Place

/-- How many levels a place is above those of data blocks. -/
def level (p : Place g) : ℕ := slotDepth p.slot - p.path.length

/-- The number a path spells, to the base of the addresses in a block. -/
def pathNumber (path : List (Fin g.addrPerBlock)) : ℕ :=
  path.foldl (fun (n : ℕ) (i : Fin g.addrPerBlock) => n * g.addrPerBlock + i) 0

/-- The first offset addressable through a place. -/
def first (p : Place g) : ℕ := slotFirst g p.slot + pathNumber p.path * g.addrPerBlock ^ p.level

/-- Where a place is in its indirect block, in bytes, or in its inode. -/
def parentOffset (p : Place g) : ℕ :=
  match p.path.getLast? with
  | none => p.slot
  | some i => 4 * i

/-- The places from one on down, in pre-order. -/
def below : (n : ℕ) → (p : Place g) → p.path.length + n = slotDepth p.slot → List (Place g)
  | 0, p, _ => [p]
  | n + 1, p, h =>
      p :: (List.finRange g.addrPerBlock).flatMap fun i =>
        below n (p.child i (by omega)) (by
          show (p.path ++ [i]).length + n = slotDepth p.slot
          rw [List.length_append, List.length_singleton]
          omega)

/-- The visit of a place. -/
def visit (v : View g) (p : Place g) : Visit := ⟨v.ref p, p.level, p.first, p.parentOffset⟩

end Place

/-- A direct slot. -/
def directSlot (i : Fin 12) : Fin 15 := i.castLE (by decide)

variable (g) in
/-- The places of an inode, in the order of the traversal. -/
def filePlaces (inodeNumber : ℕ) : List (Place g) :=
  (List.finRange 12).map (fun i => Place.top inodeNumber (directSlot i)) ++
    (Place.top inodeNumber 12).below 1 rfl ++ (Place.top inodeNumber 13).below 2 rfl ++
    (Place.top inodeNumber 14).below 3 rfl

namespace Place

variable {p q : Place g} {n : ℕ}

theorem level_eq (h : p.path.length + n = slotDepth p.slot) : p.level = n := by
  rw [level, ← h, Nat.add_sub_cancel_left]

theorem pathNumber_concat (path : List (Fin g.addrPerBlock)) (i : Fin g.addrPerBlock) :
    pathNumber (path ++ [i]) = pathNumber path * g.addrPerBlock + i := by
  rw [pathNumber, List.foldl_append]
  rfl

theorem level_child (i h) : (p.child i h).level = p.level - 1 := by
  show slotDepth p.slot - (p.path ++ [i]).length = slotDepth p.slot - p.path.length - 1
  rw [List.length_append, List.length_singleton]
  omega

/-- The children of a place share its offsets out among them. -/
theorem first_child (i : Fin g.addrPerBlock) (h) (hlevel : p.level = n + 1) :
    (p.child i h).first = p.first + i * g.addrPerBlock ^ n := by
  have hchild : (p.child i h).level = n := by rw [level_child, hlevel, Nat.add_sub_cancel]
  rw [first, first, hchild, hlevel]
  show slotFirst g p.slot + pathNumber (p.path ++ [i]) * g.addrPerBlock ^ n = _
  rw [pathNumber_concat]
  ring

theorem parentOffset_child (i h) : (p.child i h).parentOffset = 4 * i := by
  have hlast : (p.child i h).path.getLast? = some i := List.getLast?_concat
  rw [parentOffset, hlast]

theorem first_top (inodeNumber : ℕ) (slot : Fin 15) :
    (top inodeNumber slot : Place g).first = slotFirst g slot := by
  rw [first]
  show slotFirst g slot + 0 * _ = _
  rw [Nat.zero_mul, Nat.add_zero]

/-- Below a place are the places whose path goes on from its path. -/
theorem mem_below {h : p.path.length + n = slotDepth p.slot} :
    q ∈ p.below n h ↔ q.inodeNumber = p.inodeNumber ∧ q.slot = p.slot ∧ p.path <+: q.path := by
  induction n generalizing p with
  | zero =>
      rw [below, List.mem_singleton]
      constructor
      · rintro rfl
        exact ⟨rfl, rfl, List.prefix_refl _⟩
      · rintro ⟨hinode, hslot, hpath⟩
        -- no path is longer than the depth of its slot
        have hlen : q.path.length ≤ p.path.length := by
          have hle := q.path_le
          rw [hslot] at hle
          omega
        have heq := hpath.eq_of_length_le hlen
        rcases p with ⟨a, b, c, d⟩
        rcases q with ⟨a', b', c', d'⟩
        cases hinode
        cases hslot
        cases heq
        rfl
  | succ n ih =>
      rw [below, List.mem_cons, List.mem_flatMap]
      constructor
      · rintro (rfl | ⟨i, -, hi⟩)
        · exact ⟨rfl, rfl, List.prefix_refl _⟩
        · obtain ⟨hinode, hslot, hpath⟩ := ih.mp hi
          exact ⟨hinode, hslot, (List.prefix_append _ _).trans hpath⟩
      · rintro ⟨hinode, hslot, rest, hrest⟩
        cases rest with
        | nil =>
            left
            rcases p with ⟨a, b, c, d⟩
            rcases q with ⟨a', b', c', d'⟩
            cases hinode
            cases hslot
            cases hrest
            simp
        | cons i rest =>
            right
            refine ⟨i, List.mem_finRange i, ih.mpr ⟨hinode, hslot, rest, ?_⟩⟩
            show (p.path ++ [i]) ++ rest = q.path
            rw [← hrest, List.append_assoc]
            rfl

end Place

/-- Every place of an inode is met. -/
theorem mem_filePlaces {inodeNumber : ℕ} {p : Place g} :
    p ∈ filePlaces g inodeNumber ↔ p.inodeNumber = inodeNumber := by
  have hbelow : ∀ (n : ℕ) (top : Place g) (h : top.path.length + n = slotDepth top.slot), top.path = [] →
      (p ∈ top.below n h ↔ p.inodeNumber = top.inodeNumber ∧ p.slot = top.slot) := by
    intro n top h hpath
    rw [Place.mem_below, hpath]
    simp only [List.nil_prefix, and_true]
  unfold filePlaces
  rw [List.mem_append, List.mem_append, List.mem_append, hbelow 1 _ rfl rfl, hbelow 2 _ rfl rfl, hbelow 3 _ rfl rfl,
    List.mem_map]
  constructor
  · rintro (((⟨i, -, rfl⟩ | h) | h) | h)
    · rfl
    · exact h.1
    · exact h.1
    · exact h.1
  · intro hinode
    by_cases hslot : (p.slot : ℕ) < 12
    · refine .inl (.inl (.inl ⟨⟨p.slot, hslot⟩, List.mem_finRange _, ?_⟩))
      have hpath : p.path = [] := by
        have hle : p.path.length ≤ p.slot - 11 := p.path_le
        exact List.length_eq_zero_iff.mp (by omega)
      rcases p with ⟨a, b, c, d⟩
      cases hinode
      cases hpath
      rfl
    · have hlt := p.slot.isLt
      have hcases : p.slot = 12 ∨ p.slot = 13 ∨ p.slot = 14 := by
        simp only [Fin.ext_iff]
        show (p.slot : ℕ) = 12 ∨ (p.slot : ℕ) = 13 ∨ (p.slot : ℕ) = 14
        omega
      rcases hcases with h | h | h
      · exact .inl (.inl (.inr ⟨hinode, h⟩))
      · exact .inl (.inr ⟨hinode, h⟩)
      · exact .inr ⟨hinode, h⟩

/-! ## §3 — the visits are those of the places -/

variable {v : View g}

/-- Nothing lies below a hole. -/
theorem ref_below_hole {p q : Place g} {n : ℕ} {h : p.path.length + n = slotDepth p.slot}
    (hp : v.ref p = 0) (hq : q ∈ p.below n h) : v.ref q = 0 := by
  obtain ⟨hinode, hslot, rest, hrest⟩ := Place.mem_below.mp hq
  have hzero : ∀ rest : List (Fin g.addrPerBlock), rest.foldl v.deref 0 = 0 := by
    intro rest
    induction rest with
    | nil => rfl
    | cons i rest ih => exact ih
  rw [View.ref, ← hrest, hinode, hslot, List.foldl_append]
  exact (congrArg (List.foldl v.deref · rest) hp).trans (hzero rest)

section Visits

variable {n block first parentOffset : ℕ}

theorem visits_hole : Remap.visits g.addrPerBlock n (v.subtree n 0) first parentOffset = [] := by
  cases n <;> rfl

theorem visits_data (h : block ≠ 0) :
    Remap.visits g.addrPerBlock 0 (v.subtree 0 block) first parentOffset
      = [⟨block, 0, first, parentOffset⟩] := by
  have hsubtree : v.subtree 0 block = (some block : Option ℕ) := if_neg h
  exact congrArg (Remap.visits g.addrPerBlock 0 · first parentOffset) hsubtree

theorem visits_indirect (h : block ≠ 0) :
    Remap.visits g.addrPerBlock (n + 1) (v.subtree (n + 1) block) first parentOffset
      = ⟨block, n + 1, first, parentOffset⟩ :: (List.finRange g.addrPerBlock).flatMap fun i =>
          Remap.visits g.addrPerBlock n (v.subtree n (v.blocks block i)) (first + i * g.addrPerBlock ^ n)
            (4 * i) := by
  have hsubtree : v.subtree (n + 1) block
      = (some (block, fun i => v.subtree n (v.blocks block i)) : Option (ℕ × _)) := if_neg h
  exact congrArg (Remap.visits g.addrPerBlock (n + 1) · first parentOffset) hsubtree

end Visits

/-- The visits from a place on are those of the places below it that refer to a block. -/
theorem visits_below (n : ℕ) (p : Place g) (h : p.path.length + n = slotDepth p.slot) :
    Remap.visits g.addrPerBlock n (v.subtree n (v.ref p)) p.first p.parentOffset
      = ((p.below n h).filter v.present).map (Place.visit v) := by
  have hlevel := Place.level_eq h
  induction n generalizing p with
  | zero =>
      rw [Place.below]
      by_cases hp : v.ref p = 0
      · have hdrop : ¬ v.present p = true := fun h => View.present_iff.mp h hp
        rw [List.filter_cons_of_neg hdrop, hp, visits_hole]
        rfl
      · have hkeep : v.present p = true := View.present_iff.mpr hp
        rw [List.filter_cons_of_pos hkeep, List.filter_nil, visits_data hp]
        show _ = [(⟨_, p.level, _, _⟩ : Visit)]
        rw [hlevel]
  | succ n ih =>
      by_cases hp : v.ref p = 0
      · have hnone : (p.below (n + 1) h).filter v.present = [] := by
          rw [List.filter_eq_nil_iff]
          intro q hq hne
          exact View.present_iff.mp hne (ref_below_hole hp hq)
        rw [hnone, hp, visits_hole]
        rfl
      · have hkeep : v.present p = true := View.present_iff.mpr hp
        rw [Place.below, List.filter_cons_of_pos hkeep, List.map_cons, List.filter_flatMap,
          List.map_flatMap, visits_indirect hp]
        refine congrArg₂ List.cons ?_ (List.flatMap_congr fun i _ => ?_)
        · rw [Place.visit, hlevel]
        · have hlt : p.path.length < slotDepth p.slot := by omega
          have hchild : (p.child i hlt).level = n := by
            rw [Place.level_child, hlevel, Nat.add_sub_cancel]
          rw [← ih (p.child i hlt) _ hchild, Place.first_child i hlt hlevel, Place.parentOffset_child,
            View.ref_child, View.deref, if_neg hp]

/-- **The visits of a file** are those of its places that refer to a block, in order. -/
theorem visits_fileTree (v : View g) (inodeNumber : ℕ) :
    (v.fileTree inodeNumber).visits
      = ((filePlaces g inodeNumber).filter v.present).map (Place.visit v) := by
  have hslot : ∀ (n : ℕ) (slot : Fin 15) (h : (Place.top inodeNumber slot : Place g).path.length + n
        = slotDepth (Place.top inodeNumber slot : Place g).slot),
      Remap.visits g.addrPerBlock n (v.subtree n (v.topWord inodeNumber slot)) (slotFirst g slot) slot
        = (((Place.top inodeNumber slot).below n h).filter v.present).map (Place.visit v) := by
    intro n slot h
    rw [← visits_below, Place.first_top]
    rfl
  have hdirect : (List.finRange 12).flatMap
        (fun i => Remap.visits g.addrPerBlock 0 ((v.fileTree inodeNumber).direct i) i i)
      = (((List.finRange 12).map fun i => Place.top inodeNumber (directSlot i)).filter v.present).map
        (Place.visit v) := by
    rw [List.flatMap_congr (g := fun i =>
      ([Place.top inodeNumber (directSlot i)].filter v.present).map (Place.visit v))]
    · rw [← List.map_flatMap, ← List.filter_flatMap, ← List.map_eq_flatMap]
    · intro i _
      have hi := hslot 0 (directSlot i) (by
        show 0 + 0 = (i : ℕ) - 11
        omega)
      rw [Place.below] at hi
      rw [← hi, slotFirst, if_pos]
      · rfl
      · show (i : ℕ) ≤ 12
        omega
  unfold FileTree.visits filePlaces
  rw [List.filter_append, List.filter_append, List.filter_append, List.map_append, List.map_append,
    List.map_append, ← hdirect, ← hslot 1 12 rfl, ← hslot 2 13 rfl, ← hslot 3 14 rfl]
  rfl

/-! ## §4 — offsets of data blocks -/

/-- The place of an offset is one of the inode, and its first offset is that offset. -/
theorem first_of_offsetPlace {inodeNumber offset : ℕ} {p : Place g}
    (h : offsetPlace inodeNumber offset = some p) : p.inodeNumber = inodeNumber ∧ p.first = offset := by
  have ha := g.addrPerBlock_pos
  unfold offsetPlace at h
  simp only at h
  split_ifs at h with h0 h1 h2 h3
  · cases h
    refine ⟨rfl, (Place.first_top _ _).trans ?_⟩
    exact if_pos (Nat.le_of_lt h0)
  · cases h
    refine ⟨rfl, ?_⟩
    show 12 + (0 * g.addrPerBlock + (offset - 12)) * g.addrPerBlock ^ 0 = offset
    rw [pow_zero, Nat.mul_one, Nat.zero_mul]
    omega
  · cases h
    refine ⟨rfl, ?_⟩
    show 12 + g.addrPerBlock + ((0 * g.addrPerBlock
      + (offset - 12 - g.addrPerBlock) / g.addrPerBlock % g.addrPerBlock) * g.addrPerBlock
      + (offset - 12 - g.addrPerBlock) % g.addrPerBlock) * g.addrPerBlock ^ 0 = offset
    have hlt : (offset - 12 - g.addrPerBlock) / g.addrPerBlock < g.addrPerBlock :=
      Nat.div_lt_of_lt_mul h2
    rw [pow_zero, Nat.mul_one, Nat.zero_mul, Nat.zero_add, Nat.mod_eq_of_lt hlt, Nat.div_add_mod']
    omega
  · cases h
    refine ⟨rfl, ?_⟩
    show 12 + g.addrPerBlock + g.addrPerBlock * g.addrPerBlock + (((0 * g.addrPerBlock
      + (offset - 12 - g.addrPerBlock - g.addrPerBlock * g.addrPerBlock)
        / (g.addrPerBlock * g.addrPerBlock) % g.addrPerBlock) * g.addrPerBlock
      + (offset - 12 - g.addrPerBlock - g.addrPerBlock * g.addrPerBlock) / g.addrPerBlock % g.addrPerBlock)
        * g.addrPerBlock
      + (offset - 12 - g.addrPerBlock - g.addrPerBlock * g.addrPerBlock) % g.addrPerBlock)
        * g.addrPerBlock ^ 0 = offset
    generalize hr : offset - 12 - g.addrPerBlock - g.addrPerBlock * g.addrPerBlock = r at h3 ⊢
    have hlt : r / (g.addrPerBlock * g.addrPerBlock) < g.addrPerBlock := Nat.div_lt_of_lt_mul h3
    rw [pow_zero, Nat.mul_one, Nat.zero_mul, Nat.zero_add, Nat.mod_eq_of_lt hlt, ← Nat.div_div_eq_div_mul,
      Nat.div_add_mod', Nat.div_add_mod']
    omega

namespace Place

theorem pathNumber_lt (path : List (Fin g.addrPerBlock)) :
    pathNumber path < g.addrPerBlock ^ path.length := by
  induction path using List.reverseRecOn with
  | nil => exact Nat.one_pos
  | append_singleton path i ih =>
      rw [pathNumber_concat, List.length_append, List.length_singleton, pow_succ]
      calc pathNumber path * g.addrPerBlock + i < (pathNumber path + 1) * g.addrPerBlock := by
            rw [Nat.add_mul, Nat.one_mul]
            exact Nat.add_lt_add_left i.isLt _
        _ ≤ g.addrPerBlock ^ path.length * g.addrPerBlock := Nat.mul_le_mul_right _ ih

/-- Paths of one length spell different numbers. -/
theorem pathNumber_inj {path path' : List (Fin g.addrPerBlock)} (hlen : path.length = path'.length)
    (h : pathNumber path = pathNumber path') : path = path' := by
  induction path using List.reverseRecOn generalizing path' with
  | nil => exact (List.length_eq_zero_iff.mp hlen.symm).symm
  | append_singleton path i ih =>
      cases path' using List.reverseRecOn with
      | nil => simp at hlen
      | append_singleton path' j =>
          rw [pathNumber_concat, pathNumber_concat] at h
          simp only [List.length_append, List.length_singleton, Nat.add_right_cancel_iff] at hlen
          have hdigit : (i : ℕ) = j := by
            have hmod := congrArg (· % g.addrPerBlock) h
            simpa [Nat.mul_add_mod', Nat.mod_eq_of_lt i.isLt, Nat.mod_eq_of_lt j.isLt] using hmod
          have hnumber : pathNumber path = pathNumber path' := by
            rw [hdigit] at h
            exact Nat.eq_of_mul_eq_mul_right g.addrPerBlock_pos (Nat.add_right_cancel h)
          rw [ih hlen hnumber, Fin.ext hdigit]

/-- The offsets of a slot end where those of the next one begin. -/
theorem slotFirst_add_le {slot slot' : Fin 15} (h : slot < slot') :
    slotFirst g slot + g.addrPerBlock ^ slotDepth slot ≤ slotFirst g slot' := by
  have hlt : (slot : ℕ) < slot' := h
  have hlt' := slot'.isLt
  by_cases hdirect : (slot : ℕ) < 12
  · have hdepth : slotDepth slot = 0 := by
      show (slot : ℕ) - 11 = 0
      omega
    have hfirst : slotFirst g slot = slot := if_pos (Nat.le_of_lt hdirect)
    have hle : min (slot' : ℕ) 12 ≤ slotFirst g slot' := by
      unfold slotFirst
      split_ifs <;> omega
    rw [hdepth, hfirst, pow_zero]
    omega
  · obtain ⟨hs, hs'⟩ | ⟨hs, hs'⟩ | ⟨hs, hs'⟩ : (slot = 12 ∧ slot' = 13) ∨ (slot = 12 ∧ slot' = 14)
        ∨ (slot = 13 ∧ slot' = 14) := by
      simp only [Fin.ext_iff]
      show ((slot : ℕ) = 12 ∧ (slot' : ℕ) = 13) ∨ ((slot : ℕ) = 12 ∧ (slot' : ℕ) = 14)
        ∨ ((slot : ℕ) = 13 ∧ (slot' : ℕ) = 14)
      omega
    · subst hs hs'
      show 12 + g.addrPerBlock ^ 1 ≤ 12 + g.addrPerBlock
      rw [pow_one]
    · subst hs hs'
      show 12 + g.addrPerBlock ^ 1 ≤ 12 + g.addrPerBlock + g.addrPerBlock * g.addrPerBlock
      rw [pow_one]
      exact Nat.le_add_right _ _
    · subst hs hs'
      show 12 + g.addrPerBlock + g.addrPerBlock ^ 2 ≤ 12 + g.addrPerBlock + g.addrPerBlock * g.addrPerBlock
      rw [Nat.pow_two]

section Data

variable {p q : Place g}

theorem first_of_isData (h : p.IsData) : p.first = slotFirst g p.slot + pathNumber p.path := by
  rw [first, level_eq (n := 0) h, pow_zero, Nat.mul_one]

/-- The offsets of the data blocks below a slot. -/
theorem first_range (h : p.IsData) :
    slotFirst g p.slot ≤ p.first ∧ p.first < slotFirst g p.slot + g.addrPerBlock ^ slotDepth p.slot := by
  have hlt := pathNumber_lt p.path
  rw [show p.path.length = slotDepth p.slot from h] at hlt
  rw [first_of_isData h]
  omega

/-- **Different data places of an inode have different offsets.** -/
theorem eq_of_first (hp : p.IsData) (hq : q.IsData) (hinode : p.inodeNumber = q.inodeNumber)
    (hfirst : p.first = q.first) : p = q := by
  have hslot : p.slot = q.slot := by
    have hp' := first_range hp
    have hq' := first_range hq
    rcases lt_trichotomy p.slot q.slot with hlt | heq | hlt
    · have hle := slotFirst_add_le (g := g) hlt
      omega
    · exact heq
    · have hle := slotFirst_add_le (g := g) hlt
      omega
  have hpath : p.path = q.path := by
    apply pathNumber_inj
    · rw [show p.path.length = slotDepth p.slot from hp, hslot]
      exact hq.symm
    · rw [first_of_isData hp, first_of_isData hq, hslot] at hfirst
      exact Nat.add_left_cancel hfirst
  rcases p with ⟨a, b, c, d⟩
  rcases q with ⟨a', b', c', d'⟩
  cases hinode
  cases hslot
  cases hpath
  rfl

end Data

end Place

theorem offsetPlace_isSome (inodeNumber : ℕ) {offset : ℕ}
    (h : offset < 12 + g.addrPerBlock + g.addrPerBlock * g.addrPerBlock
      + g.addrPerBlock * g.addrPerBlock * g.addrPerBlock) :
    ∃ p : Place g, offsetPlace inodeNumber offset = some p := by
  unfold offsetPlace
  simp only
  split_ifs with h0 h1 h2 h3
  · exact ⟨_, rfl⟩
  · exact ⟨_, rfl⟩
  · exact ⟨_, rfl⟩
  · exact ⟨_, rfl⟩
  · omega

/-- A data place is found by its first offset. -/
theorem offsetPlace_first {p : Place g} (h : p.IsData) : offsetPlace p.inodeNumber p.first = some p := by
  have hlast : slotFirst g p.slot + g.addrPerBlock ^ slotDepth p.slot
      ≤ slotFirst g 14 + g.addrPerBlock ^ slotDepth 14 := by
    rcases lt_or_eq_of_le (Fin.le_last p.slot) with hlt | heq
    · exact (Place.slotFirst_add_le hlt).trans (Nat.le_add_right _ _)
    · rw [heq]
      exact le_rfl
  have hend : slotFirst g 14 + g.addrPerBlock ^ slotDepth 14
      = 12 + g.addrPerBlock + g.addrPerBlock * g.addrPerBlock
        + g.addrPerBlock * g.addrPerBlock * g.addrPerBlock := by
    show 12 + g.addrPerBlock + g.addrPerBlock * g.addrPerBlock + g.addrPerBlock ^ 3 = _
    ring
  obtain ⟨q, hq⟩ := offsetPlace_isSome (g := g) p.inodeNumber
    ((Place.first_range h).2.trans_le (hlast.trans_eq hend))
  obtain ⟨hinode, hfirst⟩ := first_of_offsetPlace hq
  rw [hq, Place.eq_of_first (offsetPlace_isData hq) h hinode hfirst]

end Prefetch.MoveBlocks

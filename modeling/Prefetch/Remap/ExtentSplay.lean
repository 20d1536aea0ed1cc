/-
# Prefetch.Remap.ExtentSplay — what `extent_splay` brings to the root

`extent_splay` splays the extents, which lie in memory as nodes with two links. The end of an extent is
computed in 32 bits: an extent up to the last of `2 ^ 32` blocks ends at `0`, and every block counts as
behind it. It is the last extent of its tree, and nothing goes wrong where it is the root of what is left
of the tree; but as the right subtree of that root it may be rotated up past the extent that was looked
for (`Misled`).
-/
import Prefetch.Lib.SplayNodes
import Prefetch.Remap.LoadSpec

namespace Prefetch.Remap

open SplayTree

/-! ## §1 — `extent_splay` -/

/-- The block behind an extent, in 32 bits. -/
def RemapExtent.stop (e : RemapExtent) : ℕ := (e.block + e.len) % 2 ^ 32

/-- The comparisons of a block with an extent. -/
def beforeExtent (blocknr : ℕ) (e : RemapExtent) : Bool := blocknr < e.block
def behindExtent (blocknr : ℕ) (e : RemapExtent) : Bool := e.stop ≤ blocknr

variable {ν : Type*}

/-- `extent_splay` on extents in memory, `n` turns of its loop at most: their links and `extent_tree`
after it. -/
def extentSplayNodes [DecidableEq ν] (ext : ν → RemapExtent) (blocknr n : ℕ) (links : Memory ν)
    (extentTree : Option ν) : Option (Memory ν × Option ν) :=
  splayNodes (fun a => beforeExtent blocknr (ext a)) (fun a => behindExtent blocknr (ext a)) n links
    extentTree

/-! ## §2 — the tree before and after -/

/-- A tree of disjoint extents in the order of their blocks, which have numbers of 32 bits. -/
structure SearchTree (ext : ν → RemapExtent) (t : BinaryTree ν) : Prop where
  ordered : Ordered ((inorder t).map ext)
  below : ∀ a ∈ inorder t, (ext a).block + (ext a).len ≤ 2 ^ 32

/-- At the root is the extent with the block, or the last one before it or the first one behind it if
there is none. -/
def RootRight (ext : ν → RemapExtent) (blocknr : ℕ) : BinaryTree ν → Prop
  | .nil => True
  | .node a l r =>
      (ext a).Has blocknr ∨ (∀ b ∈ inorder (.node a l r), ¬ (ext b).Has blocknr)
        ∧ ((ext a).block + (ext a).len ≤ blocknr ∧ (∀ b ∈ inorder r, blocknr < (ext b).block)
          ∨ blocknr < (ext a).block ∧ ∀ b ∈ inorder l, (ext b).block + (ext b).len ≤ blocknr)

/-- What splaying should come to: a tree of the same extents in the same order, with the right root. -/
def SplayedRight (ext : ν → RemapExtent) (blocknr : ℕ) (t : BinaryTree ν)
    (r : Option (Memory ν × Option ν)) : Prop :=
  ∃ links root t', r = some (links, root) ∧ Represents links root t' ∧ inorder t' = inorder t
    ∧ RootRight ext blocknr t'

/-- The last extent ends at block `2 ^ 32`, it is an odd number of links to the right from the root, and
the block lies behind the extent over it and before the end of an extent in its left subtree. -/
def Misled (ext : ν → RemapExtent) (blocknr : ℕ) : BinaryTree ν → Prop
  | .nil => False
  | .node _ _ .nil => False
  | .node a _ (.node b s r) =>
      (r = .nil ∧ (ext b).block + (ext b).len = 2 ^ 32 ∧ (ext a).block + (ext a).len ≤ blocknr
        ∧ ∃ e ∈ inorder s, blocknr < (ext e).block + (ext e).len) ∨ Misled ext blocknr r

/-! ## §3 — the comparisons -/

section Probe

variable {ext : ν → RemapExtent} {blocknr : ℕ} {a : ν} {t : BinaryTree ν}

/-- How the block is compared with the extent of a node where nothing overflows. -/
def probeNode (ext : ν → RemapExtent) (blocknr : ℕ) (a : ν) : Ordering := probeBlock blocknr (ext a)

theorem probeNode_lt : probeNode ext blocknr a = .lt ↔ blocknr < (ext a).block := probeBlock_lt

theorem probeNode_gt : probeNode ext blocknr a = .gt ↔ (ext a).block + (ext a).len ≤ blocknr := probeBlock_gt

/-- Neither before the extent nor behind it, the block is in it. -/
theorem has_of_probeNode (hlt : ¬ probeNode ext blocknr a = .lt) (hgt : ¬ probeNode ext blocknr a = .gt) :
    (ext a).Has blocknr := by
  rw [probeNode_lt] at hlt
  rw [probeNode_gt] at hgt
  exact ⟨Nat.le_of_not_lt hlt, Nat.lt_of_not_le hgt⟩

/-- The comparisons with extents that end before block `2 ^ 32`. -/
theorem testsAs_of_lt (h : (ext a).block + (ext a).len < 2 ^ 32) :
    TestsAs (probeNode ext blocknr) (fun b => beforeExtent blocknr (ext b))
      (fun b => behindExtent blocknr (ext b)) a where
  before_iff := decide_eq_true_iff.trans probeNode_lt.symm
  behind_iff := by
    rw [probeNode_gt]
    unfold behindExtent RemapExtent.stop
    rw [Nat.mod_eq_of_lt h]
    exact decide_eq_true_iff

theorem SearchTree.pairwise (h : SearchTree ext t) :
    (inorder t).Pairwise fun a b => (ext a).block + (ext a).len ≤ (ext b).block :=
  List.pairwise_map.1 h.ordered.apart

theorem SearchTree.len_pos (h : SearchTree ext t) (ha : a ∈ inorder t) : 0 < (ext a).len :=
  h.ordered.pos _ (List.mem_map_of_mem ha)

theorem SearchTree.nodup (h : SearchTree ext t) : (inorder t).Nodup := by
  refine h.pairwise.imp_of_mem fun {a b} ha _ hab heq => ?_
  have hpos := h.len_pos ha
  subst heq
  omega

theorem SearchTree.sorted (h : SearchTree ext t) : Sorted (probeNode ext blocknr) (inorder t) :=
  List.pairwise_map.1 (h.ordered.sorted blocknr)

theorem SearchTree.of_sublist {t' : BinaryTree ν} (h : SearchTree ext t)
    (hsub : (inorder t').Sublist (inorder t)) : SearchTree ext t' where
  ordered := ⟨h.ordered.apart.sublist (hsub.map ext), fun e he => h.ordered.pos e ((hsub.map ext).subset he)⟩
  below a ha := h.below a (hsub.subset ha)

/-- A value near the block is the right root. -/
theorem rootRight_of_near {l r : BinaryTree ν} (h : SearchTree ext (.node a l r))
    (hnear : Near (probeNode ext blocknr) (inorder l) a (inorder r)) :
    RootRight ext blocknr (.node a l r) := by
  have hpairwise := h.pairwise
  rw [inorder_node, List.pairwise_append, List.pairwise_cons] at hpairwise
  obtain ⟨-, ⟨hbehind, -⟩, hbefore⟩ := hpairwise
  by_cases hlt : probeNode ext blocknr a = .lt
  · have hl : ∀ b ∈ inorder l, (ext b).block + (ext b).len ≤ blocknr := fun b hb =>
      probeNode_gt.1 (hnear.before_of_lt hlt b hb)
    rw [probeNode_lt] at hlt
    refine Or.inr ⟨fun b hb hhas => ?_, Or.inr ⟨hlt, hl⟩⟩
    rcases List.mem_append.1 hb with hb | hb
    · exact absurd hhas.2 (Nat.not_lt.2 (hl b hb))
    · rcases List.mem_cons.1 hb with rfl | hb
      · exact absurd hhas.1 (Nat.not_le.2 hlt)
      · have hle := hbehind b hb
        have hge := hhas.1
        omega
  · by_cases hgt : probeNode ext blocknr a = .gt
    · have hr : ∀ b ∈ inorder r, blocknr < (ext b).block := fun b hb =>
        probeNode_lt.1 (hnear.behind_of_gt hgt b hb)
      rw [probeNode_gt] at hgt
      refine Or.inr ⟨fun b hb hhas => ?_, Or.inl ⟨hgt, hr⟩⟩
      rcases List.mem_append.1 hb with hb | hb
      · have hle := hbefore b hb a List.mem_cons_self
        have hlt' := hhas.2
        omega
      · rcases List.mem_cons.1 hb with rfl | hb
        · exact absurd hhas.2 (Nat.not_lt.2 hgt)
        · exact absurd hhas.1 (Nat.not_le.2 (hr b hb))
    · exact Or.inl (has_of_probeNode hlt hgt)

end Probe

/-! ## §4 — the loop -/

section Loop

variable (ext : ν → RemapExtent) (blocknr : ℕ)

/-- The loop of `extent_splay` on a tree of nodes. -/
def extentSplayLoop (left right : Linked ν) (t : BinaryTree ν) : BinaryTree ν :=
  splayLoopBy (fun a => beforeExtent blocknr (ext a)) (fun a => behindExtent blocknr (ext a)) left right t

/-- The chains hold what lies before the block and behind it. -/
structure Passed (left right : Linked ν) : Prop where
  left_gt : ∀ b ∈ listLeft left, probeNode ext blocknr b = .gt
  right_lt : ∀ b ∈ listRight right, probeNode ext blocknr b = .lt

/-- An extent that ends at block `2 ^ 32` came to the root, and the block lies before it and before the
end of another one. -/
def RootWrong (t : BinaryTree ν) : Prop :=
  ∃ a l r, t = .node a l r ∧ blocknr < (ext a).block
    ∧ ∃ e ∈ inorder l, blocknr < (ext e).block + (ext e).len

variable {ext blocknr} {left right : Linked ν} {a b : ν} {l r s t : BinaryTree ν}

/-- An extent with another one behind it does not end at block `2 ^ 32`. -/
theorem SearchTree.end_lt (h : SearchTree ext (.node a l r)) (hb : b ∈ inorder l) :
    (ext b).block + (ext b).len < 2 ^ 32 := by
  have hpairwise := h.pairwise
  rw [inorder_node, List.pairwise_append] at hpairwise
  have hle := hpairwise.2.2 b hb a List.mem_cons_self
  have hpos := h.len_pos (a := a) (by simp)
  have hbelow := h.below a (by simp)
  omega

theorem SearchTree.end_le (h : SearchTree ext (.node a l r)) (hb : b ∈ inorder r) :
    (ext a).block + (ext a).len ≤ (ext b).block := by
  have hpairwise := h.pairwise
  rw [inorder_node, List.pairwise_append, List.pairwise_cons] at hpairwise
  exact hpairwise.2.1.1 b hb

/-- Where the block lies before the root, everything goes on to its left. -/
theorem extentSplayLoop_of_before (h : SearchTree ext (.node a l r)) (hpassed : Passed ext blocknr left right)
    (ha : blocknr < (ext a).block) :
    EndsNear (probeNode ext blocknr) (inorder (.node a l r))
      (extentSplayLoop ext blocknr left right (.node a l r)) := by
  have heq : extentSplayLoop ext blocknr left right (.node a l r)
      = splayLoop (probeNode ext blocknr) left right (.node a l r) :=
    splayLoopBy_eq_of_before left right (decide_eq_true ha) (probeNode_lt.2 ha) fun b hb =>
      testsAs_of_lt (h.end_lt hb)
  rw [heq]
  exact splayLoop_near left right nofun h.sorted hpassed.left_gt hpassed.right_lt

/-- The block is in the extent at the root. -/
theorem extentSplayLoop_of_has (ha : (ext a).Has blocknr) (hfits : (ext a).block + (ext a).len < 2 ^ 32) :
    EndsNear (probeNode ext blocknr) (inorder (.node a l r))
      (extentSplayLoop ext blocknr left right (.node a l r)) := by
  have hlt : ¬ probeNode ext blocknr a = .lt := fun hlt => absurd ha.1 (Nat.not_le.2 (probeNode_lt.1 hlt))
  have hgt : ¬ probeNode ext blocknr a = .gt := fun hgt => absurd ha.2 (Nat.not_lt.2 (probeNode_gt.1 hgt))
  have htests : TestsAs (probeNode ext blocknr) _ _ a := testsAs_of_lt hfits
  unfold extentSplayLoop
  rw [splayLoopBy.eq_def]
  dsimp only
  rw [if_neg (mt htests.before_iff.1 hlt), if_neg (mt htests.behind_iff.1 hgt)]
  exact ⟨a, _, _, rfl, by simp, fun h => absurd h hlt, fun h => absurd h hgt⟩

/-- Some extent of a tree the splaying goes wrong on lies before the block. -/
theorem Misled.exists_le (hmisled : Misled ext blocknr t) :
    ∃ c ∈ inorder t, (ext c).block + (ext c).len ≤ blocknr := by
  fun_induction Misled ext blocknr t with
  | case1 => exact hmisled.elim
  | case2 => exact hmisled.elim
  | case3 a l b s r ih =>
      rcases hmisled with ⟨-, -, hle, -⟩ | hmisled
      · exact ⟨a, by simp, hle⟩
      · obtain ⟨c, hc, hle⟩ := ih hmisled
        exact ⟨c, by simp [hc], hle⟩

/-- The root does. -/
theorem Misled.root_le (h : SearchTree ext (.node a l r)) (hmisled : Misled ext blocknr (.node a l r)) :
    (ext a).block + (ext a).len ≤ blocknr := by
  cases r with
  | nil => exact False.elim hmisled
  | node b s r =>
      rcases hmisled with ⟨-, -, hle, -⟩ | hmisled
      · exact hle
      · obtain ⟨c, hc, hle⟩ := Misled.exists_le hmisled
        have hac := h.end_le (b := c) (by simp [hc])
        omega

/-- Nothing overflows in the comparisons with an extent that has another one behind it. -/
theorem SearchTree.tests_root (h : SearchTree ext (.node a l (.node b s r))) :
    TestsAs (probeNode ext blocknr) (fun b => beforeExtent blocknr (ext b))
      (fun b => behindExtent blocknr (ext b)) a := by
  have hle := h.end_le (b := b) (by simp)
  have hpos := h.len_pos (a := b) (by simp)
  have hbelow := h.below b (by simp)
  exact testsAs_of_lt (by omega)

theorem SearchTree.right_tree (h : SearchTree ext (.node a l r)) : SearchTree ext r :=
  h.of_sublist ((List.sublist_cons_self _ _).trans (List.sublist_append_right _ _))

/-- An extent that ends at block `2 ^ 32` is the last one. -/
theorem SearchTree.mem_right {x : ν} (h : SearchTree ext (.node a l (.node b s r)))
    (hx : x ∈ inorder (.node a l (.node b s r))) (hend : (ext x).block + (ext x).len = 2 ^ 32) :
    x ∈ inorder (.node b s r) := by
  rcases List.mem_append.1 hx with hx | hx
  · exact absurd hend (h.end_lt hx).ne
  · rcases List.mem_cons.1 hx with rfl | hx
    · have hle := h.end_le (b := b) (by simp)
      have hbelow := h.below b (by simp)
      have hpos := h.len_pos (a := b) (by simp)
      omega
    · exact hx

theorem SearchTree.eq_root {x : ν} (h : SearchTree ext (.node a l .nil))
    (hx : x ∈ inorder (.node a l .nil)) (hend : (ext x).block + (ext x).len = 2 ^ 32) : x = a := by
  rcases List.mem_append.1 hx with hx | hx
  · exact absurd hend (h.end_lt hx).ne
  · exact List.mem_singleton.1 hx

/-- With the block before the end of the root, the loop goes left or ends. -/
theorem extentSplayLoop_not_behind (h : SearchTree ext (.node a l (.node b s r)))
    (hpassed : Passed ext blocknr left right) (ha : ¬ (ext a).block + (ext a).len ≤ blocknr) :
    EndsNear (probeNode ext blocknr) (inorder (.node a l (.node b s r)))
      (extentSplayLoop ext blocknr left right (.node a l (.node b s r))) := by
  by_cases hbefore : blocknr < (ext a).block
  · exact extentSplayLoop_of_before h hpassed hbefore
  · have hle := h.end_le (b := b) (by simp)
    have hbelow := h.below b (by simp)
    have hpos := h.len_pos (a := b) (by simp)
    exact extentSplayLoop_of_has ⟨Nat.le_of_not_lt hbefore, Nat.lt_of_not_le ha⟩ (by omega)

/-- What lies before the block is linked left. -/
theorem Passed.link (h : SearchTree ext (.node a l r)) (hpassed : Passed ext blocknr left right)
    (ha : (ext a).block + (ext a).len ≤ blocknr) : Passed ext blocknr ((a, l) :: left) right where
  left_gt := listLeft_cons_gt h.sorted (probeNode_gt.2 ha) hpassed.left_gt
  right_lt := hpassed.right_lt

/-- The same after a rotation. -/
theorem Passed.link_rotated (h : SearchTree ext (.node a l (.node b s r)))
    (hpassed : Passed ext blocknr left right) (hb : (ext b).block + (ext b).len ≤ blocknr) :
    Passed ext blocknr ((b, .node a l s) :: left) right where
  left_gt := by
    have hsorted : Sorted (probeNode ext blocknr) (inorder (.node a l s) ++ b :: inorder r) := by
      have hwhole : Sorted (probeNode ext blocknr) _ := h.sorted
      simpa using hwhole
    exact listLeft_cons_gt hsorted (probeNode_gt.2 hb) hpassed.left_gt
  right_lt := hpassed.right_lt

/-- Where the block lies behind the root, which has another extent behind it, the loop goes right. -/
theorem SearchTree.goes_right (h : SearchTree ext (.node a l (.node b s r)))
    (ha : (ext a).block + (ext a).len ≤ blocknr) :
    ¬ beforeExtent blocknr (ext a) = true ∧ behindExtent blocknr (ext a) = true := by
  have htests : TestsAs (probeNode ext blocknr) _ _ a := h.tests_root
  refine ⟨fun hlt => ?_, htests.behind_iff.2 (probeNode_gt.2 ha)⟩
  have hlt' := probeNode_lt.1 (htests.before_iff.1 hlt)
  omega

/-- A turn to the right that rotates, with something or nothing left behind the rotated extent, and one
that does not. -/
theorem extentSplayLoop_rotated {c : ν} {lc rc : BinaryTree ν}
    (h : SearchTree ext (.node a l (.node b s (.node c lc rc))))
    (ha : (ext a).block + (ext a).len ≤ blocknr) (hb : behindExtent blocknr (ext b) = true) :
    extentSplayLoop ext blocknr left right (.node a l (.node b s (.node c lc rc)))
      = extentSplayLoop ext blocknr ((b, .node a l s) :: left) right (.node c lc rc) := by
  obtain ⟨hlt, hgt⟩ := h.goes_right ha
  unfold extentSplayLoop
  rw [splayLoopBy.eq_def]
  exact (if_neg hlt).trans ((if_pos hgt).trans (if_pos hb))

theorem extentSplayLoop_rotated_nil (h : SearchTree ext (.node a l (.node b s .nil)))
    (ha : (ext a).block + (ext a).len ≤ blocknr) (hb : behindExtent blocknr (ext b) = true) :
    extentSplayLoop ext blocknr left right (.node a l (.node b s .nil))
      = assemble left right b (.node a l s) .nil := by
  obtain ⟨hlt, hgt⟩ := h.goes_right ha
  unfold extentSplayLoop
  rw [splayLoopBy.eq_def]
  exact (if_neg hlt).trans ((if_pos hgt).trans (if_pos hb))

theorem extentSplayLoop_linked {c : ν} {lc rc : BinaryTree ν}
    (h : SearchTree ext (.node a l (.node b s (.node c lc rc))))
    (ha : (ext a).block + (ext a).len ≤ blocknr) (hb : ¬ behindExtent blocknr (ext b) = true) :
    extentSplayLoop ext blocknr left right (.node a l (.node b s (.node c lc rc)))
      = extentSplayLoop ext blocknr ((a, l) :: left) right (.node b s (.node c lc rc)) := by
  obtain ⟨hlt, hgt⟩ := h.goes_right ha
  unfold extentSplayLoop
  rw [splayLoopBy.eq_def]
  exact (if_neg hlt).trans ((if_pos hgt).trans (if_neg hb))

/-- What the loop comes to where the block lies before the last extent, which ends at block `2 ^ 32`. -/
def LoopOutcome (ext : ν → RemapExtent) (blocknr : ℕ) (t t' : BinaryTree ν) : Prop :=
  ¬ Misled ext blocknr t ∧ EndsNear (probeNode ext blocknr) (inorder t) t'
    ∨ Misled ext blocknr t ∧ RootWrong ext blocknr t'

/-- The last extent is the right subtree's root, and is rotated up. -/
theorem extentSplayLoop_rotated_up (h : SearchTree ext (.node a l (.node b s .nil)))
    (hpassed : Passed ext blocknr left right) (ha : (ext a).block + (ext a).len ≤ blocknr)
    (hend : (ext b).block + (ext b).len = 2 ^ 32) (hb : blocknr < (ext b).block) :
    LoopOutcome ext blocknr (.node a l (.node b s .nil))
      (extentSplayLoop ext blocknr left right (.node a l (.node b s .nil))) := by
  have hwraps : behindExtent blocknr (ext b) = true := by
    unfold behindExtent RemapExtent.stop
    rw [hend]
    exact decide_eq_true (Nat.zero_le _)
  rw [extentSplayLoop_rotated_nil h ha hwraps]
  by_cases hs : ∃ e ∈ inorder s, blocknr < (ext e).block + (ext e).len
  · refine Or.inr ⟨Or.inl ⟨rfl, hend, ha, hs⟩, b, _, _, rfl, hb, ?_⟩
    obtain ⟨e, he, hlt⟩ := hs
    refine ⟨e, ?_, hlt⟩
    rw [inorder_assembleLeft]
    exact List.mem_append_right _ (List.mem_append_right _ (List.mem_cons_of_mem _ he))
  · refine Or.inl ⟨fun hmisled => ?_, b, _, _, rfl, by simp, fun _ e he => ?_, fun hgt => ?_⟩
    · rcases hmisled with ⟨-, -, -, hs'⟩ | hfalse
      · exact hs hs'
      · exact hfalse
    · rw [inorder_assembleLeft] at he
      rcases List.mem_append.1 he with he | he
      · exact hpassed.left_gt e he
      · refine probeNode_gt.2 ?_
        rcases List.mem_append.1 he with he | he
        · have hpairwise := h.pairwise
          rw [inorder_node, List.pairwise_append] at hpairwise
          have hle := hpairwise.2.2 e he a List.mem_cons_self
          omega
        · rcases List.mem_cons.1 he with rfl | he
          · exact ha
          · exact Nat.le_of_not_lt fun hlt => hs ⟨e, he, hlt⟩
    · rw [probeNode_gt] at hgt
      omega

/-- The loop on a tree whose last extent ends at block `2 ^ 32`, with the block before it. -/
theorem extentSplayLoop_spec (h : SearchTree ext t) (hpassed : Passed ext blocknr left right)
    (hlast : ∃ x ∈ inorder t, (ext x).block + (ext x).len = 2 ^ 32 ∧ blocknr < (ext x).block) :
    LoopOutcome ext blocknr t (extentSplayLoop ext blocknr left right t) := by
  obtain ⟨x, hx, hxend, hxblock⟩ := hlast
  unfold LoopOutcome
  fun_induction Misled ext blocknr t generalizing left with
  | case1 => exact absurd hx List.not_mem_nil
  | case2 a l =>
      obtain rfl := h.eq_root hx hxend
      exact Or.inl ⟨not_false, extentSplayLoop_of_before h hpassed hxblock⟩
  | case3 a l b s r ih =>
      by_cases ha : (ext a).block + (ext a).len ≤ blocknr
      · have hright := h.right_tree
        have hxright := h.mem_right hx hxend
        cases r with
        | nil =>
            obtain rfl := hright.eq_root hxright hxend
            exact extentSplayLoop_rotated_up h hpassed ha hxend hxblock
        | node c sc rc =>
            have hbtests : TestsAs (probeNode ext blocknr) _ _ b := hright.tests_root
            by_cases hb : (ext b).block + (ext b).len ≤ blocknr
            · rw [extentSplayLoop_rotated h ha (hbtests.behind_iff.2 (probeNode_gt.2 hb))]
              refine (ih hright.right_tree (hpassed.link_rotated h hb) (hright.mem_right hxright hxend)).imp
                (fun hfine => ⟨fun hmisled => ?_, hfine.2.mono fun y hy => ?_⟩) fun hwrong =>
                  ⟨Or.inr hwrong.1, hwrong.2⟩
              · rcases hmisled with ⟨hnil, -⟩ | hmisled
                · exact absurd hnil nofun
                · exact hfine.1 hmisled
              · have hyright : y ∈ inorder (.node b s (.node c sc rc)) :=
                  List.mem_append_right _ (List.mem_cons_of_mem _ hy)
                exact List.mem_append_right _ (List.mem_cons_of_mem _ hyright)
            · rw [extentSplayLoop_linked h ha (mt hbtests.behind_iff.1 (mt probeNode_gt.1 hb))]
              refine Or.inl ⟨fun hmisled => ?_, ?_⟩
              · rcases hmisled with ⟨hnil, -⟩ | hmisled
                · exact absurd hnil nofun
                · obtain ⟨c', hc', hle⟩ := Misled.exists_le hmisled
                  have hbc := hright.end_le hc'
                  omega
              · refine (extentSplayLoop_not_behind hright (hpassed.link h ha) hb).mono fun y hy => ?_
                exact List.mem_append_right _ (List.mem_cons_of_mem _ hy)
      · exact Or.inl ⟨fun hmisled => absurd (Misled.root_le h hmisled) ha,
          extentSplayLoop_not_behind h hpassed ha⟩

/-- Where the splaying goes wrong, the last extent ends at block `2 ^ 32`, and the block lies before it. -/
theorem Misled.wraps (h : SearchTree ext t) (hmisled : Misled ext blocknr t) :
    ∃ b ∈ inorder t, (ext b).block + (ext b).len = 2 ^ 32 ∧ blocknr < (ext b).block := by
  fun_induction Misled ext blocknr t with
  | case1 => exact hmisled.elim
  | case2 => exact hmisled.elim
  | case3 a l b s r ih =>
      rcases hmisled with ⟨rfl, hend, -, e, he, hlt⟩ | hmisled
      · have hpairwise := h.right_tree.pairwise
        rw [inorder_node, List.pairwise_append] at hpairwise
        have hle := hpairwise.2.2 e he b List.mem_cons_self
        exact ⟨b, by simp, hend, by omega⟩
      · obtain ⟨x, hx, hwraps⟩ := ih h.right_tree.right_tree hmisled
        exact ⟨x, by simp [hx], hwraps⟩

/-- The block is in the last extent, which ends at block `2 ^ 32`. -/
theorem extentSplayLoop_of_last {x : ν} {before : List ν} (hinorder : inorder t = before ++ [x])
    (hx : (ext x).Has blocknr) (hend : (ext x).block + (ext x).len = 2 ^ 32)
    (hbefore : ∀ b ∈ before, (ext b).block + (ext b).len ≤ (ext x).block) :
    EndsNear (probeNode ext blocknr) (inorder t) (extentSplayLoop ext blocknr [] [] t) := by
  have hne : t ≠ .nil := by
    rintro rfl
    exact absurd hinorder (by simp)
  -- every comparison says that the block is behind
  have htests : ∀ b ∈ inorder t, TestsAs (fun _ => Ordering.gt) (fun b => beforeExtent blocknr (ext b))
      (fun b => behindExtent blocknr (ext b)) b := by
    intro b hb
    rw [hinorder] at hb
    have hle : (ext b).block ≤ blocknr ∧ (ext b).stop ≤ blocknr := by
      unfold RemapExtent.stop
      rcases List.mem_append.1 hb with hb | hb
      · have hend' := hbefore b hb
        have hblock := hx.1
        have hmod := Nat.mod_le ((ext b).block + (ext b).len) (2 ^ 32)
        omega
      · rw [List.mem_singleton.1 hb, hend]
        exact ⟨hx.1, Nat.zero_le _⟩
    exact ⟨iff_of_false (fun hlt => absurd (of_decide_eq_true hlt) (Nat.not_lt.2 hle.1)) nofun,
      iff_of_true (decide_eq_true hle.2) rfl⟩
  have heq : extentSplayLoop ext blocknr [] [] t = splayLoop (fun _ => Ordering.gt) [] [] t :=
    splayLoopBy_eq [] [] htests
  have hsorted : Sorted (fun _ => Ordering.gt) (inorder t) :=
    List.pairwise_of_forall fun _ _ => ⟨nofun, fun _ => rfl⟩
  obtain ⟨a, l, r, hsplay, -, hnear⟩ := splayLoop_near [] [] hne hsorted nofun nofun
  -- so nothing is left behind the root
  have hnil : inorder r = [] := List.eq_nil_iff_forall_not_mem.2 fun b hb =>
    absurd (hnear.behind_of_gt rfl b hb) nofun
  have hkeep : inorder (extentSplayLoop ext blocknr [] [] t) = inorder t := inorder_splayBy _ _ t
  rw [heq, hsplay, inorder_node, hnil, hinorder] at hkeep
  obtain rfl : a = x := (List.append_inj' hkeep rfl).2 |> List.singleton_inj.1
  rw [heq, hsplay]
  refine ⟨a, l, r, rfl, by rw [hinorder]; simp, fun hlt => ?_, fun hgt => ?_⟩
  · exact absurd hx.1 (Nat.not_le.2 (probeNode_lt.1 hlt))
  · exact absurd hx.2 (Nat.not_lt.2 (probeNode_gt.1 hgt))

/-- What the loop comes to. -/
theorem extentSplayLoop_outcome (h : SearchTree ext t) (hne : t ≠ .nil) (hblock : blocknr < 2 ^ 32) :
    LoopOutcome ext blocknr t (extentSplayLoop ext blocknr [] [] t) := by
  have hpassed : Passed ext blocknr [] [] := ⟨nofun, nofun⟩
  by_cases hwraps : ∃ x ∈ inorder t, (ext x).block + (ext x).len = 2 ^ 32
  · obtain ⟨x, hx, hend⟩ := hwraps
    by_cases hlt : blocknr < (ext x).block
    · exact extentSplayLoop_spec h hpassed ⟨x, hx, hend, hlt⟩
    · obtain ⟨before, behind, hinorder⟩ := List.append_of_mem hx
      have hpairwise := h.pairwise
      rw [hinorder, List.pairwise_append, List.pairwise_cons] at hpairwise
      have hnil : behind = [] := List.eq_nil_iff_forall_not_mem.2 fun b hb => by
        have hmem : b ∈ inorder t := by
          rw [hinorder]
          simp [hb]
        have hle := hpairwise.2.1.1 b hb
        have hpos := h.len_pos hmem
        have hbelow := h.below b hmem
        omega
      subst hnil
      refine Or.inl ⟨fun hmisled => ?_, extentSplayLoop_of_last hinorder ⟨Nat.le_of_not_lt hlt, by omega⟩
        hend fun b hb => hpairwise.2.2 b hb x List.mem_cons_self⟩
      obtain ⟨b, hb, hbend, hbblock⟩ := Misled.wraps h hmisled
      rw [hinorder] at hb
      rcases List.mem_append.1 hb with hb | hb
      · have hle := hpairwise.2.2 b hb x List.mem_cons_self
        have hpos := h.len_pos hx
        omega
      · rw [List.mem_singleton.1 hb] at hbblock
        exact hlt hbblock
  · refine Or.inl ⟨fun hmisled => ?_, ?_⟩
    · obtain ⟨b, hb, hend, -⟩ := Misled.wraps h hmisled
      exact hwraps ⟨b, hb, hend⟩
    · have heq : extentSplayLoop ext blocknr [] [] t = splayLoop (probeNode ext blocknr) [] [] t :=
        splayLoopBy_eq [] [] fun a ha =>
          testsAs_of_lt (lt_of_le_of_ne (h.below a ha) fun hend => hwraps ⟨a, ha, hend⟩)
      rw [heq]
      exact splayLoop_near [] [] hne h.sorted nofun nofun

end Loop

/-! ## §5 — all trees -/

theorem RootWrong.not_rootRight {ext : ν → RemapExtent} {blocknr : ℕ} {t : BinaryTree ν}
    (h : RootWrong ext blocknr t) : ¬ RootRight ext blocknr t := by
  obtain ⟨a, l, r, rfl, hlt, e, he, hend⟩ := h
  rintro (hhas | ⟨-, ⟨hle, -⟩ | ⟨-, hall⟩⟩)
  · exact absurd hhas.1 (Nat.not_le.2 hlt)
  · omega
  · exact absurd (hall e he) (Nat.not_le.2 hend)

/-- The root after splaying a tree. -/
theorem rootRight_splayBy_iff {ext : ν → RemapExtent} {blocknr : ℕ} {t : BinaryTree ν} (h : SearchTree ext t)
    (hblock : blocknr < 2 ^ 32) :
    RootRight ext blocknr (extentSplayLoop ext blocknr [] [] t) ↔ ¬ Misled ext blocknr t := by
  by_cases hne : t = .nil
  · subst hne
    exact iff_of_true trivial not_false
  rcases extentSplayLoop_outcome h hne hblock with ⟨hfine, hnear⟩ | ⟨hmisled, hwrong⟩
  · refine iff_of_true ?_ hfine
    obtain ⟨a, l, r, heq, -, hnear⟩ := hnear
    have hkeep : inorder (extentSplayLoop ext blocknr [] [] t) = inorder t := inorder_splayBy _ _ t
    rw [heq] at hkeep ⊢
    exact rootRight_of_near (h.of_sublist (hkeep ▸ List.Sublist.refl _)) hnear
  · exact iff_of_false hwrong.not_rootRight fun hfine => hfine hmisled

/-- **What `extent_splay` comes to.** For every tree of disjoint non-empty extents in the order of their
blocks, in memory, and every block number, splaying ends with a tree of the same extents in the same order
and the right root if and only if the last extent does not mislead it. -/
theorem extentSplayNodes_right_iff [DecidableEq ν] {ext : ν → RemapExtent} {blocknr n : ℕ} {links : Memory ν}
    {root : Option ν} {t : BinaryTree ν} (hrep : Represents links root t) (h : SearchTree ext t)
    (hblock : blocknr < 2 ^ 32) (hn : (inorder t).length < n) :
    SplayedRight ext blocknr t (extentSplayNodes ext blocknr n links root) ↔ ¬ Misled ext blocknr t := by
  obtain ⟨links', root', hsplay, hrep'⟩ := splayNodes_represents (fun a => beforeExtent blocknr (ext a))
    (fun a => behindExtent blocknr (ext a)) hrep h.nodup hn
  rw [← rootRight_splayBy_iff h hblock]
  unfold extentSplayNodes
  rw [hsplay]
  constructor
  · rintro ⟨links'', root'', t', heq, hrep'', -, hright⟩
    cases heq
    rw [hrep''.unique hrep'] at hright
    exact hright
  · exact fun hright => ⟨links', root', _, rfl, hrep', inorder_splayBy _ _ t, hright⟩

/-- Three extents, the first of them at the root, the last under it and the middle one under that. -/
def threeLinks : Memory ℕ
  | 0, .r => some 1
  | 1, .l => some 2
  | _, _ => none

def threeTree : BinaryTree ℕ := .node 0 .nil (.node 1 (.node 2 .nil .nil) .nil)

/-- The last of them ends at block `stop`. -/
def threeExtents (stop : ℕ) : ℕ → RemapExtent
  | 0 => ⟨10, 2, 0, 0⟩
  | 1 => ⟨stop - 10, 10, 0, 0⟩
  | _ => ⟨20, 2, 0, 0⟩

theorem threeLinks_represent : Represents threeLinks (some 0) threeTree := by
  simp [Represents, threeLinks, threeTree]

/-- The middle one comes to the root when the last one ends earlier. -/
theorem extentSplayNodes_right_of_three :
    SplayedRight (threeExtents 50) 20 threeTree (extentSplayNodes (threeExtents 50) 20 4 threeLinks (some 0)) := by
  have hsearch : SearchTree (threeExtents 50) threeTree := ⟨⟨by decide, by decide⟩, by decide⟩
  refine (extentSplayNodes_right_iff threeLinks_represent hsearch (by decide) (by decide)).2 ?_
  simp [Misled, threeTree, threeExtents]

/-- With the last one up to block `2 ^ 32`, that one comes to the root. -/
theorem extentSplayNodes_wraps :
    Represents threeLinks (some 0) threeTree ∧ SearchTree (threeExtents (2 ^ 32)) threeTree
      ∧ ∀ n, ¬ SplayedRight (threeExtents (2 ^ 32)) 20 threeTree
        (extentSplayNodes (threeExtents (2 ^ 32)) 20 n threeLinks (some 0)) := by
  refine ⟨threeLinks_represent, ⟨⟨by decide, by decide⟩, by decide⟩, fun n hsplayed => ?_⟩
  obtain ⟨links, root, t', heq, hrep, hinorder, hright⟩ := hsplayed
  have hroot : root = some 1 := by
    cases n with
    | zero => exact absurd heq nofun
    | succ n => exact (congrArg Prod.snd (Option.some.inj heq)).symm
  subst hroot
  cases t' with
  | nil => exact absurd hrep nofun
  | node a l r =>
      obtain rfl : 1 = a := Option.some.inj hrep.1
      rcases hright with hhas | ⟨hnone, -⟩
      · exact absurd hhas (by decide)
      · refine hnone 2 ?_ (by decide)
        rw [hinorder]
        decide

end Prefetch.Remap

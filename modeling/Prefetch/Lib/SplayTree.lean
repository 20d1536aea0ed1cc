/-
# Prefetch.Lib.SplayTree — top-down splaying

A search tree is searched with a probe, which says of each value whether what is looked for lies before it
(`lt`), at it (`eq`) or behind it (`gt`). Splaying brings the value at which the search ends to the root:
on its way down it takes the tree apart into what lies before the rest and what lies behind it, and puts
these under the new root at the end.

The values keep their order (`inorder_splay`); the new root is a value the probe hits or one next to the
place where such a value would be (`splay_spec`); and splaying a second time goes to the other one of the
two neighbours, if it is there (`splay_again_lt`, `splay_again_gt`).
-/
import Mathlib.Data.Tree.Basic
import Mathlib.Tactic.Common

namespace SplayTree

variable {α : Type*}

/-- The values of a tree from left to right. -/
def inorder : BinaryTree α → List α
  | .nil => []
  | .node a l r => inorder l ++ a :: inorder r

@[simp] theorem inorder_nil : inorder (.nil : BinaryTree α) = [] := rfl

@[simp] theorem inorder_node (a : α) (l r : BinaryTree α) :
    inorder (.node a l r) = inorder l ++ a :: inorder r := rfl

theorem inorder_eq_nil {t : BinaryTree α} : inorder t = [] ↔ t = .nil := by
  cases t <;> simp

/-! ## Splaying -/

/-- The nodes linked to one side, the last one first, each with the subtree it has on that side. -/
abbrev Linked (α : Type*) := List (α × BinaryTree α)

/-- The nodes linked left, with `t` as the right subtree of the last one. -/
def assembleLeft (left : Linked α) (t : BinaryTree α) : BinaryTree α :=
  left.foldl (fun t link => .node link.1 link.2 t) t

/-- The nodes linked right, with `t` as the left subtree of the last one. -/
def assembleRight (right : Linked α) (t : BinaryTree α) : BinaryTree α :=
  right.foldl (fun t link => .node link.1 t link.2) t

/-- The new root over what was linked to both sides. -/
def assemble (left right : Linked α) (a : α) (l r : BinaryTree α) : BinaryTree α :=
  .node a (assembleLeft left l) (assembleRight right r)

/-- The way down. In steps of two to the same side the two nodes are rotated before the upper one of them
is linked. -/
def splayLoop (probe : α → Ordering) (left right : Linked α) : BinaryTree α → BinaryTree α
  | .nil => .nil
  | .node a l r =>
      if probe a = .lt then
        match l with
        | .nil => assemble left right a .nil r
        | .node a' l' r' =>
            if probe a' = .lt then
              match l' with
              | .nil => assemble left right a' .nil (.node a r' r)
              | .node a'' l'' r'' =>
                  splayLoop probe left ((a', .node a r' r) :: right) (.node a'' l'' r'')
            else splayLoop probe left ((a, r) :: right) (.node a' l' r')
      else if probe a = .gt then
        match r with
        | .nil => assemble left right a l .nil
        | .node a' l' r' =>
            if probe a' = .gt then
              match r' with
              | .nil => assemble left right a' (.node a l l') .nil
              | .node a'' l'' r'' =>
                  splayLoop probe ((a', .node a l l') :: left) right (.node a'' l'' r'')
            else splayLoop probe ((a, l) :: left) right (.node a' l' r')
      else assemble left right a l r

/-- Splaying a tree. -/
def splay (probe : α → Ordering) (t : BinaryTree α) : BinaryTree α := splayLoop probe [] [] t

/-- The way down with two tests in place of a probe: what is looked for lies before a value, or behind
it. They need not exclude each other; behind is tested where before has failed. -/
def splayLoopBy (before behind : α → Bool) (left right : Linked α) : BinaryTree α → BinaryTree α
  | .nil => .nil
  | .node a l r =>
      if before a then
        match l with
        | .nil => assemble left right a .nil r
        | .node a' l' r' =>
            if before a' then
              match l' with
              | .nil => assemble left right a' .nil (.node a r' r)
              | .node a'' l'' r'' =>
                  splayLoopBy before behind left ((a', .node a r' r) :: right) (.node a'' l'' r'')
            else splayLoopBy before behind left ((a, r) :: right) (.node a' l' r')
      else if behind a then
        match r with
        | .nil => assemble left right a l .nil
        | .node a' l' r' =>
            if behind a' then
              match r' with
              | .nil => assemble left right a' (.node a l l') .nil
              | .node a'' l'' r'' =>
                  splayLoopBy before behind ((a', .node a l l') :: left) right (.node a'' l'' r'')
            else splayLoopBy before behind ((a, l) :: left) right (.node a' l' r')
      else assemble left right a l r

/-- Splaying a tree with two tests. -/
def splayBy (before behind : α → Bool) (t : BinaryTree α) : BinaryTree α :=
  splayLoopBy before behind [] [] t

/-! ## The order of the values -/

/-- The values linked left, in order. -/
def listLeft : Linked α → List α
  | [] => []
  | (a, l) :: left => listLeft left ++ (inorder l ++ [a])

/-- The values linked right, in order. -/
def listRight : Linked α → List α
  | [] => []
  | (a, r) :: right => a :: inorder r ++ listRight right

theorem inorder_assembleLeft (left : Linked α) (t : BinaryTree α) :
    inorder (assembleLeft left t) = listLeft left ++ inorder t := by
  induction left generalizing t with
  | nil => rfl
  | cons link left ih =>
      show inorder (assembleLeft left (.node link.1 link.2 t)) = _
      rw [ih, inorder_node, listLeft]
      simp only [List.append_assoc, List.singleton_append]

theorem inorder_assembleRight (right : Linked α) (t : BinaryTree α) :
    inorder (assembleRight right t) = inorder t ++ listRight right := by
  induction right generalizing t with
  | nil => exact (List.append_nil _).symm
  | cons link right ih =>
      show inorder (assembleRight right (.node link.1 t link.2)) = _
      rw [ih, inorder_node, listRight]
      simp only [List.append_assoc, List.cons_append]

theorem inorder_assemble (left right : Linked α) (a : α) (l r : BinaryTree α) :
    inorder (assemble left right a l r) = listLeft left ++ inorder (.node a l r) ++ listRight right := by
  unfold assemble
  rw [inorder_node, inorder_assembleLeft, inorder_assembleRight, inorder_node]
  simp only [List.append_assoc, List.cons_append]

theorem inorder_splayLoopBy (before behind : α → Bool) (left right : Linked α) (t : BinaryTree α)
    (hne : t ≠ .nil) :
    inorder (splayLoopBy before behind left right t) = listLeft left ++ inorder t ++ listRight right := by
  fun_induction splayLoopBy before behind left right t with
  | case1 => exact absurd rfl hne
  | case2 left right a r hlt => exact inorder_assemble ..
  | case3 left right a r hlt a' r' hlt' =>
      rw [inorder_assemble]
      simp
  | case4 left right a r hlt a' r' hlt' a'' l'' r'' ih =>
      rw [ih nofun]
      simp [listRight]
  | case5 left right a r hlt a' l' r' hge ih =>
      rw [ih nofun]
      simp [listRight]
  | case6 left right a l hge hgt => exact inorder_assemble ..
  | case7 left right a l hge hgt a' l' hgt' =>
      rw [inorder_assemble]
      simp
  | case8 left right a l hge hgt a' l' hgt' a'' l'' r'' ih =>
      rw [ih nofun]
      simp [listLeft]
  | case9 left right a l hge hgt a' l' r' hle ih =>
      rw [ih nofun]
      simp [listLeft]
  | case10 left right a l r hge hle => exact inorder_assemble ..

/-- Splaying with two tests keeps the values and their order. -/
theorem inorder_splayBy (before behind : α → Bool) (t : BinaryTree α) :
    inorder (splayBy before behind t) = inorder t := by
  by_cases hne : t = .nil
  · subst hne
    rfl
  · exact (inorder_splayLoopBy before behind [] [] t hne).trans (List.append_nil _)

/-- The two tests say of a value what a probe says. -/
structure TestsAs (probe : α → Ordering) (before behind : α → Bool) (a : α) : Prop where
  before_iff : before a = true ↔ probe a = .lt
  behind_iff : behind a = true ↔ probe a = .gt

/-- On trees where the two tests say what a probe says, the two ways down are the same. -/
theorem splayLoopBy_eq {probe : α → Ordering} {before behind : α → Bool} (left right : Linked α)
    {t : BinaryTree α} (h : ∀ a ∈ inorder t, TestsAs probe before behind a) :
    splayLoopBy before behind left right t = splayLoop probe left right t := by
  fun_induction splayLoopBy before behind left right t with
  | case1 => rfl
  | case2 left right a r hlt =>
      have ha := (h a (by simp)).before_iff.1 hlt
      rw [splayLoop.eq_def]
      exact (if_pos ha).symm
  | case3 left right a r hlt a' r' hlt' =>
      have ha := (h a (by simp)).before_iff.1 hlt
      have ha' := (h a' (by simp)).before_iff.1 hlt'
      rw [splayLoop.eq_def]
      exact ((if_pos ha).trans (if_pos ha')).symm
  | case4 left right a r hlt a' r' hlt' a'' l'' r'' ih =>
      have ha := (h a (by simp)).before_iff.1 hlt
      have ha' := (h a' (by simp)).before_iff.1 hlt'
      rw [ih fun b hb => h b (List.mem_append_left _ (List.mem_append_left _ hb)),
        splayLoop.eq_def probe left right]
      exact ((if_pos ha).trans (if_pos ha')).symm
  | case5 left right a r hlt a' l' r' hge ih =>
      have ha := (h a (by simp)).before_iff.1 hlt
      have ha' := mt (h a' (by simp)).before_iff.2 hge
      rw [ih fun b hb => h b (List.mem_append_left _ hb), splayLoop.eq_def probe left right]
      exact ((if_pos ha).trans (if_neg ha')).symm
  | case6 left right a l hge hgt =>
      have ha := mt (h a (by simp)).before_iff.2 hge
      have hbehind := (h a (by simp)).behind_iff.1 hgt
      rw [splayLoop.eq_def]
      exact ((if_neg ha).trans (if_pos hbehind)).symm
  | case7 left right a l hge hgt a' l' hgt' =>
      have ha := mt (h a (by simp)).before_iff.2 hge
      have hbehind := (h a (by simp)).behind_iff.1 hgt
      have ha' := (h a' (by simp)).behind_iff.1 hgt'
      rw [splayLoop.eq_def]
      exact ((if_neg ha).trans ((if_pos hbehind).trans (if_pos ha'))).symm
  | case8 left right a l hge hgt a' l' hgt' a'' l'' r'' ih =>
      have ha := mt (h a (by simp)).before_iff.2 hge
      have hbehind := (h a (by simp)).behind_iff.1 hgt
      have ha' := (h a' (by simp)).behind_iff.1 hgt'
      have hsub : ∀ b ∈ inorder (.node a'' l'' r''),
          b ∈ inorder (.node a l (.node a' l' (.node a'' l'' r''))) :=
        fun b hb => List.mem_append_right _ (List.mem_cons_of_mem _
          (List.mem_append_right _ (List.mem_cons_of_mem _ hb)))
      rw [ih fun b hb => h b (hsub b hb), splayLoop.eq_def probe left right]
      exact ((if_neg ha).trans ((if_pos hbehind).trans (if_pos ha'))).symm
  | case9 left right a l hge hgt a' l' r' hle ih =>
      have ha := mt (h a (by simp)).before_iff.2 hge
      have hbehind := (h a (by simp)).behind_iff.1 hgt
      have ha' := mt (h a' (by simp)).behind_iff.2 hle
      rw [ih fun b hb => h b (List.mem_append_right _ (List.mem_cons_of_mem _ hb)),
        splayLoop.eq_def probe left right]
      exact ((if_neg ha).trans ((if_pos hbehind).trans (if_neg ha'))).symm
  | case10 left right a l r hge hle =>
      have ha := mt (h a (by simp)).before_iff.2 hge
      have hbehind := mt (h a (by simp)).behind_iff.2 hle
      rw [splayLoop.eq_def]
      exact ((if_neg ha).trans (if_neg hbehind)).symm

/-- Where what is looked for lies before the root, it is enough that the tests say so, and agree with the
probe to the left of it. -/
theorem splayLoopBy_eq_of_before {probe : α → Ordering} {before behind : α → Bool} (left right : Linked α)
    {a : α} {l r : BinaryTree α} (ha : before a = true) (hlt : probe a = .lt)
    (h : ∀ b ∈ inorder l, TestsAs probe before behind b) :
    splayLoopBy before behind left right (.node a l r) = splayLoop probe left right (.node a l r) := by
  rw [splayLoopBy.eq_def, splayLoop.eq_def]
  dsimp only
  rw [if_pos ha, if_pos hlt]
  cases l with
  | nil => rfl
  | node a' l' r' =>
      have ha' := (h a' (by simp)).before_iff
      dsimp only
      by_cases hlt' : before a' = true
      · rw [if_pos hlt', if_pos (ha'.1 hlt')]
        cases l' with
        | nil => rfl
        | node a'' l'' r'' => exact splayLoopBy_eq _ _ fun b hb => h b (List.mem_append_left _ hb)
      · rw [if_neg hlt', if_neg (mt ha'.2 hlt')]
        exact splayLoopBy_eq _ _ h

theorem inorder_splayLoop (probe : α → Ordering) (left right : Linked α) (t : BinaryTree α)
    (hne : t ≠ .nil) :
    inorder (splayLoop probe left right t) = listLeft left ++ inorder t ++ listRight right := by
  rw [← splayLoopBy_eq left right fun a _ => ⟨decide_eq_true_iff, decide_eq_true_iff⟩]
  exact inorder_splayLoopBy _ _ left right t hne

/-- **Splaying keeps the values and their order.** -/
theorem inorder_splay (probe : α → Ordering) (t : BinaryTree α) : inorder (splay probe t) = inorder t := by
  by_cases hne : t = .nil
  · subst hne
    rfl
  · exact (inorder_splayLoop probe [] [] t hne).trans (List.append_nil _)

/-! ## The new root -/

section Root

variable {probe : α → Ordering}

/-- Values in an order the probe agrees with. -/
def Sorted (probe : α → Ordering) (as : List α) : Prop :=
  as.Pairwise fun a b => (probe a = .lt → probe b = .lt) ∧ (probe b = .gt → probe a = .gt)

/-- A value between others that the probe hits, or has all those behind it on the other side. -/
structure Near (probe : α → Ordering) (before : List α) (a : α) (behind : List α) : Prop where
  before_of_lt : probe a = .lt → ∀ b ∈ before, probe b = .gt
  behind_of_gt : probe a = .gt → ∀ b ∈ behind, probe b = .lt

/-- What the loop ends with: a value of the tree that is near. -/
def EndsNear (probe : α → Ordering) (as : List α) (t : BinaryTree α) : Prop :=
  ∃ a l r, t = .node a l r ∧ a ∈ as ∧ Near probe (inorder l) a (inorder r)

theorem EndsNear.mono {as bs : List α} {t : BinaryTree α} (h : EndsNear probe as t) (hsub : as ⊆ bs) :
    EndsNear probe bs t := by
  obtain ⟨a, l, r, ht, ha, hnear⟩ := h
  exact ⟨a, l, r, ht, hsub ha, hnear⟩

/-- A node can be linked right where its value is behind. -/
theorem listRight_cons_lt {as : List α} {a : α} {r : BinaryTree α} {right : Linked α}
    (hsorted : Sorted probe (as ++ a :: inorder r)) (ha : probe a = .lt)
    (hright : ∀ b ∈ listRight right, probe b = .lt) : ∀ b ∈ listRight ((a, r) :: right), probe b = .lt := by
  have hrest := (List.pairwise_append.1 hsorted).2.1
  intro b hb
  rcases List.mem_append.1 hb with hb | hb
  · rcases List.mem_cons.1 hb with rfl | hb
    · exact ha
    · exact ((List.pairwise_cons.1 hrest).1 b hb).1 ha
  · exact hright b hb

/-- A node can be linked left where its value is before. -/
theorem listLeft_cons_gt {as : List α} {a : α} {l : BinaryTree α} {left : Linked α}
    (hsorted : Sorted probe (inorder l ++ a :: as)) (ha : probe a = .gt)
    (hleft : ∀ b ∈ listLeft left, probe b = .gt) : ∀ b ∈ listLeft ((a, l) :: left), probe b = .gt := by
  have hrest := (List.pairwise_append.1 hsorted).2.2
  intro b hb
  rcases List.mem_append.1 hb with hb | hb
  · exact hleft b hb
  · rcases List.mem_append.1 hb with hb | hb
    · exact (hrest b hb a List.mem_cons_self).2 ha
    · cases List.mem_singleton.1 hb
      exact ha

theorem splayLoop_near (left right : Linked α) {t : BinaryTree α} (hne : t ≠ .nil)
    (hsorted : Sorted probe (inorder t)) (hleft : ∀ b ∈ listLeft left, probe b = .gt)
    (hright : ∀ b ∈ listRight right, probe b = .lt) :
    EndsNear probe (inorder t) (splayLoop probe left right t) := by
  fun_induction splayLoop probe left right t with
  | case1 => exact absurd rfl hne
  | case2 left right a r hlt =>
      refine ⟨a, _, _, rfl, by simp, fun _ => ?_, fun hgt => absurd (hlt.symm.trans hgt) nofun⟩
      rwa [inorder_assembleLeft, inorder_nil, List.append_nil]
  | case3 left right a r hlt a' r' hlt' =>
      refine ⟨a', _, _, rfl, by simp, fun _ => ?_, fun hgt => absurd (hlt'.symm.trans hgt) nofun⟩
      rwa [inorder_assembleLeft, inorder_nil, List.append_nil]
  | case4 left right a r hlt a' r' hlt' a'' l'' r'' ih =>
      have hparts : Sorted probe (inorder (.node a'' l'' r'') ++ a' :: inorder (.node a r' r)) := by
        simpa using hsorted
      refine (ih nofun (List.pairwise_append.1 hparts).1 hleft ?_).mono
        (List.subset_append_of_subset_left _ (List.subset_append_left _ _))
      exact listRight_cons_lt hparts hlt' hright
  | case5 left right a r hlt a' l' r' hge ih =>
      have hparts : Sorted probe (inorder (.node a' l' r') ++ a :: inorder r) := hsorted
      refine (ih nofun (List.pairwise_append.1 hparts).1 hleft ?_).mono (List.subset_append_left _ _)
      exact listRight_cons_lt hparts hlt hright
  | case6 left right a l hge hgt =>
      refine ⟨a, _, _, rfl, by simp, fun hlt => absurd hlt hge, fun _ => ?_⟩
      rwa [inorder_assembleRight, inorder_nil, List.nil_append]
  | case7 left right a l hge hgt a' l' hgt' =>
      refine ⟨a', _, _, rfl, by simp, fun hlt => absurd (hgt'.symm.trans hlt) nofun, fun _ => ?_⟩
      rwa [inorder_assembleRight, inorder_nil, List.nil_append]
  | case8 left right a l hge hgt a' l' hgt' a'' l'' r'' ih =>
      have hparts : Sorted probe (inorder (.node a l l') ++ a' :: inorder (.node a'' l'' r'')) := by
        simpa using hsorted
      have hbehind := (List.pairwise_cons.1 (List.pairwise_append.1 hparts).2.1).2
      refine (ih nofun hbehind ?_ hright).mono (List.subset_append_of_subset_right _
        (List.subset_cons_of_subset _ (List.subset_append_of_subset_right _ (List.subset_cons_self _ _))))
      exact listLeft_cons_gt hparts hgt' hleft
  | case9 left right a l hge hgt a' l' r' hle ih =>
      have hparts : Sorted probe (inorder l ++ a :: inorder (.node a' l' r')) := hsorted
      have hbehind := (List.pairwise_cons.1 (List.pairwise_append.1 hparts).2.1).2
      refine (ih nofun hbehind ?_ hright).mono
        (List.subset_append_of_subset_right _ (List.subset_cons_self _ _))
      exact listLeft_cons_gt hparts hgt hleft
  | case10 left right a l r hge hle =>
      exact ⟨a, _, _, rfl, by simp, fun hlt => absurd hlt hge, fun hgt => absurd hgt hle⟩

/-- **What splaying brings to the root.** -/
theorem splay_spec {t : BinaryTree α} (hne : t ≠ .nil) (hsorted : Sorted probe (inorder t)) :
    ∃ a l r, splay probe t = .node a l r ∧ inorder l ++ a :: inorder r = inorder t ∧
      Near probe (inorder l) a (inorder r) := by
  obtain ⟨a, l, r, hsplay, -, hnear⟩ := splayLoop_near [] [] hne hsorted nofun nofun
  refine ⟨a, l, r, hsplay, ?_, hnear⟩
  rw [← inorder_splay probe t, splay, hsplay, inorder_node]

/-- **Splaying again goes to the value before.** -/
theorem splay_again_lt {a : α} {l r : BinaryTree α} (hsorted : Sorted probe (inorder (.node a l r)))
    (ha : probe a = .lt) (hl : ∀ b ∈ inorder l, probe b = .gt) (hne : l ≠ .nil) :
    ∃ b l' r', splay probe (.node a l r) = .node b l' r' ∧
      inorder l' ++ b :: inorder r' = inorder (.node a l r) ∧ probe b = .gt ∧
        ∀ c ∈ inorder r', probe c = .lt := by
  have hloop : splay probe (.node a l r) = splayLoop probe [] [(a, r)] l := by
    cases l with
    | nil => exact absurd rfl hne
    | node a' l' r' =>
        have hgt : probe a' = .gt := hl a' (by simp)
        have hge : ¬ probe a' = .lt := by
          rw [hgt]
          nofun
        rw [splay, splayLoop.eq_def]
        exact (if_pos ha).trans (if_neg hge)
  obtain ⟨b, l', r', hsplay, hb, hnear⟩ := splayLoop_near [] [(a, r)] hne
    (List.pairwise_append.1 hsorted).1 nofun
    (listRight_cons_lt hsorted ha nofun)
  have hbgt : probe b = .gt := hl b hb
  refine ⟨b, l', r', hloop.trans hsplay, ?_, hbgt, hnear.behind_of_gt hbgt⟩
  rw [← inorder_splay probe (.node a l r), hloop, hsplay, inorder_node]

/-- **Splaying again goes to the value behind.** -/
theorem splay_again_gt {a : α} {l r : BinaryTree α} (hsorted : Sorted probe (inorder (.node a l r)))
    (ha : probe a = .gt) (hr : ∀ b ∈ inorder r, probe b = .lt) (hne : r ≠ .nil) :
    ∃ b l' r', splay probe (.node a l r) = .node b l' r' ∧
      inorder l' ++ b :: inorder r' = inorder (.node a l r) ∧ probe b = .lt ∧
        ∀ c ∈ inorder l', probe c = .gt := by
  have hloop : splay probe (.node a l r) = splayLoop probe [(a, l)] [] r := by
    cases r with
    | nil => exact absurd rfl hne
    | node a' l' r' =>
        have hlt : probe a' = .lt := hr a' (by simp)
        have hle : ¬ probe a' = .gt := by
          rw [hlt]
          nofun
        have hge : ¬ probe a = .lt := by
          rw [ha]
          nofun
        rw [splay, splayLoop.eq_def]
        exact (if_neg hge).trans ((if_pos ha).trans (if_neg hle))
  obtain ⟨b, l', r', hsplay, hb, hnear⟩ := splayLoop_near [(a, l)] [] hne
    (List.pairwise_cons.1 (List.pairwise_append.1 hsorted).2.1).2
    (listLeft_cons_gt hsorted ha nofun) nofun
  have hblt : probe b = .lt := hr b hb
  refine ⟨b, l', r', hloop.trans hsplay, ?_, hblt, hnear.before_of_lt hblt⟩
  rw [← inorder_splay probe (.node a l r), hloop, hsplay, inorder_node]

end Root

end SplayTree

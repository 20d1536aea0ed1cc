/-
# Prefetch.Lib.SplayNodes — splaying nodes in memory

The nodes of a tree lie in memory, each with a link to either side. Splaying changes nothing but links: on
the way down the nodes are linked to the end of one of two chains, which begin at a header, and at the end
the chains are put under the new root.

A turn of the loop does what a step of `splayLoopBy` does with the tree that the links represent
(`splayTurns_represents`), so splaying the nodes comes to `splayBy` (`splayNodes_represents`). It needs
the nodes of the tree to be different ones, as every write changes a link of one of them.
-/
import Mathlib.Logic.Function.Basic
import Mathlib.Data.List.Perm.Basic
import Prefetch.Lib.SplayTree

namespace SplayTree

/-! ## Links -/

/-- The sides of a node. -/
inductive Side
  | l
  | r
  deriving DecidableEq

/-- The other side. -/
def Side.other : Side → Side
  | .l => .r
  | .r => .l

@[simp] theorem Side.other_other (d : Side) : d.other.other = d := by cases d <;> rfl

theorem Side.other_ne (d : Side) : d.other ≠ d := by cases d <;> nofun

theorem Side.eq_or_eq_other (c d : Side) : d = c ∨ d = c.other := by
  cases c <;> cases d <;> simp [Side.other]

section Nodes

variable {ν : Type*}

/-- The two links of a node, each to a node or `NULL`. -/
abbrev Links (ν : Type*) := Side → Option ν

/-- The links of all nodes. -/
abbrev Memory (ν : Type*) := ν → Links ν

/-- The tree a link leads to. -/
def Represents (m : Memory ν) : Option ν → BinaryTree ν → Prop
  | p, .nil => p = none
  | p, .node a l r => p = some a ∧ Represents m (m a .l) l ∧ Represents m (m a .r) r

theorem Represents.frame {m m' : Memory ν} {p : Option ν} {t : BinaryTree ν} (h : Represents m p t)
    (hm : ∀ a ∈ inorder t, m' a = m a) : Represents m' p t := by
  induction t generalizing p with
  | nil => exact h
  | node a l r ihl ihr =>
      obtain ⟨hp, hl, hr⟩ := h
      refine ⟨hp, ?_, ?_⟩
      · rw [hm a (by simp)]
        exact ihl hl fun b hb => hm b (by simp [hb])
      · rw [hm a (by simp)]
        exact ihr hr fun b hb => hm b (by simp [hb])

/-- A link leads to one tree. -/
theorem Represents.unique {m : Memory ν} {p : Option ν} {t t' : BinaryTree ν} (h : Represents m p t)
    (h' : Represents m p t') : t = t' := by
  induction t generalizing p t' with
  | nil =>
      cases t' with
      | nil => rfl
      | node a' l' r' =>
          have hnone : p = none := h
          exact absurd (hnone.symm.trans h'.1) nofun
  | node a l r ihl ihr =>
      cases t' with
      | nil =>
          have hnone : p = none := h'
          exact absurd (hnone.symm.trans h.1) nofun
      | node a' l' r' =>
          obtain rfl : a = a' := Option.some.inj (h.1.symm.trans h'.1)
          rw [ihl h.2.1 h'.2.1, ihr h.2.2 h'.2.2]

variable [DecidableEq ν]

/-- Writing a link of a node. -/
def setLink (m : Memory ν) (a : ν) (d : Side) (p : Option ν) : Memory ν :=
  Function.update m a (Function.update (m a) d p)

theorem setLink_of_ne {m : Memory ν} {a b : ν} (h : b ≠ a) (d : Side) (p : Option ν) :
    setLink m a d p b = m b := Function.update_of_ne h _ _

@[simp] theorem setLink_same (m : Memory ν) (a : ν) (d : Side) (p : Option ν) : setLink m a d p a d = p := by
  simp [setLink]

theorem setLink_of_side_ne {d e : Side} (h : e ≠ d) (m : Memory ν) (a : ν) (p : Option ν) :
    setLink m a d p a e = m a e := by
  simp [setLink, h]

/-! ## The loop -/

/-- The header, the last nodes linked to it on the way down, where `none` is the header itself, and the
root of what is left of the tree. -/
structure Splaying (ν : Type*) where
  memory : Memory ν
  header : Links ν
  last : Links ν
  tree : Option ν

/-- Writing a link to side `d` of the last node in the chain of side `c`. -/
def Splaying.setLast (s : Splaying ν) (c d : Side) (p : Option ν) : Splaying ν :=
  match s.last c with
  | none => { s with header := Function.update s.header d p }
  | some a => { s with memory := setLink s.memory a d p }

/-- Rotating the node `y` on side `d` of the root `a` up to the root. -/
def Splaying.rotate (s : Splaying ν) (d : Side) (a y : ν) : Splaying ν :=
  let m := setLink s.memory a d (s.memory y d.other)
  { s with memory := setLink m y d.other (some a), tree := some y }

/-- Linking the root `a` to the other side and going on at its side `d`. -/
def Splaying.link (s : Splaying ν) (d : Side) (a : ν) : Splaying ν :=
  let s := s.setLast d.other d (some a)
  { s with last := Function.update s.last d.other (some a), tree := s.memory a d }

/-- A turn of the loop ends it, or it goes on. -/
inductive Turn (ν : Type*)
  | ended (s : Splaying ν)
  | more (s : Splaying ν)

/-- A turn to side `d` from the root `a`. -/
def goDown (test : ν → Bool) (d : Side) (a : ν) (s : Splaying ν) : Turn ν :=
  match s.memory a d with
  | none => .ended s
  | some y =>
      if test y then
        let s := s.rotate d a y
        match s.memory y d with
        | none => .ended s
        | some _ => .more (s.link d y)
      else .more (s.link d a)

/-- A turn from the root `a`. -/
def turnAt (before behind : ν → Bool) (a : ν) (s : Splaying ν) : Turn ν :=
  if before a then goDown before .l a s
  else if behind a then goDown behind .r a s
  else .ended s

/-- The loop, `n` turns at most; `none` when they do not suffice or `NULL` is followed. -/
def splayTurns (before behind : ν → Bool) : ℕ → Splaying ν → Option (Splaying ν)
  | 0, _ => none
  | n + 1, s =>
      match s.tree with
      | none => none
      | some a =>
          match turnAt before behind a s with
          | .ended s => some s
          | .more s => splayTurns before behind n s

/-- Putting the two chains under the root `a`. -/
def Splaying.assemble (s : Splaying ν) (a : ν) : Splaying ν :=
  let s := s.setLast .l .r (s.memory a .l)
  let s := s.setLast .r .l (s.memory a .r)
  let s := { s with memory := setLink s.memory a .l (s.header .r) }
  { s with memory := setLink s.memory a .r (s.header .l) }

/-- Splaying the tree under `root`, `n` turns of the loop at most: the links and the root after it. -/
def splayNodes (before behind : ν → Bool) (n : ℕ) (m : Memory ν) (root : Option ν) :
    Option (Memory ν × Option ν) :=
  match root with
  | none => some (m, none)
  | some _ =>
      match splayTurns before behind n ⟨m, fun _ => none, fun _ => none, root⟩ with
      | none => none
      | some s =>
          match s.tree with
          | none => none
          | some a => some ((s.assemble a).memory, some a)

/-! ## What the loop keeps -/

/-- A node with the subtree `x` on side `d`. -/
def Side.node : Side → ν → BinaryTree ν → BinaryTree ν → BinaryTree ν
  | .l, a, x, y => .node a x y
  | .r, a, x, y => .node a y x

omit [DecidableEq ν] in
theorem represents_node {m : Memory ν} {p : Option ν} (d : Side) {a : ν} {x y : BinaryTree ν} :
    Represents m p (d.node a x y)
      ↔ p = some a ∧ Represents m (m a d) x ∧ Represents m (m a d.other) y := by
  cases d
  · exact Iff.rfl
  · exact and_congr_right fun _ => and_comm

omit [DecidableEq ν] in
theorem inorder_side_node (d : Side) (a : ν) (x y : BinaryTree ν) :
    (inorder (d.node a x y)).Perm (a :: (inorder x ++ inorder y)) := by
  cases d
  · exact List.perm_middle
  · exact List.perm_middle.trans (List.Perm.cons a List.perm_append_comm)

/-- The link to side `e` of the last node of a chain. -/
def lastLink (m : Memory ν) (header : Links ν) (e : Side) : Linked ν → Option ν
  | [] => header e
  | (b, _) :: _ => m b e

/-- A chain of nodes from the header on, linked to the other side, each with its subtree on side `d`. -/
def Chain (m : Memory ν) (header : Links ν) (d : Side) : Linked ν → Prop
  | [] => True
  | (a, t) :: rest =>
      Represents m (m a d) t ∧ lastLink m header d.other rest = some a ∧ Chain m header d rest

omit [DecidableEq ν] in
theorem lastLink_frame {m m' : Memory ν} {header header' : Links ν} {e : Side} {links : Linked ν}
    (hm : ∀ a ∈ listRight links, m' a = m a) (hheader : header' e = header e) :
    lastLink m' header' e links = lastLink m header e links := by
  cases links with
  | nil => exact hheader
  | cons link links => exact congrFun (hm link.1 List.mem_cons_self) e

omit [DecidableEq ν] in
theorem Chain.frame {m m' : Memory ν} {header header' : Links ν} {d : Side} {links : Linked ν}
    (h : Chain m header d links) (hm : ∀ a ∈ listRight links, m' a = m a)
    (hheader : header' d.other = header d.other) : Chain m' header' d links := by
  induction links with
  | nil => trivial
  | cons link links ih =>
      obtain ⟨ht, hlink, hrest⟩ := h
      have hm' : ∀ a ∈ listRight links, m' a = m a := fun a ha =>
        hm a (List.mem_append_right _ ha)
      refine ⟨?_, (lastLink_frame hm' hheader).trans hlink, ih hrest hm'⟩
      rw [hm link.1 List.mem_cons_self]
      exact ht.frame fun a ha => hm a (List.mem_cons_of_mem _ (List.mem_append_left _ ha))

omit [DecidableEq ν] in
/-- A chain with a tree at its end is the tree put together from them. -/
theorem Chain.assemble {m : Memory ν} {header : Links ν} {links : Linked ν} {t : BinaryTree ν} :
    (Chain m header .l links → Represents m (lastLink m header .r links) t →
        Represents m (header .r) (assembleLeft links t))
      ∧ (Chain m header .r links → Represents m (lastLink m header .l links) t →
        Represents m (header .l) (assembleRight links t)) := by
  induction links generalizing t with
  | nil => exact ⟨fun _ ht => ht, fun _ ht => ht⟩
  | cons link links ih =>
      refine ⟨fun h ht => ih.1 h.2.2 ?_, fun h ht => ih.2 h.2.2 ?_⟩
      · exact ⟨h.2.1, h.1, ht⟩
      · exact ⟨h.2.1, ht, h.1⟩

/-- The two chains in memory, none of their nodes and of some others twice. -/
structure Chained (s : Splaying ν) (chain : Side → Linked ν) (others : List ν) : Prop where
  last_eq : ∀ d, s.last d = (chain d).head?.map Prod.fst
  linked : ∀ d, Chain s.memory s.header d (chain d)
  nodup : (listRight (chain .l) ++ others ++ listRight (chain .r)).Nodup

section Chains

variable {s : Splaying ν} {chain : Side → Linked ν} {others : List ν}

/-- Lists of the same values, as often each, both have none twice or neither. -/
theorem nodup_of_count {as bs : List ν} (h : as.Nodup) (hcount : ∀ x, bs.count x = as.count x) : bs.Nodup :=
  (List.perm_iff_count.2 hcount).nodup_iff.2 h

theorem Chained.nodup_side (h : Chained s chain others) (c : Side) :
    (listRight (chain c) ++ (others ++ listRight (chain c.other))).Nodup := by
  refine nodup_of_count h.nodup fun x => ?_
  cases c <;> simp only [Side.other, List.count_append] <;> omega

/-- The nodes of a chain are not among the others. -/
theorem Chained.not_mem (h : Chained s chain others) {c : Side} {a : ν} (ha : a ∈ listRight (chain c)) :
    a ∉ others ∧ a ∉ listRight (chain c.other) := by
  have hapart := (List.nodup_append.1 (h.nodup_side c)).2.2 a ha
  exact ⟨fun hmem => hapart a (List.mem_append_left _ hmem) rfl,
    fun hmem => hapart a (List.mem_append_right _ hmem) rfl⟩

/-- Writing the link at the end of a chain. -/
theorem Chained.setLast (h : Chained s chain others) (c : Side) (p : Option ν) :
    Chained (s.setLast c c.other p) chain others
      ∧ lastLink (s.setLast c c.other p).memory (s.setLast c c.other p).header c.other (chain c) = p
      ∧ lastLink (s.setLast c c.other p).memory (s.setLast c c.other p).header c (chain c.other)
        = lastLink s.memory s.header c (chain c.other)
      ∧ (∀ a ∈ others, (s.setLast c c.other p).memory a = s.memory a)
      ∧ (s.setLast c c.other p).tree = s.tree ∧ (s.setLast c c.other p).last = s.last := by
  have hlast := h.last_eq c
  cases hchain : chain c with
  | nil =>
      rw [hchain] at hlast
      have hheader : Function.update s.header c.other p c = s.header c :=
        Function.update_of_ne c.other_ne.symm _ _
      unfold Splaying.setLast
      rw [hlast]
      refine ⟨⟨h.last_eq, fun d => ?_, h.nodup⟩, Function.update_self .., ?_, fun _ _ => rfl, rfl, rfl⟩
      · rcases Side.eq_or_eq_other c d with rfl | rfl
        · rw [hchain]
          trivial
        · refine (h.linked c.other).frame (fun _ _ => rfl) ?_
          rwa [Side.other_other]
      · exact lastLink_frame (fun _ _ => rfl) hheader
  | cons link links =>
      obtain ⟨a, t⟩ := link
      rw [hchain] at hlast
      have ha : a ∈ listRight (chain c) := by
        rw [hchain]
        exact List.mem_cons_self
      obtain ⟨hothers, hother⟩ := h.not_mem ha
      have hnodup := (List.nodup_append.1 (h.nodup_side c)).1
      rw [hchain, listRight, List.cons_append, List.nodup_cons, List.mem_append, not_or] at hnodup
      obtain ⟨⟨hat, halinks⟩, -⟩ := hnodup
      -- the node written to is none of the others
      have hframe : ∀ as : List ν, a ∉ as → ∀ b ∈ as, setLink s.memory a c.other p b = s.memory b :=
        fun as has b hb => setLink_of_ne (ne_of_mem_of_not_mem hb has) _ _
      unfold Splaying.setLast
      rw [hlast]
      refine ⟨⟨h.last_eq, fun d => ?_, h.nodup⟩, setLink_same .., ?_, hframe others hothers, rfl, rfl⟩
      · rcases Side.eq_or_eq_other c d with rfl | rfl
        · have hlinked := h.linked d
          rw [hchain] at hlinked ⊢
          obtain ⟨ht, hlink, hrest⟩ := hlinked
          refine ⟨?_, (lastLink_frame (hframe _ halinks) rfl).trans hlink, hrest.frame (hframe _ halinks) rfl⟩
          show Represents _ (setLink s.memory a d.other p a d) t
          rw [setLink_of_side_ne d.other_ne.symm]
          exact ht.frame (hframe _ hat)
        · exact (h.linked c.other).frame (hframe _ hother) rfl
      · exact lastLink_frame (hframe _ hother) rfl

/-- The two chains and what is left of the tree. -/
structure Stage (s : Splaying ν) (chain : Side → Linked ν) (t : BinaryTree ν) : Prop where
  chained : Chained s chain (inorder t)
  tree : Represents s.memory s.tree t

variable {d : Side} {a b : ν} {t x y z w : BinaryTree ν}

omit [DecidableEq ν] in
theorem Stage.nodup (h : Stage s chain t) : (inorder t).Nodup :=
  (List.nodup_append.1 (List.nodup_append.1 h.chained.nodup).1).2.1

/-- Rotating keeps the nodes and their order. -/
theorem Stage.rotate (h : Stage s chain (d.node a (d.node b x z) w)) :
    Stage (s.rotate d a b) chain (d.node b x (d.node a z w)) := by
  obtain ⟨-, hinner, hw⟩ := (represents_node d).1 h.tree
  obtain ⟨-, hx, hz⟩ := (represents_node d).1 hinner
  have hperm : (inorder (d.node a (d.node b x z) w)).Perm
      (a :: b :: (inorder x ++ inorder z ++ inorder w)) :=
    (inorder_side_node d a _ w).trans (((inorder_side_node d b x z).append_right _).cons a)
  have hperm' : (inorder (d.node b x (d.node a z w))).Perm
      (a :: b :: (inorder x ++ inorder z ++ inorder w)) := by
    refine (inorder_side_node d b x _).trans ((((inorder_side_node d a z w).append_left _).cons b).trans ?_)
    refine List.perm_iff_count.2 fun v => ?_
    simp only [List.count_cons, List.count_append]
    omega
  have hnodup := hperm.nodup_iff.1 h.nodup
  simp only [List.nodup_cons, List.mem_cons, List.mem_append, not_or] at hnodup
  obtain ⟨⟨hab, ⟨hax, haz⟩, haw⟩, ⟨⟨hbx, hbz⟩, hbw⟩, -⟩ := hnodup
  -- only the links of the two nodes change
  have hframe : ∀ as : List ν, a ∉ as → b ∉ as → ∀ v ∈ as, (s.rotate d a b).memory v = s.memory v :=
    fun as has hbs v hv => (setLink_of_ne (ne_of_mem_of_not_mem hv hbs) _ _).trans
      (setLink_of_ne (ne_of_mem_of_not_mem hv has) _ _)
  have hbd : (s.rotate d a b).memory b d = s.memory b d :=
    (setLink_of_side_ne d.other_ne.symm _ b _).trans (congrFun (setLink_of_ne (Ne.symm hab) _ _) d)
  have had : (s.rotate d a b).memory a d = s.memory b d.other :=
    (congrFun (setLink_of_ne hab _ _) d).trans (setLink_same ..)
  have had' : (s.rotate d a b).memory a d.other = s.memory a d.other :=
    (congrFun (setLink_of_ne hab _ _) d.other).trans (setLink_of_side_ne d.other_ne _ a _)
  refine ⟨⟨h.chained.last_eq, fun c => (h.chained.linked c).frame ?_ rfl, ?_⟩, ?_⟩
  · have hnot : ∀ v ∈ inorder (d.node a (d.node b x z) w), v ∉ listRight (chain c) := fun v hv hmem =>
      (h.chained.not_mem hmem).1 hv
    exact hframe _ (hnot a (hperm.mem_iff.2 (by simp))) (hnot b (hperm.mem_iff.2 (by simp)))
  · exact nodup_of_count h.chained.nodup fun v => by
      simp only [List.count_append, (hperm'.trans hperm.symm).count_eq]
  · refine (represents_node d).2 ⟨rfl, ?_, (represents_node d).2 ⟨setLink_same .., ?_, ?_⟩⟩
    · rw [hbd]
      exact hx.frame (hframe _ hax hbx)
    · rw [had]
      exact hz.frame (hframe _ haz hbz)
    · rw [had']
      exact hw.frame (hframe _ haw hbw)

/-- The chain on side `c` is longer by a node with a subtree. -/
def addLink (chain : Side → Linked ν) (c : Side) (link : ν × BinaryTree ν) : Side → Linked ν :=
  Function.update chain c (link :: chain c)

omit [DecidableEq ν] in
@[simp] theorem addLink_same (c : Side) (link : ν × BinaryTree ν) :
    addLink chain c link c = link :: chain c := Function.update_self ..

omit [DecidableEq ν] in
theorem addLink_of_ne {c e : Side} (h : e ≠ c) (link : ν × BinaryTree ν) :
    addLink chain c link e = chain e := Function.update_of_ne h _ _

/-- Linking the root to the other side. -/
theorem Stage.link (h : Stage s chain (d.node a x y)) :
    Stage (s.link d a) (addLink chain d.other (a, y)) x := by
  obtain ⟨-, hx, hy⟩ := (represents_node d).1 h.tree
  have hperm := inorder_side_node d a x y
  have hset := h.chained.setLast d.other (some a)
  rw [Side.other_other] at hset
  obtain ⟨hchained, hlink, -, hframe, -, -⟩ := hset
  have hmem : ∀ v ∈ a :: (inorder x ++ inorder y), (s.setLast d.other d (some a)).memory v = s.memory v :=
    fun v hv => hframe v (hperm.mem_iff.2 hv)
  have ha := hmem a List.mem_cons_self
  refine ⟨⟨fun c => ?_, fun c => ?_, ?_⟩, ?_⟩
  · rcases Side.eq_or_eq_other d.other c with rfl | rfl
    · rw [addLink_same]
      exact Function.update_self ..
    · rw [addLink_of_ne (Side.other_ne _)]
      exact (Function.update_of_ne (Side.other_ne _) _ _).trans (hchained.last_eq _)
  · rcases Side.eq_or_eq_other d.other c with rfl | rfl
    · rw [addLink_same]
      refine ⟨?_, ?_, hchained.linked _⟩
      · show Represents _ ((s.setLast d.other d (some a)).memory a d.other) y
        rw [ha]
        exact hy.frame fun v hv => hmem v (by simp [hv])
      · rw [Side.other_other]
        exact hlink
    · rw [addLink_of_ne (Side.other_ne _)]
      exact hchained.linked _
  · refine nodup_of_count h.chained.nodup fun v => ?_
    simp only [List.count_append, hperm.count_eq]
    cases d with
    | l =>
        rw [Side.other, addLink_same, addLink_of_ne (e := .l) (by decide)]
        simp only [listRight, List.count_append, List.count_cons]
        omega
    | r =>
        rw [Side.other, addLink_same, addLink_of_ne (e := .r) (by decide)]
        simp only [listRight, List.count_append, List.count_cons]
        omega
  · show Represents (s.setLast d.other d (some a)).memory ((s.setLast d.other d (some a)).memory a d) x
    rw [ha]
    exact hx.frame fun v hv => hmem v (by simp [hv])

omit [DecidableEq ν] in
theorem mem_listLeft {links : Linked ν} : a ∈ listLeft links ↔ a ∈ listRight links := by
  induction links with
  | nil => exact Iff.rfl
  | cons link links ih =>
      simp only [listLeft, listRight, List.mem_append, List.mem_cons, List.not_mem_nil, or_false, ih]
      tauto

/-- Putting the chains under the root. -/
theorem Stage.assemble {l r : BinaryTree ν} (h : Stage s chain (.node a l r)) :
    Represents (s.assemble a).memory (some a) (assemble (chain .l) (chain .r) a l r) := by
  obtain ⟨-, hl, hr⟩ := h.tree
  obtain ⟨s₁, hs₁⟩ : ∃ s₁, s₁ = s.setLast .l .r (s.memory a .l) := ⟨_, rfl⟩
  obtain ⟨s₂, hs₂⟩ : ∃ s₂, s₂ = s₁.setLast .r .l (s₁.memory a .r) := ⟨_, rfl⟩
  have hset := h.chained.setLast .l (s.memory a .l)
  rw [Side.other, ← hs₁] at hset
  obtain ⟨hchained, hlinkl, -, hframe, -, -⟩ := hset
  have hset' := hchained.setLast .r (s₁.memory a .r)
  rw [Side.other, ← hs₂] at hset'
  obtain ⟨hchained', hlinkr, hkeep, hframe', -, -⟩ := hset'
  have hmem : ∀ v ∈ inorder (.node a l r), s₂.memory v = s.memory v := fun v hv =>
    (hframe' v hv).trans (hframe v hv)
  rw [hlinkl] at hkeep
  rw [hframe a (by simp)] at hlinkr
  have hleft : Represents s₂.memory (s₂.header .r) (assembleLeft (chain .l) l) := by
    refine Chain.assemble.1 (hchained'.linked .l) ?_
    rw [hkeep]
    exact hl.frame fun v hv => hmem v (by simp [hv])
  have hright : Represents s₂.memory (s₂.header .l) (assembleRight (chain .r) r) := by
    refine Chain.assemble.2 (hchained'.linked .r) ?_
    rw [hlinkr]
    exact hr.frame fun v hv => hmem v (by simp [hv])
  -- the links of the root itself are written last
  have hassemble : (s.assemble a).memory
      = setLink (setLink s₂.memory a .l (s₂.header .r)) a .r (s₂.header .l) := by
    rw [hs₂, hs₁]
    rfl
  have hlastframe : ∀ v, v ≠ a → (s.assemble a).memory v = s₂.memory v := fun v hv => by
    rw [hassemble, setLink_of_ne hv, setLink_of_ne hv]
  have hal : (s.assemble a).memory a .l = s₂.header .r := by
    rw [hassemble, setLink_of_side_ne (by decide), setLink_same]
  have har : (s.assemble a).memory a .r = s₂.header .l := by
    rw [hassemble, setLink_same]
  have hnot : ∀ c, a ∉ listRight (chain c) := fun c hmem => (h.chained.not_mem hmem).1 (by simp)
  have hnodup := List.perm_middle.nodup_iff.1 h.nodup
  rw [List.nodup_cons, List.mem_append, not_or] at hnodup
  refine ⟨rfl, ?_, ?_⟩
  · rw [hal]
    refine hleft.frame fun v hv => hlastframe v ?_
    rw [inorder_assembleLeft] at hv
    rintro rfl
    rcases List.mem_append.1 hv with hv | hv
    · exact hnot .l (mem_listLeft.1 hv)
    · exact hnodup.1.1 hv
  · rw [har]
    refine hright.frame fun v hv => hlastframe v ?_
    rw [inorder_assembleRight] at hv
    rintro rfl
    rcases List.mem_append.1 hv with hv | hv
    · exact hnodup.1.2 hv
    · exact hnot .r hv

/-! ## A turn, and the loop -/

variable {test : ν → Bool}

/-- Nothing on the side: the loop ends. -/
theorem Stage.goDown_nil (h : Stage s chain (d.node a .nil y)) : goDown test d a s = .ended s := by
  obtain ⟨-, hx, -⟩ := (represents_node d).1 h.tree
  have hnone : s.memory a d = none := hx
  unfold goDown
  rw [hnone]

/-- The test fails for the next node: the root is linked. -/
theorem Stage.goDown_link {l r : BinaryTree ν} (h : Stage s chain (d.node a (.node b l r) y))
    (htest : ¬ test b = true) : goDown test d a s = .more (s.link d a) := by
  obtain ⟨-, hx, -⟩ := (represents_node d).1 h.tree
  unfold goDown
  rw [hx.1]
  exact if_neg htest

/-- The test holds for the next node, and behind it there is nothing. -/
theorem Stage.goDown_rotate_nil (h : Stage s chain (d.node a (d.node b .nil z) w)) (htest : test b = true) :
    goDown test d a s = .ended (s.rotate d a b) := by
  obtain ⟨-, hx, -⟩ := (represents_node d).1 h.tree
  have hnone : (s.rotate d a b).memory b d = none := ((represents_node d).1 h.rotate.tree).2.1
  unfold goDown
  rw [((represents_node d).1 hx).1]
  dsimp only
  rw [if_pos htest, hnone]

/-- The test holds for the next node, which comes up and is linked. -/
theorem Stage.goDown_rotate_link {v : ν} {l r : BinaryTree ν}
    (h : Stage s chain (d.node a (d.node b (.node v l r) z) w)) (htest : test b = true) :
    goDown test d a s = .more ((s.rotate d a b).link d b) := by
  obtain ⟨-, hx, -⟩ := (represents_node d).1 h.tree
  have hsome : (s.rotate d a b).memory b d = some v := ((represents_node d).1 h.rotate.tree).2.1.1
  unfold goDown
  rw [((represents_node d).1 hx).1]
  dsimp only
  rw [if_pos htest, hsome]

end Chains

/-- The chain of each side. -/
def sides (left right : Linked ν) : Side → Linked ν
  | .l => left
  | .r => right

omit [DecidableEq ν] in
theorem addLink_sides_r (left right : Linked ν) (link : ν × BinaryTree ν) :
    addLink (sides left right) .r link = sides left (link :: right) := by
  funext d
  cases d <;> rfl

omit [DecidableEq ν] in
theorem addLink_sides_l (left right : Linked ν) (link : ν × BinaryTree ν) :
    addLink (sides left right) .l link = sides (link :: left) right := by
  funext d
  cases d <;> rfl

section Loop

variable {before behind : ν → Bool} {s s' : Splaying ν} {a : ν} {n : ℕ}

theorem splayTurns_ended (htree : s.tree = some a) (hturn : turnAt before behind a s = .ended s') :
    splayTurns before behind (n + 1) s = some s' := by
  rw [splayTurns, htree]
  dsimp only
  rw [hturn]

theorem splayTurns_more (htree : s.tree = some a) (hturn : turnAt before behind a s = .more s') :
    splayTurns before behind (n + 1) s = splayTurns before behind n s' := by
  rw [splayTurns, htree]
  dsimp only
  rw [hturn]

/-- What the loop ends with: `t` is in memory when the chains are put under the root. -/
def EndsWith (r : Option (Splaying ν)) (t : BinaryTree ν) : Prop :=
  ∃ s a, r = some s ∧ s.tree = some a ∧ Represents (s.assemble a).memory (some a) t

section Ways

variable {left right : Linked ν} {l r t u : BinaryTree ν} {x y : BinaryTree ν}

theorem Stage.endsWith (h : Stage s (sides left right) (.node a l r)) :
    EndsWith (some s) (SplayTree.assemble left right a l r) :=
  ⟨s, a, rfl, h.tree.1, h.assemble⟩

/-- Going left, the root is linked to the right. -/
theorem Stage.linkRight (h : Stage s (sides left right) (.node a x y)) :
    Stage (s.link .l a) (sides left ((a, y) :: right)) x := by
  have hlink := Stage.link (d := .l) h
  rwa [Side.other, addLink_sides_r] at hlink

/-- Going right, it is linked to the left. -/
theorem Stage.linkLeft (h : Stage s (sides left right) (.node a y x)) :
    Stage (s.link .r a) (sides ((a, y) :: left) right) x := by
  have hlink := Stage.link (d := .r) h
  rwa [Side.other, addLink_sides_l] at hlink

theorem turnAt_left (hlt : before a = true) : turnAt before behind a s = goDown before .l a s := if_pos hlt

theorem turnAt_right (hge : ¬ before a = true) (hgt : behind a = true) :
    turnAt before behind a s = goDown behind .r a s := (if_neg hge).trans (if_pos hgt)

/-- A last turn. -/
theorem EndsWith.ended (htree : s.tree = some a) (hturn : turnAt before behind a s = .ended s')
    (h : EndsWith (some s') t) : EndsWith (splayTurns before behind (n + 1) s) t := by
  rwa [splayTurns_ended htree hturn]

/-- A turn that leaves a smaller tree, and the turns for that one. -/
theorem EndsWith.more (htree : s.tree = some a) (hturn : turnAt before behind a s = .more s')
    (hsmaller : (inorder u).length < (inorder t).length) (hn : (inorder t).length < n + 1)
    (h : ∀ m, (inorder u).length < m + 1 → EndsWith (splayTurns before behind (m + 1) s') x) :
    EndsWith (splayTurns before behind (n + 1) s) x := by
  obtain ⟨m, rfl⟩ : ∃ m, n = m + 1 := ⟨n - 1, by omega⟩
  rw [splayTurns_more htree hturn]
  exact h m (by omega)

end Ways

/-- **The loop** does to the nodes what `splayLoopBy` does to their tree. -/
theorem splayTurns_represents {left right : Linked ν} {t : BinaryTree ν} (h : Stage s (sides left right) t)
    (hne : t ≠ .nil) (hn : (inorder t).length < n) :
    EndsWith (splayTurns before behind n s) (splayLoopBy before behind left right t) := by
  obtain ⟨n, rfl⟩ : ∃ m, n = m + 1 := ⟨n - 1, by omega⟩
  fun_induction splayLoopBy before behind left right t generalizing s n with
  | case1 => exact absurd rfl hne
  | case2 left right a r hlt =>
      have hturn : turnAt before behind a s = .ended s :=
        (turnAt_left hlt).trans (Stage.goDown_nil (d := .l) h)
      exact .ended h.tree.1 hturn h.endsWith
  | case3 left right a r hlt a' r' hlt' =>
      have hturn : turnAt before behind a s = .ended (s.rotate .l a a') :=
        (turnAt_left hlt).trans (Stage.goDown_rotate_nil (d := .l) h hlt')
      have hrotated : Stage (s.rotate .l a a') _ (.node a' .nil (.node a r' r)) := Stage.rotate (d := .l) h
      exact .ended h.tree.1 hturn hrotated.endsWith
  | case4 left right a r hlt a' r' hlt' a'' l'' r'' ih =>
      have hturn : turnAt before behind a s = .more ((s.rotate .l a a').link .l a') :=
        (turnAt_left hlt).trans (Stage.goDown_rotate_link (d := .l) h hlt')
      have hrotated : Stage (s.rotate .l a a') _ (.node a' (.node a'' l'' r'') (.node a r' r)) :=
        Stage.rotate (d := .l) h
      exact .more h.tree.1 hturn (by simp) hn fun m hm => ih hrotated.linkRight (by simp) m hm
  | case5 left right a r hlt a' l' r' hge ih =>
      have hturn : turnAt before behind a s = .more (s.link .l a) :=
        (turnAt_left hlt).trans (Stage.goDown_link (d := .l) h hge)
      exact .more h.tree.1 hturn (by simp) hn fun m hm => ih h.linkRight (by simp) m hm
  | case6 left right a l hge hgt =>
      have hturn : turnAt before behind a s = .ended s :=
        (turnAt_right hge hgt).trans (Stage.goDown_nil (d := .r) h)
      exact .ended h.tree.1 hturn h.endsWith
  | case7 left right a l hge hgt a' l' hgt' =>
      have hturn : turnAt before behind a s = .ended (s.rotate .r a a') :=
        (turnAt_right hge hgt).trans (Stage.goDown_rotate_nil (d := .r) h hgt')
      have hrotated : Stage (s.rotate .r a a') _ (.node a' (.node a l l') .nil) := Stage.rotate (d := .r) h
      exact .ended h.tree.1 hturn hrotated.endsWith
  | case8 left right a l hge hgt a' l' hgt' a'' l'' r'' ih =>
      have hturn : turnAt before behind a s = .more ((s.rotate .r a a').link .r a') :=
        (turnAt_right hge hgt).trans (Stage.goDown_rotate_link (d := .r) h hgt')
      have hrotated : Stage (s.rotate .r a a') _ (.node a' (.node a l l') (.node a'' l'' r'')) :=
        Stage.rotate (d := .r) h
      exact .more h.tree.1 hturn (by simp; omega) hn fun m hm => ih hrotated.linkLeft (by simp) m hm
  | case9 left right a l hge hgt a' l' r' hle ih =>
      have hturn : turnAt before behind a s = .more (s.link .r a) :=
        (turnAt_right hge hgt).trans (Stage.goDown_link (d := .r) h hle)
      exact .more h.tree.1 hturn (by simp; omega) hn fun m hm => ih h.linkLeft (by simp) m hm
  | case10 left right a l r hge hle =>
      have hturn : turnAt before behind a s = .ended s := (if_neg hge).trans (if_neg hle)
      exact .ended h.tree.1 hturn h.endsWith

/-- **Splaying the nodes of a tree** is splaying the tree, and takes no more turns than it has nodes. -/
theorem splayNodes_represents (before behind : ν → Bool) {m : Memory ν} {root : Option ν} {t : BinaryTree ν}
    (h : Represents m root t) (hnodup : (inorder t).Nodup) (hn : (inorder t).length < n) :
    ∃ m' root', splayNodes before behind n m root = some (m', root')
      ∧ Represents m' root' (splayBy before behind t) := by
  cases t with
  | nil =>
      have hroot : root = none := h
      subst hroot
      exact ⟨m, none, rfl, rfl⟩
  | node a l r =>
      have hstage : Stage ⟨m, fun _ => none, fun _ => none, root⟩ (sides [] []) (.node a l r) := by
        refine ⟨⟨fun d => ?_, fun d => ?_, ?_⟩, h⟩
        · cases d <;> rfl
        · cases d <;> trivial
        · rwa [sides, sides, listRight, List.nil_append, List.append_nil]
      obtain ⟨s, b, hturns, htree, hrep⟩ := splayTurns_represents hstage (by simp) hn
      refine ⟨(s.assemble b).memory, some b, ?_, hrep⟩
      rw [h.1] at hturns ⊢
      unfold splayNodes
      dsimp only
      rw [hturns]
      dsimp only
      rw [htree]

end Loop

end Nodes

end SplayTree

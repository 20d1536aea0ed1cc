/-
# Prefetch.Lib.ChainedTable — hash tables with chains

A table of `n` buckets, each a list. An entry goes to the head of its bucket, a search takes the first
entry of a bucket that matches, a removal takes that entry out. `count` counts the entries of the
whole table that meet a condition; the two changes move it by the entry that came or went.

A table in which each entry is in the bucket of its own hash, and no bucket has one twice, is a set
(`IsSet`): adding what is not there, removing and searching are then the operations of sets.
-/
import Mathlib.Algebra.BigOperators.Fin
import Mathlib.Algebra.BigOperators.Group.Finset.Piecewise
import Mathlib.Algebra.Order.BigOperators.Group.Finset
import Mathlib.Data.Fintype.Basic
import Mathlib.Tactic.Common

namespace ChainedTable

open Function

/-- A table of `n` buckets. -/
abbrev Table (n : ℕ) (α : Type*) := Fin n → List α

variable {n : ℕ} {α : Type*}

/-- All buckets empty. -/
def empty : Table n α := fun _ => []

/-- Put an entry at the head of a bucket. -/
def addHead (t : Table n α) (i : Fin n) (a : α) : Table n α := update t i (a :: t i)

/-- Take the first matching entry out of a bucket. -/
def removeFirst (t : Table n α) (i : Fin n) (q : α → Bool) : Table n α :=
  update t i ((t i).eraseP q)

/-- The first matching entry of a bucket. -/
def findFirst (t : Table n α) (i : Fin n) (q : α → Bool) : Option α := (t i).find? q

/-- How many entries meet a condition. -/
def count (p : α → Bool) (t : Table n α) : ℕ := ∑ i, (t i).countP p

variable {t : Table n α} {i j : Fin n} {a b : α} {p q : α → Bool}

theorem mem_addHead : b ∈ addHead t i a j ↔ j = i ∧ b = a ∨ b ∈ t j := by
  unfold addHead
  by_cases hj : j = i
  · subst hj
    simp
  · simp [hj]

/-- A removal keeps the order of what is left. -/
theorem removeFirst_sublist : (removeFirst t i q j).Sublist (t j) := by
  unfold removeFirst
  by_cases hj : j = i
  · subst hj
    rw [update_self]
    exact List.eraseP_sublist
  · rw [update_of_ne hj]

theorem mem_of_mem_removeFirst (h : b ∈ removeFirst t i q j) : b ∈ t j :=
  removeFirst_sublist.subset h

/-- The first match splits its bucket, and its removal joins the parts. -/
theorem findFirst_split (h : findFirst t i q = some a) :
    q a = true ∧ ∃ front back, t i = front ++ a :: back ∧ (∀ b ∈ front, q b = false) ∧
      removeFirst t i q = update t i (front ++ back) := by
  obtain ⟨hq, front, back, hsplit, hfront⟩ := List.find?_eq_some_iff_append.1 h
  have hfront' : ∀ b ∈ front, q b = false := by
    intro b hb
    simpa using hfront b hb
  refine ⟨hq, front, back, hsplit, hfront', ?_⟩
  unfold removeFirst
  rw [hsplit, List.eraseP_append_right, List.eraseP_cons_of_pos hq]
  intro b hb
  simp [hfront' b hb]

theorem mem_of_findFirst (h : findFirst t i q = some a) : a ∈ t i ∧ q a = true :=
  ⟨List.mem_of_find?_eq_some h, List.find?_some h⟩

/-- Changing one bucket changes the count by that bucket. -/
theorem count_update (p : α → Bool) (t : Table n α) (i : Fin n) (l : List α) :
    count p (update t i l) + (t i).countP p = count p t + l.countP p := by
  have hbucket : ∀ j, (update t i l j).countP p =
      update (fun j => (t j).countP p) i (l.countP p) j := apply_update (fun _ => List.countP p) t i l
  have hi : i ∈ Finset.univ := Finset.mem_univ i
  unfold count
  simp only [hbucket]
  rw [Finset.sum_update_of_mem hi,
    Finset.sum_eq_add_sum_sdiff_singleton_of_mem hi (fun j => (t j).countP p)]
  omega

theorem count_addHead (p : α → Bool) (t : Table n α) (i : Fin n) (a : α) :
    count p (addHead t i a) = count p t + if p a then 1 else 0 := by
  have hupdate := count_update p t i (a :: t i)
  rw [List.countP_cons] at hupdate
  unfold addHead
  omega

theorem count_removeFirst (h : findFirst t i q = some a) :
    count p (removeFirst t i q) + (if p a then 1 else 0) = count p t := by
  obtain ⟨-, front, back, hsplit, -, hremove⟩ := findFirst_split h
  have hupdate := count_update p t i (front ++ back)
  rw [hsplit, List.countP_append, List.countP_append, List.countP_cons] at hupdate
  rw [hremove]
  omega

/-- A counted entry is somewhere in the table. -/
theorem exists_mem_of_count_pos (h : 0 < count p t) : ∃ i, ∃ a ∈ t i, p a = true := by
  obtain ⟨i, -, hi⟩ := Finset.exists_ne_zero_of_sum_ne_zero (Nat.pos_iff_ne_zero.1 h)
  exact ⟨i, List.countP_pos_iff.1 (Nat.pos_iff_ne_zero.2 hi)⟩

/-- Nothing that meets the condition, nothing counted. -/
theorem count_eq_zero (h : ∀ i, ∀ a ∈ t i, p a = false) : count p t = 0 := by
  apply Finset.sum_eq_zero
  intro i _
  rw [List.countP_eq_zero]
  intro a ha
  simp [h i a ha]

/-- Nothing counted, nothing that meets the condition. -/
theorem eq_false_of_count_eq_zero (h : count p t = 0) (ha : a ∈ t i) : p a = false := by
  have hi : (t i).countP p = 0 := Finset.sum_eq_zero_iff.1 h i (Finset.mem_univ i)
  simpa using List.countP_eq_zero.1 hi a ha

/-! ## Tables as sets -/

/-- The entries of a table. -/
def members (t : Table n α) : Set α := {a | ∃ i, a ∈ t i}

/-- The entries bucket by bucket. -/
def entries (t : Table n α) : List α := (List.finRange n).flatMap t

theorem mem_entries : a ∈ entries t ↔ a ∈ members t := by
  simp [entries, members]

theorem countP_entries (p : α → Bool) (t : Table n α) : (entries t).countP p = count p t := by
  unfold entries count
  rw [List.countP_flatMap, Fin.sum_univ_def]
  rfl

theorem entries_addHead_perm : (entries (addHead t i a)).Perm (a :: entries t) := by
  classical
  refine List.perm_iff_count.2 fun b => ?_
  rw [List.count_cons]
  unfold List.count
  rw [countP_entries, countP_entries, count_addHead]

/-- What is taken out was in the table. -/
theorem entries_removeFirst_perm (h : findFirst t i q = some a) :
    (a :: entries (removeFirst t i q)).Perm (entries t) := by
  classical
  refine List.perm_iff_count.2 fun b => ?_
  rw [List.count_cons]
  unfold List.count
  rw [countP_entries, countP_entries]
  exact count_removeFirst h

@[simp] theorem members_empty : members (empty : Table n α) = ∅ := by
  simp [members, empty]

/-- Every bucket is emptied in turn. -/
theorem foldl_finRange_clear (t : Table n α) :
    (List.finRange n).foldl (fun t i => update t i []) t = empty := by
  have hfold : ∀ (is : List (Fin n)) (t : Table n α) (j : Fin n),
      is.foldl (fun t i => update t i []) t j = if j ∈ is then [] else t j := by
    intro is
    induction is with
    | nil => intro t j; simp
    | cons i is ih =>
        intro t j
        rw [List.foldl_cons, ih]
        by_cases hj : j = i
        · subst hj
          simp
        · simp [hj]
  funext j
  rw [hfold, if_pos (List.mem_finRange j)]
  rfl

theorem members_addHead : members (addHead t i a) = insert a (members t) := by
  apply Set.ext
  intro b
  show (∃ j, b ∈ addHead t i a j) ↔ b = a ∨ ∃ j, b ∈ t j
  simp only [mem_addHead, exists_or, exists_and_right, exists_eq, true_and]

/-- Each entry is in the bucket of its hash, and in no bucket twice. -/
structure IsSet (hash : α → Fin n) (t : Table n α) : Prop where
  place : ∀ i, ∀ a ∈ t i, hash a = i
  nodup : ∀ i, (t i).Nodup

variable {hash : α → Fin n}

theorem isSet_empty (hash : α → Fin n) : IsSet hash empty := ⟨nofun, fun _ => List.nodup_nil⟩

/-- An entry is looked for in its own bucket. -/
theorem IsSet.mem_members_iff (h : IsSet hash t) : a ∈ members t ↔ a ∈ t (hash a) := by
  constructor
  · rintro ⟨i, hi⟩
    rw [h.place i a hi]
    exact hi
  · intro ha
    exact ⟨hash a, ha⟩

theorem IsSet.addHead (h : IsSet hash t) (ha : a ∉ members t) : IsSet hash (addHead t (hash a) a) where
  place := by
    intro i b hb
    rcases mem_addHead.mp hb with ⟨rfl, rfl⟩ | hb
    · rfl
    · exact h.place i b hb
  nodup := by
    intro i
    unfold ChainedTable.addHead
    by_cases hi : i = hash a
    · subst hi
      rw [update_self, List.nodup_cons]
      exact ⟨fun hmem => ha ⟨_, hmem⟩, h.nodup _⟩
    · rw [update_of_ne hi]
      exact h.nodup i

variable [DecidableEq α]

/-- **Searching a table that is a set.** -/
theorem IsSet.findFirst_isSome (h : IsSet hash t) :
    (findFirst t (hash a) (· = a)).isSome = true ↔ a ∈ members t := by
  rw [h.mem_members_iff]
  unfold findFirst
  simp

theorem IsSet.removeFirst (h : IsSet hash t) : IsSet hash (removeFirst t (hash a) (· = a)) where
  place := fun i b hb => h.place i b (mem_of_mem_removeFirst hb)
  nodup := fun i => (h.nodup i).sublist removeFirst_sublist

/-- **Removing from a table that is a set.** -/
theorem IsSet.members_removeFirst (h : IsSet hash t) :
    members (ChainedTable.removeFirst t (hash a) (· = a)) = members t \ {a} := by
  apply Set.ext
  intro b
  rw [h.removeFirst.mem_members_iff, Set.mem_sdiff, Set.mem_singleton_iff, h.mem_members_iff]
  unfold ChainedTable.removeFirst
  by_cases hb : hash b = hash a
  · have herase : (t (hash a)).eraseP (· = a) = (t (hash a)).erase a := by
      rw [List.erase_eq_eraseP]
      congr 1
      funext c
      rw [Bool.eq_iff_iff, decide_eq_true_eq, beq_iff_eq, eq_comm]
    rw [hb, update_self, herase, (h.nodup _).mem_erase_iff, and_comm]
  · have hne : b ≠ a := fun heq => hb (by rw [heq])
    rw [update_of_ne hb, and_iff_left hne]

end ChainedTable

/-
# Prefetch.Lib.Distinct — a list with later repetitions removed

A program that collects what it has not met before builds `List.eraseDups` of its input. What a filter or
an injection does to a list, it does to the list without repetitions.
-/
import Mathlib.Data.List.Basic
import Mathlib.Data.List.Induction
import Mathlib.Logic.Function.Basic

namespace Distinct

variable {α β : Type*} [BEq α] [LawfulBEq α] [BEq β] [LawfulBEq β]

theorem eraseDups_concat (l : List α) (a : α) :
    (l ++ [a]).eraseDups = if a ∈ l then l.eraseDups else l.eraseDups ++ [a] := by
  rw [List.eraseDups_append]
  by_cases h : a ∈ l
  · simp [List.removeAll, h]
  · simp [List.removeAll, h, List.eraseDups_cons]

theorem eraseDups_of_nodup {l : List α} (h : l.Nodup) : l.eraseDups = l := by
  induction l with
  | nil => rfl
  | cons a l ih =>
      obtain ⟨ha, hl⟩ := List.nodup_cons.mp h
      have hother : l.filter (fun b => !b == a) = l := by
        rw [List.filter_eq_self]
        intro b hb
        simpa using fun heq : b = a => ha (heq ▸ hb)
      rw [List.eraseDups_cons, hother, ih hl]

/-- A part of a list without repetitions is what its items filter out. -/
theorem filter_mem_eq {l part : List α} (h : part.Sublist l) (hl : l.Nodup) :
    l.filter (fun a => decide (a ∈ part)) = part := by
  induction h with
  | slnil => rfl
  | @cons part l a hsub ih =>
      obtain ⟨ha, hl⟩ := List.nodup_cons.mp hl
      rw [List.filter_cons_of_neg (by simpa using fun hmem => ha (hsub.mem hmem)), ih hl]
  | @cons_cons part l a hsub ih =>
      obtain ⟨ha, hl⟩ := List.nodup_cons.mp hl
      rw [List.filter_cons_of_pos (by simp)]
      have hsame : l.filter (fun b => decide (b ∈ a :: part)) = l.filter fun b => decide (b ∈ part) := by
        apply List.filter_congr
        intro b hb
        have hne : b ≠ a := fun heq => ha (heq ▸ hb)
        simp [hne]
      rw [hsame, ih hl]

/-- What a list without repetitions adds: its items that were not there. -/
theorem eraseDups_append_of_sublist {before l new : List α} (hsub : new.Sublist l) (hl : l.Nodup)
    (hnew : ∀ a ∈ l, a ∈ new ↔ a ∉ before) : (before ++ l).eraseDups = before.eraseDups ++ new := by
  have hremove : l.removeAll before = new := by
    rw [← filter_mem_eq hsub hl]
    apply List.filter_congr
    intro a ha
    simp [hnew a ha]
  rw [List.eraseDups_append, hremove, eraseDups_of_nodup (hsub.nodup hl)]

/-- An item is put at the end, unless it is there. -/
def insertNew (l : List α) (a : α) : List α := if a ∈ l then l else l ++ [a]

theorem insertNew_insertNew (l : List α) (a : α) : insertNew (insertNew l a) a = insertNew l a := by
  have hmem : a ∈ insertNew l a := by
    unfold insertNew
    split_ifs with h
    · exact h
    · exact List.mem_append_right l List.mem_cons_self
  exact if_pos hmem

theorem insertNew_eraseDups (l : List α) (a : α) : insertNew l.eraseDups a = (l ++ [a]).eraseDups := by
  rw [eraseDups_concat, insertNew]
  simp only [List.mem_eraseDups]

/-- Collecting the items of a list one by one. -/
theorem foldl_insertNew (before l : List α) :
    l.foldl insertNew before.eraseDups = (before ++ l).eraseDups := by
  induction l generalizing before with
  | nil => rw [List.append_nil, List.foldl_nil]
  | cons a l ih =>
      rw [List.foldl_cons, insertNew_eraseDups, ih, List.append_assoc, List.singleton_append]

theorem filter_eraseDups (p : α → Bool) (l : List α) :
    l.eraseDups.filter p = (l.filter p).eraseDups := by
  induction l using List.reverseRecOn with
  | nil => rfl
  | append_singleton l a ih =>
      rw [eraseDups_concat, List.filter_append]
      by_cases hp : p a = true
      · rw [List.filter_cons_of_pos hp, List.filter_nil, eraseDups_concat, ← ih]
        by_cases ha : a ∈ l
        · rw [if_pos ha, if_pos (List.mem_filter.mpr ⟨ha, hp⟩)]
        · rw [if_neg ha, if_neg fun h => ha (List.mem_filter.mp h).1, List.filter_append,
            List.filter_cons_of_pos hp, List.filter_nil]
      · rw [List.filter_cons_of_neg hp, List.filter_nil, List.append_nil, ← ih]
        by_cases ha : a ∈ l
        · rw [if_pos ha]
        · rw [if_neg ha, List.filter_append, List.filter_cons_of_neg hp, List.filter_nil, List.append_nil]

theorem map_eraseDups {f : α → β} (hf : Function.Injective f) (l : List α) :
    l.eraseDups.map f = (l.map f).eraseDups := by
  induction l using List.reverseRecOn with
  | nil => rfl
  | append_singleton l a ih =>
      rw [eraseDups_concat, List.map_append, List.map_singleton, eraseDups_concat, ← ih]
      by_cases ha : a ∈ l
      · rw [if_pos ha, if_pos (List.mem_map_of_mem ha)]
      · rw [if_neg ha, if_neg fun h => ha ((List.mem_map_of_injective hf).mp h), List.map_append,
          List.map_singleton]

end Distinct

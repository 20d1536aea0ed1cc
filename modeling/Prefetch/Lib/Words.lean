/-
# Prefetch.Lib.Words — lines of a text and words of a line

A text of items, each ended by a separator, falls apart into the items again as long as none of them has
the separator in it (`lines_flatMap`). A word is what is found in a line after white space is skipped, up
to the next white space or a given width; `scanWord_eq_some` says what words there are and
`scanWord_append` that each of them is found behind any white space.
-/
import Mathlib.Data.List.DropRight
import Mathlib.Data.List.TakeWhile
import Mathlib.Tactic.Common

namespace Words

variable {α : Type*}

/-! ## §1 — lines -/

/-- The lines of a text, each ended by `sep`. A last one that is not ended is left out. -/
def lines [DecidableEq α] (sep : α) : List α → List (List α)
  | [] => []
  | c :: cs =>
      if c = sep then [] :: lines sep cs
      else
        match lines sep cs with
        | [] => []
        | l :: ls => (c :: l) :: ls

theorem lines_append [DecidableEq α] {sep : α} {l : List α} (h : sep ∉ l) (rest : List α) :
    lines sep (l ++ sep :: rest) = l :: lines sep rest := by
  induction l with
  | nil => simp [lines]
  | cons c cs ih =>
      rw [List.mem_cons, not_or] at h
      have hne : c ≠ sep := Ne.symm h.1
      simp [lines, hne, ih h.2]

/-- **Items without the separator are the lines of the text they make.** -/
theorem lines_flatMap [DecidableEq α] {sep : α} {ls : List (List α)} (h : ∀ l ∈ ls, sep ∉ l) :
    lines sep (ls.flatMap (· ++ [sep])) = ls := by
  induction ls with
  | nil => rfl
  | cons l ls ih =>
      show lines sep ((l ++ [sep]) ++ ls.flatMap (· ++ [sep])) = l :: ls
      rw [List.append_assoc, List.singleton_append, lines_append (h l List.mem_cons_self),
        ih fun item hitem => h item (List.mem_cons_of_mem l hitem)]

/-! ## §2 — words -/

/-- The first word of a line, empty if there is none. -/
def firstWord (space : α → Bool) (line : List α) : List α :=
  (line.dropWhile space).takeWhile (fun c => !space c)

/-- The first word of a line, cut at `width`; `none` if there is no word. -/
def scanWord (space : α → Bool) (width : ℕ) (line : List α) : Option (List α) :=
  match ((line.dropWhile space).takeWhile (fun c => !space c)).take width with
  | [] => none
  | c :: cs => some (c :: cs)

/-- What can be a word of some line: not empty, no longer than the width, without white space. -/
structure IsWord (space : α → Bool) (width : ℕ) (word : List α) : Prop where
  ne_nil : word ≠ []
  length_le : word.length ≤ width
  not_space : ∀ c ∈ word, space c = false

variable {space : α → Bool} {width : ℕ} {line word : List α}

/-- **What is found is a word**, and its letters come from the line. -/
theorem scanWord_eq_some (h : scanWord space width line = some word) :
    IsWord space width word ∧ word ⊆ line := by
  unfold scanWord at h
  split at h
  · cases h
  · next c cs hcs =>
    cases h
    have hsub : c :: cs ⊆ (line.dropWhile space).takeWhile (fun c => !space c) := by
      rw [← hcs]
      exact List.take_subset _ _
    refine ⟨⟨List.cons_ne_nil c cs, ?_, fun d hd => ?_⟩, ?_⟩
    · rw [← hcs]
      exact List.length_take_le _ _
    · have := List.mem_takeWhile_imp (hsub hd)
      simpa using this
    · intro d hd
      exact List.dropWhile_subset _ (List.takeWhile_subset _ (hsub hd))

theorem length_firstWord_le (space : α → Bool) (line : List α) :
    (firstWord space line).length ≤ line.length :=
  ((List.takeWhile_sublist _).trans (List.dropWhile_sublist _)).length_le

/-- A conversion fails only for want of a word. -/
theorem scanWord_eq_none (hwidth : 0 < width) :
    scanWord space width line = none ↔ firstWord space line = [] := by
  have htake : (firstWord space line).take width = [] ↔ firstWord space line = [] := by
    rw [List.take_eq_nil_iff]
    exact or_iff_right hwidth.ne'
  unfold scanWord
  rw [← htake, firstWord]
  split
  · next hnil => simp [hnil]
  · next c cs hcons => simp [hcons]

/-- It takes the first word up to the width. -/
theorem scanWord_eq_take (hword : firstWord space line ≠ []) (hwidth : 0 < width) :
    scanWord space width line = some ((firstWord space line).take width) := by
  cases hscan : scanWord space width line with
  | none => exact absurd ((scanWord_eq_none hwidth).1 hscan) hword
  | some word =>
      unfold scanWord at hscan
      split at hscan
      · cases hscan
      · next c cs hcons =>
        cases hscan
        rw [firstWord, hcons]

/-- White space skipped before is not looked for again. -/
theorem scanWord_dropWhile : scanWord space width (line.dropWhile space) = scanWord space width line := by
  unfold scanWord
  rw [List.dropWhile_idempotent]

/-- A word ends at the first white space behind it. -/
theorem scanWord_append_space (hword : IsWord space width word) {c : α} (hc : space c = true) (rest : List α) :
    scanWord space width (word ++ c :: rest) = some word := by
  obtain ⟨d, ds, rfl⟩ := List.exists_cons_of_ne_nil hword.ne_nil
  have hd : space d = false := hword.not_space d List.mem_cons_self
  have hdrop : (d :: ds ++ c :: rest).dropWhile space = d :: ds ++ c :: rest :=
    List.dropWhile_cons_of_neg (by simp [hd])
  have htake : (d :: ds ++ c :: rest).takeWhile (fun c => !space c) = d :: ds := by
    rw [List.takeWhile_append_of_pos (fun b hb => by simp [hword.not_space b hb]),
      List.takeWhile_cons_of_neg (by simp [hc]), List.append_nil]
  unfold scanWord
  rw [hdrop, htake, List.take_of_length_le hword.length_le]

/-- **Every word is found**, behind any white space. -/
theorem scanWord_append (hword : IsWord space width word) {blank : List α}
    (hblank : ∀ c ∈ blank, space c = true) : scanWord space width (blank ++ word) = some word := by
  obtain ⟨c, cs, rfl⟩ := List.exists_cons_of_ne_nil hword.ne_nil
  have hc : space c = false := hword.not_space c List.mem_cons_self
  have hdrop : (blank ++ c :: cs).dropWhile space = c :: cs := by
    rw [List.dropWhile_append_of_pos hblank, List.dropWhile_cons_of_neg (by simp [hc])]
  have htake : (c :: cs).takeWhile (fun c => !space c) = c :: cs := by
    rw [List.takeWhile_eq_self_iff]
    intro d hd
    simp [hword.not_space d hd]
  unfold scanWord
  rw [hdrop, htake, List.take_of_length_le hword.length_le]

end Words

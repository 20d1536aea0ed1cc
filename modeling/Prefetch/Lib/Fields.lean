/-
# Prefetch.Lib.Fields — texts made of fields, and decimal numbers in them

A text is cut at separators, empty pieces being dropped; numbers are written as decimal digits. The lemmas
read a text from its front: a word and a separator give a field, a separator alone gives none.
-/
import Mathlib.Data.List.Basic

namespace Fields

variable {α : Type*}

/-! ## §1 — fields -/

/-- The pieces of a text between separators. -/
def fields (isSep : α → Bool) (text : List α) : List (List α) :=
  (text.splitOnP isSep).filter (· ≠ [])

/-- A piece of text without separators, not empty. -/
structure IsWord (isSep : α → Bool) (word : List α) : Prop where
  ne_nil : word ≠ []
  noSep : ∀ c ∈ word, isSep c = false

section Fields

variable {isSep : α → Bool} {word text : List α} {c : α}

@[simp] theorem fields_nil : fields isSep [] = [] := rfl

/-- A word at the end of a text. -/
theorem IsWord.fields_eq (h : IsWord isSep word) : fields isSep word = [word] := by
  unfold fields
  rw [List.splitOnP_eq_singleton h.noSep]
  exact List.filter_cons_of_pos (by simpa using h.ne_nil)

/-- A word and the separator behind it. -/
theorem IsWord.fields_append (h : IsWord isSep word) (hc : isSep c = true) :
    fields isSep (word ++ c :: text) = word :: fields isSep text := by
  unfold fields
  rw [List.splitOnP_append_cons_of_forall_mem h.noSep c hc]
  exact List.filter_cons_of_pos (by simpa using h.ne_nil)

end Fields

/-! ## §2 — decimal numbers -/

theorem isDigit_of_mem {n : ℕ} {c : Char} (h : c ∈ Nat.toDigits 10 n) : c.isDigit = true :=
  Nat.isDigit_of_mem_toDigits (by decide) (Nat.le_refl 10) h

theorem toDigits_ne_nil (n : ℕ) : Nat.toDigits 10 n ≠ [] :=
  List.ne_nil_of_length_pos Nat.length_toDigits_pos

/-- The digits at the front of a text that goes on with something else. -/
theorem takeWhile_isDigit (n : ℕ) {text : List Char} (h : ∀ c ∈ text.head?, c.isDigit = false) :
    (Nat.toDigits 10 n ++ text).takeWhile Char.isDigit = Nat.toDigits 10 n := by
  rw [List.takeWhile_append_of_pos fun c hc => isDigit_of_mem hc]
  cases text with
  | nil => simp
  | cons c text => rw [List.takeWhile_cons_of_neg (by simp [h c rfl]), List.append_nil]

/-- The digits of a number are a word, unless digits separate. -/
theorem isWord_toDigits {isSep : Char → Bool} (h : ∀ c, c.isDigit = true → isSep c = false) (n : ℕ) :
    IsWord isSep (Nat.toDigits 10 n) :=
  ⟨toDigits_ne_nil n, fun _ hc => h _ (isDigit_of_mem hc)⟩

/-- The first digit of a number. -/
theorem exists_toDigits_eq_cons (n : ℕ) : ∃ c digits, Nat.toDigits 10 n = c :: digits ∧ c.isDigit = true := by
  obtain ⟨c, digits, h⟩ := List.exists_cons_of_ne_nil (toDigits_ne_nil n)
  exact ⟨c, digits, h, isDigit_of_mem (h ▸ List.mem_cons_self)⟩

end Fields

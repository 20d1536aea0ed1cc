/-
# Prefetch.Lib.Scan — reading numbers and texts off the front of a line

What the conversions of `fgets` and `sscanf` do with a text: a line of limited length is cut off, white space
is skipped, a number is read up to the first letter that is no digit, a given text has to be there. A number
that was printed is read back, no letter of a text is lost between its lines, and lines that are short enough
are cut off one by one.
-/
import Prefetch.Lib.Fields
import Mathlib.Algebra.Order.Group.Nat
import Mathlib.Data.Int.Notation
import Mathlib.Tactic.Common

namespace Scan

/-! ## §1 — numbers -/

/-- `isspace` -/
def isSpace (c : Char) : Bool := c ∈ [' ', '\t', '\n', '\x0b', '\x0c', '\r']

def skipSpace (text : List Char) : List Char := text.dropWhile isSpace

/-- The digits at the front of a text, and what is behind them. -/
def digits (text : List Char) : Option (ℕ × List Char) :=
  match text.takeWhile Char.isDigit with
  | [] => none
  | ds => some (Nat.ofDigitChars 10 ds 0, text.dropWhile Char.isDigit)

/-- A number with an optional sign, behind white space. -/
def number (text : List Char) : Option (ℤ × List Char) :=
  match skipSpace text with
  | '-' :: text => (digits text).map fun r => (-(r.1 : ℤ), r.2)
  | '+' :: text => (digits text).map fun r => ((r.1 : ℤ), r.2)
  | text => (digits text).map fun r => ((r.1 : ℤ), r.2)

/-- A text that is nothing but a number. -/
def wholeNumber (text : List Char) : Option ℤ :=
  match number text with
  | some (z, []) => some z
  | _ => none

/-- A given text. -/
def literal (word text : List Char) : Option (List Char) := text.dropPrefix? word

/-- How `printf` prints a number. -/
def printInt : ℤ → List Char
  | .ofNat n => Nat.toDigits 10 n
  | .negSucc n => '-' :: Nat.toDigits 10 (n + 1)

/-- A text that goes on with something else than a digit. -/
def NoDigit (text : List Char) : Prop := ∀ c ∈ text.head?, c.isDigit = false

/-- The text of a number is a word, unless digits or the sign separate. -/
theorem isWord_printInt {isSep : Char → Bool} (hdigit : ∀ c, c.isDigit = true → isSep c = false)
    (hminus : isSep '-' = false) (z : ℤ) : Fields.IsWord isSep (printInt z) := by
  cases z with
  | ofNat n => exact Fields.isWord_toDigits hdigit n
  | negSucc n =>
      refine ⟨List.cons_ne_nil _ _, fun c hc => ?_⟩
      rcases List.mem_cons.mp hc with rfl | hc
      · exact hminus
      · exact hdigit c (Fields.isDigit_of_mem hc)

theorem isSpace_of_isDigit {c : Char} (h : c.isDigit = true) : isSpace c = false := by
  by_contra hspace
  have hmem : c ∈ [' ', '\t', '\n', '\x0b', '\x0c', '\r'] := of_decide_eq_true (Bool.not_eq_false _ ▸ hspace)
  simp only [List.mem_cons, List.not_mem_nil, or_false] at hmem
  rcases hmem with rfl | rfl | rfl | rfl | rfl | rfl <;> exact absurd h (by decide)

theorem digits_toDigits (n : ℕ) {rest : List Char} (h : NoDigit rest) :
    digits (Nat.toDigits 10 n ++ rest) = some (n, rest) := by
  have htake := Fields.takeWhile_isDigit n h
  have hdrop : (Nat.toDigits 10 n ++ rest).dropWhile Char.isDigit = rest := by
    have hsplit := List.takeWhile_append_dropWhile (p := Char.isDigit) (l := Nat.toDigits 10 n ++ rest)
    rw [htake] at hsplit
    exact List.append_cancel_left hsplit
  unfold digits
  rw [htake, hdrop]
  obtain ⟨c, ds, hcons, -⟩ := Fields.exists_toDigits_eq_cons n
  rw [hcons]
  show some (Nat.ofDigitChars 10 (c :: ds) 0, rest) = _
  rw [← hcons, Nat.ofDigitChars_ten_toDigits]

/-- **A printed number is read back**, behind any white space. -/
theorem number_printInt (z : ℤ) {blank rest : List Char} (hblank : ∀ c ∈ blank, isSpace c = true)
    (h : NoDigit rest) : number (blank ++ (printInt z ++ rest)) = some (z, rest) := by
  unfold number skipSpace
  rw [List.dropWhile_append_of_pos hblank]
  cases z with
  | ofNat n =>
      have hread := digits_toDigits n h
      obtain ⟨c, ds, hcons, hc⟩ := Fields.exists_toDigits_eq_cons n
      have hprint : printInt (.ofNat n) = Nat.toDigits 10 n := rfl
      rw [hprint]
      rw [hcons, List.cons_append] at hread ⊢
      rw [List.dropWhile_cons_of_neg (by rw [isSpace_of_isDigit hc]; exact Bool.false_ne_true)]
      split
      next heq =>
        obtain ⟨rfl, -⟩ := List.cons_eq_cons.mp heq
        exact absurd hc (by decide)
      next heq =>
        obtain ⟨rfl, -⟩ := List.cons_eq_cons.mp heq
        exact absurd hc (by decide)
      next => rw [hread, Option.map_some]; rfl
  | negSucc n =>
      have hread := digits_toDigits (n + 1) h
      show (digits (Nat.toDigits 10 (n + 1) ++ rest)).map _ = _
      rw [hread, Option.map_some]
      rfl

/-- With nothing behind it. -/
theorem number_printInt_end (z : ℤ) : number (printInt z) = some (z, []) := by
  have hblank : ∀ c ∈ ([] : List Char), isSpace c = true := fun c hc => absurd hc List.not_mem_nil
  have hend : NoDigit [] := fun c hc => absurd hc (Option.not_mem_none c)
  have hread := number_printInt z hblank hend
  rwa [List.append_nil, List.nil_append] at hread

/-- A printed number is all of its text. -/
theorem wholeNumber_printInt (z : ℤ) : wholeNumber (printInt z) = some z := by
  unfold wholeNumber
  rw [number_printInt_end]

/-- A given text is found. -/
theorem literal_append (word rest : List Char) : literal word (word ++ rest) = some rest :=
  List.dropPrefix?_append_of_beq rest (by simp)

/-! ## §2 — lines -/

/-- What `fgets` reads with room for so many letters, and what is behind it. -/
def fgets : ℕ → List Char → List Char × List Char
  | 0, text => ([], text)
  | _ + 1, [] => ([], [])
  | n + 1, c :: text =>
      if c = '\n' then ([c], text) else (c :: (fgets n text).1, (fgets n text).2)

/-- The lines `fgets` reads into a buffer, one after the other, `n` of them at most. -/
def linebufs (size : ℕ) : ℕ → List Char → List (List Char)
  | 0, _ => []
  | _ + 1, [] => []
  | n + 1, c :: text => (fgets (size - 1) (c :: text)).1 :: linebufs size n (fgets (size - 1) (c :: text)).2

theorem append_fgets (n : ℕ) (text : List Char) : (fgets n text).1 ++ (fgets n text).2 = text := by
  induction n generalizing text with
  | zero => rfl
  | succ n ih =>
      cases text with
      | nil => rfl
      | cons c text =>
          rw [fgets]
          split_ifs
          · rfl
          · exact congrArg (List.cons c) (ih text)

theorem fgets_ne_nil (n : ℕ) (c : Char) (text : List Char) : (fgets (n + 1) (c :: text)).1 ≠ [] := by
  rw [fgets]
  split_ifs
  · exact List.cons_ne_nil _ _
  · exact List.cons_ne_nil _ _

/-- As many calls as the text has letters read all of it. -/
theorem flatten_linebufs {size n : ℕ} {text : List Char} (hsize : 1 < size) (h : text.length ≤ n) :
    (linebufs size n text).flatten = text := by
  obtain ⟨room, rfl⟩ := Nat.exists_eq_add_of_le' hsize
  induction n generalizing text with
  | zero => exact (List.length_eq_zero_iff.mp (Nat.le_zero.mp h)).symm
  | succ n ih =>
      cases text with
      | nil => rfl
      | cons c text =>
          have happend := append_fgets (room + 1) (c :: text)
          have hpos := List.length_pos_iff.mpr (fgets_ne_nil room c text)
          have hlength := congrArg List.length happend
          rw [List.length_append] at hlength
          have hrest : (linebufs (room + 2) n (fgets (room + 1) (c :: text)).2).flatten
              = (fgets (room + 1) (c :: text)).2 := ih (by omega)
          exact (congrArg ((fgets (room + 1) (c :: text)).1 ++ ·) hrest).trans happend

/-- A line of the text that has room in the buffer. -/
theorem fgets_append {n : ℕ} {body : List Char} (hbody : '\n' ∉ body) (hlen : body.length < n) (text : List Char) :
    fgets n (body ++ '\n' :: text) = (body ++ ['\n'], text) := by
  induction body generalizing n with
  | nil =>
      obtain ⟨n, rfl⟩ := Nat.exists_eq_succ_of_ne_zero hlen.ne'
      show fgets (n + 1) ('\n' :: text) = _
      rw [fgets, if_pos rfl]
      rfl
  | cons c body ih =>
      rw [List.length_cons] at hlen
      obtain ⟨n, rfl⟩ := Nat.exists_eq_succ_of_ne_zero (Nat.ne_zero_of_lt hlen)
      have hc : c ≠ '\n' := fun heq => hbody (heq ▸ List.mem_cons_self)
      have hrest := ih (fun hmem => hbody (List.mem_cons_of_mem c hmem)) (Nat.lt_of_succ_lt_succ hlen)
      show fgets (n + 1) (c :: (body ++ '\n' :: text)) = _
      rw [fgets, if_neg hc, hrest]
      rfl

theorem length_le_flatMap_lines {α : Type*} (items : List α) (body : α → List Char) :
    items.length ≤ (items.flatMap fun a => body a ++ ['\n']).length := by
  induction items with
  | nil => exact Nat.le_refl _
  | cons a items ih =>
      rw [List.flatMap_cons, List.length_append, List.length_append, List.length_singleton, List.length_cons]
      omega

/-- **Lines that have room in the buffer are read one by one.** -/
theorem linebufs_flatMap {α : Type*} {size n : ℕ} {items : List α} {body : α → List Char}
    (hlines : ∀ a ∈ items, '\n' ∉ body a ∧ (body a).length + 1 < size) (hn : items.length ≤ n) :
    linebufs size n (items.flatMap fun a => body a ++ ['\n']) = items.map fun a => body a ++ ['\n'] := by
  induction items generalizing n with
  | nil => cases n <;> rfl
  | cons a items ih =>
      obtain ⟨n, rfl⟩ := Nat.exists_eq_succ_of_ne_zero (Nat.ne_zero_of_lt (Nat.lt_of_lt_of_le (Nat.succ_pos _) hn))
      obtain ⟨hbody, hlen⟩ := hlines a List.mem_cons_self
      have hline := fgets_append (n := size - 1) hbody (by omega)
        (items.flatMap fun a => body a ++ ['\n'])
      have hrest := ih (fun b hb => hlines b (List.mem_cons_of_mem a hb)) (Nat.le_of_succ_le_succ hn)
      rw [List.flatMap_cons, List.append_assoc, List.singleton_append, List.map_cons]
      obtain ⟨c, text, htext⟩ : ∃ c text,
          body a ++ '\n' :: items.flatMap (fun a => body a ++ ['\n']) = c :: text :=
        List.exists_cons_of_ne_nil (List.append_ne_nil_of_right_ne_nil _ (List.cons_ne_nil _ _))
      rw [htext] at hline ⊢
      rw [linebufs, hline, hrest]

end Scan

/-
# Prefetch.Trace.NumberText — the numbers and lines the tools write, read back

The tools hand numbers to each other as decimal text in lines of fields. What is written with `str` is read
back by `int`, a line by `split`, and a text of lines by `readlines`; in particular a layout as
`split-prefetch-trace.py` writes it.
-/
import Prefetch.Trace.SplitTrace

namespace Prefetch.SplitTrace

open Fields (IsWord)
open Compare (Line)

/-! ## §1 — numbers -/

/-- **A number is read back from its text.** -/
theorem int_str (z : ℤ) : int (str z) = some z := Scan.wholeNumber_printInt z

/-- The text of a number is a field. -/
theorem isField_str (z : ℤ) : IsWord Compare.space (str z) :=
  Scan.isWord_printInt (fun _ => Scan.isSpace_of_isDigit) rfl z

/-! ## §2 — lines -/

/-- No newline is in it. -/
def OneLine (body : List Char) : Prop := '\n' ∉ body

/-- A line is read up to its newline. -/
theorem readlines_append {body : List Char} (h : OneLine body) (text : List Char) :
    readlines (body ++ '\n' :: text) = (body ++ ['\n']) :: readlines text := by
  induction body with
  | nil => rfl
  | cons c body ih =>
      have hc : c ≠ '\n' := fun heq => h (heq ▸ List.mem_cons_self)
      have hbody := ih fun hmem => h (List.mem_cons_of_mem c hmem)
      show readlines (c :: (body ++ '\n' :: text)) = _
      rw [readlines, if_neg hc, hbody]
      rfl

/-- A text of lines is read line by line. -/
theorem readlines_flatMap {α : Type*} (items : List α) (body : α → List Char)
    (h : ∀ a ∈ items, OneLine (body a)) :
    readlines (items.flatMap fun a => body a ++ ['\n']) = items.map fun a => body a ++ ['\n'] := by
  induction items with
  | nil => rfl
  | cons a items ih =>
      rw [List.flatMap_cons, List.append_assoc, List.map_cons, List.singleton_append,
        readlines_append (h a List.mem_cons_self), ih fun a' ha' => h a' (List.mem_cons_of_mem a ha')]

theorem oneLine_of_isWord {word : List Char} (h : IsWord Compare.space word) : OneLine word :=
  fun hmem => Bool.noConfusion ((h.noSep _ hmem).symm.trans (by decide : Compare.space '\n' = true))

/-! ## §3 — the lines of a layout -/

/-- A line of a layout without its newline. -/
def LayoutLine.body (e : LayoutLine) : List Char :=
  str e.inode ++ ' ' :: (str e.start ++ ' ' :: str e.length)

theorem LayoutLine.format_eq (e : LayoutLine) : e.format = e.body ++ ['\n'] := by
  unfold format body
  simp only [List.append_assoc, List.cons_append, List.nil_append]

theorem LayoutLine.oneLine_body (e : LayoutLine) : OneLine e.body := by
  have hstr := fun z => oneLine_of_isWord (isField_str z)
  unfold body OneLine
  simp only [List.mem_append, List.mem_cons, not_or]
  exact ⟨hstr _, by decide, hstr _, by decide, hstr _⟩

/-- The fields of a line of a layout. -/
theorem LayoutLine.split_format (e : LayoutLine) :
    split e.format = [str e.inode, str e.start, str e.length] := by
  have hspace : Compare.space ' ' = true := by decide
  have hnewline : Compare.space '\n' = true := by decide
  rw [split, format_eq, body, List.append_assoc, List.cons_append, List.append_assoc,
    List.cons_append, (isField_str _).fields_append hspace, (isField_str _).fields_append hspace,
    (isField_str _).fields_append hnewline, Fields.fields_nil]

/-- The lines of a layout. -/
theorem readlines_layoutText (chunk : List LayoutLine) :
    readlines (layoutText chunk) = chunk.map LayoutLine.format := by
  have htext : layoutText chunk = chunk.flatMap fun e => e.body ++ ['\n'] :=
    List.flatMap_congr fun e _ => e.format_eq
  rw [htext, readlines_flatMap chunk LayoutLine.body fun e _ => e.oneLine_body]
  exact List.map_congr_left fun e _ => e.format_eq.symm

end Prefetch.SplitTrace

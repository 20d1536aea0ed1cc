/-
# Prefetch.Lib.Glob — the shell's patterns for file names

In a pattern `?` stands for any character and `*` for any number of them; the other characters stand for
themselves. A path is matched component by component, and a name that begins with a dot only by a pattern
that does. Brackets and quoting are left out.
-/
import Mathlib.Data.List.Infix
import Mathlib.Tactic.Common

namespace Glob

variable {pattern name : List Char} {p : Char}

/-! ## §1 — one component -/

/-- A pattern matches a name, whatever the name begins with. -/
def fnmatch : List Char → List Char → Bool
  | [], name => name.isEmpty
  | p :: pattern, name =>
      if p = '*' then name.tails.any (fnmatch pattern)
      else (name.head?.any fun c => p = '?' || p = c) && fnmatch pattern name.tail

theorem fnmatch_nil : fnmatch [] name = true ↔ name = [] := by
  rw [fnmatch, List.isEmpty_iff]

theorem fnmatch_star :
    fnmatch ('*' :: pattern) name = true ↔
      ∃ skipped rest, name = skipped ++ rest ∧ fnmatch pattern rest = true := by
  rw [fnmatch, if_pos rfl, List.any_eq_true]
  constructor
  · rintro ⟨rest, hmem, hrest⟩
    obtain ⟨skipped, hname⟩ := (List.mem_tails _ _).1 hmem
    exact ⟨skipped, rest, hname.symm, hrest⟩
  · rintro ⟨skipped, rest, hname, hrest⟩
    exact ⟨rest, (List.mem_tails _ _).2 ⟨skipped, hname.symm⟩, hrest⟩

theorem fnmatch_cons (hp : p ≠ '*') :
    fnmatch (p :: pattern) name = true ↔
      ∃ c rest, name = c :: rest ∧ (p = '?' ∨ p = c) ∧ fnmatch pattern rest = true := by
  rw [fnmatch, if_neg hp]
  cases name with
  | nil => simp
  | cons c name => simp

/-- Question marks match as many characters. -/
theorem fnmatch_any (n : ℕ) : fnmatch (List.replicate n '?') name = true ↔ name.length = n := by
  induction n generalizing name with
  | zero => exact fnmatch_nil.trans List.length_eq_zero_iff.symm
  | succ n ih =>
      rw [List.replicate_succ, fnmatch_cons (by decide)]
      constructor
      · rintro ⟨c, rest, rfl, -, hrest⟩
        rw [List.length_cons, ih.1 hrest]
      · intro hlen
        obtain ⟨c, rest, rfl⟩ := List.exists_cons_of_length_eq_add_one hlen
        exact ⟨c, rest, rfl, .inl rfl, ih.2 (Nat.succ_injective hlen)⟩

/-- A name for a pattern: a leading dot has to be matched by a dot. -/
def matchesName (pattern name : List Char) : Bool :=
  fnmatch pattern name && (name.head? != some '.' || pattern.head? == some '.')

theorem matchesName_of_ne_dot (hdot : name.head? ≠ some '.') :
    matchesName pattern name = fnmatch pattern name := by
  simp [matchesName, hdot]

/-! ## §2 — paths -/

/-- A path for a pattern, component by component. -/
def matchesPath (pattern path : List Char) : Bool :=
  let patterns := pattern.splitOn '/'
  let names := path.splitOn '/'
  patterns.length == names.length && (patterns.zip names).all fun c => matchesName c.1 c.2

/-- **In a directory without special characters, a path is matched if its last component is.** -/
theorem matchesPath_directory {directory : List Char}
    (hdirectory : matchesPath directory directory = true) (hpattern : '/' ∉ pattern)
    (hname : '/' ∉ name) :
    matchesPath (directory ++ '/' :: pattern) (directory ++ '/' :: name) = matchesName pattern name := by
  unfold matchesPath at hdirectory ⊢
  simp only [List.splitOn_append_cons_self, List.splitOn_eq_singleton hpattern,
    List.splitOn_eq_singleton hname, List.length_append, List.length_singleton, beq_self_eq_true,
    Bool.true_and] at hdirectory ⊢
  rw [List.zip_append rfl, List.all_append, hdirectory]
  simp

end Glob

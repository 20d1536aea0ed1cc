/-
# Prefetch.Lib.LinePattern — matching a line against a pattern without alternatives

A pattern is a sequence of repetitions of a class of letters, each with bounds and the group it belongs
to. `search` finds it at the beginning of a line, each repetition as long as it can be with the rest still
found, as a backtracking matcher does.
-/
import Mathlib.Data.List.Basic

namespace LinePattern

variable {α : Type*}

/-- Between `atLeast` and `atMost` letters of a class; group 0 is not captured. -/
structure Rep (α : Type*) where
  isIn : α → Bool
  atLeast : ℕ
  atMost : Option ℕ := none
  group : ℕ := 0

/-- One letter. -/
def lit [DecidableEq α] (c : α) (group : ℕ := 0) : Rep α := ⟨(· = c), 1, some 1, group⟩

/-- The letters of a text. -/
def lits [DecidableEq α] (text : List α) : List (Rep α) := text.map (lit ·)

/-- At most one letter, which may be missing. -/
def optional [DecidableEq α] (c : α) (group : ℕ) : Rep α := ⟨(· = c), 0, some 1, group⟩

/-- Any number of letters of a class. -/
def star (isIn : α → Bool) (group : ℕ := 0) : Rep α := ⟨isIn, 0, none, group⟩

/-- At least one letter of a class. -/
def plus (isIn : α → Bool) (group : ℕ := 0) : Rep α := ⟨isIn, 1, none, group⟩

/-- How many letters a repetition takes at most from a line. -/
def Rep.longest (rep : Rep α) (line : List α) : ℕ :=
  let letters := (line.takeWhile rep.isIn).length
  match rep.atMost with
  | none => letters
  | some n => min n letters

/-- What each repetition takes, with its group, if the line begins with the pattern. -/
def search : List (Rep α) → List α → Option (List (ℕ × List α))
  | [], _ => some []
  | rep :: reps, line =>
      let lengths := (List.range' rep.atLeast (rep.longest line + 1 - rep.atLeast)).reverse
      lengths.findSome? fun n =>
        (search reps (line.drop n)).map fun taken => (rep.group, line.take n) :: taken

/-- What a group captured. -/
def group (k : ℕ) (found : List (ℕ × List α)) : List α :=
  (found.filter (·.1 = k)).flatMap (·.2)

end LinePattern

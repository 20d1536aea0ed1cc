/-
# Prefetch.App.TraceFilename — the names of application traces (`prefetch_app.c`, `prefetch.init`)

A trace is named after the program's base name, cut short, and the CRC of its path in hexadecimal digits.
The init script takes the names whose last dash is followed by eight characters for application traces,
but `%x` prints no leading zeros: `collected_iff` says which programs this leaves out.

`crc32_le` is a function of the kernel; what follows holds for any function in its place.
-/
import Prefetch.Lib.Glob
import Mathlib.Algebra.GroupWithZero.Nat
import Mathlib.Data.List.TakeWhile

namespace Prefetch.App

open Glob

/-! ## §1 — `create_trace_filename` -/

/-- `short_name_len` -/
def defaultShortNameLen : ℕ := 10

/-- What `kasprintf` makes of `DEFAULT_APP_TRACE_FILENAME_TEMPLATE`. -/
def defaultFilenameTemplate (fileName : List Char) : List Char := "/.prefetch/".toList ++ fileName

/-- What comes behind the last slash. -/
def lastComponent (filename : List Char) : List Char :=
  (filename.reverse.takeWhile (· ≠ '/')).reverse

/-- The conversion `%x`. -/
def hexDigits (hash : BitVec 32) : List Char := Nat.toDigits 16 hash.toNat

/-- Which allocations succeed. -/
structure NameMemory where
  basename : Bool := true
  fileName : Bool := true
  shortName : Bool := true

/-- The base name, cut at `shortNameLen` characters. -/
def shortBasename (shortNameLen : ℕ) (filename : List Char) : List Char :=
  (lastComponent filename).take shortNameLen

/-- `create_trace_filename` with the template `filenameTemplate`. -/
def createTraceFilename (crc32Le : List Char → BitVec 32) (shortNameLen : ℕ)
    (filenameTemplate : List Char → List Char) (memory : NameMemory) (filename : List Char) :
    Option (List Char) :=
  let hash := crc32Le filename
  if '/' ∉ filename then none
  else if ¬ memory.basename then none
  else
    let basename := shortBasename shortNameLen filename
    if ¬ memory.fileName then none
    else
      let fileName := basename ++ '-' :: hexDigits hash
      if ¬ memory.shortName then none else some (filenameTemplate fileName)

/-- `prepare_disk_layouts` goes over the names that match this. -/
def appTracePattern : List Char := "/.prefetch/*-????????".toList

/-! ## §2 — the digits -/

theorem slash_notMem_hexDigits (n : ℕ) : '/' ∉ Nat.toDigits 16 n := by
  induction n using Nat.strongRecOn with
  | ind n ih =>
      have hdigit : ∀ d < 16, '/' ≠ d.digitChar := by decide
      rw [Nat.toDigits_eq_if (by decide)]
      split_ifs with hlt
      · rw [List.mem_singleton]
        exact hdigit n hlt
      · rw [List.mem_append, List.mem_singleton, not_or]
        exact ⟨ih (n / 16) (by omega), hdigit (n % 16) (by omega)⟩

theorem length_hexDigits_le (hash : BitVec 32) : (hexDigits hash).length ≤ 8 :=
  (Nat.length_toDigits_le_iff (by decide) (by decide)).2 hash.isLt

/-- Eight digits are printed for the hashes that have no leading zero. -/
theorem length_hexDigits_eq (hash : BitVec 32) :
    (hexDigits hash).length = 8 ↔ 2 ^ 28 ≤ hash.toNat := by
  have hshort : (hexDigits hash).length ≤ 7 ↔ hash.toNat < 16 ^ 7 :=
    Nat.length_toDigits_le_iff (by decide) (by decide)
  have hle := length_hexDigits_le hash
  omega

/-! ## §3 — the pattern -/

/-- Names in the directory of the pattern. -/
theorem matchesPath_prefetch {name : List Char} (hslash : '/' ∉ name) :
    matchesPath appTracePattern ("/.prefetch/".toList ++ name) =
      matchesName "*-????????".toList name := by
  have hdirectory : matchesPath "/.prefetch".toList "/.prefetch".toList = true := by decide
  have hpattern : appTracePattern = "/.prefetch".toList ++ '/' :: "*-????????".toList := by decide
  have hpath : "/.prefetch/".toList ++ name = "/.prefetch".toList ++ '/' :: name := by
    have hslashed : "/.prefetch/".toList = "/.prefetch".toList ++ ['/'] := by decide
    rw [hslashed, List.append_assoc, List.singleton_append]
  rw [hpattern, hpath]
  exact matchesPath_directory hdirectory (by decide) hslash

/-- The last part of the pattern asks for a dash in front of the last eight characters. -/
theorem fnmatch_dash {name : List Char} :
    fnmatch "*-????????".toList name = true ↔ name.reverse[8]? = some '-' := by
  have hpattern : "*-????????".toList = '*' :: '-' :: List.replicate 8 '?' := by decide
  rw [hpattern, fnmatch_star]
  constructor
  · rintro ⟨skipped, rest, rfl, hrest⟩
    obtain ⟨c, digits, rfl, hc, hdigits⟩ := (fnmatch_cons (by decide)).1 hrest
    obtain rfl : '-' = c := hc.resolve_left (by decide)
    have hlen : digits.reverse.length = 8 := digits.length_reverse.trans ((fnmatch_any 8).1 hdigits)
    rw [List.reverse_append, List.reverse_cons, List.append_assoc, ← hlen,
      List.getElem?_append_right le_rfl, Nat.sub_self]
    rfl
  · intro hdash
    obtain ⟨hlt, hget⟩ := List.getElem?_eq_some_iff.1 hdash
    have hsplit := List.take_append_drop 8 name.reverse
    rw [List.drop_eq_getElem_cons hlt, hget] at hsplit
    refine ⟨(name.reverse.drop 9).reverse, '-' :: (name.reverse.take 8).reverse, ?_, ?_⟩
    · have hname := congrArg List.reverse hsplit
      simpa using hname.symm
    · refine (fnmatch_cons (by decide)).2 ⟨'-', _, rfl, .inr rfl, (fnmatch_any 8).2 ?_⟩
      rw [List.length_reverse, List.length_take]
      omega

/-- The dash the pattern asks for is the one in front of eight digits, or one in the base name. -/
def HashFits (basename : List Char) (hash : BitVec 32) : Prop :=
  2 ^ 28 ≤ hash.toNat ∨ basename.reverse[7 - (hexDigits hash).length]? = some '-'

theorem dash_iff (basename : List Char) (hash : BitVec 32) :
    (basename ++ '-' :: hexDigits hash).reverse[8]? = some '-' ↔ HashFits basename hash := by
  have hle := length_hexDigits_le hash
  unfold HashFits
  rw [← length_hexDigits_eq, List.reverse_append, List.reverse_cons, List.append_assoc,
    List.singleton_append, List.getElem?_append_right (by simpa using hle), List.length_reverse]
  rcases hle.lt_or_eq with hlt | heq
  · have hindex : 8 - (hexDigits hash).length = 7 - (hexDigits hash).length + 1 := by omega
    rw [hindex, List.getElem?_cons_succ]
    exact (or_iff_right hlt.ne).symm
  · rw [heq]
    exact iff_of_true rfl (.inl rfl)

/-! ## §4 — the traces collected -/

theorem slash_notMem_lastComponent (filename : List Char) : '/' ∉ lastComponent filename := by
  intro hmem
  have htaken := List.mem_takeWhile_imp (List.mem_reverse.1 hmem)
  simp at htaken

/-- What is built when there is a slash and memory for the three strings. -/
theorem createTraceFilename_eq_some {crc32Le : List Char → BitVec 32} {shortNameLen : ℕ}
    {filenameTemplate : List Char → List Char} {memory : NameMemory} {filename name : List Char} :
    createTraceFilename crc32Le shortNameLen filenameTemplate memory filename = some name ↔
      ('/' ∈ filename ∧ memory.basename = true ∧ memory.fileName = true ∧ memory.shortName = true) ∧
        filenameTemplate (shortBasename shortNameLen filename ++ '-' :: hexDigits (crc32Le filename)) =
          name := by
  unfold createTraceFilename
  dsimp only
  split_ifs <;> simp_all

/-- **The trace of a program is collected if and only if its CRC has eight hexadecimal digits, or the cut base
name has a dash so far from its end as digits are missing.** -/
theorem collected_iff (crc32Le : List Char → BitVec 32) (shortNameLen : ℕ) {memory : NameMemory}
    {filename name : List Char} (hdot : (lastComponent filename).head? ≠ some '.')
    (hname : createTraceFilename crc32Le shortNameLen defaultFilenameTemplate memory filename = some name) :
    matchesPath appTracePattern name = true ↔
      HashFits (shortBasename shortNameLen filename) (crc32Le filename) := by
  obtain ⟨-, rfl⟩ := createTraceFilename_eq_some.1 hname
  -- the name is in the directory of the pattern
  have hslash : '/' ∉ shortBasename shortNameLen filename ++ '-' :: hexDigits (crc32Le filename) := by
    rw [List.mem_append, List.mem_cons, not_or, not_or]
    refine ⟨?_, by decide, slash_notMem_hexDigits _⟩
    intro hmem
    exact slash_notMem_lastComponent filename (List.mem_of_mem_take hmem)
  have hlast : (shortBasename shortNameLen filename ++ '-' :: hexDigits (crc32Le filename)).head? ≠
      some '.' := by
    unfold shortBasename
    cases shortNameLen with
    | zero => simp
    | succ n =>
        cases hbase : lastComponent filename with
        | nil => simp
        | cons c base =>
            rw [hbase] at hdot
            simpa using hdot
  have hpath : matchesPath appTracePattern (defaultFilenameTemplate
      (shortBasename shortNameLen filename ++ '-' :: hexDigits (crc32Le filename))) =
        matchesName "*-????????".toList
          (shortBasename shortNameLen filename ++ '-' :: hexDigits (crc32Le filename)) :=
    matchesPath_prefetch hslash
  rw [hpath, matchesName_of_ne_dot hlast, fnmatch_dash, dash_iff]

/-- `crc32_le` from a zero seed, bit by bit. -/
def crc32Le (p : List Char) : BitVec 32 :=
  p.foldl (fun crc c =>
    (List.range 8).foldl (fun crc _ => crc >>> 1 ^^^ if crc.getLsbD 0 then 0xEDB88320 else 0)
      (crc ^^^ BitVec.ofNat 32 c.toNat)) 0

theorem crc32Le_sh : crc32Le "/bin/sh".toList = 0x4778b0aa := by decide +kernel

theorem crc32Le_ls : crc32Le "/bin/ls".toList = 0x4777d8 := by decide +kernel

/-- The trace of a shell, `sh-4778b0aa`. -/
theorem collected_iff_sample :
    matchesPath appTracePattern "/.prefetch/sh-4778b0aa".toList = true := by
  have hname : createTraceFilename crc32Le defaultShortNameLen defaultFilenameTemplate {} "/bin/sh".toList =
      some "/.prefetch/sh-4778b0aa".toList := by
    refine createTraceFilename_eq_some.2 ⟨by decide, ?_⟩
    rw [crc32Le_sh]
    decide
  refine (collected_iff crc32Le defaultShortNameLen (by decide) hname).2 (.inl ?_)
  rw [crc32Le_sh]
  decide

/-- The trace of `ls` is `ls-4777d8`: two leading zeros are missing. -/
theorem ls_not_collected :
    createTraceFilename crc32Le defaultShortNameLen defaultFilenameTemplate {} "/bin/ls".toList =
        some "/.prefetch/ls-4777d8".toList ∧
      matchesPath appTracePattern "/.prefetch/ls-4777d8".toList = false := by
  refine ⟨createTraceFilename_eq_some.2 ⟨by decide, ?_⟩, by decide⟩
  rw [crc32Le_ls]
  decide

end Prefetch.App

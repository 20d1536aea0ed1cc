/-
# Prefetch.App.ProcNames — the names `add app-list` and `add app-blacklist` read (`prefetch_app.c`)

Either command reads a word into a buffer of 513 bytes. The conversion of `add app-list` has the width 512,
that of `add app-blacklist` has none, so only words that are longer tell the two apart:
`addedAlike_iff`. The command buffer has room for such words.
-/
import Prefetch.App.FileList

namespace Prefetch.App.ProcNames

open ChainedTable Words Prefetch.Core

variable {M : Machine} {ι : Type*} {config : Config}

/-! ## §1 — the two conversions -/

def addListCommand (x : List Char) : List Char := "add app-list ".toList ++ x

def addBlacklistCommand (x : List Char) : List Char := "add app-blacklist ".toList ++ x

theorem length_addListCommand (x : List Char) : (addListCommand x).length = 13 + x.length := by
  unfold addListCommand
  rw [List.length_append]
  rfl

theorem length_addBlacklistCommand (x : List Char) :
    (addBlacklistCommand x).length = 18 + x.length := by
  unfold addBlacklistCommand
  rw [List.length_append]
  rfl

/-- `sscanf(name, "add app-list %512s", s)`, the name being the command less its newline. -/
def listWord (command : List Char) : Option (List Char) :=
  (scanFormat kernelCtype "add app-list ".toList (cString (stripNewline command))).bind
    (scanWord kernelCtype.isspace prefetchPathMax)

/-- `sscanf(name, "add app-blacklist %s", s)` -/
def blacklistWord (command : List Char) : Option (List Char) :=
  let name := cString (stripNewline command)
  (scanFormat kernelCtype "add app-blacklist ".toList name).bind
    (scanWord kernelCtype.isspace name.length)

/-- What `sscanf` writes for a conversion: the word and the NUL behind it. -/
def charsWritten (word : Option (List Char)) : ℕ := (word.map (·.length + 1)).getD 0

/-- The first word behind a command. -/
def firstWordOf (x : List Char) : List Char := firstWord kernelCtype.isspace (cString (stripNewline x))

theorem listWord_command (x : List Char) :
    listWord (addListCommand x) =
      scanWord kernelCtype.isspace prefetchPathMax (cString (stripNewline x)) := by
  unfold listWord addListCommand
  rw [cString_command (by decide) (by decide), scanFormat_add, Option.bind_some, scanWord_dropWhile]

theorem scanFormat_addBlacklist (str : List Char) :
    scanFormat kernelCtype "add app-blacklist ".toList ("add app-blacklist ".toList ++ str) =
      some (str.dropWhile kernelCtype.isspace) := by
  simp [scanFormat, kernelCtype]

/-- With the width, the word is cut. -/
theorem listWord_eq (x : List Char) :
    listWord (addListCommand x) =
      if firstWordOf x = [] then none else some ((firstWordOf x).take prefetchPathMax) := by
  have hwidth : 0 < prefetchPathMax := by decide
  rw [listWord_command]
  split_ifs with hword
  · exact (scanWord_eq_none hwidth).2 hword
  · exact scanWord_eq_take hword hwidth

theorem blacklistWord_command (x : List Char) :
    blacklistWord (addBlacklistCommand x) =
      scanWord kernelCtype.isspace ("add app-blacklist ".toList ++ cString (stripNewline x)).length
        (cString (stripNewline x)) := by
  have hname : cString (stripNewline (addBlacklistCommand x)) =
      "add app-blacklist ".toList ++ cString (stripNewline x) :=
    cString_command (by decide) (by decide) x
  unfold blacklistWord
  rw [hname]
  simp only [scanFormat_addBlacklist, Option.bind_some, scanWord_dropWhile]

/-- Without a width, the whole of it is read. -/
theorem blacklistWord_eq (x : List Char) :
    blacklistWord (addBlacklistCommand x) =
      if firstWordOf x = [] then none else some (firstWordOf x) := by
  have hwidth : 0 < ("add app-blacklist ".toList ++ cString (stripNewline x)).length := by
    rw [List.length_append]
    exact Nat.add_pos_left (by decide) _
  have hlength : (firstWordOf x).length ≤
      ("add app-blacklist ".toList ++ cString (stripNewline x)).length := by
    rw [List.length_append]
    exact le_add_left (length_firstWord_le _ _)
  rw [blacklistWord_command]
  split_ifs with hword
  · exact (scanWord_eq_none hwidth).2 hword
  · rw [scanWord_eq_take hword hwidth]
    exact congrArg some (List.take_of_length_le hlength)

/-! ## §2 — the two commands -/

/-- A command for the blacklist comes to `sscanf`, if it is not too long and can be copied. It has an outcome
unless more is written than the buffer holds. -/
theorem appPrefetchProcWrite_blacklist (memory : CommandMemory) (s : AppProc M ι config) {x : List Char}
    (hlen : (addBlacklistCommand x).length < pathMax) (hname : memory.name = true) :
    appPrefetchProcWrite kernelCtype memory s (addBlacklistCommand x) =
      if ¬ memory.path then some (-ENOMEM, s)
      else
        match blacklistWord (addBlacklistCommand x) with
        | none => some (-EINVAL, s)
        | some word =>
            if prefetchPathMax < word.length then none
            else
              let added :=
                addFilenameToListUnique (String.ofList word) memory.entry s.app.prefetchAppsBlacklist
              some (if added.1 ≠ 0 then added.1 else (addBlacklistCommand x).length,
                { s with app := { s.app with prefetchAppsBlacklist := added.2 } }) := by
  have hcommand : cString (stripNewline (addBlacklistCommand x)) =
      "add app-blacklist ".toList ++ cString (stripNewline x) :=
    cString_command (by decide) (by decide) x
  unfold blacklistWord
  rw [hcommand]
  generalize cString (stripNewline x) = str at hcommand
  -- the commands tested before this one begin otherwise, or are shorter
  have hother : ∀ p : String, p.toList.head? ≠ some 'a' →
      paramMatch ("add app-blacklist ".toList ++ str) p = false := by
    intro p hp
    apply decide_eq_false
    intro heq
    apply hp
    rw [← heq]
    rfl
  have htimeout : paramMatchPrefix ("add app-blacklist ".toList ++ str) "set tracing timeout" =
      false := by simp [paramMatchPrefix, List.isPrefixOf]
  have hlist : paramMatchPrefix ("add app-blacklist ".toList ++ str) "add app-list" = false := by
    simp [paramMatchPrefix, List.isPrefixOf]
  have hadd : paramMatchPrefix ("add app-blacklist ".toList ++ str) "add app-blacklist" = true := by
    simp [paramMatchPrefix]
  unfold appPrefetchProcWrite
  simp only [hcommand]
  rw [if_neg (not_le.mpr hlen), if_neg (not_not.mpr hname), hother "prefetch enable" (by decide),
    hother "prefetch disable" (by decide), hother "enable" (by decide),
    hother "disable" (by decide), htimeout, hother "clear app-list" (by decide), hlist,
    hother "clear app-blacklist" (by decide), hadd]
  iterate 8 rw [if_neg Bool.false_ne_true]
  exact if_pos rfl

/-- A command for the list, likewise. -/
theorem appPrefetchProcWrite_addList (memory : CommandMemory) (s : AppProc M ι config) {x : List Char}
    (hlen : (addListCommand x).length < pathMax) (hname : memory.name = true) :
    appPrefetchProcWrite kernelCtype memory s (addListCommand x) =
      if ¬ memory.path then some (-ENOMEM, s)
      else
        match listWord (addListCommand x) with
        | none => some (-EINVAL, s)
        | some word =>
            let added := addFilenameToListUnique (String.ofList word) memory.entry s.app.prefetchAppsList
            some (if added.1 ≠ 0 then added.1 else (addListCommand x).length,
              { s with app := { s.app with prefetchAppsList := added.2 } }) := by
  rw [listWord_command]
  exact appPrefetchProcWrite_list s hlen hname

/-- A table after a word was read for it, or none. -/
def inserted (memory : CommandMemory) (word : Option (List Char)) (list : FilenameTable config) :
    FilenameTable config :=
  match word with
  | none => list
  | some word =>
      if memory.name ∧ memory.path then
        (addFilenameToListUnique (String.ofList word) memory.entry list).2
      else list

/-- The commands with the name `x` read the same word, write no more of it than the buffer holds, accept or
refuse it alike, and do the same to their tables. -/
structure AddedAlike (s : AppProc M ι config) (x : List Char) : Prop where
  sameWord : listWord (addListCommand x) = blacklistWord (addBlacklistCommand x)
  list_written : charsWritten (listWord (addListCommand x)) ≤ prefetchPathMax + 1
  blacklist_written : charsWritten (blacklistWord (addBlacklistCommand x)) ≤ prefetchPathMax + 1
  outcomes : ∀ memory : CommandMemory, ∃ list blacklist,
    appPrefetchProcWrite kernelCtype memory s (addListCommand x) = some list ∧
    appPrefetchProcWrite kernelCtype memory s (addBlacklistCommand x) = some blacklist ∧
    (list.1 = -EINVAL ↔ blacklist.1 = -EINVAL) ∧
    list.2.app.prefetchAppsList =
      inserted memory (listWord (addListCommand x)) s.app.prefetchAppsList ∧
    blacklist.2.app.prefetchAppsBlacklist =
      inserted memory (blacklistWord (addBlacklistCommand x)) s.app.prefetchAppsBlacklist

/-! ## §3 — words the buffer holds -/

theorem charsWritten_list (x : List Char) :
    charsWritten (listWord (addListCommand x)) ≤ prefetchPathMax + 1 := by
  rw [listWord_eq]
  split_ifs
  · exact Nat.zero_le _
  · show ((firstWordOf x).take prefetchPathMax).length + 1 ≤ prefetchPathMax + 1
    exact Nat.add_le_add_right (List.length_take_le _ _) 1

/-- The command for the blacklist writes the whole word. -/
theorem charsWritten_blacklist (x : List Char) :
    charsWritten (blacklistWord (addBlacklistCommand x)) ≤ prefetchPathMax + 1 ↔
      (firstWordOf x).length ≤ prefetchPathMax := by
  rw [blacklistWord_eq]
  split_ifs with hword
  · simp [hword, charsWritten]
  · exact Nat.add_le_add_iff_right

theorem listWord_eq_blacklistWord {x : List Char} (h : (firstWordOf x).length ≤ prefetchPathMax) :
    listWord (addListCommand x) = blacklistWord (addBlacklistCommand x) := by
  rw [listWord_eq, blacklistWord_eq, List.take_of_length_le h]

theorem appPrefetchProcWrite_noCopy {memory : CommandMemory} (s : AppProc M ι config)
    {buffer : List Char} (hlen : buffer.length < pathMax) (hname : ¬ memory.name = true) :
    appPrefetchProcWrite kernelCtype memory s buffer = some (-ENOMEM, s) := by
  unfold appPrefetchProcWrite
  rw [if_neg (not_le.2 hlen), if_pos hname]

/-- What a name that has been added gives back is not `-EINVAL`. -/
theorem added_ne_EINVAL (filename : String) (memory : Bool) (list : FilenameTable config) (count : ℕ) :
    (if (addFilenameToListUnique filename memory list).1 ≠ 0 then
        (addFilenameToListUnique filename memory list).1 else (count : ℤ)) ≠ -EINVAL := by
  unfold addFilenameToListUnique EINVAL ENOMEM
  split_ifs <;> omega

/-- **Both commands come to an end and do the same.** -/
theorem outcomes_of_short (memory : CommandMemory) (s : AppProc M ι config) {x : List Char}
    (hlen : (addBlacklistCommand x).length < pathMax)
    (hword : (firstWordOf x).length ≤ prefetchPathMax) : ∃ list blacklist,
    appPrefetchProcWrite kernelCtype memory s (addListCommand x) = some list ∧
    appPrefetchProcWrite kernelCtype memory s (addBlacklistCommand x) = some blacklist ∧
    (list.1 = -EINVAL ↔ blacklist.1 = -EINVAL) ∧
    list.2.app.prefetchAppsList =
      inserted memory (listWord (addListCommand x)) s.app.prefetchAppsList ∧
    blacklist.2.app.prefetchAppsBlacklist =
      inserted memory (blacklistWord (addBlacklistCommand x)) s.app.prefetchAppsBlacklist := by
  have hlist : (addListCommand x).length < pathMax := by
    rw [length_addBlacklistCommand] at hlen
    rw [length_addListCommand]
    omega
  by_cases hname : memory.name = true
  swap
  -- no memory for the copy of the command
  · have hsame : ∀ word (list : FilenameTable config), inserted memory word list = list := by
      intro word list
      cases word <;> simp [inserted, hname]
    refine ⟨(-ENOMEM, s), (-ENOMEM, s), ?_, ?_, Iff.rfl, (hsame _ _).symm, (hsame _ _).symm⟩
    · exact appPrefetchProcWrite_noCopy s hlist hname
    · exact appPrefetchProcWrite_noCopy s hlen hname
  rw [appPrefetchProcWrite_addList memory s hlist hname,
    appPrefetchProcWrite_blacklist memory s hlen hname, listWord_eq_blacklistWord hword]
  by_cases hpath : memory.path = true
  swap
  · have hsame : ∀ word (list : FilenameTable config), inserted memory word list = list := by
      intro word list
      cases word <;> simp [inserted, hpath]
    rw [if_pos hpath, if_pos hpath]
    exact ⟨_, _, rfl, rfl, Iff.rfl, (hsame _ _).symm, (hsame _ _).symm⟩
  rw [if_neg (not_not.2 hpath), if_neg (not_not.2 hpath), blacklistWord_eq]
  by_cases hempty : firstWordOf x = []
  · rw [if_pos hempty]
    exact ⟨_, _, rfl, rfl, Iff.rfl, rfl, rfl⟩
  · rw [if_neg hempty]
    refine ⟨_, _, rfl, if_neg (not_lt.2 hword), ?_, ?_, ?_⟩
    · exact iff_of_false (added_ne_EINVAL _ _ _ _) (added_ne_EINVAL _ _ _ _)
    · exact (if_pos ⟨hname, hpath⟩).symm
    · exact (if_pos ⟨hname, hpath⟩).symm

/-- **The two commands with a name accept it alike, insert the same string and stay within their buffer, if
and only if the first word of the name has no more than 512 characters.** -/
theorem addedAlike_iff (s : AppProc M ι config) {x : List Char}
    (hlen : (addBlacklistCommand x).length < pathMax) :
    AddedAlike s x ↔ (firstWordOf x).length ≤ prefetchPathMax := by
  constructor
  · intro halike
    exact (charsWritten_blacklist x).1 halike.blacklist_written
  · intro hword
    exact ⟨listWord_eq_blacklistWord hword, charsWritten_list x, (charsWritten_blacklist x).2 hword,
      fun memory => outcomes_of_short memory s hlen hword⟩

/-- The module with its tables empty. -/
def smallProc : AppProc .bits32 Unit smallConfig := { app := smallBoot }

/-- A name followed by another word. -/
theorem addedAlike_iff_sample : AddedAlike smallProc "/usr/bin/gimp --help\n".toList :=
  (addedAlike_iff smallProc (by decide)).2 (by decide)

/-- A name of letters is its own first word. -/
theorem firstWordOf_letters (n : ℕ) : firstWordOf (List.replicate n 'a') = List.replicate n 'a' := by
  have hstrip : stripNewline (List.replicate n 'a') = List.replicate n 'a' := by
    unfold stripNewline
    rw [if_neg]
    simp [List.getLast?_replicate]
  have hnul : '\x00' ∉ List.replicate n 'a' := by simp
  rw [firstWordOf, hstrip, cString_eq_self hnul, firstWord, List.dropWhile_replicate,
    if_neg (by decide), List.takeWhile_replicate, if_pos (by decide)]

/-- A name of 513 letters: `add app-list` cuts it, `add app-blacklist` writes 514 characters. -/
theorem long_name_overruns :
    (addBlacklistCommand (List.replicate 513 'a')).length < pathMax ∧
      ¬ AddedAlike smallProc (List.replicate 513 'a') := by
  constructor
  · rw [length_addBlacklistCommand, List.length_replicate]
    decide
  · intro halike
    have hfits := (charsWritten_blacklist _).1 halike.blacklist_written
    rw [firstWordOf_letters, List.length_replicate] at hfits
    exact absurd hfits (by decide)

end Prefetch.App.ProcNames

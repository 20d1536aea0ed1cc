/-
# Prefetch.App.FileList — the list of traced applications across a reboot (`prefetch_app.c`, `prefetch.init`)

When the system goes down, the init script copies the names `seq_print_filename_list` prints, one a line,
into a file; when it comes up again, `load_filelist` makes every line a command and writes it to
`/proc/prefetch/app`. There the command is a C string and the name what `sscanf` takes for a word, while an
exec puts a name on the list without asking for a word.

The characters of a name stand for the bytes of a C string. A line is fed back as it stands.
-/
import Prefetch.App.JobTable
import Prefetch.Lib.Words

namespace Prefetch.App

open Function ChainedTable Words Runs Prefetch.Core

/-! ## §1 — C strings -/

/-- White space of the kernel's `ctype.h`, with what the commands below rely on. -/
structure Ctype where
  isspace : Char → Bool
  isspace_space : isspace ' ' = true
  isspace_newline : isspace '\n' = true
  isspace_command : ∀ c ∈ ['a', 'd', 'p', '-', 'l', 'i', 's', 't'], isspace c = false

/-- The C string at the start of a buffer. -/
def cString (buffer : List Char) : List Char := buffer.takeWhile (· ≠ '\x00')

/-- `param_match` -/
def paramMatch (line : List Char) (paramName : String) : Bool := line = paramName.toList

/-- `param_match_prefix` -/
def paramMatchPrefix (line : List Char) (paramName : String) : Bool :=
  paramName.toList.isPrefixOf line

/-- `sscanf` up to the conversion: white space of the format stands for any white space, anything else for
itself. What is left of the string is converted. -/
def scanFormat (ctype : Ctype) : List Char → List Char → Option (List Char)
  | [], str => some str
  | f :: format, str =>
      if ctype.isspace f then scanFormat ctype format (str.dropWhile ctype.isspace)
      else
        match str with
        | [] => none
        | c :: cs => if c = f then scanFormat ctype format cs else none

/-- The conversion `%d`, less the wrap to an int. -/
def scanDecimal (ctype : Ctype) (str : List Char) : Option ℤ :=
  let value : List Char → Option ℤ := fun str =>
    match str.takeWhile Char.isDigit with
    | [] => none
    | ds => some (ds.foldl (fun n d => 10 * n + (d.toNat - '0'.toNat : ℕ)) 0)
  match str.dropWhile ctype.isspace with
  | '-' :: rest => (value rest).map (fun v => -v)
  | rest => value rest

/-! ## §2 — commands -/

def ENAMETOOLONG : ℤ := 36

/-- `PATH_MAX` and `PREFETCH_PATH_MAX` -/
def pathMax : ℕ := 4096
def prefetchPathMax : ℕ := 512

variable {M : Machine} {ι : Type*} {config config' : Config}

/-- The module with the parameters only commands change. -/
structure AppProc (M : Machine) (ι : Type*) (config : Config) where
  app : AppState M ι config
  prefetchEnabled : Bool := true
  tracingTimeout : BitVec 32 := 10

/-- Which allocations of a command succeed: the copy of the command, the name read from it and the entry. -/
structure CommandMemory where
  name : Bool := true
  path : Bool := true
  entry : Bool := true
  deriving DecidableEq, Repr

/-- All of them do. -/
def CommandMemory.Available (memory : CommandMemory) : Prop :=
  memory.name = true ∧ memory.path = true ∧ memory.entry = true

instance (memory : CommandMemory) : Decidable memory.Available := by
  unfold CommandMemory.Available
  infer_instance

/-- `add_filename_to_list_unique` -/
def addFilenameToListUnique (filename : String) (memory : Bool) (list : FilenameTable config) :
    ℤ × FilenameTable config :=
  if filenameOnList filename list then (0, list)
  else (if memory then 0 else -ENOMEM, addFilenameToList filename memory list)

/-- The optional newline stripped off a command. -/
def stripNewline (buffer : List Char) : List Char :=
  if buffer.getLast? = some '\n' then buffer.dropLast else buffer

/-- `app_prefetch_proc_write`: what it returns and the module after it. `sscanf` of a blacklist name has no
width; a name of more than 512 characters overruns the 513 bytes it is read into and has no outcome
here. -/
def appPrefetchProcWrite (ctype : Ctype) (memory : CommandMemory) (s : AppProc M ι config)
    (buffer : List Char) : Option (ℤ × AppProc M ι config) :=
  let count := buffer.length
  if pathMax ≤ count then some (-ENAMETOOLONG, s)
  else if ¬ memory.name then some (-ENOMEM, s)
  else
    let name := cString (stripNewline buffer)
    if paramMatch name "prefetch enable" then some (count, { s with prefetchEnabled := true })
    else if paramMatch name "prefetch disable" then some (count, { s with prefetchEnabled := false })
    else if paramMatch name "enable" then some (count, { s with app := { s.app with enabled := true } })
    else if paramMatch name "disable" then
      some (count, { s with app := { s.app with enabled := false } })
    else if paramMatchPrefix name "set tracing timeout" then
      match (scanFormat ctype "set tracing timeout ".toList name).bind (scanDecimal ctype) with
      | none => some (-EINVAL, s)
      | some v =>
          let tmp := BitVec.ofInt 32 v
          if tmp.toInt ≤ 0 then some (-EINVAL, s) else some (count, { s with tracingTimeout := tmp })
    else if paramMatch name "clear app-list" then
      some (count, { s with app := { s.app with prefetchAppsList := empty } })
    else if paramMatchPrefix name "add app-list" then
      if ¬ memory.path then some (-ENOMEM, s)
      else
        match (scanFormat ctype "add app-list ".toList name).bind
            (scanWord ctype.isspace prefetchPathMax) with
        | none => some (-EINVAL, s)
        | some word =>
            let added := addFilenameToListUnique (String.ofList word) memory.entry s.app.prefetchAppsList
            some (if added.1 ≠ 0 then added.1 else count,
              { s with app := { s.app with prefetchAppsList := added.2 } })
    else if paramMatch name "clear app-blacklist" then
      some (count, { s with app := { s.app with prefetchAppsBlacklist := empty } })
    else if paramMatchPrefix name "add app-blacklist" then
      if ¬ memory.path then some (-ENOMEM, s)
      else
        match (scanFormat ctype "add app-blacklist ".toList name).bind
            (scanWord ctype.isspace name.length) with
        | none => some (-EINVAL, s)
        | some word =>
            if prefetchPathMax < word.length then none
            else
              let added :=
                addFilenameToListUnique (String.ofList word) memory.entry s.app.prefetchAppsBlacklist
              some (if added.1 ≠ 0 then added.1 else count,
                { s with app := { s.app with prefetchAppsBlacklist := added.2 } })
    else some (count, s)

/-! ## §3 — saving and restoring the list -/

/-- The names `seq_print_filename_list` prints, in its order. -/
def printedNames (list : FilenameTable config) : List String :=
  (List.finRange config.filenameHashtableSize).flatMap list

/-- `seq_print_filename_list` -/
def seqPrintFilenameList (list : FilenameTable config) : List Char :=
  (printedNames list).flatMap (fun filename => cString filename.toList ++ ['\n'])

/-- `load_filelist`: a command for each line of the file, `memory i` for the `i`-th. The script goes on
where a command fails. -/
def loadFilelist (ctype : Ctype) (memory : ℕ → CommandMemory) (command : String) :
    ℕ → List (List Char) → AppProc M ι config → Option (AppProc M ι config)
  | _, [], s => some s
  | i, line :: lines, s =>
      match appPrefetchProcWrite ctype (memory i) s
          ("add ".toList ++ command.toList ++ [' '] ++ line ++ ['\n']) with
      | none => none
      | some (_, s) => loadFilelist ctype memory command (i + 1) lines s

/-! ## §4 — one command -/

variable {ctype : Ctype} {memory : CommandMemory}

/-- The names on a list. -/
def namesOn (list : FilenameTable config) : Set String := {filename | ∃ i, filename ∈ list i}

theorem filenameOnList_mem {filename : String} {list : FilenameTable config}
    (h : filenameOnList filename list = true) : filename ∈ namesOn list := by
  obtain ⟨found, hfound⟩ := Option.isSome_iff_exists.mp h
  obtain ⟨hmem, heq⟩ := mem_of_findFirst hfound
  have hname : found = filename := by simpa using heq
  exact ⟨_, hname ▸ hmem⟩

/-- An added name is on the list, if there was memory, and nothing else changes. -/
theorem namesOn_addFilenameToListUnique (filename : String) (memory : Bool)
    (list : FilenameTable config) :
    namesOn (addFilenameToListUnique filename memory list).2 =
      namesOn list ∪ {other | memory = true ∧ filename = other} := by
  unfold addFilenameToListUnique
  apply Set.ext
  intro other
  by_cases hon : filenameOnList filename list = true
  · rw [if_pos hon]
    refine ⟨Or.inl, ?_⟩
    rintro (hmem | ⟨-, rfl⟩)
    · exact hmem
    · exact filenameOnList_mem hon
  · rw [if_neg hon]
    cases memory with
    | false => simp [addFilenameToList]
    | true =>
        show (∃ i, other ∈ addHead list _ filename i) ↔ (∃ i, other ∈ list i) ∨ _
        simp only [mem_addHead, exists_or, exists_and_right, exists_eq, true_and]
        rw [or_comm, eq_comm]
        rfl

/-- The name a line adds to the list. -/
def addedName (ctype : Ctype) (memory : CommandMemory) (line : List Char) : Option String :=
  if line.length + 14 < pathMax ∧ memory.Available then
    (scanWord ctype.isspace prefetchPathMax (cString line)).map String.ofList
  else none

/-- The format leaves the line to the conversion. -/
theorem scanFormat_add (str : List Char) :
    scanFormat ctype "add app-list ".toList ("add app-list ".toList ++ str) =
      some (str.dropWhile ctype.isspace) := by
  have hletters := ctype.isspace_command
  simp only [List.forall_mem_cons, List.not_mem_nil, false_imp_iff, implies_true, and_true] at hletters
  simp [scanFormat, ctype.isspace_space, hletters]

/-- A command as the module has it once the newline is stripped off. -/
theorem cString_command {command : String} (hnul : '\x00' ∉ command.toList)
    (hnewline : command.toList.getLast? ≠ some '\n') (x : List Char) :
    cString (stripNewline (command.toList ++ x)) = command.toList ++ cString (stripNewline x) := by
  have hstrip : stripNewline (command.toList ++ x) = command.toList ++ stripNewline x := by
    unfold stripNewline
    cases x using List.reverseRecOn with
    | nil => simp [hnewline]
    | append_singleton xs c =>
        rw [← List.append_assoc, List.getLast?_concat, List.getLast?_concat]
        split_ifs <;> simp
  rw [hstrip]
  unfold cString
  rw [List.takeWhile_append_of_pos]
  intro c hc
  have hne : c ≠ '\x00' := fun heq => hnul (heq ▸ hc)
  simpa using hne

/-- A command for the list comes to `sscanf`, if it is not too long and can be copied. -/
theorem appPrefetchProcWrite_list (s : AppProc M ι config) {x : List Char}
    (hlen : ("add app-list ".toList ++ x).length < pathMax) (hname : memory.name = true) :
    appPrefetchProcWrite ctype memory s ("add app-list ".toList ++ x) =
      if ¬ memory.path then some (-ENOMEM, s)
      else
        match scanWord ctype.isspace prefetchPathMax (cString (stripNewline x)) with
        | none => some (-EINVAL, s)
        | some word =>
            let added := addFilenameToListUnique (String.ofList word) memory.entry s.app.prefetchAppsList
            some (if added.1 ≠ 0 then added.1 else ("add app-list ".toList ++ x).length,
              { s with app := { s.app with prefetchAppsList := added.2 } }) := by
  have hcommand : cString (stripNewline ("add app-list ".toList ++ x)) =
      "add app-list ".toList ++ cString (stripNewline x) :=
    cString_command (by decide) (by decide) x
  generalize cString (stripNewline x) = str at hcommand
  -- the commands tested before this one begin otherwise
  have hother : ∀ p : String, p.toList.head? ≠ some 'a' →
      paramMatch ("add app-list ".toList ++ str) p = false := by
    intro p hp
    apply decide_eq_false
    intro heq
    apply hp
    rw [← heq]
    rfl
  have htimeout : paramMatchPrefix ("add app-list ".toList ++ str) "set tracing timeout" =
      false := by simp [paramMatchPrefix, List.isPrefixOf]
  have hadd : paramMatchPrefix ("add app-list ".toList ++ str) "add app-list" = true := by
    simp [paramMatchPrefix]
  unfold appPrefetchProcWrite
  simp only [hcommand]
  rw [if_neg (not_le.mpr hlen), if_neg (not_not.mpr hname), hother "prefetch enable" (by decide),
    hother "prefetch disable" (by decide), hother "enable" (by decide),
    hother "disable" (by decide), htimeout, hother "clear app-list" (by decide), hadd]
  simp only [Bool.false_eq_true, if_false, if_true, scanFormat_add, Option.bind_some,
    scanWord_dropWhile]

/-- A line of the file is such a command. -/
theorem appPrefetchProcWrite_scan (s : AppProc M ι config) {line : List Char}
    (hlen : line.length + 14 < pathMax) (hname : memory.name = true) :
    appPrefetchProcWrite ctype memory s
        ("add ".toList ++ "app-list".toList ++ [' '] ++ line ++ ['\n']) =
      if ¬ memory.path then some (-ENOMEM, s)
      else
        match scanWord ctype.isspace prefetchPathMax (cString line) with
        | none => some (-EINVAL, s)
        | some word =>
            let added := addFilenameToListUnique (String.ofList word) memory.entry s.app.prefetchAppsList
            some (if added.1 ≠ 0 then added.1 else (line.length + 14 : ℕ),
              { s with app := { s.app with prefetchAppsList := added.2 } }) := by
  have hcommand : "add ".toList ++ "app-list".toList ++ [' '] ++ line ++ ['\n'] =
      "add app-list ".toList ++ (line ++ ['\n']) := by simp
  have hcount : ("add app-list ".toList ++ (line ++ ['\n'])).length = line.length + 14 := by simp
  have hline : stripNewline (line ++ ['\n']) = line := by
    unfold stripNewline
    rw [List.getLast?_concat, if_pos rfl, List.dropLast_concat]
  rw [hcommand, appPrefetchProcWrite_list s (hcount.trans_lt hlen) hname, hline, hcount]

/-- **What a command for the list does.** It always returns, and the name it reads is on the list. -/
theorem appPrefetchProcWrite_add (ctype : Ctype) (memory : CommandMemory) (s : AppProc M ι config)
    (line : List Char) :
    ∃ ret s', appPrefetchProcWrite ctype memory s
        ("add ".toList ++ "app-list".toList ++ [' '] ++ line ++ ['\n']) = some (ret, s') ∧
      namesOn s'.app.prefetchAppsList =
        namesOn s.app.prefetchAppsList ∪ {filename | addedName ctype memory line = some filename} := by
  have hnothing : addedName ctype memory line = none →
      namesOn s.app.prefetchAppsList = namesOn s.app.prefetchAppsList ∪
        {filename | addedName ctype memory line = some filename} := by
    intro hnone
    simp [hnone]
  by_cases hlen : line.length + 14 < pathMax
  swap
  · have hlong : pathMax ≤
        ("add ".toList ++ "app-list".toList ++ [' '] ++ line ++ ['\n']).length := by
      simpa using hlen
    exact ⟨-ENAMETOOLONG, s, if_pos hlong, hnothing (if_neg fun h => hlen h.1)⟩
  by_cases hname : memory.name = true
  swap
  · refine ⟨-ENOMEM, s, ?_, hnothing (if_neg fun h => hname h.2.1)⟩
    have hshort : ¬ pathMax ≤
        ("add ".toList ++ "app-list".toList ++ [' '] ++ line ++ ['\n']).length := by
      simpa using hlen
    exact (if_neg hshort).trans (if_pos hname)
  rw [appPrefetchProcWrite_scan s hlen hname]
  by_cases hpath : memory.path = true
  swap
  · exact ⟨-ENOMEM, s, if_pos hpath, hnothing (if_neg fun h => hpath h.2.2.1)⟩
  rw [if_neg (not_not.mpr hpath)]
  have hadded : addedName ctype memory line =
      if memory.entry = true then
        (scanWord ctype.isspace prefetchPathMax (cString line)).map String.ofList
      else none := by
    unfold addedName CommandMemory.Available
    simp [hlen, hname, hpath]
  -- the command gets to `sscanf`
  cases hscan : scanWord ctype.isspace prefetchPathMax (cString line) with
  | none =>
      have hnone : addedName ctype memory line = none := by
        rw [hadded, hscan]
        simp
      exact ⟨-EINVAL, s, rfl, hnothing hnone⟩
  | some word =>
      refine ⟨_, _, rfl, ?_⟩
      simp only [namesOn_addFilenameToListUnique, hadded, hscan, Option.map_some]
      cases memory.entry <;> simp

/-! ## §5 — the whole list -/

/-- What a command can put on the list. -/
structure Restorable (ctype : Ctype) (filename : String) : Prop where
  word : IsWord ctype.isspace prefetchPathMax filename.toList
  terminated : '\x00' ∉ filename.toList

theorem cString_eq_self {str : List Char} (h : '\x00' ∉ str) : cString str = str := by
  unfold cString
  rw [List.takeWhile_eq_self_iff]
  intro c hc
  have hne : c ≠ '\x00' := fun heq => h (heq ▸ hc)
  simpa using hne

/-- **Every name a line adds is a word.** -/
theorem restorable_of_addedName {line : List Char} {filename : String}
    (h : addedName ctype memory line = some filename) :
    Restorable ctype filename ∧ memory.Available := by
  unfold addedName at h
  split at h
  · next hfits =>
    obtain ⟨word, hscan, rfl⟩ := Option.map_eq_some_iff.mp h
    obtain ⟨hword, hsub⟩ := scanWord_eq_some hscan
    refine ⟨⟨?_, ?_⟩, hfits.2⟩
    · rwa [String.toList_ofList]
    · rw [String.toList_ofList]
      intro hnul
      have hmem := List.mem_takeWhile_imp (hsub hnul)
      simp at hmem
  · cases h

/-- **A word that is a line adds itself.** -/
theorem addedName_of_restorable {filename : String} (h : Restorable ctype filename) :
    addedName ctype memory filename.toList = if memory.Available then some filename else none := by
  have hlen := h.word.length_le
  have hfits : filename.toList.length + 14 < pathMax := by
    unfold prefetchPathMax at hlen
    unfold pathMax
    omega
  have hscan : scanWord ctype.isspace prefetchPathMax ([] ++ filename.toList) = _ :=
    scanWord_append h.word nofun
  unfold addedName
  rw [cString_eq_self h.terminated]
  rw [List.nil_append] at hscan
  simp [hfits, hscan]

/-- The list after a file is fed to it: each line adds its name. -/
theorem loadFilelist_names (ctype : Ctype) (memory : ℕ → CommandMemory) (lines : List (List Char)) (i : ℕ)
    (s : AppProc M ι config) :
    ∃ s', loadFilelist ctype memory "app-list" i lines s = some s' ∧
      namesOn s'.app.prefetchAppsList = namesOn s.app.prefetchAppsList ∪
        {filename | ∃ p ∈ lines.zipIdx i, addedName ctype (memory p.2) p.1 = some filename} := by
  induction lines generalizing i s with
  | nil => exact ⟨s, rfl, by simp⟩
  | cons line lines ih =>
      obtain ⟨ret, s₁, hwrite, hnames⟩ := appPrefetchProcWrite_add ctype (memory i) s line
      obtain ⟨s', hload, hrest⟩ := ih (i + 1) s₁
      refine ⟨s', ?_, ?_⟩
      · rw [loadFilelist, hwrite]
        exact hload
      · rw [hrest, hnames, Set.union_assoc]
        congr 1
        apply Set.ext
        intro filename
        simp [List.zipIdx_cons, or_and_right, exists_or]

/-- The list is printed as it is at shutdown and fed to the module as it is after booting: the same
names are on it. -/
def Restores (ctype : Ctype) (memory : ℕ → CommandMemory) (list : FilenameTable config)
    (s : AppProc M ι config') : Prop :=
  ∃ s', loadFilelist ctype memory "app-list" 0 (lines '\n' (seqPrintFilenameList list)) s = some s' ∧
    namesOn s'.app.prefetchAppsList = namesOn list

theorem mem_printedNames {list : FilenameTable config} {filename : String} :
    filename ∈ printedNames list ↔ filename ∈ namesOn list := by
  simp [printedNames, namesOn]

/-- Names that are words are printed as one line each. -/
theorem lines_seqPrintFilenameList {list : FilenameTable config}
    (h : ∀ filename ∈ namesOn list, Restorable ctype filename) :
    lines '\n' (seqPrintFilenameList list) = (printedNames list).map String.toList := by
  have hwords : ∀ filename ∈ printedNames list, Restorable ctype filename := fun filename hmem =>
    h filename (mem_printedNames.mp hmem)
  have hprint : seqPrintFilenameList list =
      ((printedNames list).map String.toList).flatMap (· ++ ['\n']) := by
    unfold seqPrintFilenameList
    rw [List.flatMap_map]
    apply List.flatMap_congr
    intro filename hmem
    rw [cString_eq_self (hwords filename hmem).terminated]
  rw [hprint]
  apply lines_flatMap
  intro line hline hnewline
  obtain ⟨filename, hmem, rfl⟩ := List.mem_map.mp hline
  have hspace := (hwords filename hmem).word.not_space '\n' hnewline
  rw [ctype.isspace_newline] at hspace
  cases hspace

/-- The names the lines of a list add, if each of them is a word. -/
theorem added_iff {list : FilenameTable config}
    (h : ∀ filename ∈ namesOn list, Restorable ctype filename) (memory : ℕ → CommandMemory)
    (filename : String) :
    (∃ p ∈ (lines '\n' (seqPrintFilenameList list)).zipIdx,
        addedName ctype (memory p.2) p.1 = some filename) ↔
      ∃ i, (printedNames list)[i]? = some filename ∧ (memory i).Available := by
  have hword : ∀ {i other}, (printedNames list)[i]? = some other → Restorable ctype other :=
    fun hi => h _ (mem_printedNames.mp (List.mem_of_getElem? hi))
  rw [lines_seqPrintFilenameList h]
  constructor
  -- line `i` is the `i`-th name that was printed
  · rintro ⟨⟨line, i⟩, hmem, hadded⟩
    rw [List.mem_zipIdx_iff_getElem?, List.getElem?_map, Option.map_eq_some_iff] at hmem
    obtain ⟨other, hi, rfl⟩ := hmem
    rw [addedName_of_restorable (hword hi)] at hadded
    split at hadded
    · next havailable =>
      cases hadded
      exact ⟨i, hi, havailable⟩
    · cases hadded
  · rintro ⟨i, hi, havailable⟩
    refine ⟨(filename.toList, i), ?_, ?_⟩
    · rw [List.mem_zipIdx_iff_getElem?, List.getElem?_map, hi]
      rfl
    · rw [addedName_of_restorable (hword hi), if_pos havailable]

/-- The lines fed to an empty list add the names that are on it afterwards. -/
theorem restores_iff_added (ctype : Ctype) (memory : ℕ → CommandMemory) (list : FilenameTable config)
    {s : AppProc M ι config'} (hempty : s.app.prefetchAppsList = empty) :
    Restores ctype memory list s ↔ ∀ filename,
      (∃ p ∈ (lines '\n' (seqPrintFilenameList list)).zipIdx,
        addedName ctype (memory p.2) p.1 = some filename) ↔ filename ∈ namesOn list := by
  obtain ⟨s', hload, hnames⟩ :=
    loadFilelist_names ctype memory (lines '\n' (seqPrintFilenameList list)) 0 s
  have hnone : namesOn s.app.prefetchAppsList = ∅ := by
    rw [hempty]
    simp [namesOn, empty]
  rw [hnone, Set.empty_union] at hnames
  constructor
  · rintro ⟨s'', hload', hsame⟩ filename
    rw [hload] at hload'
    cases hload'
    rw [← hsame, hnames]
    rfl
  · intro hadded
    exact ⟨s', hload, hnames.trans (Set.ext hadded)⟩

/-- A list that is restored has nothing but words on it. -/
theorem restorable_of_restores {ctype : Ctype} {memory : ℕ → CommandMemory}
    {list : FilenameTable config} {s : AppProc M ι config'} (hempty : s.app.prefetchAppsList = empty)
    (h : Restores ctype memory list s) : ∀ filename ∈ namesOn list, Restorable ctype filename := by
  intro filename hmem
  -- what is on the list again was added by some line
  obtain ⟨p, -, hp⟩ := ((restores_iff_added ctype memory list hempty).mp h filename).mpr hmem
  exact (restorable_of_addedName hp).1

/-- **When the list is restored**: exactly if every name on it is a word and there is memory for the
command of one of its lines. -/
theorem restores_iff (ctype : Ctype) (memory : ℕ → CommandMemory) (list : FilenameTable config)
    {s : AppProc M ι config'} (hempty : s.app.prefetchAppsList = empty) :
    Restores ctype memory list s ↔ ∀ filename ∈ namesOn list, Restorable ctype filename ∧
      ∃ i, (printedNames list)[i]? = some filename ∧ (memory i).Available := by
  constructor
  · intro hrestores filename hmem
    have hwords := restorable_of_restores hempty hrestores
    refine ⟨hwords filename hmem, (added_iff hwords memory filename).mp ?_⟩
    exact ((restores_iff_added ctype memory list hempty).mp hrestores filename).mpr hmem
  · intro hall
    refine (restores_iff_added ctype memory list hempty).mpr fun filename => ?_
    refine (added_iff (fun other hother => (hall other hother).1) memory filename).trans ⟨?_, ?_⟩
    · rintro ⟨i, hi, -⟩
      exact mem_printedNames.mp (List.mem_of_getElem? hi)
    · exact fun hmem => (hall filename hmem).2

/-- The white space of ASCII and the no-break space of Latin-1. -/
def kernelCtype : Ctype where
  isspace c := 9 ≤ c.toNat && c.toNat ≤ 13 || c.toNat == 32 || c.toNat == 160
  isspace_space := by decide
  isspace_newline := by decide
  isspace_command := by simp

/-- A process executes a program and exits after it kept the disk busy. -/
def busyProgram (filename : String) : List (AppEvent .bits32 Unit) :=
  [.exec filename 7 1 {} { order := [()] }, .exit 7 10 true]

/-- It is then the only program to be traced. -/
theorem busyProgram_traced (filename : String) : ∃ t, run step smallBoot (busyProgram filename) = some t ∧
    ∀ i, t.prefetchAppsList i = [filename] := by
  refine ⟨_, rfl, fun i => ?_⟩
  have hbucket : filenameHashtableIndex smallConfig filename = i :=
    Subsingleton.elim (α := Fin 1) _ _
  show addHead empty (filenameHashtableIndex smallConfig filename) filename i = [filename]
  rw [hbucket, addHead, update_self]
  rfl

/-- A program whose name is a word. -/
theorem restores_iff_sample : ∃ t, run step smallBoot (busyProgram "/usr/bin/gimp") = some t ∧
    "/usr/bin/gimp" ∈ namesOn t.prefetchAppsList ∧
    Restores kernelCtype (fun _ => {}) t.prefetchAppsList
      ({ app := smallBoot } : AppProc .bits32 Unit smallConfig) := by
  obtain ⟨t, hrun, hlist⟩ := busyProgram_traced "/usr/bin/gimp"
  have hmem : ∀ filename, filename ∈ namesOn t.prefetchAppsList ↔ filename = "/usr/bin/gimp" := by
    intro filename
    simp only [namesOn, Set.mem_ofPred_eq, hlist, List.mem_singleton]
    exact ⟨fun ⟨_, h⟩ => h, fun h => ⟨⟨0, Nat.one_pos⟩, h⟩⟩
  have hprinted : (printedNames t.prefetchAppsList)[0]? = some "/usr/bin/gimp" := by
    have hbuckets : List.finRange smallConfig.filenameHashtableSize = [⟨0, Nat.one_pos⟩] := rfl
    rw [printedNames, hbuckets, List.flatMap_singleton, hlist]
    rfl
  refine ⟨t, hrun, (hmem _).mpr rfl, (restores_iff _ _ _ rfl).mpr fun filename hfilename => ?_⟩
  rw [(hmem filename).mp hfilename]
  exact ⟨⟨⟨by decide, by decide, by simp [kernelCtype]⟩, by decide⟩, 0, hprinted, by decide⟩

/-- A program with a space in its name: what comes before the space is put on the list instead. -/
theorem spaced_name_not_restored : ∃ t, run step smallBoot (busyProgram "/opt/my app") = some t ∧
    "/opt/my app" ∈ namesOn t.prefetchAppsList ∧
    ¬ Restores kernelCtype (fun _ => {}) t.prefetchAppsList
      ({ app := smallBoot } : AppProc .bits32 Unit smallConfig) := by
  obtain ⟨t, hrun, hlist⟩ := busyProgram_traced "/opt/my app"
  have hmem : "/opt/my app" ∈ namesOn t.prefetchAppsList :=
    ⟨⟨0, Nat.one_pos⟩, by rw [hlist]; exact List.mem_singleton_self _⟩
  refine ⟨t, hrun, hmem, fun hrestores => ?_⟩
  have hword := (restorable_of_restores rfl hrestores _ hmem).word
  exact absurd (hword.not_space ' ' (by decide)) (by decide)

end Prefetch.App

/-
# Prefetch.Remap.MapInodes — `map_inodes`, the names of the inodes

e2block2file looks for the names of the inodes with mapped blocks. `map_inodes` puts them into a hash
table and goes through the directories; an inode that an entry leads to is taken out of the table, and
gets the path as its name. What is left in the table has no name.

The path is kept in one buffer. Going down, `scan_dir` appends to it, and takes off again when it comes
back (`iterateDir_spec`): a directory leaves the path as it was, takes every inode below it out of the
table, and gives none of them a name that does not lead to it. No record is lost or comes twice on the
way (`mapInodes_mapped`).
-/
import Mathlib.Data.List.TakeWhile
import Prefetch.Lib.ChainedTable
import Prefetch.Remap.FileTree
import Prefetch.Remap.LoadBlocks
import Prefetch.Remap.LoadExtents

namespace Prefetch.Remap

open ChainedTable

/-! ## §1 — the file system -/

/-- A live entry of a directory, `struct ext2_dir_entry`. Its name is not empty and has no zero byte. -/
structure Dirent where
  inode : ℕ
  name : List UInt8
  fileType : ℕ
  nonempty : name ≠ []
  noNul : 0 ∉ name

/-- The names `.` and `..`, as `scan_dir` tests for them. -/
def Dirent.IsDot (e : Dirent) : Prop :=
  e.name[0]? = some 46 ∧ (e.name.length = 1 ∨ e.name[1]? = some 46 ∧ e.name.length = 2)

instance (e : Dirent) : Decidable e.IsDot := inferInstanceAs (Decidable (_ ∧ _))

/-- `s_feature_incompat` of the superblock, `i_mode` of the inodes that can be read, and the live entries of
the directories `ext2fs_dir_iterate` can go through. -/
structure DirSystem where
  featureIncompat : ℕ
  readInode : ℕ → Option ℕ
  dirIterate : ℕ → Option (List Dirent)

/-- `EXT2_FEATURE_INCOMPAT_FILETYPE`, `EXT2_FT_DIR`, `EXT2_ROOT_INO` and `MAX_PATH_LEN`. -/
def featureIncompatFiletype : ℕ := 0x0002
def ftDir : ℕ := 2
def rootIno : ℕ := 2
def maxPathLen : ℕ := 32768

/-- `has_filetype` -/
def DirSystem.hasFiletype (fs : DirSystem) : Bool := fs.featureIncompat &&& featureIncompatFiletype ≠ 0

/-- `S_ISDIR` -/
def isDirMode (mode : ℕ) : Bool := mode &&& 0o170000 = 0o040000

/-- An inode is a directory. -/
def DirSystem.isDir (fs : DirSystem) (ino : ℕ) : Bool := (fs.readInode ino).any isDirMode

/-- What `malloc` grants; an object of `2 ^ 63` bytes it does not have. -/
structure Malloc where
  grants : ℕ → Bool
  limit : ∀ bytes, grants bytes = true → bytes < 2 ^ 63

/-! ## §2 — `map_inodes` -/

/-- `struct inode_blocks`; the name is as long as it is. -/
structure InodeBlocks where
  ino : ℕ
  blocks : List BlockMap
  name : Option (List UInt8)
  deriving DecidableEq

/-- Why `map_inodes` does not return: an inode or a directory cannot be read, or there is no memory;
`overrun` is a write behind the path buffer, and `running` a recursion deeper than was allowed for. -/
inductive MapError
  | cannotReadInode
  | cannotScan
  | noMemory
  | overrun
  | running
  deriving DecidableEq

/-- The path buffer, the length of the path, the hash table and the list of the inodes with names. -/
structure Walk (n : ℕ) where
  path : ℕ → UInt8
  pathlen : ℕ
  inodeHash : Table n InodeBlocks
  inodes : List InodeBlocks

section Scan

variable {n : ℕ} [NeZero n]

/-- `find_delete_inode` -/
def findDeleteInode (t : Table n InodeBlocks) (ino : ℕ) : Option InodeBlocks × Table n InodeBlocks :=
  match findFirst t (hashIno n ino) (fun r => r.ino = ino) with
  | none => (none, t)
  | some r => (some r, removeFirst t (hashIno n ino) fun r => r.ino = ino)

/-- The first bytes of a buffer. -/
def written (path : ℕ → UInt8) (len : ℕ) : List UInt8 := (List.range len).map path

/-- `memcpy(path + at, bytes, len)` -/
def copyBytes (path : ℕ → UInt8) (start : ℕ) (bytes : List UInt8) : ℕ → UInt8 := fun i =>
  if start ≤ i ∧ i < start + bytes.length then bytes.getD (i - start) 0 else path i

/-- A slash, the name and a zero byte come to the path. -/
def Walk.append (w : Walk n) (name : List UInt8) : Walk n :=
  let path := Function.update w.path w.pathlen 47
  let path := copyBytes path (w.pathlen + 1) name
  { w with
    path := Function.update path (w.pathlen + 1 + name.length) 0
    pathlen := w.pathlen + 1 + name.length }

/-- `strndup(path, pathlen)` for an inode, which comes to the head of the list. -/
def nameInode (mem : Malloc) (w : Walk n) (iblocks : InodeBlocks) : Except MapError (Walk n) :=
  let name := (written w.path w.pathlen).takeWhile (· ≠ 0)
  if mem.grants (name.length + 1) then
    .ok { w with inodes := { iblocks with name := some name } :: w.inodes }
  else .error .noMemory

/-- The same for what was looked for. -/
def nameFound (mem : Malloc) (w : Walk n) : Option InodeBlocks → Except MapError (Walk n)
  | none => .ok w
  | some iblocks => nameInode mem w iblocks

/-- `dir` of an entry; `none` when its inode cannot be read. -/
def DirSystem.entryIsDir (fs : DirSystem) (e : Dirent) : Option Bool :=
  if fs.hasFiletype then some (e.fileType = ftDir) else (fs.readInode e.inode).map isDirMode

/-- `scan_dir`, with `descend` for going through a directory. -/
def scanDir (fs : DirSystem) (mem : Malloc) (descend : ℕ → Walk n → Except MapError (Walk n)) (w : Walk n)
    (e : Dirent) : Except MapError (Walk n) :=
  if e.IsDot then .ok w
  else
    let found := findDeleteInode w.inodeHash e.inode
    let w := { w with inodeHash := found.2 }
    match fs.entryIsDir e with
    | none => .error .cannotReadInode
    | some dir =>
        if found.1.isSome ∨ dir then
          if maxPathLen ≤ w.pathlen + 1 + e.name.length then .error .overrun
          else
            (nameFound mem (w.append e.name) found.1).bind fun w =>
              (if dir then descend e.inode w else .ok w).bind fun w =>
                .ok { w with pathlen := w.pathlen - (e.name.length + 1) }
        else .ok w

/-- `ext2fs_dir_iterate` with `scan_dir`, at most so many directories deep. -/
def iterateDir (fs : DirSystem) (mem : Malloc) : ℕ → ℕ → Walk n → Except MapError (Walk n)
  | 0, _, _ => .error .running
  | depth + 1, ino, w =>
      match fs.dirIterate ino with
      | none => .error .cannotScan
      | some entries => entries.foldlM (scanDir fs mem (iterateDir fs mem depth)) w

/-- `prepare_inode_hash`, once the table is there. -/
def prepareInodeHash (n : ℕ) [NeZero n] (inodes : List InodeBlocks) : Table n InodeBlocks :=
  inodes.foldl (fun t r => addHead t (hashIno n r.ino) r) empty

/-- A bucket is moved to the list, entry by entry. -/
def gatherBucket : List InodeBlocks → List InodeBlocks → List InodeBlocks
  | [], inodes => inodes
  | r :: bucket, inodes => gatherBucket bucket (r :: inodes)

/-- `gather_unmapped_inodes` -/
def gatherUnmappedInodes (w : Walk n) : List InodeBlocks :=
  (List.finRange n).foldl (fun inodes i => gatherBucket (w.inodeHash i) inodes) w.inodes

end Scan

/-- `inode_hash_size`, an int; `inode_count` is an unsigned int. -/
def inodeHashSize (inodeCount : ℕ) : ℤ :=
  toInt (32 + (inodeCount % 2 ^ 32 : ℕ) + (inodeCount % 2 ^ 32 / 2 : ℕ))

/-- The bytes of the table, a `size_t`. -/
def hashBytes (inodeCount : ℕ) : ℕ := (8 * inodeHashSize inodeCount % 2 ^ 64).toNat

/-- A table that is granted has a positive size. -/
theorem inodeHashSize_pos {mem : Malloc} {inodeCount : ℕ} (h : mem.grants (hashBytes inodeCount) = true) :
    0 < inodeHashSize inodeCount := by
  have hlimit := mem.limit _ h
  have hcount : inodeCount % 2 ^ 32 < 2 ^ 32 := Nat.mod_lt _ (by decide)
  unfold hashBytes at hlimit
  unfold inodeHashSize toInt at hlimit ⊢
  generalize inodeCount % 2 ^ 32 = count at hlimit hcount ⊢
  -- the sum is less than twice what the int has room for
  obtain ⟨turns, hturns⟩ : ∃ turns, turns = (32 + (count : ℤ) + (count / 2 : ℕ) + 2 ^ 31) / 2 ^ 32 := ⟨_, rfl⟩
  obtain hzero | hone | htwo : turns = 0 ∨ turns = 1 ∨ turns = 2 := by omega
  · omega
  · omega
  · omega

/-- `map_inodes`: the inodes afterwards. A recursion deeper than the path buffer is long has overrun it. -/
def mapInodes (fs : DirSystem) (mem : Malloc) (inodes : List InodeBlocks) :
    Except MapError (List InodeBlocks) :=
  if h : mem.grants (hashBytes inodes.length) = true then
    have : NeZero (inodeHashSize inodes.length).toNat := ⟨by
      have hpos := inodeHashSize_pos h
      omega⟩
    let w : Walk (inodeHashSize inodes.length).toNat :=
      ⟨fun _ => 0, 0, prepareInodeHash _ inodes, []⟩
    (iterateDir fs mem maxPathLen rootIno w).map gatherUnmappedInodes
  else .error .noMemory

/-! ## §3 — where entries lead to -/

/-- The names of entries, other than `.` and `..`, lead from a directory to an inode. -/
inductive Leads (fs : DirSystem) : ℕ → List (List UInt8) → ℕ → Prop
  | entry {dir : ℕ} {entries : List Dirent} {e : Dirent} (hdir : fs.dirIterate dir = some entries)
      (he : e ∈ entries) (hdot : ¬ e.IsDot) : Leads fs dir [e.name] e.inode
  | inside {dir ino : ℕ} {entries : List Dirent} {e : Dirent} {names : List (List UInt8)}
      (hdir : fs.dirIterate dir = some entries) (he : e ∈ entries) (hdot : ¬ e.IsDot)
      (hisDir : fs.isDir e.inode = true) (h : Leads fs e.inode names ino) :
      Leads fs dir (e.name :: names) ino

/-- The path that names make, with a slash before each. -/
def pathBytes (names : List (List UInt8)) : List UInt8 := names.flatMap fun name => 47 :: name

/-- A directory of the tree. -/
def DirSystem.InTree (fs : DirSystem) (dir : ℕ) : Prop :=
  dir = rootIno ∨ fs.isDir dir = true ∧ ∃ names, Leads fs rootIno names dir

/-- A tree of directories that can be read: every one can be gone through, the inodes of all entries can be
read, entries with a file type have that of their inode, and all paths are short enough. That no path is
longer rules out that a directory lies below itself. -/
structure DirTree (fs : DirSystem) : Prop where
  readable : ∀ dir, fs.InTree dir → ∃ entries, fs.dirIterate dir = some entries
  inodes_readable : ∀ names ino, Leads fs rootIno names ino → (fs.readInode ino).isSome = true
  types : fs.hasFiletype = true → ∀ dir entries e, fs.InTree dir → fs.dirIterate dir = some entries →
    e ∈ entries → ¬ e.IsDot → (e.fileType = ftDir ↔ fs.isDir e.inode = true)
  fits : ∀ names ino, Leads fs rootIno names ino → (pathBytes names).length < maxPathLen

theorem pathBytes_append (names names' : List (List UInt8)) :
    pathBytes (names ++ names') = pathBytes names ++ pathBytes names' := List.flatMap_append ..

theorem pathBytes_single (name : List UInt8) : pathBytes [name] = 47 :: name := by
  simp [pathBytes]

section Tree

variable {fs : DirSystem} {dir : ℕ} {entries : List Dirent} {e : Dirent}

/-- What an entry that is met in a directory leads to. -/
def EntryLeads (fs : DirSystem) (e : Dirent) (ino : ℕ) : Prop :=
  ¬ e.IsDot ∧ (ino = e.inode ∨ fs.isDir e.inode = true ∧ ∃ names, Leads fs e.inode names ino)

theorem exists_leads_iff (hdir : fs.dirIterate dir = some entries) {ino : ℕ} :
    (∃ names, Leads fs dir names ino) ↔ ∃ e ∈ entries, EntryLeads fs e ino := by
  constructor
  · rintro ⟨names, h⟩
    cases h with
    | entry hdir' he hdot =>
        cases hdir.symm.trans hdir'
        exact ⟨_, he, hdot, Or.inl rfl⟩
    | inside hdir' he hdot hisDir h =>
        cases hdir.symm.trans hdir'
        exact ⟨_, he, hdot, Or.inr ⟨hisDir, _, h⟩⟩
  · rintro ⟨e, he, hdot, rfl | ⟨hisDir, names, h⟩⟩
    · exact ⟨_, .entry hdir he hdot⟩
    · exact ⟨_, .inside hdir he hdot hisDir h⟩

/-- The names so far lead to a directory: what leads on from it leads on from the root. -/
structure LeadsHere (fs : DirSystem) (names : List (List UInt8)) (dir : ℕ) : Prop where
  inTree : fs.InTree dir
  leads : ∀ names' ino, Leads fs dir names' ino → Leads fs rootIno (names ++ names') ino

theorem leadsHere_root (fs : DirSystem) : LeadsHere fs [] rootIno := ⟨Or.inl rfl, fun _ _ h => h⟩

theorem LeadsHere.leads_entry {names : List (List UInt8)} (h : LeadsHere fs names dir)
    (hdir : fs.dirIterate dir = some entries) (he : e ∈ entries) (hdot : ¬ e.IsDot) :
    Leads fs rootIno (names ++ [e.name]) e.inode := h.leads _ _ (.entry hdir he hdot)

theorem LeadsHere.below {names : List (List UInt8)} (h : LeadsHere fs names dir)
    (hdir : fs.dirIterate dir = some entries) (he : e ∈ entries) (hdot : ¬ e.IsDot)
    (hisDir : fs.isDir e.inode = true) : LeadsHere fs (names ++ [e.name]) e.inode where
  inTree := Or.inr ⟨hisDir, _, h.leads_entry hdir he hdot⟩
  leads names' ino h' := by
    rw [List.append_assoc]
    exact h.leads _ _ (.inside hdir he hdot hisDir h')

/-- The code knows of every entry whether it leads to a directory. -/
theorem DirTree.entryIsDir_eq (htree : DirTree fs) {names : List (List UInt8)} (h : LeadsHere fs names dir)
    (hdir : fs.dirIterate dir = some entries) (he : e ∈ entries) (hdot : ¬ e.IsDot) :
    fs.entryIsDir e = some (fs.isDir e.inode) := by
  unfold DirSystem.entryIsDir
  split_ifs with hfiletype
  · have hiff := htree.types hfiletype dir entries e h.inTree hdir he hdot
    rw [Option.some.injEq, Bool.eq_iff_iff, decide_eq_true_eq]
    exact hiff
  · obtain ⟨mode, hmode⟩ := Option.isSome_iff_exists.1
      (htree.inodes_readable _ _ (h.leads_entry hdir he hdot))
    unfold DirSystem.isDir
    rw [hmode]
    rfl

end Tree

/-! ## §4 — what a step does -/

/-- A record without its name. -/
def InodeBlocks.unnamed (r : InodeBlocks) : InodeBlocks := { r with name := none }

section Steps

variable {n : ℕ} [NeZero n] {fs : DirSystem} {mem : Malloc} {w w' w'' : Walk n} {names : List (List UInt8)}

/-- Every record in the table is in the bucket of its inode, and there is one for an inode. -/
structure Walk.Good (w : Walk n) : Prop where
  place : ∀ i, ∀ r ∈ w.inodeHash i, hashIno n r.ino = i
  distinct : ((entries w.inodeHash).map InodeBlocks.ino).Nodup

/-- The path in the buffer is that of `names`. -/
structure Walk.At (w : Walk n) (names : List (List UInt8)) : Prop where
  pathlen_eq : w.pathlen = (pathBytes names).length
  written_eq : written w.path w.pathlen = pathBytes names

/-- Looking for a record takes it out, if there is one, and nothing else. -/
theorem findDeleteInode_spec {t : Table n InodeBlocks} (hplace : ∀ i, ∀ r ∈ t i, hashIno n r.ino = i)
    (hdistinct : ((entries t).map InodeBlocks.ino).Nodup) (ino : ℕ) :
    (∀ i, ∀ r ∈ (findDeleteInode t ino).2 i, hashIno n r.ino = i)
      ∧ ((findDeleteInode t ino).1.toList ++ entries (findDeleteInode t ino).2).Perm (entries t)
      ∧ (∀ r ∈ (findDeleteInode t ino).1.toList, r.ino = ino)
      ∧ ∀ r ∈ entries (findDeleteInode t ino).2, r.ino ≠ ino := by
  unfold findDeleteInode
  cases hfind : findFirst t (hashIno n ino) (fun r => r.ino = ino) with
  | none =>
      refine ⟨hplace, List.Perm.refl _, nofun, fun r hr hino => ?_⟩
      obtain ⟨i, hi⟩ := mem_entries.1 hr
      have hbucket := hplace i r hi
      rw [hino] at hbucket
      rw [← hbucket] at hi
      exact absurd (List.find?_eq_none.1 hfind r hi) (by simpa using hino)
  | some r =>
      have hperm := entries_removeFirst_perm hfind
      have hino : r.ino = ino := of_decide_eq_true (mem_of_findFirst hfind).2
      refine ⟨fun i r' hr' => hplace i r' (mem_of_mem_removeFirst hr'), hperm, fun r' hr' => ?_,
        fun r' hr' hino' => ?_⟩
      · rw [List.mem_singleton.1 hr']
        exact hino
      · have hnodup := (hperm.map InodeBlocks.ino).nodup_iff.2 hdistinct
        rw [List.map_cons, List.nodup_cons] at hnodup
        exact hnodup.1 (hino.trans hino'.symm ▸ List.mem_map_of_mem hr')

/-- What has changed when the inodes of `visited` were met: the path is as before, the records are the same
but for their names, those of the inodes met are not in the table, and names lead to their inodes. -/
structure Effect (fs : DirSystem) (visited : ℕ → Prop) (w w' : Walk n) : Prop where
  good : w'.Good
  pathlen_eq : w'.pathlen = w.pathlen
  path_eq : ∀ i, i < w.pathlen → w'.path i = w.path i
  records : ((w'.inodes ++ entries w'.inodeHash).map InodeBlocks.unnamed).Perm
    ((w.inodes ++ entries w.inodeHash).map InodeBlocks.unnamed)
  kept : ∀ r ∈ entries w'.inodeHash, r ∈ entries w.inodeHash ∧ ¬ visited r.ino
  named : ∀ r ∈ w'.inodes, r ∈ w.inodes
    ∨ ∃ names, Leads fs rootIno names r.ino ∧ r.name = some (pathBytes names)

variable {visited visited' : ℕ → Prop}

theorem Effect.refl (h : w.Good) : Effect fs (fun _ => False) w w where
  good := h
  pathlen_eq := rfl
  path_eq _ _ := rfl
  records := List.Perm.refl _
  kept _ hr := ⟨hr, not_false⟩
  named _ hr := Or.inl hr

theorem Effect.trans (h : Effect fs visited w w') (h' : Effect fs visited' w' w'') :
    Effect fs (fun ino => visited ino ∨ visited' ino) w w'' where
  good := h'.good
  pathlen_eq := h'.pathlen_eq.trans h.pathlen_eq
  path_eq i hi := (h'.path_eq i (h.pathlen_eq ▸ hi)).trans (h.path_eq i hi)
  records := h'.records.trans h.records
  kept r hr := by
    obtain ⟨hr', hnot'⟩ := h'.kept r hr
    obtain ⟨hr, hnot⟩ := h.kept r hr'
    exact ⟨hr, fun hvisited => hvisited.elim hnot hnot'⟩
  named r hr := by
    rcases h'.named r hr with hr' | hleads
    · exact h.named r hr'
    · exact Or.inr hleads

theorem Effect.mono (h : Effect fs visited w w') (hsub : ∀ ino, visited' ino → visited ino) :
    Effect fs visited' w w' :=
  { h with kept := fun r hr => ⟨(h.kept r hr).1, fun hvisited => (h.kept r hr).2 (hsub _ hvisited)⟩ }

/-- The path is unchanged, and so are the names it is made of. -/
theorem Effect.at (h : Effect fs visited w w') (hat : w.At names) : w'.At names where
  pathlen_eq := h.pathlen_eq.trans hat.pathlen_eq
  written_eq := by
    rw [h.pathlen_eq, ← hat.written_eq]
    exact List.map_congr_left fun i hi => h.path_eq i (List.mem_range.1 hi)

/-- `malloc` has room for every name. -/
def Malloc.NamesFit (mem : Malloc) : Prop := ∀ bytes, bytes ≤ maxPathLen → mem.grants bytes = true

/-- The result is as said, or there is no memory for a name. -/
def Outcome (mem : Malloc) (post : Walk n → Prop) (r : Except MapError (Walk n)) : Prop :=
  (∃ w, r = .ok w ∧ post w) ∨ r = .error .noMemory ∧ ¬ mem.NamesFit

omit [NeZero n] in
theorem Outcome.bind {post post' : Walk n → Prop} {r : Except MapError (Walk n)}
    {next : Walk n → Except MapError (Walk n)} (h : Outcome mem post r)
    (hnext : ∀ w, post w → Outcome mem post' (next w)) : Outcome mem post' (r.bind next) := by
  rcases h with ⟨w, rfl, hpost⟩ | ⟨rfl, hmem⟩
  · exact hnext w hpost
  · exact Or.inr ⟨rfl, hmem⟩

omit [NeZero n] in
theorem append_path_eq (w : Walk n) (name : List UInt8) {i : ℕ} (hi : i < w.pathlen) :
    (w.append name).path i = w.path i := by
  have hcopy : ¬ (w.pathlen + 1 ≤ i ∧ i < w.pathlen + 1 + name.length) := by omega
  show Function.update _ _ _ _ = _
  rw [Function.update_of_ne (by omega), copyBytes, if_neg hcopy, Function.update_of_ne (by omega)]

omit [NeZero n] in
theorem append_path_slash (w : Walk n) (name : List UInt8) : (w.append name).path w.pathlen = 47 := by
  have hcopy : ¬ (w.pathlen + 1 ≤ w.pathlen ∧ w.pathlen < w.pathlen + 1 + name.length) := by omega
  show Function.update _ _ _ _ = _
  rw [Function.update_of_ne (by omega), copyBytes, if_neg hcopy, Function.update_self]

omit [NeZero n] in
theorem append_path_name (w : Walk n) (name : List UInt8) {i : ℕ} (hi : i < name.length) :
    (w.append name).path (w.pathlen + 1 + i) = name.getD i 0 := by
  have hcopy : w.pathlen + 1 ≤ w.pathlen + 1 + i ∧ w.pathlen + 1 + i < w.pathlen + 1 + name.length := by omega
  show Function.update _ _ _ _ = _
  rw [Function.update_of_ne (by omega), copyBytes, if_pos hcopy, Nat.add_sub_cancel_left]

omit [NeZero n] in
/-- What comes to the path. -/
theorem written_append (w : Walk n) (name : List UInt8) :
    written (w.append name).path (w.append name).pathlen = written w.path w.pathlen ++ 47 :: name := by
  have hlen : (w.append name).pathlen = w.pathlen + (1 + name.length) := Nat.add_assoc _ _ _
  unfold written
  rw [hlen, List.range_add, List.map_append, List.map_map]
  congr 1
  · exact List.map_congr_left fun i hi => append_path_eq w name (List.mem_range.1 hi)
  · refine List.ext_getElem (by simp [Nat.add_comm]) fun i hi hi' => ?_
    rw [List.getElem_map, List.getElem_range]
    cases i with
    | zero => exact append_path_slash w name
    | succ i =>
        have hname : i < name.length := by simpa using hi'
        have hget := append_path_name w name hname
        rw [List.getD_eq_getElem?_getD, List.getElem?_eq_getElem hname, Option.getD_some] at hget
        rw [List.getElem_cons_succ, ← hget, Nat.add_assoc, Nat.add_comm 1 i]
        rfl

omit [NeZero n] in
theorem Walk.At.append (h : w.At names) (name : List UInt8) : (w.append name).At (names ++ [name]) where
  pathlen_eq := by
    show w.pathlen + 1 + name.length = _
    rw [pathBytes_append, pathBytes_single, List.length_append, List.length_cons, h.pathlen_eq]
    omega
  written_eq := by
    rw [written_append, h.written_eq, pathBytes_append, pathBytes_single]

omit [NeZero n] in
theorem Outcome.imp {post post' : Walk n → Prop} {r : Except MapError (Walk n)} (h : Outcome mem post r)
    (himp : ∀ w, post w → post' w) : Outcome mem post' r :=
  Or.imp (fun ⟨w, hr, hpost⟩ => ⟨w, hr, himp w hpost⟩) id h

/-- A path has no zero byte. -/
theorem Leads.noNul {dir ino : ℕ} (h : Leads fs dir names ino) : 0 ∉ pathBytes names := by
  induction h with
  | entry hdir he hdot =>
      rw [pathBytes_single, List.mem_cons, not_or]
      exact ⟨by decide, Dirent.noNul _⟩
  | inside hdir he hdot hisDir h ih =>
      rw [← List.singleton_append, pathBytes_append, pathBytes_single, List.mem_append, List.mem_cons, not_or,
        not_or]
      exact ⟨⟨by decide, Dirent.noNul _⟩, ih⟩

omit [NeZero n] in
/-- The inode gets the path as its name. -/
theorem nameInode_spec (hat : w.At names) (hnul : 0 ∉ pathBytes names)
    (hfits : (pathBytes names).length < maxPathLen) (r : InodeBlocks) :
    Outcome mem (fun w' => w' = { w with inodes := { r with name := some (pathBytes names) } :: w.inodes })
      (nameInode mem w r) := by
  have hwhile : (pathBytes names).takeWhile (· ≠ 0) = pathBytes names := by
    rw [List.takeWhile_eq_self_iff]
    intro b hb
    exact decide_eq_true fun hzero => hnul (hzero ▸ hb)
  unfold nameInode
  rw [hat.written_eq, hwhile]
  dsimp only
  split_ifs with hgrants
  · exact Or.inl ⟨_, rfl, rfl⟩
  · exact Or.inr ⟨rfl, fun hmem => hgrants (hmem _ hfits)⟩

/-- The records taken out of the table, with the path for a name. -/
def withName (names : List (List UInt8)) (found : Option InodeBlocks) : List InodeBlocks :=
  found.toList.map fun r => { r with name := some (pathBytes names) }

omit [NeZero n] in
theorem nameFound_spec (hat : w.At names) (hnul : 0 ∉ pathBytes names)
    (hfits : (pathBytes names).length < maxPathLen) (found : Option InodeBlocks) :
    Outcome mem (fun w' => w' = { w with inodes := withName names found ++ w.inodes })
      (nameFound mem w found) := by
  cases found with
  | none => exact Or.inl ⟨w, rfl, rfl⟩
  | some r => exact nameInode_spec hat hnul hfits r

/-- An inode is met: its record is taken out of the table and gets a name that leads to it. -/
theorem Effect.met (hgood : w.Good) {ino : ℕ} (hleads : Leads fs rootIno names ino) :
    Effect fs (fun i => i = ino) w
      { w with inodeHash := (findDeleteInode w.inodeHash ino).2
               inodes := withName names (findDeleteInode w.inodeHash ino).1 ++ w.inodes } := by
  obtain ⟨hplace, hperm, hfound, hrest⟩ := findDeleteInode_spec hgood.place hgood.distinct ino
  generalize findDeleteInode w.inodeHash ino = found at hplace hperm hfound hrest
  have hdistinct : ((ChainedTable.entries found.2).map InodeBlocks.ino).Nodup := by
    have hnodup := (hperm.map InodeBlocks.ino).nodup_iff.2 hgood.distinct
    rw [List.map_append] at hnodup
    exact (List.nodup_append.1 hnodup).2.1
  refine ⟨⟨hplace, hdistinct⟩, rfl, fun _ _ => rfl, ?_, fun r hr => ⟨?_, hrest r hr⟩, fun r hr => ?_⟩
  · have hunnamed : (withName names found.1).map InodeBlocks.unnamed
        = found.1.toList.map InodeBlocks.unnamed := List.map_map
    rw [List.map_append, List.map_append, hunnamed, ← List.map_append, ← List.map_append]
    refine List.Perm.map _ (List.Perm.trans ?_ (hperm.append_left w.inodes))
    rw [← List.append_assoc]
    exact List.perm_append_comm.append_right _
  · exact hperm.mem_iff.1 (List.mem_append_right _ hr)
  · rcases List.mem_append.1 hr with hr | hr
    · obtain ⟨r₀, hr₀, rfl⟩ := List.mem_map.1 hr
      refine Or.inr ⟨names, ?_, rfl⟩
      show Leads fs rootIno names r₀.ino
      rw [hfound r₀ hr₀]
      exact hleads
    · exact Or.inl hr

omit [NeZero n] in
/-- Coming back from below an entry, its name is taken off the path. -/
theorem pathlen_sub_eq {name : List UInt8} (h : w'.pathlen = (w.append name).pathlen) :
    w'.pathlen - (name.length + 1) = w.pathlen := by
  have hlen : w'.pathlen = w.pathlen + 1 + name.length := h
  omega

/-- What changed below an entry has changed when the path is as before it. -/
theorem Effect.leave {name : List UInt8} (h : Effect fs visited (w.append name) w') :
    Effect fs visited w { w' with pathlen := w'.pathlen - (name.length + 1) } where
  good := ⟨h.good.place, h.good.distinct⟩
  pathlen_eq := pathlen_sub_eq h.pathlen_eq
  path_eq i hi :=
    have hlt : i < (w.append name).pathlen := Nat.lt_add_right _ (Nat.lt_succ_of_lt hi)
    (h.path_eq i hlt).trans (append_path_eq w name hi)
  records := h.records
  kept := h.kept
  named := h.named

/-- **`scan_dir`**: an entry is followed, and the path is as before. -/
theorem scanDir_spec (htree : DirTree fs) {dir : ℕ} {entries : List Dirent} {e : Dirent}
    (hhere : LeadsHere fs names dir) (hdir : fs.dirIterate dir = some entries) (he : e ∈ entries)
    (hgood : w.Good) (hat : w.At names) {descend : ℕ → Walk n → Except MapError (Walk n)}
    (hdescend : ¬ e.IsDot → fs.isDir e.inode = true → ∀ w : Walk n, w.Good → w.At (names ++ [e.name]) →
      Outcome mem (Effect fs (fun ino => ∃ names', Leads fs e.inode names' ino) w) (descend e.inode w)) :
    Outcome mem (Effect fs (EntryLeads fs e) w) (scanDir fs mem descend w e) := by
  unfold scanDir
  by_cases hdot : e.IsDot
  · rw [if_pos hdot]
    exact Or.inl ⟨w, rfl, (Effect.refl hgood).mono fun _ hleads => hleads.1 hdot⟩
  rw [if_neg hdot, htree.entryIsDir_eq hhere hdir he hdot]
  have hleads := hhere.leads_entry hdir he hdot
  have hmet := Effect.met hgood hleads
  generalize findDeleteInode w.inodeHash e.inode = found at hmet
  dsimp only
  by_cases hgo : found.1.isSome = true ∨ fs.isDir e.inode = true
  · have hfits := htree.fits _ _ hleads
    have hat₁ : ({ w with inodeHash := found.2 } : Walk n).At names := ⟨hat.pathlen_eq, hat.written_eq⟩
    have hat₂ := hat₁.append e.name
    have hlen : w.pathlen + 1 + e.name.length < maxPathLen := lt_of_eq_of_lt hat₂.pathlen_eq hfits
    rw [if_pos hgo, if_neg (Nat.not_le.2 hlen)]
    refine (nameFound_spec hat₂ hleads.noNul hfits found.1).bind fun w₃ hw₃ => ?_
    have hgood₃ : w₃.Good := hw₃ ▸ ⟨hmet.good.place, hmet.good.distinct⟩
    have hat₃ : w₃.At (names ++ [e.name]) := hw₃ ▸ ⟨hat₂.pathlen_eq, hat₂.written_eq⟩
    have hbelow : Outcome mem
        (Effect fs (fun ino => fs.isDir e.inode = true ∧ ∃ names', Leads fs e.inode names' ino) w₃)
        (if fs.isDir e.inode then descend e.inode w₃ else .ok w₃) := by
      split_ifs with hisDir
      · exact (hdescend hdot hisDir w₃ hgood₃ hat₃).imp fun w₄ h => h.mono fun _ hleads => hleads.2
      · exact Or.inl ⟨w₃, rfl, (Effect.refl hgood₃).mono fun _ hleads => absurd hleads.1 hisDir⟩
    refine hbelow.bind fun w₄ h => Or.inl ⟨_, rfl, ?_⟩
    subst hw₃
    exact (hmet.trans (Effect.leave h)).mono fun _ hentry => hentry.2
  · -- nothing is looked for under this entry
    rw [if_neg hgo]
    rw [not_or, Option.not_isSome_iff_eq_none] at hgo
    rw [hgo.1] at hmet
    exact Or.inl ⟨_, rfl, hmet.mono fun _ hentry => hentry.2.resolve_right fun h => hgo.2 h.1⟩

/-- The entries of a directory, one after the other. -/
theorem foldlM_spec {step : Walk n → Dirent → Except MapError (Walk n)} {es : List Dirent}
    (hstep : ∀ e ∈ es, ∀ w : Walk n, w.Good → w.At names →
      Outcome mem (Effect fs (EntryLeads fs e) w) (step w e)) (hgood : w.Good) (hat : w.At names) :
    Outcome mem (Effect fs (fun ino => ∃ e ∈ es, EntryLeads fs e ino) w) (es.foldlM step w) := by
  induction es generalizing w with
  | nil => exact Or.inl ⟨w, rfl, (Effect.refl hgood).mono fun _ ⟨_, he, _⟩ => absurd he List.not_mem_nil⟩
  | cons e es ih =>
      rw [List.foldlM_cons]
      refine (hstep e List.mem_cons_self w hgood hat).bind fun w' h => ?_
      have hrest := ih (fun e he => hstep e (List.mem_cons_of_mem _ he)) h.good (h.at hat)
      refine hrest.imp fun w'' h' => (h.trans h').mono fun ino => ?_
      rintro ⟨e', he', hleads⟩
      rcases List.mem_cons.1 he' with rfl | he'
      · exact Or.inl hleads
      · exact Or.inr ⟨e', he', hleads⟩

/-- **Going through a directory**, at any depth. -/
theorem iterateDir_spec (htree : DirTree fs) (depth : ℕ) {dir : ℕ} (hhere : LeadsHere fs names dir)
    (hgood : w.Good) (hat : w.At names) (hdepth : maxPathLen ≤ (pathBytes names).length + depth)
    (hfits : (pathBytes names).length < maxPathLen) :
    Outcome mem (Effect fs (fun ino => ∃ names', Leads fs dir names' ino) w)
      (iterateDir fs mem depth dir w) := by
  induction depth generalizing dir names w with
  | zero => omega
  | succ depth ih =>
      obtain ⟨entries, hdir⟩ := htree.readable dir hhere.inTree
      rw [iterateDir, hdir]
      have hfold : Outcome mem (Effect fs (fun ino => ∃ e ∈ entries, EntryLeads fs e ino) w)
          (entries.foldlM (scanDir fs mem (iterateDir fs mem depth)) w) := by
        refine foldlM_spec (fun e he w hgood hat => ?_) hgood hat
        refine scanDir_spec htree hhere hdir he hgood hat fun hdot hisDir w hgood hat => ?_
        have hlen := htree.fits _ _ (hhere.leads_entry hdir he hdot)
        refine ih (hhere.below hdir he hdot hisDir) hgood hat ?_ hlen
        rw [pathBytes_append, pathBytes_single, List.length_append, List.length_cons]
        omega
      exact hfold.imp fun w' h => h.mono fun ino => (exists_leads_iff hdir).1

/-! ## §5 — all inodes -/

theorem prepareInodeHash_spec (inodes : List InodeBlocks) (t : Table n InodeBlocks)
    (hplace : ∀ i, ∀ r ∈ t i, hashIno n r.ino = i) :
    (∀ i, ∀ r ∈ inodes.foldl (fun t r => addHead t (hashIno n r.ino) r) t i, hashIno n r.ino = i)
      ∧ (entries (inodes.foldl (fun t r => addHead t (hashIno n r.ino) r) t)).Perm (inodes ++ entries t) := by
  induction inodes generalizing t with
  | nil => exact ⟨hplace, List.Perm.refl _⟩
  | cons r inodes ih =>
      have hplace' : ∀ i, ∀ r' ∈ addHead t (hashIno n r.ino) r i, hashIno n r'.ino = i := by
        intro i r' hr'
        rcases mem_addHead.1 hr' with ⟨rfl, rfl⟩ | hr'
        · rfl
        · exact hplace i r' hr'
      obtain ⟨hplaceAll, hperm⟩ := ih (addHead t (hashIno n r.ino) r) hplace'
      refine ⟨hplaceAll, hperm.trans ?_⟩
      exact (entries_addHead_perm.append_left inodes).trans List.perm_middle

theorem gatherBucket_eq (bucket inodes : List InodeBlocks) :
    gatherBucket bucket inodes = bucket.reverse ++ inodes := by
  induction bucket generalizing inodes with
  | nil => rfl
  | cons r bucket ih =>
      rw [gatherBucket, ih, List.reverse_cons, List.append_assoc]
      rfl

omit [NeZero n] in
/-- Gathering takes every record of the table, and the list. -/
theorem gatherUnmappedInodes_perm (w : Walk n) :
    (gatherUnmappedInodes w).Perm (w.inodes ++ entries w.inodeHash) := by
  have hfold : ∀ (is : List (Fin n)) (inodes : List InodeBlocks),
      (is.foldl (fun inodes i => gatherBucket (w.inodeHash i) inodes) inodes).Perm
        (inodes ++ is.flatMap w.inodeHash) := by
    intro is
    induction is with
    | nil => exact fun inodes => (List.append_nil inodes).symm ▸ List.Perm.refl _
    | cons i is ih =>
        intro inodes
        rw [List.foldl_cons, gatherBucket_eq, List.flatMap_cons, ← List.append_assoc]
        refine (ih _).trans (List.Perm.append_right _ ?_)
        exact (List.perm_append_comm).trans ((List.reverse_perm _).append_left inodes)
  exact hfold (List.finRange n) w.inodes

end Steps

/-- The result of `map_inodes`: the records it was given, each with a path to its inode for a name, or with
none if no entry leads to it. -/
structure Mapped (fs : DirSystem) (inodes result : List InodeBlocks) : Prop where
  perm : (result.map InodeBlocks.unnamed).Perm inodes
  named_iff : ∀ r ∈ result, r.name.isSome = true ↔ ∃ names, Leads fs rootIno names r.ino
  leads : ∀ r ∈ result, ∀ name, r.name = some name →
    ∃ names, Leads fs rootIno names r.ino ∧ name = pathBytes names

/-- `malloc` has room for the table and for every name. -/
def Malloc.Suffices (mem : Malloc) (inodes : List InodeBlocks) : Prop :=
  mem.grants (hashBytes inodes.length) = true ∧ mem.NamesFit

theorem entries_empty {n : ℕ} : entries (empty : Table n InodeBlocks) = [] := by
  simp [entries, empty]

/-- The walk from the root, and the records gathered after it. -/
theorem walk_mapped (n : ℕ) [NeZero n] (mem : Malloc) {fs : DirSystem} {inodes : List InodeBlocks}
    (htree : DirTree fs) (hdistinct : (inodes.map InodeBlocks.ino).Nodup)
    (hunnamed : ∀ r ∈ inodes, r.name = none) :
    Outcome mem (fun w => Mapped fs inodes (gatherUnmappedInodes w))
      (iterateDir fs mem maxPathLen rootIno (⟨fun _ => 0, 0, prepareInodeHash n inodes, []⟩ : Walk n)) := by
  have hprepare := prepareInodeHash_spec inodes (empty : Table n InodeBlocks)
    fun _ _ hr => absurd hr List.not_mem_nil
  rw [entries_empty, List.append_nil] at hprepare
  obtain ⟨hplace, hperm⟩ := hprepare
  refine Outcome.imp (iterateDir_spec htree maxPathLen (leadsHere_root fs)
    ⟨hplace, (hperm.map InodeBlocks.ino).nodup_iff.2 hdistinct⟩ ⟨rfl, rfl⟩ (Nat.le_add_left _ _)
    (by decide)) fun w h => ?_
  have hgather := gatherUnmappedInodes_perm w
  have hnone : ∀ r ∈ entries w.inodeHash, r.name = none ∧ ¬ ∃ names, Leads fs rootIno names r.ino :=
    fun r hr => ⟨hunnamed r (hperm.mem_iff.1 (h.kept r hr).1), (h.kept r hr).2⟩
  have hsome : ∀ r ∈ w.inodes, ∃ names, Leads fs rootIno names r.ino ∧ r.name = some (pathBytes names) :=
    fun r hr => (h.named r hr).resolve_left List.not_mem_nil
  refine ⟨?_, fun r hr => ?_, fun r hr name hname => ?_⟩
  · have hself : inodes.map InodeBlocks.unnamed = inodes := by
      refine (List.map_congr_left fun r hr => ?_).trans (List.map_id inodes)
      show { r with name := none } = r
      rw [← hunnamed r hr]
    have hrecords := (hgather.map InodeBlocks.unnamed).trans h.records
    rw [List.nil_append] at hrecords
    exact hself ▸ hrecords.trans (hperm.map InodeBlocks.unnamed)
  · rcases List.mem_append.1 (hgather.mem_iff.1 hr) with hr | hr
    · obtain ⟨names, hleads, hname⟩ := hsome r hr
      rw [hname]
      exact iff_of_true rfl ⟨names, hleads⟩
    · obtain ⟨hname, hnot⟩ := hnone r hr
      rw [hname]
      exact iff_of_false Bool.false_ne_true hnot
  · rcases List.mem_append.1 (hgather.mem_iff.1 hr) with hr | hr
    · obtain ⟨names, hleads, hname'⟩ := hsome r hr
      exact ⟨names, hleads, Option.some.inj (hname.symm.trans hname')⟩
    · exact absurd (hname.symm.trans (hnone r hr).1) (Option.some_ne_none name)

/-- **What `map_inodes` does.** For every tree of directories and every list of records of different inodes
that have no names, it returns the records with their names, unless `malloc` fails. -/
theorem mapInodes_mapped {fs : DirSystem} {mem : Malloc} {inodes : List InodeBlocks} (htree : DirTree fs)
    (hdistinct : (inodes.map InodeBlocks.ino).Nodup) (hunnamed : ∀ r ∈ inodes, r.name = none) :
    (∃ result, mapInodes fs mem inodes = .ok result ∧ Mapped fs inodes result)
      ∨ mapInodes fs mem inodes = .error .noMemory ∧ ¬ mem.Suffices inodes := by
  unfold mapInodes
  split_ifs with hgrants
  · have hpos := inodeHashSize_pos hgrants
    have hsize : NeZero (inodeHashSize inodes.length).toNat := ⟨by omega⟩
    rcases walk_mapped (inodeHashSize inodes.length).toNat mem htree hdistinct hunnamed with
      ⟨w, hwalk, hmapped⟩ | ⟨hwalk, hnames⟩
    · exact Or.inl ⟨_, congrArg (Except.map gatherUnmappedInodes) hwalk, hmapped⟩
    · exact Or.inr ⟨congrArg (Except.map gatherUnmappedInodes) hwalk, fun hmem => hnames hmem.2⟩
  · exact Or.inr ⟨rfl, fun hmem => hgrants hmem.1⟩

/-- A live entry with a name of one letter. -/
def letterEntry (inode : ℕ) (letter : UInt8) (fileType : ℕ) (h : letter ≠ 0) : Dirent where
  inode := inode
  name := [letter]
  fileType := fileType
  nonempty := List.cons_ne_nil _ _
  noNul := fun hmem => h (List.mem_singleton.1 hmem).symm

/-- A directory `d` in the root with a file `f`. -/
def sampleDirs : DirSystem where
  featureIncompat := 2
  readInode
    | 2 => some 0o040755
    | 11 => some 0o040755
    | 12 => some 0o100644
    | _ => none
  dirIterate
    | 2 => some [letterEntry 2 46 2 (by decide), letterEntry 11 100 2 (by decide)]
    | 11 => some [letterEntry 11 46 2 (by decide), letterEntry 12 102 1 (by decide)]
    | _ => none

/-- An entry met in one of them. -/
theorem entry_sampleDirs {dir : ℕ} {entries : List Dirent} {e : Dirent}
    (hdir : sampleDirs.dirIterate dir = some entries) (he : e ∈ entries) (hdot : ¬ e.IsDot) :
    dir = 2 ∧ e = letterEntry 11 100 2 (by decide) ∨ dir = 11 ∧ e = letterEntry 12 102 1 (by decide) := by
  unfold sampleDirs at hdir
  dsimp only at hdir
  split at hdir
  · cases hdir
    rcases List.mem_cons.1 he with rfl | he
    · exact absurd (by decide) hdot
    · exact Or.inl ⟨rfl, List.mem_singleton.1 he⟩
  · cases hdir
    rcases List.mem_cons.1 he with rfl | he
    · exact absurd (by decide) hdot
    · exact Or.inr ⟨rfl, List.mem_singleton.1 he⟩
  · cases hdir

theorem leads_sampleDirs {dir ino : ℕ} {names : List (List UInt8)} (h : Leads sampleDirs dir names ino) :
    (ino = 11 ∨ ino = 12) ∧ (pathBytes names).length ≤ 4 ∧ (dir = 11 → (pathBytes names).length = 2) := by
  induction h with
  | entry hdir he hdot =>
      rcases entry_sampleDirs hdir he hdot with ⟨rfl, rfl⟩ | ⟨rfl, rfl⟩
      · exact ⟨Or.inl rfl, by decide, by decide⟩
      · exact ⟨Or.inr rfl, by decide, fun _ => rfl⟩
  | inside hdir he hdot hisDir h ih =>
      rcases entry_sampleDirs hdir he hdot with ⟨rfl, rfl⟩ | ⟨rfl, rfl⟩
      · refine ⟨ih.1, ?_, fun hdir => absurd hdir (by decide)⟩
        rw [← List.singleton_append, pathBytes_append, List.length_append, ih.2.2 rfl]
        decide
      · exact absurd hisDir (by decide)

theorem sampleDirs_tree : DirTree sampleDirs where
  readable dir h := by
    rcases h with rfl | ⟨hisDir, names, h⟩
    · exact ⟨_, rfl⟩
    · rcases (leads_sampleDirs h).1 with rfl | rfl
      · exact ⟨_, rfl⟩
      · exact absurd hisDir (by decide)
  inodes_readable names ino h := by
    rcases (leads_sampleDirs h).1 with rfl | rfl <;> rfl
  types _ dir entries e _ hdir he hdot := by
    rcases entry_sampleDirs hdir he hdot with ⟨-, rfl⟩ | ⟨-, rfl⟩ <;> decide
  fits names ino h := (leads_sampleDirs h).2.1.trans_lt (by decide)

/-- All the memory there is. -/
def allMemory : Malloc := ⟨fun bytes => bytes < 2 ^ 63, fun _ => of_decide_eq_true⟩

/-- Two records, of the file and of an inode without an entry, come back with their names. -/
theorem mapInodes_sample :
    ∃ result, mapInodes sampleDirs allMemory [⟨12, [⟨100, 4, 0⟩], none⟩, ⟨13, [⟨200, 1, 0⟩], none⟩] = .ok result
      ∧ Mapped sampleDirs [⟨12, [⟨100, 4, 0⟩], none⟩, ⟨13, [⟨200, 1, 0⟩], none⟩] result := by
  refine (mapInodes_mapped sampleDirs_tree (by decide) (by decide)).resolve_right fun h => h.2 ⟨by decide, ?_⟩
  intro bytes hbytes
  exact decide_eq_true (hbytes.trans_lt (by decide))

end Prefetch.Remap

/-
# Prefetch.Remap.BlockTable — `insert_new_block`, the extents of the inodes in one growing array

e2block2file keeps the extents of all inodes in one array, `bmap`. Those of an inode are a list through
the array: its `blocks` and `last_block`, and `u.next` of the entries, are addresses of entries. When
the array is full, `insert_new_block` makes it longer by `BMAP_ALLOC_ENTRIES` entries, and `realloc` is
free to move it. The addresses are left as they are.

The table is right when all addresses refer to the array there is, and `dump_inode` lists what was
recorded (`Recording.Right`). A call strands when it spoils this (`BlockTable.Strands`).
-/
import Mathlib.Algebra.Order.Ring.Int
import Mathlib.Logic.Function.Basic
import Mathlib.Tactic.Common
import Prefetch.Lib.MovedArray
import Prefetch.Lib.Runs
import Prefetch.Remap.FileTree
import Prefetch.Remap.LoadBlocks

namespace Prefetch.Remap

open Function
open MovedArray (Pointer)

variable {ι : Type*}

/-! ## §1 — the table -/

/-- `u` of `struct block_map`. -/
inductive EntryUnion (ι : Type*)
  | next (p : Option Pointer)
  | inode (i : ι)

/-- An entry, `struct block_map` with its union. -/
structure BlockEntry (ι : Type*) where
  extent : BlockMap
  u : EntryUnion ι

/-- `struct inode_blocks`, with the addresses it keeps. -/
structure InodeChain where
  ino : ℕ
  name : Option (List UInt8)
  blocks : Option Pointer
  lastBlock : Option Pointer

/-- `FL_DUMPTIMES` in the options; the array `bmap` designates, with its entries; `map_count` and
`bmap_allocated`; the inodes. The array `realloc` hands out when it moves is another one than before, at
whatever address. -/
structure BlockTable (ι : Type*) where
  dumpTimes : Bool
  bmap : ℕ
  entries : ℕ → BlockEntry ι
  mapCount : ℕ
  bmapAllocated : ℕ
  inodes : ι → InodeChain

/-- What `realloc` does: it returns NULL, or makes the array longer where it is or elsewhere. -/
inductive Realloc
  | refused
  | stays
  | moves
  deriving DecidableEq, Repr

/-- The arguments of a call, and what `realloc` does if it comes to that. -/
structure InsertCall (ι : Type*) where
  inode : ι
  offset : ℤ
  block : ℕ
  realloc : Realloc

/-- The block and its offset continue the extent, in `blk_t` and `loff_t`. -/
def BlockMap.Continues (last : BlockMap) (offset : ℤ) (block : ℕ) : Prop :=
  0 ≤ offset ∧ (last.block + last.len) % 2 ^ 32 = block ∧ last.offset + last.len = offset

instance (last : BlockMap) (offset : ℤ) (block : ℕ) : Decidable (last.Continues offset block) :=
  inferInstanceAs (Decidable (_ ∧ _ ∧ _))

/-- `len++` -/
def BlockMap.prolong (last : BlockMap) : BlockMap := { last with len := (last.len + 1) % 2 ^ 32 }

namespace BlockTable

/-- The entry at an address; there is none behind an address in an array that was given up. -/
def read (s : BlockTable ι) (p : Pointer) : Option (BlockEntry ι) :=
  if p.array = s.bmap ∧ p.index < s.bmapAllocated then some (s.entries p.index) else none

def write (s : BlockTable ι) (k : ℕ) (e : BlockEntry ι) : BlockTable ι :=
  { s with entries := update s.entries k e }

/-- `bmap[map_count++]` is filled. -/
def push (s : BlockTable ι) (e : BlockEntry ι) : BlockTable ι :=
  { s.write s.mapCount e with mapCount := s.mapCount + 1 }

/-- `last_block->len++` -/
def prolongEntry (s : BlockTable ι) (k : ℕ) : BlockTable ι :=
  s.write k { s.entries k with extent := (s.entries k).extent.prolong }

/-- The first part of `insert_new_block`: the table it returns with, if the block continues the last
extent of the inode. -/
def prolongLast (s : BlockTable ι) (call : InsertCall ι) : Except MapStop (Option (BlockTable ι)) :=
  match (s.inodes call.inode).lastBlock with
  | none => .ok none
  | some last =>
      if 0 ≤ call.offset then
        match s.read last with
        | none => .error .undefined
        | some e =>
            if e.extent.Continues call.offset call.block then .ok (some (s.prolongEntry last.index))
            else .ok none
      else .ok none

/-- The second part: room for another entry. -/
def grow (s : BlockTable ι) (realloc : Realloc) : Except MapStop (BlockTable ι) :=
  if s.bmapAllocated ≤ s.mapCount then
    let bmapAllocated := (s.bmapAllocated + bmapAllocEntries) % 2 ^ 32
    match realloc with
    | .refused => .error .exited
    | .stays => .ok { s with bmapAllocated }
    | .moves => .ok { s with bmap := s.bmap + 1, bmapAllocated }
  else .ok s

section Insert

variable [DecidableEq ι]

def setBlocks (s : BlockTable ι) (i : ι) (p : Pointer) : BlockTable ι :=
  { s with inodes := update s.inodes i { s.inodes i with blocks := some p } }

def setLastBlock (s : BlockTable ι) (i : ι) (p : Pointer) : BlockTable ι :=
  { s with inodes := update s.inodes i { s.inodes i with lastBlock := some p } }

/-- The new entry with `-t`: `new->u.inode = inode`. -/
def tagEntry (s : BlockTable ι) (call : InsertCall ι) : BlockTable ι :=
  let new : Pointer := ⟨s.bmap, s.mapCount⟩
  (s.push ⟨⟨call.block, 1, call.offset⟩, .inode call.inode⟩).setLastBlock call.inode new

/-- The first one of an inode: `inode->blocks = new`. -/
def firstEntry (s : BlockTable ι) (call : InsertCall ι) : BlockTable ι :=
  let new : Pointer := ⟨s.bmap, s.mapCount⟩
  let s' := s.push ⟨⟨call.block, 1, call.offset⟩, .next none⟩
  (s'.setBlocks call.inode new).setLastBlock call.inode new

/-- One behind entry `k`: `inode->last_block->u.next = new`. -/
def linkEntry (s : BlockTable ι) (call : InsertCall ι) (k : ℕ) : BlockTable ι :=
  let new : Pointer := ⟨s.bmap, s.mapCount⟩
  let s' := s.push ⟨⟨call.block, 1, call.offset⟩, .next none⟩
  (s'.write k { s'.entries k with u := .next (some new) }).setLastBlock call.inode new

/-- The third part: the new entry, and the addresses of it. -/
def addEntry (s : BlockTable ι) (call : InsertCall ι) : Except MapStop (BlockTable ι) :=
  if s.bmapAllocated ≤ s.mapCount then .error .undefined
  else if s.dumpTimes then .ok (s.tagEntry call)
  else
    match (s.inodes call.inode).lastBlock with
    | none => .ok (s.firstEntry call)
    | some last =>
        match s.read last with
        | none => .error .undefined
        | some _ => .ok (s.linkEntry call last.index)

/-- `insert_new_block` -/
def insertNewBlock (s : BlockTable ι) (call : InsertCall ι) : Except MapStop (BlockTable ι) :=
  match s.prolongLast call with
  | .error stop => .error stop
  | .ok (some s') => .ok s'
  | .ok none => (s.grow call.realloc).bind fun s' => s'.addEntry call

end Insert

/-- What `u.next` of an entry leads to. -/
def next (s : BlockTable ι) (p : Pointer) : Option (Option Pointer) :=
  match s.read p with
  | some ⟨_, .next q⟩ => some q
  | _ => none

/-- The loop of `dump_inode`; `n` bounds the turns. It has no outcome where it reads outside of the
array or is not through. -/
def dumpBlocks (s : BlockTable ι) : ℕ → Option Pointer → Option (List BlockMap)
  | _, none => some []
  | 0, some _ => none
  | n + 1, some p =>
      match s.read p with
      | some ⟨extent, .next q⟩ => (dumpBlocks s n q).map (extent :: ·)
      | _ => none

section Fields

variable {s : BlockTable ι} {e : BlockEntry ι} {i j : ι} {k m : ℕ} {p : Pointer}

@[simp] theorem write_entries : (s.write k e).entries m = if m = k then e else s.entries m :=
  update_apply s.entries k e m

@[simp] theorem write_inodes : (s.write k e).inodes = s.inodes := rfl

@[simp] theorem push_entries : (s.push e).entries m = if m = s.mapCount then e else s.entries m :=
  write_entries

@[simp] theorem push_inodes : (s.push e).inodes = s.inodes := rfl

variable [DecidableEq ι]

@[simp] theorem setBlocks_entries : (s.setBlocks i p).entries = s.entries := rfl

@[simp] theorem setLastBlock_entries : (s.setLastBlock i p).entries = s.entries := rfl

/-- The links of an inode are written one at a time. -/
@[simp] theorem setBlocks_blocks :
    ((s.setBlocks i p).inodes j).blocks = if j = i then some p else (s.inodes j).blocks := by
  by_cases hj : j = i
  · subst hj
    simp [setBlocks]
  · simp [setBlocks, hj]

@[simp] theorem setBlocks_lastBlock :
    ((s.setBlocks i p).inodes j).lastBlock = (s.inodes j).lastBlock := by
  by_cases hj : j = i
  · subst hj
    simp [setBlocks]
  · simp [setBlocks, hj]

@[simp] theorem setLastBlock_blocks :
    ((s.setLastBlock i p).inodes j).blocks = (s.inodes j).blocks := by
  by_cases hj : j = i
  · subst hj
    simp [setLastBlock]
  · simp [setLastBlock, hj]

@[simp] theorem setLastBlock_lastBlock :
    ((s.setLastBlock i p).inodes j).lastBlock = if j = i then some p else (s.inodes j).lastBlock := by
  by_cases hj : j = i
  · subst hj
    simp [setLastBlock]
  · simp [setLastBlock, hj]

end Fields

end BlockTable

/-- What `dump_inode` prints: the name, the number of the inode, and a line for each extent. -/
structure InodeDump where
  name : Option (List UInt8)
  ino : ℤ
  extents : List BlockMap
  deriving DecidableEq, Repr

/-- `dump_inode` -/
def BlockTable.dumpInode (s : BlockTable ι) (n : ℕ) (i : ι) : Option InodeDump :=
  (s.dumpBlocks n (s.inodes i).blocks).map fun extents =>
    ⟨(s.inodes i).name, toInt (s.inodes i).ino, extents⟩

/-! ## §2 — what the table is for -/

/-- A block of an inode is recorded: its last extent becomes longer, or it has another one. -/
def recordBlock (blocks : List BlockMap) (offset : ℤ) (block : ℕ) : List BlockMap :=
  match blocks.getLast? with
  | some last =>
      if last.Continues offset block then blocks.dropLast ++ [last.prolong]
      else blocks ++ [⟨block, 1, offset⟩]
  | none => [⟨block, 1, offset⟩]

variable {blocks : List BlockMap} {last : BlockMap} {offset : ℤ} {block : ℕ}

theorem recordBlock_nil : recordBlock [] offset block = [⟨block, 1, offset⟩] := rfl

theorem recordBlock_prolong (h : last.Continues offset block) :
    recordBlock (blocks ++ [last]) offset block = blocks ++ [last.prolong] := by
  rw [recordBlock, List.getLast?_concat]
  dsimp only
  rw [if_pos h, List.dropLast_concat]

theorem recordBlock_append (h : ∀ last ∈ blocks.getLast?, ¬ last.Continues offset block) :
    recordBlock blocks offset block = blocks ++ [⟨block, 1, offset⟩] := by
  unfold recordBlock
  cases hlast : blocks.getLast? with
  | none => rw [List.getLast?_eq_none_iff.1 hlast, List.nil_append]
  | some last => exact if_neg (h last hlast)

/-- As long as the last extent ends below `2 ^ 32`, this is the list `store_block` keeps. -/
theorem recordBlock_eq_insertNewBlock
    (h : ∀ last ∈ blocks.getLast?, last.block + last.len + 1 < 2 ^ 32) :
    recordBlock blocks offset block = insertNewBlock blocks offset block := by
  unfold recordBlock insertNewBlock
  cases hlast : blocks.getLast? with
  | none => rw [List.getLast?_eq_none_iff.1 hlast, List.nil_append]
  | some last =>
      have hfits := h last hlast
      have hstop : (last.block + last.len) % 2 ^ 32 = last.block + last.len :=
        Nat.mod_eq_of_lt (by omega)
      have hlen : (last.len + 1) % 2 ^ 32 = last.len + 1 := Nat.mod_eq_of_lt (by omega)
      simp only [BlockMap.Continues, BlockMap.prolong, hstop, hlen]

/-- The table after some calls, or why they stopped, and the extents recorded for each inode. -/
structure Recording (ι : Type*) where
  table : Except MapStop (BlockTable ι)
  recorded : ι → List BlockMap

/-- A call of `insert_new_block`. -/
def Recording.insert [DecidableEq ι] (r : Recording ι) (call : InsertCall ι) : Recording ι where
  table := r.table.bind fun s => s.insertNewBlock call
  recorded :=
    update r.recorded call.inode (recordBlock (r.recorded call.inode) call.offset call.block)

def Recording.step [DecidableEq ι] (r : Recording ι) (call : InsertCall ι) : Option (Recording ι) :=
  some (r.insert call)

/-- Nothing is recorded yet: the addresses are NULL and the counters zero. -/
def Recording.start (dumpTimes : Bool) (ino : ι → ℕ) (name : ι → Option (List UInt8)) :
    Recording ι where
  table := .ok {
    dumpTimes
    bmap := 0
    entries := fun _ => ⟨⟨0, 0, 0⟩, .next none⟩
    mapCount := 0
    bmapAllocated := 0
    inodes := fun i => ⟨ino i, name i, none, none⟩ }
  recorded := fun _ => []

/-- An entry in use of the array that `bmap` designates. -/
def BlockTable.RefersTo (s : BlockTable ι) (p : Pointer) : Prop :=
  p.array = s.bmap ∧ p.index < s.mapCount

/-- All addresses of entries refer to that array. -/
structure BlockTable.PointersCurrent (s : BlockTable ι) : Prop where
  blocks : ∀ i, ∀ p ∈ (s.inodes i).blocks, s.RefersTo p
  lastBlock : ∀ i, ∀ p ∈ (s.inodes i).lastBlock, s.RefersTo p
  next : ∀ k < s.mapCount, ∀ p, (s.entries k).u = .next (some p) → s.RefersTo p

/-- `dump_inode` lists for each inode what was recorded for it. -/
def BlockTable.Lists (s : BlockTable ι) (recorded : ι → List BlockMap) : Prop :=
  ∀ i n, s.mapCount ≤ n →
    s.dumpInode n i = some ⟨(s.inodes i).name, toInt (s.inodes i).ino, recorded i⟩

/-- The table is as it is meant to be, if the program is still running; with `-t` nothing is listed by
`dump_inode`. -/
def Recording.Right (r : Recording ι) : Prop :=
  match r.table with
  | .ok s => s.PointersCurrent ∧ (s.dumpTimes = false → s.Lists r.recorded)
  | .error .exited => True
  | .error .undefined => False

/-- The block continues the last extent of the inode. -/
def BlockTable.Prolongs (s : BlockTable ι) (call : InsertCall ι) : Prop :=
  ∃ last ∈ (s.inodes call.inode).lastBlock,
    (s.entries last.index).extent.Continues call.offset call.block

/-- There are addresses of entries that a call for `i` does not overwrite. -/
def BlockTable.LeavesPointers (s : BlockTable ι) (i : ι) : Prop :=
  if s.dumpTimes then ∃ j, j ≠ i ∧ (s.inodes j).lastBlock ≠ none else 0 < s.mapCount

/-- The call makes the array longer, and either the count of its entries wraps around, or the array
moves and addresses are left behind. -/
structure BlockTable.Strands (s : BlockTable ι) (call : InsertCall ι) : Prop where
  full : s.bmapAllocated ≤ s.mapCount
  isNew : ¬ s.Prolongs call
  granted : call.realloc ≠ .refused
  leaves : 2 ^ 32 ≤ s.bmapAllocated + bmapAllocEntries ∨
    call.realloc = .moves ∧ s.LeavesPointers call.inode

/-- The program is still running, and the call strands. -/
def Recording.Strands (r : Recording ι) (call : InsertCall ι) : Prop :=
  ∃ s, r.table = .ok s ∧ s.Strands call

end Prefetch.Remap

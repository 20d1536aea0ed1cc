/-
# Prefetch.MoveBlocks.VerifyLayout — checking a filesystem against a layout (`verifyfslayout.py`)

`verify_layout` collects the blocks of a layout, asks `e2blockmap` where those of each line lie, and goes
over them in layout order: none may lie before the one before it, and at most three blocks may lie between
two of them. Blocks `e2blockmap` does not list are passed over. What the script prints to help is left out.
-/
import Prefetch.Lib.Distinct
import Prefetch.MoveBlocks.BlockMap
import Prefetch.MoveBlocks.LayoutOrder
import Prefetch.MoveBlocks.LayoutText

namespace Prefetch.MoveBlocks

open Distinct Function
open SplitTrace (str int split readlines LayoutLine layoutText)
open Compare (Line)

variable {g : Geometry}

/-! ## §1 — `verify_layout` -/

/-- What the script takes from the system, from `tune2fs` and from `e2blockmap`, which it calls with a file
name, a start and a length and which has a status and an output. -/
structure VerifyEnv where
  pageSize : ℤ
  blockSize : ℤ
  firstInode : ℤ
  e2blockmap : List Char → List Char → List Char → ℤ × List Char

/-- How the script ends. -/
inductive VerifyOutcome
  | verified
  | exited (status : ℕ)
  /-- an uncaught exception -/
  | raised
  deriving DecidableEq, Repr

/-- `blocks`, whose entries are those of `present_blocks`, and `disk_blocks`. -/
structure VerifyState where
  blocks : List (ℤ × ℤ) := []
  diskBlocks : ℤ × ℤ → Option ℤ := fun _ => none

/-- The loop over `range(start, start + length)`. -/
def addBlocks (inode start length : ℤ) (blocks : List (ℤ × ℤ)) : List (ℤ × ℤ) :=
  ((List.range length.toNat).map fun i : ℕ => (inode, start + i)).foldl insertNew blocks

/-- One line of the output of `e2blockmap`. -/
def verifyMapLine (inode start length : ℤ) (diskBlocks : ℤ × ℤ → Option ℤ) (mapLine : Line) :
    Except VerifyOutcome (ℤ × ℤ → Option ℤ) :=
  match split mapLine with
  | [] => .ok diskBlocks
  | [blockNumber, mapInode, mapOffset] =>
      match int blockNumber, int mapInode, int mapOffset with
      | some blockNumber, some mapInode, some mapOffset =>
          if mapInode ≠ inode then .error (.exited 3)
          else if mapOffset < start ∨ start + length ≤ mapOffset then .error (.exited 3)
          else .ok (update diskBlocks (mapInode, mapOffset) (some blockNumber))
      | _, _, _ => .error .raised
  | _ => .error (.exited 3)

/-- One line of the layout. -/
def verifyLine (env : VerifyEnv) (s : VerifyState) (line : Line) : Except VerifyOutcome VerifyState :=
  match split line with
  | [inode, start, length] =>
      match int inode, int start, int length with
      | some inode, some start, some length =>
          let pagesToBlocks := env.pageSize / env.blockSize
          let start := start * pagesToBlocks
          let length := length * pagesToBlocks
          if inode < env.firstInode then .ok s
          else
            let blocks := addBlocks inode start length s.blocks
            let output := env.e2blockmap (str inode) (str start) (str length)
            if output.1 ≠ 0 then .error (.exited 2)
            else
              (((output.2.splitOn '\n').foldlM (verifyMapLine inode start length) s.diskBlocks).map
                (⟨blocks, ·⟩))
      | _, _, _ => .error .raised
  -- an invalid line is printed
  | _ => .ok s

/-- `max_allowed_skip` -/
def maxAllowedSkip : ℤ := 3

/-- The loop that compares the layout with the disk, from a `last_block` on; false is `sys.exit(6)`. -/
def compareBlocks (diskBlocks : ℤ × ℤ → Option ℤ) : Option ℤ → List (ℤ × ℤ) → Bool
  | _, [] => true
  | lastBlock, q :: blocks =>
      match diskBlocks q with
      | none => compareBlocks diskBlocks lastBlock blocks
      | some block =>
          match lastBlock with
          | none => compareBlocks diskBlocks (some block) blocks
          | some lastBlock =>
              if block < lastBlock then false
              else if maxAllowedSkip < block - lastBlock - 1 then false
              else compareBlocks diskBlocks (some block) blocks

/-- `verify_layout` on the text of the layout file. -/
def verifyLayout (env : VerifyEnv) (text : List Char) : VerifyOutcome :=
  match ((readlines text).takeWhile (· ≠ [])).foldlM (verifyLine env) {} with
  | .error outcome => outcome
  | .ok s => if compareBlocks s.diskBlocks none s.blocks then .verified else .exited 6

/-- `verify_layout` run where `e2moveblocks` runs: pages and inodes as there, and `e2blockmap` on the
filesystem, with the arguments the script passes. -/
def verifyEnv (lib : Ext2fs g) (v : View g) (env : LayoutEnv) : VerifyEnv where
  pageSize := env.pageSize
  blockSize := blocksize g
  firstInode := env.firstIno
  e2blockmap fileName start length :=
    (0, showFileBlockmap lib v env fileName (atol start) (atol length) false false false)

/-! ## §2 — the comparison -/

/-- Blocks in the order and with the gaps the script allows. -/
def Tolerated (b b' : ℤ) : Prop := b ≤ b' ∧ b' ≤ b + 4

theorem compareBlocks_iff (diskBlocks : ℤ × ℤ → Option ℤ) (lastBlock : Option ℤ) (blocks : List (ℤ × ℤ)) :
    compareBlocks diskBlocks lastBlock blocks = true
      ↔ (lastBlock.toList ++ blocks.filterMap diskBlocks).IsChain Tolerated := by
  induction blocks generalizing lastBlock with
  | nil => cases lastBlock <;> simp [compareBlocks]
  | cons q blocks ih =>
      rw [compareBlocks]
      cases hq : diskBlocks q with
      | none =>
          rw [List.filterMap_cons_none hq]
          exact ih lastBlock
      | some block =>
          rw [List.filterMap_cons_some hq]
          cases lastBlock with
          | none => exact ih (some block)
          | some last =>
              have hih := ih (some block)
              simp only [Option.toList_some, List.singleton_append] at hih ⊢
              rw [List.isChain_cons_cons, ← hih]
              unfold Tolerated maxAllowedSkip
              split_ifs with h1 h2
              · simp only [false_iff, not_and]
                omega
              · simp only [false_iff, not_and]
                omega
              · simp only [iff_and_self]
                omega

/-! ## §3 — the output of `e2blockmap`, read back -/

section Output

variable {lib : Ext2fs g} {v : View g} {n start length : ℕ}

theorem toSigned_eq (h : n < 2 ^ 31) : toSigned n = n := if_pos h

/-- A line of the output without its newline. -/
def mapBody (v : View g) (n : ℕ) (p : Place g) : List Char :=
  str (v.ref p) ++ ' ' :: (str n ++ ' ' :: str p.first)

theorem printBlock_eq (hn : n < 2 ^ 31) {p : Place g} (hp : p.IsData) :
    printBlock n (p.call v) = mapBody v n p ++ ['\n'] := by
  have hlevel : p.level = 0 := Place.level_eq (n := 0) hp
  unfold printBlock mapBody
  rw [toSigned_eq hn, Place.blockcnt_of_data hlevel]
  simp only [List.append_assoc, List.cons_append, List.nil_append]
  rfl

theorem split_mapBody (p : Place g) : split (mapBody v n p) = [str (v.ref p), str n, str p.first] := by
  have hspace : Compare.space ' ' = true := by decide
  rw [SplitTrace.split, mapBody, (SplitTrace.isField_str _).fields_append hspace,
    (SplitTrace.isField_str _).fields_append hspace, (SplitTrace.isField_str _).fields_eq]

/-- The pieces of a text of lines: the lines, and an empty one behind the last newline. -/
theorem splitOn_flatMap {α : Type*} (items : List α) (body : α → List Char)
    (h : ∀ a ∈ items, SplitTrace.OneLine (body a)) :
    (items.flatMap fun a => body a ++ ['\n']).splitOn '\n' = items.map body ++ [[]] := by
  induction items with
  | nil => rfl
  | cons a items ih =>
      have hline : ∀ c ∈ body a, (c == '\n') = false := fun c hc => by
        rw [beq_eq_false_iff_ne]
        rintro rfl
        exact h a List.mem_cons_self hc
      rw [List.flatMap_cons, List.append_assoc, List.singleton_append, List.splitOn_eq_splitOnP,
        List.splitOnP_append_cons_of_forall_mem hline '\n' (by decide), ← List.splitOn_eq_splitOnP,
        ih fun a' ha' => h a' (List.mem_cons_of_mem a ha')]
      rfl

/-- What `disk_blocks` has after the lines of a range: the blocks of the range that are there. -/
def diskAfter (v : View g) (n start length : ℕ) (diskBlocks : ℤ × ℤ → Option ℤ) : ℤ × ℤ → Option ℤ :=
  (placesInRange v n start length).foldl
    (fun disk p => update disk ((n : ℤ), (p.first : ℤ)) (some (v.ref p : ℤ))) diskBlocks

theorem oneLine_mapBody (p : Place g) : SplitTrace.OneLine (mapBody v n p) := by
  have hstr := fun z => SplitTrace.oneLine_of_isWord (SplitTrace.isField_str z)
  unfold mapBody SplitTrace.OneLine
  simp only [List.mem_append, List.mem_cons, not_or]
  exact ⟨hstr _, by decide, hstr _, by decide, hstr _⟩

/-- The lines of places in the range are accepted, and each gives an entry. -/
theorem foldlM_verifyMapLine (places : List (Place g))
    (h : ∀ p ∈ places, start ≤ p.first ∧ p.first < start + length) (diskBlocks : ℤ × ℤ → Option ℤ) :
    (places.map (mapBody v n) ++ [[]]).foldlM (verifyMapLine n start length) diskBlocks
      = .ok (places.foldl (fun disk p => update disk ((n : ℤ), (p.first : ℤ)) (some (v.ref p : ℤ)))
          diskBlocks) := by
  induction places generalizing diskBlocks with
  | nil => rfl
  | cons p places ih =>
      obtain ⟨hlo, hhi⟩ := h p List.mem_cons_self
      have hline : verifyMapLine n start length diskBlocks (mapBody v n p)
          = .ok (update diskBlocks ((n : ℤ), (p.first : ℤ)) (some (v.ref p : ℤ))) := by
        unfold verifyMapLine
        rw [split_mapBody]
        simp only [SplitTrace.int_str]
        rw [if_neg (by simp), if_neg (by omega)]
      rw [List.map_cons, List.cons_append, List.foldlM_cons, hline, List.foldl_cons]
      exact ih (fun p' hp' => h p' (List.mem_cons_of_mem p hp')) _

/-- **`e2blockmap` is understood**: the script gets from its output where the blocks of the range lie. -/
theorem foldlM_showFileBlockmap (hlib : lib.Documented) (env : LayoutEnv) (hn : n < 2 ^ 31)
    (hend : start + length < 2 ^ 63) (hfile : Traversable v n) (diskBlocks : ℤ × ℤ → Option ℤ) :
    ((showFileBlockmap lib v env (str n) (atol (str start)) (atol (str length)) false false false).splitOn
        '\n').foldlM (verifyMapLine n start length) diskBlocks
      = .ok (diskAfter v n start length diskBlocks) := by
  have hinode := fieldInode_str env (hn.trans (by decide : 2 ^ 31 < 2 ^ 32))
  have hprinted := showFileBlockmap_eq hlib env (str n) start length false false
    (fun m hm => by
      cases hinode.symm.trans hm
      exact hfile) (fun _ => by omega)
  rw [hinode] at hprinted
  have hstart : atol (str start) = start := atol_str (by omega) (by omega)
  have hlength : atol (str length) = length := atol_str (by omega) (by omega)
  rw [hstart, hlength, hprinted]
  dsimp only
  have htext : (placesInRange v n start length).flatMap (fun p => printBlock n (p.call v))
      = (placesInRange v n start length).flatMap fun p => mapBody v n p ++ ['\n'] :=
    List.flatMap_congr fun p hp => printBlock_eq hn (mem_placesInRange.mp hp).2.2.1
  rw [Bool.not_false, wantedLines_dataOnly, htext, splitOn_flatMap _ _ fun p _ => oneLine_mapBody p]
  exact foldlM_verifyMapLine _ (fun p hp => (mem_placesInRange.mp hp).2.2.2) diskBlocks

end Output

/-! ## §4 — the blocks of a layout and where they lie -/

section Lookup

variable {P K V : Type*} [DecidableEq K] {items : List P} {key : P → K} {value : P → V}

/-- Entries made one by one, no key having two values. -/
theorem foldl_update_of_mem (hvalue : ∀ p ∈ items, ∀ q ∈ items, key p = key q → value p = value q)
    (entries : K → Option V) {p : P} (hp : p ∈ items) :
    items.foldl (fun entries p => update entries (key p) (some (value p))) entries (key p)
      = some (value p) := by
  induction items using List.reverseRecOn with
  | nil => cases hp
  | append_singleton items q ih =>
      rw [List.foldl_append, List.foldl_cons, List.foldl_nil]
      have hq : q ∈ items ++ [q] := List.mem_append_right _ (List.mem_singleton_self q)
      by_cases hkey : key p = key q
      · rw [hkey, update_self, hvalue p hp q hq hkey]
      · rw [update_of_ne hkey]
        refine ih (fun a ha b hb => hvalue a (List.mem_append_left _ ha) b (List.mem_append_left _ hb)) ?_
        rcases List.mem_append.mp hp with hp | hp
        · exact hp
        · exact absurd (congrArg key (List.mem_singleton.mp hp)) hkey

theorem foldl_update_of_forall_ne (entries : K → Option V) {k : K} (h : ∀ p ∈ items, key p ≠ k) :
    items.foldl (fun entries p => update entries (key p) (some (value p))) entries k = entries k := by
  induction items generalizing entries with
  | nil => rfl
  | cons p items ih =>
      rw [List.foldl_cons, ih _ fun q hq => h q (List.mem_cons_of_mem p hq),
        update_of_ne (h p List.mem_cons_self).symm]

end Lookup

/-- A pair as the script has it. -/
def castPair (q : ℕ × ℕ) : ℤ × ℤ := (q.1, q.2)

theorem castPair_injective : Injective castPair := by
  rintro ⟨a, b⟩ ⟨c, d⟩ h
  have hfirst : (a : ℤ) = c := congrArg Prod.fst h
  have hsecond : (b : ℤ) = d := congrArg Prod.snd h
  rw [Int.ofNat_inj.mp hfirst, Int.ofNat_inj.mp hsecond]

section State

variable {lib : Ext2fs g} {v : View g} {env : LayoutEnv}

/-- The block of a data place is the one at its offset. -/
theorem dataBlock_of_isData {p : Place g} (h : p.IsData) : dataBlock v (p.inodeNumber, p.first) = v.ref p := by
  rw [dataBlock, offsetPlace_first h]

/-- An offset with a block has a place. -/
theorem exists_place_of_dataBlock {q : ℕ × ℕ} (h : dataBlock v q ≠ 0) :
    ∃ p : Place g, p.IsData ∧ p.inodeNumber = q.1 ∧ p.first = q.2 ∧ v.ref p = dataBlock v q := by
  unfold dataBlock at h ⊢
  cases hplace : (offsetPlace q.1 q.2 : Option (Place g)) with
  | none =>
      rw [hplace] at h
      exact absurd rfl h
  | some p =>
      obtain ⟨hinode, hfirst⟩ := first_of_offsetPlace hplace
      exact ⟨p, offsetPlace_isData hplace, hinode, hfirst, rfl⟩

/-- After the output for a range, the entries of the range say where its blocks lie. -/
theorem diskAfter_castPair (n start length : ℕ) (diskBlocks : ℤ × ℤ → Option ℤ) (q : ℕ × ℕ) :
    diskAfter v n start length diskBlocks (castPair q)
      = if q.1 = n ∧ start ≤ q.2 ∧ q.2 < start + length ∧ dataBlock v q ≠ 0 then some (dataBlock v q : ℤ)
        else diskBlocks (castPair q) := by
  unfold diskAfter
  split_ifs with h
  · obtain ⟨hn, hlo, hhi, hblock⟩ := h
    obtain ⟨p, hdata, hinode, hfirst, href⟩ := exists_place_of_dataBlock hblock
    have hmem : p ∈ placesInRange v n start length :=
      mem_placesInRange.mpr ⟨hinode.trans hn, href ▸ hblock, hdata, hfirst ▸ hlo, hfirst ▸ hhi⟩
    have hkey : castPair q = ((n : ℤ), (p.first : ℤ)) := by rw [castPair, hn, hfirst]
    rw [hkey, ← href]
    refine foldl_update_of_mem (K := ℤ × ℤ) (V := ℤ) (P := Place g) (fun a ha b hb hkey => ?_) diskBlocks hmem
    -- one offset has one place
    obtain ⟨hainode, -, hadata, -⟩ := mem_placesInRange.mp ha
    obtain ⟨hbinode, -, hbdata, -⟩ := mem_placesInRange.mp hb
    have hsame : (a.first : ℤ) = b.first := congrArg Prod.snd hkey
    rw [Place.eq_of_first hadata hbdata (hainode.trans hbinode.symm) (Int.ofNat_inj.mp hsame)]
  · refine foldl_update_of_forall_ne diskBlocks fun p hp hkey => h ?_
    obtain ⟨hinode, hne, hdata, hlo, hhi⟩ := mem_placesInRange.mp hp
    have hq : q = (n, p.first) := castPair_injective hkey.symm
    subst hq
    have hblock : dataBlock v (n, p.first) = v.ref p := hinode ▸ dataBlock_of_isData hdata
    exact ⟨rfl, hlo, hhi, hblock ▸ hne⟩

variable (g) in
/-- The (inode, block offset) pairs of a line of a layout, without regard to the size of the file. -/
def linePairs (env : LayoutEnv) (n start length : ℕ) : List (ℕ × ℕ) :=
  if n < env.firstIno then []
  else
    (List.range (length * pageToBlocksFactor g env)).map fun i => (n, start * pageToBlocksFactor g env + i)

variable (g) in
/-- The pairs of a layout, in order. -/
def chunkPairs (env : LayoutEnv) (chunk : List LayoutLine) : List (ℕ × ℕ) :=
  chunk.flatMap fun e => linePairs g env e.inode.toNat e.start.toNat e.length.toNat

/-- The state after lines with these pairs. -/
structure Collected (v : View g) (pairs : List (ℕ × ℕ)) (s : VerifyState) : Prop where
  blocks : s.blocks = (pairs.map castPair).eraseDups
  disk : ∀ q, s.diskBlocks (castPair q)
    = if q ∈ pairs ∧ dataBlock v q ≠ 0 then some (dataBlock v q : ℤ) else none

theorem collected_nil : Collected v [] {} where
  blocks := rfl
  disk _ := (if_neg fun h => absurd h.1 List.not_mem_nil).symm

theorem mem_linePairs {n start length : ℕ} (hn : ¬ n < env.firstIno) {q : ℕ × ℕ} :
    q ∈ linePairs g env n start length ↔ q.1 = n ∧ start * pageToBlocksFactor g env ≤ q.2
      ∧ q.2 < start * pageToBlocksFactor g env + length * pageToBlocksFactor g env := by
  rw [linePairs, if_neg hn, List.mem_map]
  constructor
  · rintro ⟨i, hi, rfl⟩
    have hlt := List.mem_range.mp hi
    exact ⟨rfl, Nat.le_add_right _ _, Nat.add_lt_add_left hlt _⟩
  · rintro ⟨rfl, hlo, hhi⟩
    refine ⟨q.2 - start * pageToBlocksFactor g env, List.mem_range.mpr (by omega), ?_⟩
    rw [Nat.add_sub_cancel' hlo]

/-- **A line of the layout** adds its pairs. -/
theorem Collected.verifyLine (hlib : lib.Documented) {pairs : List (ℕ × ℕ)} {s : VerifyState}
    (h : Collected v pairs s) {n start length : ℕ}
    (hrange : InRange32 (pageToBlocksFactor g env) ⟨n, start, length⟩)
    (hfile : env.firstIno ≤ n → Traversable v n) :
    ∃ s', verifyLine (verifyEnv lib v env) s (LayoutLine.format ⟨n, start, length⟩) = .ok s'
      ∧ Collected v (pairs ++ linePairs g env n start length) s' := by
  obtain ⟨hn, hwrap⟩ := hrange.bounds
  have hpages : (env.pageSize : ℤ) / (blocksize g : ℤ) = pageToBlocksFactor g env :=
    (Int.natCast_ediv env.pageSize (blocksize g)).symm
  unfold MoveBlocks.verifyLine
  rw [LayoutLine.split_format]
  simp only [SplitTrace.int_str]
  by_cases hreserved : n < env.firstIno
  · refine ⟨s, if_pos (Int.ofNat_lt.mpr hreserved), ?_⟩
    rw [linePairs, if_pos hreserved, List.append_nil]
    exact h
  · have hkeep : ¬ (n : ℤ) < (verifyEnv lib v env).firstInode := fun hlt => hreserved (Int.ofNat_lt.mp hlt)
    rw [if_neg hkeep]
    show ∃ s', (if (0 : ℤ) ≠ 0 then _ else _) = _ ∧ _
    rw [if_neg (not_not.mpr rfl)]
    simp only [verifyEnv, hpages]
    generalize hf : pageToBlocksFactor g env = factor at hwrap
    rw [Nat.add_mul] at hwrap
    have hcast : ∀ m : ℕ, (m : ℤ) * factor = (m * factor : ℕ) := fun m => (Nat.cast_mul m factor).symm
    rw [hcast, hcast, foldlM_showFileBlockmap hlib env hn (by omega) (hfile (not_lt.mp hreserved))]
    refine ⟨_, rfl, ?_, fun q => ?_⟩
    · have hpairs : ((List.range ((length * factor : ℕ) : ℤ).toNat).map
          fun i : ℕ => ((n : ℤ), ((start * factor : ℕ) : ℤ) + i))
          = (linePairs g env n start length).map castPair := by
        rw [linePairs, if_neg hreserved, List.map_map, hf]
        rfl
      show addBlocks _ _ _ s.blocks = _
      rw [addBlocks, hpairs, h.blocks, foldl_insertNew, List.map_append]
    · show diskAfter v n (start * factor) (length * factor) s.diskBlocks (castPair q) = _
      rw [diskAfter_castPair, h.disk q]
      have hmem : q ∈ linePairs g env n start length ↔ _ := mem_linePairs hreserved
      rw [hf] at hmem
      simp only [List.mem_append, hmem]
      by_cases hzero : dataBlock v q = 0
      · simp only [hzero, ne_eq, not_true, and_false, if_false]
      by_cases hin : q.1 = n ∧ start * factor ≤ q.2 ∧ q.2 < start * factor + length * factor
      · rw [if_pos ⟨hin.1, hin.2.1, hin.2.2, hzero⟩, if_pos ⟨.inr hin, hzero⟩]
      · rw [if_neg fun h => hin ⟨h.1, h.2.1, h.2.2.1⟩]
        by_cases hold : q ∈ pairs
        · rw [if_pos ⟨hold, hzero⟩, if_pos ⟨.inl hold, hzero⟩]
        · rw [if_neg fun h => hold h.1, if_neg fun h => h.1.elim hold hin]

/-- The library can go over the inodes of a layout, but for the reserved ones, which the script passes over. -/
def LinesTraversable (v : View g) (env : LayoutEnv) (chunk : List LayoutLine) : Prop :=
  ∀ e ∈ chunk, env.firstIno ≤ e.inode.toNat → Traversable v e.inode.toNat

/-- The pairs of all lines are collected. -/
theorem foldlM_verifyLine (hlib : lib.Documented) {chunk : List LayoutLine}
    (hchunk : ∀ e ∈ chunk, InRange32 (pageToBlocksFactor g env) e) (hfiles : LinesTraversable v env chunk) :
    ∃ s, (chunk.map LayoutLine.format).foldlM (MoveBlocks.verifyLine (verifyEnv lib v env)) {} = .ok s
      ∧ Collected v (chunkPairs g env chunk) s := by
  have hrun : ∀ (pairs : List (ℕ × ℕ)) (s : VerifyState), Collected v pairs s →
      ∃ s', (chunk.map LayoutLine.format).foldlM (MoveBlocks.verifyLine (verifyEnv lib v env)) s = .ok s'
        ∧ Collected v (pairs ++ chunkPairs g env chunk) s' := by
    induction chunk with
    | nil =>
        intro pairs s h
        exact ⟨s, rfl, (List.append_nil pairs).symm ▸ h⟩
    | cons e chunk ih =>
        intro pairs s h
        obtain ⟨n, start, length, rfl⟩ := (hchunk e List.mem_cons_self).exists_nat
        obtain ⟨s₁, hline, h₁⟩ := h.verifyLine hlib (hchunk _ List.mem_cons_self) (hfiles _ List.mem_cons_self)
        obtain ⟨s', hrest, h'⟩ := ih (fun e he => hchunk e (List.mem_cons_of_mem _ he))
          (fun e he => hfiles e (List.mem_cons_of_mem _ he)) _ s₁ h₁
        refine ⟨s', ?_, ?_⟩
        · rw [List.map_cons, List.foldlM_cons, hline]
          exact hrest
        · rw [chunkPairs, List.flatMap_cons, ← List.append_assoc]
          exact h'
  exact hrun [] {} collected_nil

/-- The script compares the collected pairs: it does not end before. -/
theorem verifyLayout_eq (hlib : lib.Documented) {chunk : List LayoutLine}
    (hchunk : ∀ e ∈ chunk, InRange32 (pageToBlocksFactor g env) e) (hfiles : LinesTraversable v env chunk) :
    ∃ s, Collected v (chunkPairs g env chunk) s ∧ verifyLayout (verifyEnv lib v env) (layoutText chunk)
      = if compareBlocks s.diskBlocks none s.blocks then .verified else .exited 6 := by
  obtain ⟨s, hrun, hstate⟩ := foldlM_verifyLine hlib hchunk hfiles
  have hlines : (readlines (layoutText chunk)).takeWhile (· ≠ []) = chunk.map LayoutLine.format := by
    rw [SplitTrace.readlines_layoutText, List.takeWhile_eq_self_iff]
    intro line hline
    obtain ⟨e, -, rfl⟩ := List.mem_map.mp hline
    rw [e.format_eq]
    simp
  refine ⟨s, hstate, ?_⟩
  unfold verifyLayout
  rw [hlines, hrun]

/-- A pair whose block is that of the pair before it, or up to four behind it: three blocks may lie between. -/
def Near (v : View g) (q q' : ℕ × ℕ) : Prop :=
  dataBlock v q ≤ dataBlock v q' ∧ dataBlock v q' ≤ dataBlock v q + 4

/-- The comparison of collected pairs: of those that have a block, each taken where it first occurs. -/
theorem Collected.compareBlocks_iff {pairs : List (ℕ × ℕ)} {s : VerifyState} (h : Collected v pairs s) :
    compareBlocks s.diskBlocks none s.blocks = true
      ↔ (pairs.eraseDups.filter (dataBlock v · ≠ 0)).IsChain (Near v) := by
  have hblocks : s.blocks.filterMap s.diskBlocks
      = (pairs.eraseDups.filter (dataBlock v · ≠ 0)).map fun q => (dataBlock v q : ℤ) := by
    rw [h.blocks, ← map_eraseDups castPair_injective, List.filterMap_map, ← List.filterMap_eq_map,
      List.filterMap_filter]
    refine List.filterMap_congr fun q hq => ?_
    have hmem : q ∈ pairs := List.mem_eraseDups.mp hq
    show s.diskBlocks (castPair q) = _
    rw [h.disk]
    by_cases hzero : dataBlock v q = 0
    · simp [hzero]
    · simp [hzero, hmem]
  have hcompare := MoveBlocks.compareBlocks_iff s.diskBlocks none s.blocks
  rw [hblocks, Option.toList_none, List.nil_append, List.isChain_map] at hcompare
  have hchain : ∀ q q' : ℕ × ℕ, Tolerated (dataBlock v q : ℤ) (dataBlock v q' : ℤ) ↔ Near v q q' := by
    intro q q'
    unfold Tolerated Near
    omega
  simp only [hchain] at hcompare
  exact hcompare

/-- **What `verifyfslayout.py` verifies.** On a layout as `split-prefetch-trace.py` writes it: that of the
pairs of the layout that have a block, each taken where it first occurs, none has its block before that of
the pair before it, nor with more than three other blocks between. If that is not so it exits with `6`. -/
theorem verifyLayout_iff (hlib : lib.Documented) {env : LayoutEnv} {chunk : List LayoutLine}
    (hchunk : ∀ e ∈ chunk, InRange32 (pageToBlocksFactor g env) e) (hfiles : LinesTraversable v env chunk) :
    (verifyLayout (verifyEnv lib v env) (layoutText chunk) = .verified
        ↔ ((chunkPairs g env chunk).eraseDups.filter (dataBlock v · ≠ 0)).IsChain (Near v))
      ∧ (verifyLayout (verifyEnv lib v env) (layoutText chunk) ≠ .verified →
        verifyLayout (verifyEnv lib v env) (layoutText chunk) = .exited 6) := by
  obtain ⟨s, hstate, heq⟩ := verifyLayout_eq hlib hchunk hfiles
  rw [heq, ← hstate.compareBlocks_iff]
  by_cases h : compareBlocks s.diskBlocks none s.blocks = true
  · simp [h]
  · simp [h]

end State

/-! ## §5 — a layout of a small filesystem -/

section Sample

/-- The first and the last page of inode 11. -/
def sampleChunk : List LayoutLine := [⟨11, 0, 1⟩, ⟨11, 3, 1⟩]

theorem sampleChunk_ranges : ∀ e ∈ sampleChunk, InRange32 (pageToBlocksFactor sampleGeometry sampleEnv) e := by
  intro e he
  rcases List.mem_cons.mp he with rfl | he
  · exact ⟨by decide, by decide, by decide, by decide, by decide⟩
  · rw [List.mem_singleton.mp he]
    exact ⟨by decide, by decide, by decide, by decide, by decide⟩

theorem sampleChunk_traversable : LinesTraversable sampleDisk.view sampleEnv sampleChunk := by
  intro e he _
  rcases List.mem_cons.mp he with rfl | he
  · exact sample_traversable
  · rw [List.mem_singleton.mp he]
    exact sample_traversable

/-- The blocks of the two pages are 3 to 6 and 8, so the layout is verified. -/
theorem verifyLayout_iff_sample :
    verifyLayout (verifyEnv (documentedExt2fs sampleGeometry) sampleDisk.view sampleEnv) (layoutText sampleChunk)
      = .verified := by
  refine (verifyLayout_iff documentedExt2fs_documented sampleChunk_ranges sampleChunk_traversable).1.mpr ?_
  unfold Near
  decide

end Sample

end Prefetch.MoveBlocks

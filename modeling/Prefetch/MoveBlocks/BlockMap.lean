/-
# Prefetch.MoveBlocks.BlockMap — printing where the blocks of a file lie (`e2blockmap`)

`e2blockmap` lets `ext2fs_block_iterate2` go over the blocks of a file and prints those in a range of
offsets. `print_file_blocks` gives the traversal up at the first data block behind the range, and it prints
an indirect block when the data block before it was in the range. What is proved is about files with valid
blocks, without the option `holes`, and about ranges whose end is a 64-bit number.
-/
import Prefetch.MoveBlocks.BlockIterate
import Prefetch.MoveBlocks.LayoutList
import Prefetch.MoveBlocks.MainSpec
import Prefetch.Trace.SplitTrace

namespace Prefetch.MoveBlocks

open SplitTrace (str)

variable {g : Geometry}

/-! ## §1 — printing -/

/-- `print_params_t`; `verbose` chooses the two functions that print. -/
structure PrintParams where
  inodeNumber : ℕ
  startOffset : ℤ
  length : ℤ
  printHoles : Bool
  printIndirect : Bool
  verbose : Bool
  inPrintingRange : Bool
  deriving DecidableEq, Repr

/-- An unsigned 32-bit integer printed with `%d`. -/
def toSigned (n : ℕ) : ℤ := if n < 2 ^ 31 then n else n - 2 ^ 32

/-- `block_type_string` -/
def blockTypeString (block : ℤ) : List Char :=
  if block = Remap.blockCountInd then "IND".toList
  else if block = Remap.blockCountDind then "DIND".toList
  else if block = Remap.blockCountTind then "TIND".toList
  else "Unknown".toList

/-- `print_block` and `print_block_verbose` -/
def printBlock (inodeNumber : ℕ) (c : Call) : List Char :=
  str c.blocknr ++ [' '] ++ str (toSigned inodeNumber) ++ [' '] ++ str c.blockcnt ++ ['\n']
def printBlockVerbose (inodeNumber : ℕ) (c : Call) : List Char :=
  "inode=".toList ++ str (toSigned inodeNumber) ++ " blocknumber=".toList ++ str c.blockcnt ++
    " diskblock=".toList ++ str c.blocknr ++ " ref_blk=".toList ++ str c.refBlk ++
    " ref_offset=".toList ++ str c.refOffset ++ ['\n']

/-- `print_indirect` and `print_indirect_verbose` -/
def printIndirect (inodeNumber : ℕ) (c : Call) : List Char :=
  str c.blocknr ++ [' '] ++ str inodeNumber ++ [' '] ++ blockTypeString c.blockcnt ++ ['-'] ++
    str (-c.blockcnt) ++ [' '] ++ str c.refBlk ++ [' '] ++ str c.refOffset ++ ['\n']
def printIndirectVerbose (inodeNumber : ℕ) (c : Call) : List Char :=
  "diskblock=".toList ++ str c.blocknr ++ "  inode=".toList ++ str inodeNumber ++ " type=".toList ++
    blockTypeString c.blockcnt ++ "-indirect_number=".toList ++ str (-c.blockcnt) ++
    " ref_blk=".toList ++ str c.refBlk ++ " ref_offset=".toList ++ str c.refOffset ++ ['\n']

namespace PrintParams

/-- `print_block_fun` and `print_indirect_fun` -/
def printBlockFun (params : PrintParams) : Call → List Char :=
  if params.verbose then printBlockVerbose params.inodeNumber else printBlock params.inodeNumber
def printIndirectFun (params : PrintParams) : Call → List Char :=
  if params.verbose then printIndirectVerbose params.inodeNumber
  else MoveBlocks.printIndirect params.inodeNumber

end PrintParams

/-- What `print_file_blocks` works on: its parameters, and what has been printed. -/
structure Printing where
  params : PrintParams
  printed : List Char

/-- A sum of 64-bit integers. -/
def addInt64 (x y : ℤ) : ℤ := (x + y).bmod (2 ^ 64)

/-- `print_file_blocks` -/
def printFileBlocks : Callback Printing := fun ⟨params, printed⟩ c =>
  if c.blockcnt < 0 then
    if params.printIndirect && params.inPrintingRange then .unchanged ⟨params, printed ++ params.printIndirectFun c⟩
    else .unchanged ⟨params, printed⟩
  else
    let params := { params with inPrintingRange := false }
    if 0 ≤ params.startOffset ∧ c.blockcnt < params.startOffset then
      -- not yet in range
      .unchanged ⟨params, printed⟩
    else if 0 ≤ params.length ∧ addInt64 params.startOffset params.length ≤ c.blockcnt then
      -- went behind range
      .abort ⟨params, printed⟩
    else .unchanged ⟨{ params with inPrintingRange := true }, printed ++ params.printBlockFun c⟩

/-- The fields `main` leaves to its arguments, and what it initialises the others with. -/
def initialParams (inodeNumber : ℕ) (startOffset length : ℤ) (printHoles printIndirect verbose : Bool) :
    PrintParams :=
  ⟨inodeNumber, startOffset, length, printHoles, printIndirect, verbose, false⟩

/-- `show_file_blockmap`, from the numbers in the arguments on: what `main` prints, also where the traversal
fails. -/
def showFileBlockmap (lib : Ext2fs g) (v : View g) (env : LayoutEnv) (fileName : List Char)
    (startOffset length : ℤ) (printHoles printIndirect verbose : Bool) : List Char :=
  match fieldInode env fileName with
  | none => []
  | some inodeNumber =>
      match lib.blockIterate ⟨printHoles, !printIndirect⟩ printFileBlocks v inodeNumber
          ⟨initialParams inodeNumber startOffset length printHoles printIndirect verbose, []⟩ with
      | none => []
      | some iterated => iterated.data.printed

/-! ## §2 — what is printed -/

namespace PrintParams

variable (params : PrintParams)

/-- The offset behind the range, where there is one, is a 64-bit number. -/
def EndFits : Prop :=
  0 ≤ params.length → -2 ^ 63 ≤ params.startOffset + params.length ∧ params.startOffset + params.length < 2 ^ 63

/-- The offsets to print: a negative start or length does not limit them. -/
def InRange (offset : ℤ) : Prop :=
  (0 ≤ params.startOffset → params.startOffset ≤ offset) ∧
    (0 ≤ params.length → offset < params.startOffset + params.length)

instance (offset : ℤ) : Decidable (params.InRange offset) := inferInstanceAs (Decidable (_ ∧ _))

/-- The last data block among these calls is one to print. -/
def FollowsPrinted (before : List Call) : Bool :=
  (before.filter (0 ≤ ·.blockcnt)).getLast?.any fun c => params.InRange c.blockcnt

/-- A call that leads to a line, after those before. -/
def Wanted (before : List Call) (c : Call) : Bool :=
  if c.blockcnt < 0 then params.printIndirect && params.FollowsPrinted before
  else params.InRange c.blockcnt

/-- `Wanted` on a call with those before it. -/
def wantedCall (x : List Call × Call) : Bool := params.Wanted x.1 x.2

/-- The line of a call. -/
def line (c : Call) : List Char :=
  if c.blockcnt < 0 then params.printIndirectFun c else params.printBlockFun c

end PrintParams

/-- Data blocks come in the order of their offsets. -/
def DataAscending (calls : List Call) : Prop :=
  calls.Pairwise fun c d => 0 ≤ c.blockcnt → 0 ≤ d.blockcnt → c.blockcnt < d.blockcnt

/-- Each call with those before it. -/
def withHistory (before : List Call) : List Call → List (List Call × Call)
  | [] => []
  | c :: calls => (before, c) :: withHistory (before ++ [c]) calls

/-- The lines of the wanted calls. -/
def wantedLines (params : PrintParams) (before calls : List Call) : List Char :=
  ((withHistory before calls).filter params.wantedCall).flatMap fun x => params.line x.2

section Printing

variable {params : PrintParams} {before calls : List Call} {c : Call}

theorem wantedLines_cons :
    wantedLines params before (c :: calls)
      = (if params.Wanted before c then params.line c else []) ++ wantedLines params (before ++ [c]) calls := by
  unfold wantedLines
  rw [withHistory]
  by_cases h : params.wantedCall (before, c) = true
  · have hline : (if params.Wanted before c then params.line c else []) = params.line c := if_pos h
    rw [List.filter_cons_of_pos h, List.flatMap_cons, hline]
  · have hline : (if params.Wanted before c then params.line c else []) = [] := if_neg h
    rw [List.filter_cons_of_neg h, hline]
    rfl

theorem followsPrinted_concat_indirect (h : c.blockcnt < 0) :
    params.FollowsPrinted (before ++ [c]) = params.FollowsPrinted before := by
  unfold PrintParams.FollowsPrinted
  rw [List.filter_append, List.filter_cons_of_neg (by simpa using h), List.filter_nil, List.append_nil]

theorem followsPrinted_concat_data (h : 0 ≤ c.blockcnt) :
    params.FollowsPrinted (before ++ [c]) = decide (params.InRange c.blockcnt) := by
  unfold PrintParams.FollowsPrinted
  rw [List.filter_append, List.filter_cons_of_pos (by simpa using h), List.filter_nil, List.getLast?_concat]
  rfl

/-- Behind a data block behind the range nothing is wanted. -/
theorem wantedLines_behind {last : Call}
    (hbehind : 0 ≤ params.length ∧ params.startOffset + params.length ≤ last.blockcnt)
    (hfollows : params.FollowsPrinted before = false)
    (hlater : ∀ c ∈ calls, 0 ≤ c.blockcnt → last.blockcnt < c.blockcnt) :
    wantedLines params before calls = [] := by
  induction calls generalizing before with
  | nil => rfl
  | cons c calls ih =>
      rw [wantedLines_cons]
      by_cases hc : c.blockcnt < 0
      · have hnot : params.Wanted before c = false := by
          rw [PrintParams.Wanted, if_pos hc, hfollows, Bool.and_false]
        rw [hnot, ih ((followsPrinted_concat_indirect hc).trans hfollows)
          fun d hd => hlater d (List.mem_cons_of_mem c hd)]
        rfl
      · have hlt := hlater c List.mem_cons_self (by omega)
        have hout : ¬ params.InRange c.blockcnt := fun hin => by
          have hend := hin.2 hbehind.1
          omega
        have hnot : params.Wanted before c = false := by
          rw [PrintParams.Wanted, if_neg hc, decide_eq_false hout]
        have hfollows' : params.FollowsPrinted (before ++ [c]) = false := by
          rw [followsPrinted_concat_data (by omega), decide_eq_false hout]
        rw [hnot, ih hfollows' fun d hd => hlater d (List.mem_cons_of_mem c hd)]
        rfl

theorem addInt64_eq (hend : params.EndFits) (h : 0 ≤ params.length) :
    addInt64 params.startOffset params.length = params.startOffset + params.length := by
  obtain ⟨hlo, hhi⟩ := hend h
  exact Int.bmod_eq_of_le (by omega) (by omega)

/-- Only the flag `in_printing_range` changes, and it only says whether the last data block was printed. -/
theorem wantedLines_flag (flag : Bool) :
    wantedLines { params with inPrintingRange := flag } before calls = wantedLines params before calls := rfl

/-- `print_file_blocks` leaves all blocks where they are. -/
theorem printFileBlocks_looksOnly : printFileBlocks.LooksOnly := by
  rintro ⟨params, printed⟩ c block s' h
  unfold printFileBlocks at h
  dsimp only at h
  split_ifs at h

/-- **What `print_file_blocks` prints.** Over calls in the order of offsets, however the traversal is given up:
the data blocks in the range, and if asked for the indirect blocks that follow one, in order. -/
theorem look_printFileBlocks (hend : params.EndFits) (hordered : DataAscending calls)
    (hflag : params.inPrintingRange = params.FollowsPrinted before) (printed : List Char) :
    (printFileBlocks.look ⟨params, printed⟩ calls).map Printing.printed
      = some (printed ++ wantedLines params before calls) := by
  induction calls generalizing params before printed with
  | nil => exact congrArg some (List.append_nil printed).symm
  | cons c calls ih =>
      obtain ⟨hlater, hordered'⟩ := List.pairwise_cons.mp hordered
      rw [Callback.look, wantedLines_cons]
      unfold printFileBlocks
      dsimp only
      by_cases hc : c.blockcnt < 0
      · have hflag' : params.inPrintingRange = params.FollowsPrinted (before ++ [c]) := by
          rw [followsPrinted_concat_indirect hc, hflag]
        have hwanted : params.Wanted before c = (params.printIndirect && params.inPrintingRange) := by
          rw [PrintParams.Wanted, if_pos hc, hflag]
        rw [if_pos hc, hwanted, PrintParams.line, if_pos hc]
        by_cases hprint : (params.printIndirect && params.inPrintingRange) = true
        · rw [if_pos hprint, if_pos hprint, ← List.append_assoc]
          exact ih hend hordered' hflag' _
        · rw [if_neg hprint, if_neg hprint, List.nil_append]
          exact ih hend hordered' hflag' _
      · have hpos : 0 ≤ c.blockcnt := by omega
        rw [if_neg hc, PrintParams.Wanted, if_neg hc]
        by_cases hbefore : 0 ≤ params.startOffset ∧ c.blockcnt < params.startOffset
        · have hout : ¬ params.InRange c.blockcnt := fun hin => by
            have hstart := hin.1 hbefore.1
            omega
          have hnext : (false : Bool) = params.FollowsPrinted (before ++ [c]) := by
            rw [followsPrinted_concat_data hpos, decide_eq_false hout]
          rw [if_pos hbefore, decide_eq_false hout, if_neg Bool.false_ne_true, List.nil_append,
            ← wantedLines_flag false]
          exact @ih { params with inPrintingRange := false } _ hend hordered' hnext _
        · by_cases hbehind : 0 ≤ params.length ∧ addInt64 params.startOffset params.length ≤ c.blockcnt
          · have hbehind' : 0 ≤ params.length ∧ params.startOffset + params.length ≤ c.blockcnt :=
              ⟨hbehind.1, (addInt64_eq hend hbehind.1) ▸ hbehind.2⟩
            have hout : ¬ params.InRange c.blockcnt := fun hin => by
              have hlt := hin.2 hbehind.1
              omega
            have hfollows : params.FollowsPrinted (before ++ [c]) = false := by
              rw [followsPrinted_concat_data hpos, decide_eq_false hout]
            rw [if_neg hbefore, if_pos hbehind, decide_eq_false hout,
              wantedLines_behind hbehind' hfollows fun d hd => hlater d hd hpos, if_neg Bool.false_ne_true,
              List.append_nil, List.append_nil]
            rfl
          · have hin : params.InRange c.blockcnt := by
              refine ⟨fun h => by omega, fun h => ?_⟩
              rw [addInt64_eq hend h] at hbehind
              omega
            have hnext : (true : Bool) = params.FollowsPrinted (before ++ [c]) := by
              rw [followsPrinted_concat_data hpos, decide_eq_true hin]
            rw [if_neg hbefore, if_neg hbehind, decide_eq_true hin, if_pos rfl, PrintParams.line, if_neg hc,
              ← List.append_assoc, ← wantedLines_flag true]
            exact @ih { params with inPrintingRange := true } _ hend hordered' hnext _

end Printing

/-! ## §3 — the blocks of a file -/

section File

variable {lib : Ext2fs g} {v : View g} {inodeNumber : ℕ} {dataOnly : Bool}

/-- The calls for a file come in the order of offsets. -/
theorem fileCalls_ascending : DataAscending (fileCalls v inodeNumber dataOnly) := by
  have hordered := Remap.file_visits_ordered g.addrPerBlock_pos (v.fileTree inodeNumber)
  rw [visits_fileTree, List.pairwise_map] at hordered
  unfold DataAscending fileCalls callsAt
  rw [List.pairwise_map]
  apply (hordered.filter _).imp
  intro p q hbefore hp hq
  by_cases hplevel : p.level = 0
  · by_cases hqlevel : q.level = 0
    · rw [Place.blockcnt_of_data hplevel, Place.blockcnt_of_data hqlevel]
      rcases hbefore with hlt | ⟨-, hlevel⟩
      · exact Int.ofNat_lt.mpr hlt
      · exact absurd hlevel (by
          show ¬ q.level < p.level
          omega)
    · rw [Place.blockcnt_of_indirect hqlevel] at hq
      omega
  · rw [Place.blockcnt_of_indirect hplevel] at hp
    omega

/-- **What is printed about a file**, without the option `holes`: the wanted lines, for every range whose end is
a 64-bit number. -/
theorem showFileBlockmap_eq (hlib : lib.Documented) (env : LayoutEnv) (fileName : List Char)
    (startOffset length : ℤ) (printIndirect verbose : Bool)
    (hfile : ∀ n, fieldInode env fileName = some n → Traversable v n)
    (hend : 0 ≤ length → -2 ^ 63 ≤ startOffset + length ∧ startOffset + length < 2 ^ 63) :
    showFileBlockmap lib v env fileName startOffset length false printIndirect verbose
      = match fieldInode env fileName with
        | none => []
        | some inodeNumber =>
            wantedLines (initialParams inodeNumber startOffset length false printIndirect verbose) []
              (fileCalls v inodeNumber !printIndirect) := by
  unfold showFileBlockmap
  cases hinode : fieldInode env fileName with
  | none => rfl
  | some inodeNumber =>
      have hordered : DataAscending (fileCalls v inodeNumber !printIndirect) := fileCalls_ascending
      have hends : (initialParams inodeNumber startOffset length false printIndirect verbose).EndFits := hend
      have hflag : (initialParams inodeNumber startOffset length false printIndirect verbose).inPrintingRange
          = (initialParams inodeNumber startOffset length false printIndirect verbose).FollowsPrinted [] := rfl
      have hlook := look_printFileBlocks hends hordered hflag []
      obtain ⟨s, hs, hprinted⟩ := Option.map_eq_some_iff.mp hlook
      dsimp only
      rw [hlib.looks (hfile inodeNumber hinode) printFileBlocks_looksOnly, hs]
      exact hprinted

/-- Pages of four blocks, and inode 11 with thirteen blocks. -/
def sampleEnv : LayoutEnv where
  pageSize := 4096
  firstIno := 11
  nameiFollow := fun _ => none
  readInode := fun n => if n = 11 then some ⟨true, 13312, 0⟩ else none

theorem sample_traversable : Traversable sampleDisk.view 11 :=
  (sample_wellFormed fun _ => false).traversable ⟨sampleInode, rfl, rfl⟩

/-- The last twelve blocks of inode 11 with its indirect block. -/
theorem showFileBlockmap_eq_sample :
    wantedLines (initialParams 11 1 12 false true false) [] (fileCalls sampleDisk.view 11 false)
      = "4 11 1\n5 11 2\n6 11 3\n7 11 IND-1 0 12\n8 11 12\n".toList := by
  have hprinted := showFileBlockmap_eq (v := sampleDisk.view) documentedExt2fs_documented sampleEnv ['1', '1'] 1 12
    true false
    (fun n hn => by
      cases (show some 11 = some n from hn)
      exact sample_traversable)
    (by decide)
  refine Eq.trans (Eq.symm hprinted) ?_
  decide +kernel

/-- The data places of a file in a range of offsets, in order. -/
def placesInRange (v : View g) (inodeNumber start length : ℕ) : List (Place g) :=
  ((filePlaces g inodeNumber).filter v.present).filter fun p =>
    p.level = 0 && (start ≤ p.first && p.first < start + length)

theorem mem_placesInRange {start length : ℕ} {p : Place g} :
    p ∈ placesInRange v inodeNumber start length ↔
      p.inodeNumber = inodeNumber ∧ v.ref p ≠ 0 ∧ p.IsData ∧ start ≤ p.first ∧ p.first < start + length := by
  have hdata : p.level = 0 ↔ p.IsData := by
    unfold Place.level Place.IsData
    have hle := p.path_le
    omega
  unfold placesInRange
  rw [List.mem_filter, List.mem_filter, mem_filePlaces, View.present_iff, Bool.and_eq_true, Bool.and_eq_true,
    decide_eq_true_iff, decide_eq_true_iff, decide_eq_true_iff, hdata, and_assoc]

/-- Without indirect blocks there is one line for each data block in the range. -/
theorem wantedLines_dataOnly (start length : ℕ) :
    wantedLines (initialParams inodeNumber start length false false false) [] (fileCalls v inodeNumber true)
      = (placesInRange v inodeNumber start length).flatMap fun p => printBlock inodeNumber (p.call v) := by
  unfold fileCalls callsAt placesInRange
  generalize (filePlaces g inodeNumber).filter v.present = places
  generalize ([] : List Call) = before
  induction places generalizing before with
  | nil => rfl
  | cons p places ih =>
      by_cases hlevel : p.level = 0
      · have hpos : ¬ (p.call v).blockcnt < 0 := by
          rw [Place.blockcnt_of_data hlevel]
          omega
        have hwanted : (initialParams inodeNumber start length false false false).Wanted before (p.call v)
            = (start ≤ p.first && p.first < start + length) := by
          have hiff : (initialParams inodeNumber start length false false false).InRange (p.first : ℤ)
              ↔ start ≤ p.first ∧ p.first < start + length := by
            show ((0 : ℤ) ≤ start → (start : ℤ) ≤ p.first) ∧ ((0 : ℤ) ≤ length → (p.first : ℤ) < start + length)
              ↔ _
            omega
          rw [PrintParams.Wanted, if_neg hpos, Place.blockcnt_of_data hlevel, decide_eq_decide.mpr hiff,
            Bool.decide_and]
        have hline : (initialParams inodeNumber start length false false false).line (p.call v)
            = printBlock inodeNumber (p.call v) := if_neg hpos
        rw [List.filter_cons_of_pos (by simp [hlevel]), List.map_cons, wantedLines_cons, hwanted, hline, ih]
        by_cases hin : (decide (start ≤ p.first) && decide (p.first < start + length)) = true
        · rw [if_pos hin, List.filter_cons_of_pos (by simp [hlevel, hin]), List.flatMap_cons]
        · rw [if_neg hin, List.filter_cons_of_neg (by simpa [hlevel] using hin), List.nil_append]
      · rw [List.filter_cons_of_neg (by simp [hlevel]), List.filter_cons_of_neg (by simp [hlevel]), ih]

end File

end Prefetch.MoveBlocks

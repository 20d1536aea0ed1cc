/-
# Prefetch.Compare.Parsers — comparing a block trace with a prefetch trace

The three parsers of `compare-blktrace-with-prefetch-trace.py` and `main`. Lines are lists of letters, and
patterns are matched at their beginning, as the patterns of the script begin with `^`. An uncaught exception
has no result.

`listed` and `records` have no counterpart in the script: the extents and the trace records that were read,
in the order of their lines.
-/
import Prefetch.Lib.LinePattern
import Prefetch.Lib.Scan
import Mathlib.Data.Int.Basic
import Mathlib.Logic.Function.Basic

namespace Prefetch.Compare

open LinePattern

/-! ## §1 — patterns -/

/-- White space, `\s`. -/
def space (c : Char) : Bool := Scan.isSpace c

/-- Digits, `\d`. -/
def digit (c : Char) : Bool := c.isDigit

/-- Letters of words, `\w`. -/
def word (c : Char) : Bool := c.isAlphanum || c = '_'

/-- All but the end of a line, `.`. -/
def any (c : Char) : Bool := c ≠ '\n'

/-- `int` of what `\d+` captured. -/
def digits (text : List Char) : ℕ := Nat.ofDigitChars 10 text 0

/-- `int` of what `-?\d+` captured, which is a number. -/
def int (text : List Char) : ℤ := (Scan.wholeNumber text).getD 0

/-- A line of a file, as letters. -/
abbrev Line := List Char

/-! ## §2 — `E2Block2FileParser` -/

/-- An extent as listed: of an inode, in blocks of the file system, at an offset in the file. -/
structure ListedExtent where
  inode : ℕ
  block : ℕ
  length : ℕ
  offset : ℤ
  deriving DecidableEq, Repr

structure E2Block2FileParser where
  fsBlocksRatio : ℕ
  inode : Option ℕ := none
  block2InodeMap : ℤ → Option (ℕ × ℤ) := fun _ => none
  inode2FileMap : ℕ → Option (List Char) := fun _ => none
  listed : List ListedExtent := []

namespace E2Block2FileParser

/-- `__init__` -/
def new (fsBlockSize : ℕ) : E2Block2FileParser := { fsBlocksRatio := fsBlockSize / 512 }

/-- The pattern `^(.*) \(ino (\d+)\):.*` -/
def inodeRegexFile : List (Rep Char) :=
  [star any 1] ++ lits [' ', '(', 'i', 'n', 'o', ' '] ++ [plus digit 2] ++ lits [')', ':'] ++ [star any]

/-- The pattern `^Inode\s+(\d+).*` -/
def inodeRegexOther : List (Rep Char) :=
  lits ['I', 'n', 'o', 'd', 'e'] ++ [plus space, plus digit 1, star any]

/-- The pattern `^\s+(\d+)\+(\d+)\s+(-?\d+).*` -/
def offsetRegex : List (Rep Char) :=
  [plus space, plus digit 1, lit '+', plus digit 2, plus space, optional '-' 3, plus digit 3, star any]

/-- The loop `for i in range(length): self.block2InodeMap[block + i] = (self.inode, offset)` -/
def mapSectors (block length : ℕ) (entry : ℕ × ℤ) (map : ℤ → Option (ℕ × ℤ)) :
    ℤ → Option (ℕ × ℤ) :=
  (List.range length).foldl (fun map i => Function.update map ((block + i : ℕ) : ℤ) (some entry)) map

/-- The line of an extent. Without an inode there is no attribute `inode`, which only matters where there is
a sector. -/
def parseExtent (p : E2Block2FileParser) (block length : ℕ) (offset : ℤ) :
    Option E2Block2FileParser :=
  match p.inode with
  | none => if length * p.fsBlocksRatio = 0 then some p else none
  | some inode => some { p with
      block2InodeMap := mapSectors (block * p.fsBlocksRatio) (length * p.fsBlocksRatio) (inode, offset)
        p.block2InodeMap
      listed := p.listed ++ [⟨inode, block, length, offset⟩] }

/-- The line of an inode; both patterns are tried. -/
def parseInode (p : E2Block2FileParser) (line : Line) : E2Block2FileParser :=
  let p := match search inodeRegexFile line with
    | none => p
    | some m =>
        let inode := digits (group 2 m)
        { p with
          inode := some inode
          inode2FileMap := Function.update p.inode2FileMap inode (some (group 1 m)) }
  match search inodeRegexOther line with
  | none => p
  | some m =>
      let inode := digits (group 1 m)
      { p with
        inode := some inode
        inode2FileMap := Function.update p.inode2FileMap inode
          (some (['I', 'n', 'o', 'd', 'e', ' '] ++ Nat.toDigits 10 inode)) }

/-- `parse_line` -/
def parseLine (p : E2Block2FileParser) (line : Line) : Option E2Block2FileParser :=
  match line with
  | [] => some p
  | ' ' :: _ =>
      match search offsetRegex line with
      | none => some p
      | some m => p.parseExtent (digits (group 1 m)) (digits (group 2 m)) (int (group 3 m))
  | _ => some (p.parseInode line)

/-- `parse` -/
def parse (p : E2Block2FileParser) (lines : List Line) : Option E2Block2FileParser :=
  (lines.takeWhile (· ≠ [])).foldlM parseLine p

end E2Block2FileParser

/-! ## §3 — `PrefetchTraceParser` -/

/-- A record of the trace, in pages. -/
structure TraceRecord where
  inode : ℕ
  offset : ℕ
  length : ℕ
  deriving DecidableEq, Repr

structure PrefetchTraceParser where
  prefetchTraceSectors : List (ℕ × ℤ) := []
  records : List TraceRecord := []

namespace PrefetchTraceParser

def pageSizeRatio : ℕ := 4096 / 512

/-- The pattern `^\s*(\d+:\d+)\s+(\d+)\s+(\d+)\s+(\d+).*` -/
def prefetchLineRegex : List (Rep Char) :=
  [star space, plus digit 1, lit ':' 1, plus digit 1, plus space, plus digit 2, plus space,
    plus digit 3, plus space, plus digit 4, star any]

/-- `parse_line` -/
def parseLine (p : PrefetchTraceParser) (line : Line) : PrefetchTraceParser :=
  match search prefetchLineRegex line with
  | none => p
  | some m =>
      let record : TraceRecord := ⟨digits (group 2 m), digits (group 3 m), digits (group 4 m)⟩
      let offset := record.offset * pageSizeRatio
      let length := record.length * pageSizeRatio
      { p with
        prefetchTraceSectors := p.prefetchTraceSectors ++
          (List.range length).map fun i => (record.inode, ((offset + i : ℕ) : ℤ))
        records := p.records ++ [record] }

/-- `parse` -/
def parse (lines : List Line) : PrefetchTraceParser := (lines.takeWhile (· ≠ [])).foldl parseLine {}

end PrefetchTraceParser

/-! ## §4 — `BlktraceParser` -/

/-- What a read is reported as. -/
inductive Found where
  | foundInPrefetch
  | directory
  | missingInPrefetch
  | indirectBlock
  deriving DecidableEq, Repr

/-- What is printed for a line. A time is given by the time stamps it is the difference of. -/
inductive Printed where
  | cannotFindInode (sector : ℤ) (block : ℕ) (program : List Char)
  | read (relativeTimestamp : List Char × List Char) (sector : ℤ) (block : ℕ) (program : List Char)
      (inode : ℕ) (offset : ℤ) (found : Found) (filename : List Char)
  deriving DecidableEq, Repr

structure BlktraceParser where
  partitionStart : ℤ
  block2InodeMap : ℤ → Option (ℕ × ℤ)
  prefetchTraceSectors : List (ℕ × ℤ)
  inode2FileMap : ℕ → Option (List Char)
  firstTimestamp : Option (List Char) := none

namespace BlktraceParser

/-- The pattern
`^\s*(\d+,\d+)\s+(\d+)\s+(\d+)\s+(\d+\.\d+)\s+(\d+)\s+(\w+)\s+(\w+)\s+(\d+)\s+\+\s+(\d+)\s+\[(\w+)\].*` -/
def markRegex : List (Rep Char) :=
  [star space, plus digit 1, lit ',' 1, plus digit 1, plus space, plus digit 2, plus space,
    plus digit 3, plus space, plus digit 4, lit '.' 4, plus digit 4, plus space, plus digit 5,
    plus space, plus word 6, plus space, plus word 7, plus space, plus digit 8, plus space, lit '+',
    plus space, plus digit 9, plus space, lit '[', plus word 10, lit ']', star any]

/-- The block number of a line that tells of a read being queued. -/
def queuedRead (line : Line) : Option (List (ℕ × List Char) × ℕ) :=
  (search markRegex line).bind fun m =>
    if group 7 m ≠ ['R'] ∧ group 7 m ≠ ['R', 'M'] then none
    else if group 6 m ≠ ['Q'] then none
    else some (m, digits (group 8 m))

/-- Whether what was found for a sector is in the prefetch trace, and if not what it is. -/
def classify (p : BlktraceParser) (isdir : List Char → Bool) (entry : ℕ × ℤ) (filename : List Char) :
    Found :=
  if entry ∈ p.prefetchTraceSectors then .foundInPrefetch
  else if 0 ≤ entry.2 then if isdir filename then .directory else .missingInPrefetch
  else .indirectBlock

/-- `parse_line`, with what it prints; `isdir` is `os.path.isdir`. -/
def parseLine (p : BlktraceParser) (isdir : List Char → Bool) (line : Line) :
    BlktraceParser × Option Printed :=
  match queuedRead line with
  | none => (p, none)
  | some (m, blockNumber) =>
      let timestamp := group 4 m
      let program := group 10 m
      let first := p.firstTimestamp.getD timestamp
      let p := { p with firstTimestamp := some first }
      let sector : ℤ := (blockNumber : ℤ) - p.partitionStart
      match p.block2InodeMap sector with
      | none => (p, some (.cannotFindInode sector blockNumber program))
      | some entry =>
          let filename := (p.inode2FileMap entry.1).getD
            ['f', 'i', 'l', 'e', 'n', 'a', 'm', 'e', '_', 'n', 'o', 't', '_', 'f', 'o', 'u', 'n', 'd']
          (p, some (.read (timestamp, first) sector blockNumber program entry.1 entry.2
            (p.classify isdir entry filename) filename))

/-- `parse`, with what it prints for each line. -/
def parse (p : BlktraceParser) (isdir : List Char → Bool) : List Line → List (Option Printed)
  | [] => []
  | line :: lines =>
      if line = [] then []
      else (p.parseLine isdir line).2 :: (p.parseLine isdir line).1.parse isdir lines

end BlktraceParser

/-! ## §5 — `main` -/

/-- The parser of the block trace, made from the other two. -/
def blktraceParser (partitionStart : ℤ) (e2map : E2Block2FileParser) (trace : PrefetchTraceParser) :
    BlktraceParser :=
  { partitionStart := partitionStart
    block2InodeMap := e2map.block2InodeMap
    prefetchTraceSectors := trace.prefetchTraceSectors
    inode2FileMap := e2map.inode2FileMap }

/-- `main`, its files read and its numbers converted: what is printed for each line of the block trace. -/
def main (isdir : List Char → Bool) (blktrace e2mapFile prefetchTrace : List Line) (partitionStart : ℤ)
    (fsBlockSize : ℕ) : Option (List (Option Printed)) :=
  ((E2Block2FileParser.new fsBlockSize).parse e2mapFile).map fun e2map =>
    (blktraceParser partitionStart e2map (PrefetchTraceParser.parse prefetchTrace)).parse isdir blktrace

end Prefetch.Compare

/-
# Prefetch.Compare.Found — when a read is said to be in the prefetch trace

`parse_agrees`: the map made from an e2block2file listing gives the extent that was listed last with a
sector in it. `mem_prefetchTraceSectors`: the trace sectors are those of its pages.

The entry of a sector is the offset of its extent, in blocks of the file system, while the trace sectors
are in units of 512 bytes. `classifiedRight_iff`: a read is classified rightly just when the trace has the
page at that offset taken as sectors exactly if it has the page the sector is in.
-/
import Prefetch.Compare.Parsers
import Mathlib.Tactic.Common
import Mathlib.Algebra.Order.Ring.Int

namespace Prefetch.Compare

/-! ## §1 — the map of sectors -/

/-- A sector of an extent. -/
def ListedExtent.Contains (ratio : ℕ) (e : ListedExtent) (sector : ℤ) : Prop :=
  ((e.block * ratio : ℕ) : ℤ) ≤ sector ∧ sector < (e.block * ratio + e.length * ratio : ℕ)

instance (ratio : ℕ) (e : ListedExtent) (sector : ℤ) : Decidable (e.Contains ratio sector) := by
  unfold ListedExtent.Contains
  infer_instance

/-- The extent a sector belongs to: the last one listed with it. -/
def owner (ratio : ℕ) (listed : List ListedExtent) (sector : ℤ) : Option ListedExtent :=
  listed.reverse.find? fun e => e.Contains ratio sector

theorem owner_append (ratio : ℕ) (listed : List ListedExtent) (e : ListedExtent) (sector : ℤ) :
    owner ratio (listed ++ [e]) sector =
      if e.Contains ratio sector then some e else owner ratio listed sector := by
  unfold owner
  rw [List.reverse_append, List.reverse_singleton, List.singleton_append, List.find?_cons]
  by_cases h : e.Contains ratio sector <;> simp [h]

namespace E2Block2FileParser

theorem mapSectors_apply (block length : ℕ) (entry : ℕ × ℤ) (map : ℤ → Option (ℕ × ℤ)) (sector : ℤ) :
    mapSectors block length entry map sector =
      if (block : ℤ) ≤ sector ∧ sector < (block + length : ℕ) then some entry else map sector := by
  unfold mapSectors
  induction length with
  | zero =>
      have hnot : ¬ ((block : ℤ) ≤ sector ∧ sector < (block + 0 : ℕ)) := by omega
      rw [if_neg hnot]
      rfl
  | succ length ih =>
      rw [List.range_succ, List.foldl_append, List.foldl_cons, List.foldl_nil]
      by_cases hlast : sector = ((block + length : ℕ) : ℤ)
      · rw [hlast, Function.update_self, if_pos (by omega)]
      · rw [Function.update_of_ne hlast, ih]
        congr 1
        apply propext
        omega

/-- The map is that of the extents listed. -/
def Agrees (p : E2Block2FileParser) : Prop :=
  ∀ sector, p.block2InodeMap sector =
    (owner p.fsBlocksRatio p.listed sector).map fun e => (e.inode, e.offset)

variable {p p' : E2Block2FileParser}

/-- The line of an extent keeps the map that of the extents listed. -/
theorem Agrees.parseExtent (hp : p.Agrees) {block length : ℕ} {offset : ℤ}
    (h : p.parseExtent block length offset = some p') :
    p'.Agrees ∧ p'.fsBlocksRatio = p.fsBlocksRatio := by
  unfold E2Block2FileParser.parseExtent at h
  split at h
  · split at h
    · cases h
      exact ⟨hp, rfl⟩
    · cases h
  · next inode hinode =>
    cases h
    refine ⟨fun sector => ?_, rfl⟩
    show mapSectors _ _ _ _ sector = (owner _ (p.listed ++ [_]) sector).map _
    rw [mapSectors_apply, owner_append, hp sector]
    by_cases hin : (ListedExtent.mk inode block length offset).Contains p.fsBlocksRatio sector
    · rw [if_pos hin]
      exact if_pos hin
    · rw [if_neg hin]
      exact if_neg hin

theorem Agrees.parseInode (hp : p.Agrees) (line : Line) :
    (p.parseInode line).Agrees ∧ (p.parseInode line).fsBlocksRatio = p.fsBlocksRatio := by
  unfold E2Block2FileParser.parseInode
  -- neither pattern touches the map
  cases LinePattern.search inodeRegexFile line <;>
    cases LinePattern.search inodeRegexOther line <;>
    exact ⟨hp, rfl⟩

/-- So does every line. -/
theorem Agrees.parseLine (hp : p.Agrees) {line : Line} (h : p.parseLine line = some p') :
    p'.Agrees ∧ p'.fsBlocksRatio = p.fsBlocksRatio := by
  unfold E2Block2FileParser.parseLine at h
  split at h
  · cases h
    exact ⟨hp, rfl⟩
  · split at h
    · cases h
      exact ⟨hp, rfl⟩
    · exact hp.parseExtent h
  · cases h
    exact hp.parseInode line

/-- **And the whole listing.** -/
theorem parse_agrees {fsBlockSize : ℕ} {lines : List Line}
    (h : (new fsBlockSize).parse lines = some p) :
    p.Agrees ∧ p.fsBlocksRatio = fsBlockSize / 512 := by
  have hrun : ∀ (lines : List Line) (q : E2Block2FileParser), q.Agrees →
      lines.foldlM E2Block2FileParser.parseLine q = some p →
        p.Agrees ∧ p.fsBlocksRatio = q.fsBlocksRatio := by
    intro lines
    induction lines with
    | nil =>
        intro q hq h
        cases h
        exact ⟨hq, rfl⟩
    | cons line lines ih =>
        intro q hq h
        rw [List.foldlM_cons] at h
        obtain ⟨r, hr, hrest⟩ := Option.bind_eq_some_iff.1 h
        obtain ⟨hagrees, hratio⟩ := hq.parseLine hr
        obtain ⟨hp, hpratio⟩ := ih r hagrees hrest
        exact ⟨hp, hpratio.trans hratio⟩
  exact hrun _ (new fsBlockSize) (fun _ => rfl) h

end E2Block2FileParser

/-! ## §2 — the sectors of the trace -/

/-- The trace has a page of an inode. -/
def HasPage (records : List TraceRecord) (inode : ℕ) (page : ℤ) : Prop :=
  ∃ r ∈ records, r.inode = inode ∧ (r.offset : ℤ) ≤ page ∧ page < (r.offset + r.length : ℕ)

namespace PrefetchTraceParser

/-- The sectors are those of the pages read so far. -/
def Agrees (p : PrefetchTraceParser) : Prop :=
  ∀ inode (sector : ℤ), (inode, sector) ∈ p.prefetchTraceSectors ↔ HasPage p.records inode (sector / 8)

theorem mem_pageSectors (r : TraceRecord) (inode : ℕ) (sector : ℤ) :
    (inode, sector) ∈ (List.range (r.length * pageSizeRatio)).map
        (fun i => (r.inode, ((r.offset * pageSizeRatio + i : ℕ) : ℤ))) ↔
      r.inode = inode ∧ (r.offset : ℤ) ≤ sector / 8 ∧ sector / 8 < (r.offset + r.length : ℕ) := by
  have hratio : pageSizeRatio = 8 := rfl
  rw [hratio, List.mem_map]
  constructor
  · rintro ⟨i, hi, heq⟩
    rw [List.mem_range] at hi
    cases heq
    refine ⟨rfl, ?_, ?_⟩ <;> omega
  · rintro ⟨rfl, hlo, hhi⟩
    refine ⟨(sector - r.offset * 8).toNat, ?_, ?_⟩
    · rw [List.mem_range]
      omega
    · rw [Prod.mk.injEq]
      refine ⟨rfl, ?_⟩
      omega

theorem Agrees.parseLine {p : PrefetchTraceParser} (hp : p.Agrees) (line : Line) :
    (p.parseLine line).Agrees := by
  unfold PrefetchTraceParser.parseLine
  split
  · exact hp
  · intro inode sector
    show _ ∈ _ ++ _ ↔ HasPage (_ ++ [_]) _ _
    rw [List.mem_append, mem_pageSectors, hp]
    simp [HasPage, or_and_right, exists_or]

/-- **The trace sectors are those of its pages.** -/
theorem mem_prefetchTraceSectors (lines : List Line) : (parse lines).Agrees := by
  have hrun : ∀ (lines : List Line) (p : PrefetchTraceParser), p.Agrees →
      (lines.foldl PrefetchTraceParser.parseLine p).Agrees := by
    intro lines
    induction lines with
    | nil => exact fun p hp => hp
    | cons line lines ih => exact fun p hp => ih _ (hp.parseLine line)
  apply hrun
  intro inode sector
  simp [HasPage]

end PrefetchTraceParser

/-! ## §3 — a read -/

namespace BlktraceParser

/-- What is printed for a line is what its parser prints there, with some first time stamp. -/
theorem parse_getElem (p : BlktraceParser) (isdir : List Char → Bool) {lines : List Line} {k : ℕ}
    {line : Line} {printed : Option Printed} (hline : lines[k]? = some line)
    (hprinted : (p.parse isdir lines)[k]? = some printed) :
    ∃ first, printed = ({ p with firstTimestamp := first }.parseLine isdir line).2 := by
  induction lines generalizing p k with
  | nil => cases hline
  | cons l lines ih =>
      rw [parse] at hprinted
      split at hprinted
      · cases hprinted
      cases k with
      | zero =>
          cases hline
          cases hprinted
          exact ⟨p.firstTimestamp, rfl⟩
      | succ k =>
          rw [List.getElem?_cons_succ] at hline hprinted
          obtain ⟨first, hfirst⟩ := ih _ hline hprinted
          have hsame : ∃ first', (p.parseLine isdir l).1 = { p with firstTimestamp := first' } := by
            unfold parseLine
            split
            · exact ⟨p.firstTimestamp, rfl⟩
            · simp only
              split
              · exact ⟨_, rfl⟩
              · exact ⟨_, rfl⟩
          obtain ⟨first', hsame⟩ := hsame
          rw [hsame] at hfirst
          exact ⟨first, hfirst⟩

/-- A queued read of a sector with an entry. -/
theorem parseLine_read (p : BlktraceParser) (isdir : List Char → Bool) {line : Line}
    {m : List (ℕ × List Char)} {block : ℕ} (hread : queuedRead line = some (m, block)) {entry : ℕ × ℤ}
    (hentry : p.block2InodeMap (block - p.partitionStart) = some entry) :
    ∃ time program filename found, (p.parseLine isdir line).2 =
        some (.read time (block - p.partitionStart) block program entry.1 entry.2 found filename) ∧
      (found = .foundInPrefetch ↔ entry ∈ p.prefetchTraceSectors) := by
  unfold parseLine
  simp only [hread, hentry]
  refine ⟨_, _, _, _, rfl, ?_⟩
  unfold classify
  split
  · next h => exact iff_of_true rfl h
  · next h =>
    refine iff_of_false ?_ h
    split
    · split <;> nofun
    · nofun

end BlktraceParser

/-- The page of the file a sector of an extent is in, from its offset in bytes. -/
def pageOf (fsBlockSize : ℕ) (e : ListedExtent) (sector : ℤ) : ℤ :=
  (e.offset * fsBlockSize + (sector - (e.block * (fsBlockSize / 512) : ℕ)) * 512) / 4096

/-- What is printed for a read of a sector of an extent is right: it says that it is in the trace just if
the trace has the page of the sector. -/
def ClassifiedRight (fsBlockSize : ℕ) (records : List TraceRecord) (e : ListedExtent) (sector : ℤ)
    (printed : Option Printed) : Prop :=
  ∃ time block program filename found,
    printed = some (.read time sector block program e.inode e.offset found filename) ∧
      (found = .foundInPrefetch ↔ HasPage records e.inode (pageOf fsBlockSize e sector))

/-- **When a read is classified rightly.** The offset of its extent is looked up as if it were in sectors, so
the trace is asked for page `offset / 8`, whatever the page of the sector is. -/
theorem classifiedRight_iff (isdir : List Char → Bool) (blktrace e2mapFile prefetchTrace : List Line)
    (partitionStart : ℤ) (fsBlockSize : ℕ) (outputs : List (Option Printed))
    (hmain : main isdir blktrace e2mapFile prefetchTrace partitionStart fsBlockSize = some outputs)
    (e2map : E2Block2FileParser)
    (he2map : (E2Block2FileParser.new fsBlockSize).parse e2mapFile = some e2map)
    (k : ℕ) (line : Line) (hline : blktrace[k]? = some line) (printed : Option Printed)
    (hprinted : outputs[k]? = some printed) (m : List (ℕ × List Char)) (block : ℕ)
    (hread : BlktraceParser.queuedRead line = some (m, block)) (e : ListedExtent)
    (howner : owner (fsBlockSize / 512) e2map.listed (block - partitionStart) = some e) :
    let records := (PrefetchTraceParser.parse prefetchTrace).records
    ClassifiedRight fsBlockSize records e (block - partitionStart) printed ↔
      (HasPage records e.inode (e.offset / 8) ↔
        HasPage records e.inode (pageOf fsBlockSize e (block - partitionStart))) := by
  intro records
  obtain ⟨hagrees, hratio⟩ := E2Block2FileParser.parse_agrees he2map
  unfold main at hmain
  rw [he2map, Option.map_some] at hmain
  cases hmain
  obtain ⟨first, rfl⟩ := BlktraceParser.parse_getElem _ isdir hline hprinted
  have hentry : e2map.block2InodeMap (block - partitionStart) = some (e.inode, e.offset) := by
    rw [hagrees, hratio, howner]
    rfl
  obtain ⟨time, program, filename, found, heq, hfound⟩ := BlktraceParser.parseLine_read
    { blktraceParser partitionStart e2map (PrefetchTraceParser.parse prefetchTrace) with
      firstTimestamp := first } isdir hread hentry
  have hsectors : found = .foundInPrefetch ↔ HasPage records e.inode (e.offset / 8) :=
    hfound.trans (PrefetchTraceParser.mem_prefetchTraceSectors prefetchTrace e.inode e.offset)
  rw [← hsectors]
  constructor
  · rintro ⟨time', block', program', filename', found', heq', hright⟩
    cases heq.symm.trans heq'
    exact hright
  · exact fun hright => ⟨time, block, program, filename, found, heq, hright⟩

/-! ## §4 — an extent that is not at the beginning of its file -/

/-- The second page of inode 5 in block 10. -/
def sampleMap : List Line :=
  [['I', 'n', 'o', 'd', 'e', ' ', '5', ':', '\n'], [' ', ' ', '1', '0', '+', '1', ' ', '1', '\n']]

/-- That page. -/
def sampleTrace : List Line := [['3', ':', '1', '\t', '5', '\t', '1', '\t', '1', '\n']]

/-- A read of the first sector of the block. -/
def sampleRead : Line :=
  ['3', ',', '0', ' ', '0', ' ', '6', ' ', '0', '.', '5', ' ', '7', ' ', 'Q', ' ', 'R', ' ', '8', '0', ' ',
    '+', ' ', '8', ' ', '[', 'o', 'o', ']', '\n']

theorem classifiedRight_iff_sample : ∃ printed e,
    let records := (PrefetchTraceParser.parse sampleTrace).records
    ClassifiedRight 4096 records e 80 printed ↔
      (HasPage records e.inode (e.offset / 8) ↔ HasPage records e.inode (pageOf 4096 e 80)) :=
  ⟨_, _, classifiedRight_iff (fun _ => false) [sampleRead] sampleMap sampleTrace 0 4096 _ rfl _ rfl 0
    sampleRead rfl _ rfl _ 80 rfl ⟨5, 10, 1, 1⟩ (by decide)⟩

/-- The page is in the trace and the read is said to be missing. -/
theorem not_classifiedRight_sample :
    ¬ ∀ (blktrace e2mapFile prefetchTrace : List Line) (outputs : List (Option Printed))
      (e2map : E2Block2FileParser) (printed : Option Printed) (m : List (ℕ × List Char)) (e : ListedExtent),
      main (fun _ => false) blktrace e2mapFile prefetchTrace 0 4096 = some outputs →
      (E2Block2FileParser.new 4096).parse e2mapFile = some e2map →
      blktrace[0]? = some sampleRead → outputs[0]? = some printed →
      BlktraceParser.queuedRead sampleRead = some (m, 80) →
      owner 8 e2map.listed 80 = some e → 0 ≤ e.offset →
      ClassifiedRight 4096 (PrefetchTraceParser.parse prefetchTrace).records e 80 printed := by
  intro h
  have hright := h [sampleRead] sampleMap sampleTrace _ _ _ _ ⟨5, 10, 1, 1⟩ rfl rfl rfl rfl rfl
    (by decide) (by decide)
  obtain ⟨time, block, program, filename, found, heq, hfound⟩ := hright
  have hmissing : found = .missingInPrefetch := by
    cases heq
    rfl
  have hpage : HasPage (PrefetchTraceParser.parse sampleTrace).records 5
      (pageOf 4096 ⟨5, 10, 1, 1⟩ 80) := ⟨⟨5, 1, 1⟩, by decide, rfl, by decide, by decide⟩
  rw [hfound.2 hpage] at hmissing
  cases hmissing

end Prefetch.Compare

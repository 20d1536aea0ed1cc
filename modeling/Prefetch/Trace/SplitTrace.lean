/-
# Prefetch.Trace.SplitTrace — a trace listing cut into layouts (`split-prefetch-trace.py`)

`prefetch.init` lists all traces one after the other and has the listing split by device, and for each
device into layouts the disk can be reordered by, of a limited number of pages. The layouts of a device are
numbered; the one begun last stays open until a line no longer fits in it.

Letters of the listing stand for its bytes. A file is what its name maps to; an uncaught exception has no
result.
-/
import Prefetch.Compare.Parsers
import Prefetch.Lib.Chunks
import Mathlib.Algebra.Order.Group.Int
import Mathlib.Data.List.DropRight

namespace Prefetch.SplitTrace

open Chunks Function
open Compare (Line)

/-! ## §1 — texts and numbers -/

/-- `readlines`: a line with the newline that ends it; the last one may lack it. -/
def readlines : List Char → List Line
  | [] => []
  | c :: cs =>
      if c = '\n' then [c] :: readlines cs
      else
        match readlines cs with
        | [] => [[c]]
        | line :: lines => (c :: line) :: lines

/-- `split` -/
def split (line : Line) : List (List Char) := Fields.fields Compare.space line

/-- `int` of a field, which has no white space. -/
def int (text : List Char) : Option ℤ := Scan.wholeNumber text

/-- `str` of a number. -/
def str (z : ℤ) : List Char := Scan.printInt z

/-- `rjust` with zeroes. -/
def rjust (width : ℕ) (text : List Char) : List Char :=
  List.replicate (width - text.length) '0' ++ text

/-! ## §2 — `parse_trace` -/

/-- What a line of the listing says about its device. -/
structure LayoutLine where
  inode : ℤ
  start : ℤ
  length : ℤ
  deriving DecidableEq, Repr

/-- `"%s %s %s\n" % (inode, start, length)` -/
def LayoutLine.format (e : LayoutLine) : List Char :=
  str e.inode ++ [' '] ++ str e.start ++ [' '] ++ str e.length ++ ['\n']

/-- `device + ".layout." + str(tracenum).rjust(suffixsize, "0")` -/
def layoutName (device : List Char) (tracenum : ℕ) : List Char :=
  device ++ ".layout.".toList ++ rjust 3 (str tracenum)

/-- `devices[device]`; `file` is the name of the open file. -/
structure Device where
  tracenum : ℕ
  count : ℤ
  file : List Char
  deriving DecidableEq, Repr

/-- The dictionary `devices` and the files. -/
structure Layouts where
  devices : List Char → Option Device := fun _ => none
  files : List Char → Option (List Char)

/-- `file(name, "w+")` -/
def openFile (files : List Char → Option (List Char)) (name : List Char) :
    List Char → Option (List Char) := update files name (some [])

/-- The device of a line and the layout the line goes to. -/
def chooseFile (chunksize : ℤ) (s : Layouts) (device : List Char) (length : ℤ) :
    Device × (List Char → Option (List Char)) :=
  match s.devices device with
  | some d =>
      if d.count + length > chunksize then
        -- switch file to next one
        (⟨d.tracenum + 1, 0, layoutName device (d.tracenum + 1)⟩,
          openFile s.files (layoutName device (d.tracenum + 1)))
      else (d, s.files)
  -- not yet known device
  | none => (⟨0, 0, layoutName device 0⟩, openFile s.files (layoutName device 0))

/-- The end of the loop for a line with four fields. -/
def addLine (chunksize : ℤ) (s : Layouts) (device : List Char) (e : LayoutLine) : Layouts :=
  let chosen := chooseFile chunksize s device e.length
  let d := chosen.1
  { devices := update s.devices device (some { d with count := d.count + e.length })
    files := update chosen.2 d.file ((chosen.2 d.file).map (· ++ e.format)) }

/-- The loop of `parse_trace` over the lines of the listing. -/
def parseLines (chunksize : ℤ) : List Line → Layouts → Option Layouts
  | [], s => some s
  | line :: lines, s =>
      if line = [] then some s
      else
        match split line with
        | [device, inode, start, length] =>
            match int inode, int start, int length with
            | some inode, some start, some length =>
                parseLines chunksize lines (addLine chunksize s device ⟨inode, start, length⟩)
            | _, _, _ => none
        -- an invalid line is printed
        | _ => parseLines chunksize lines s

/-- `parse_trace` -/
def parseTrace (listing : List Char) (chunksize : ℤ) (files : List Char → Option (List Char)) :
    Option Layouts :=
  parseLines chunksize (readlines listing) { files := files }

/-! ## §3 — names of layouts -/

theorem isDigit_of_mem_number {n : ℕ} {c : Char} (h : c ∈ rjust 3 (str n)) : c.isDigit = true := by
  rcases List.mem_append.mp h with hzero | hdigit
  · rw [List.eq_of_mem_replicate hzero]
    rfl
  · exact Nat.isDigit_of_mem_toDigits (by decide) le_rfl hdigit

/-- A number is read back from its digits, zeroes before it or not. -/
theorem number_injective : Injective fun n : ℕ => rjust 3 (str n) := by
  intro m n (h : rjust 3 (str m) = rjust 3 (str n))
  have hvalue : ∀ n : ℕ, Nat.ofDigitChars 10 (rjust 3 (str n)) 0 = n := by
    intro n
    show Nat.ofDigitChars 10 (List.replicate _ '0' ++ Nat.toDigits 10 n) 0 = n
    rw [Nat.ofDigitChars_append, Nat.ofDigitChars_replicate_zero, Nat.mul_zero,
      Nat.ofDigitChars_ten_toDigits]
  rw [← hvalue m, ← hvalue n, h]

/-- **Different layouts have different names**: the number is what follows the last dot. -/
theorem layoutName_inj {device device' : List Char} {k k' : ℕ} :
    layoutName device k = layoutName device' k' ↔ device = device' ∧ k = k' := by
  refine ⟨fun h => ?_, fun ⟨hdevice, hk⟩ => by rw [hdevice, hk]⟩
  have hnumber : ∀ (device : List Char) (k : ℕ),
      (layoutName device k).rtakeWhile Char.isDigit = rjust 3 (str k) := by
    intro device k
    unfold layoutName List.rtakeWhile
    rw [List.reverse_append, List.takeWhile_append_of_pos, List.reverse_append]
    · simp
    · intro c hc
      exact isDigit_of_mem_number (List.mem_reverse.mp hc)
  have hsame : rjust 3 (str k) = rjust 3 (str k') := by
    rw [← hnumber device k, ← hnumber device' k', h]
  refine ⟨?_, number_injective hsame⟩
  unfold layoutName at h
  rw [hsame] at h
  exact List.append_cancel_right (List.append_cancel_right h)

/-! ## §4 — the layouts of each device -/

/-- What a line with four fields says, and about which device. -/
def lineOf (line : Line) : Option (List Char × LayoutLine) :=
  match split line with
  | [device, inode, start, length] =>
      match int inode, int start, int length with
      | some inode, some start, some length => some (device, ⟨inode, start, length⟩)
      | _, _, _ => none
  | _ => none

/-- The lines about a device. -/
def linesOf (device : List Char) (lines : List (List Char × LayoutLine)) : List LayoutLine :=
  (lines.filter (·.1 = device)).map (·.2)

/-- What a layout has to hold. -/
def layoutText (chunk : List LayoutLine) : List Char := chunk.flatMap LayoutLine.format

variable (chunksize : ℤ) (files : List Char → Option (List Char))

/-- The layouts of a device. -/
def layoutsOf (device : List Char) (lines : List (List Char × LayoutLine)) : List (List LayoutLine) :=
  chunksOf LayoutLine.length chunksize (linesOf device lines)

/-- After these lines each device has its layouts, the last one open, and no other file is touched. -/
structure Laid (lines : List (List Char × LayoutLine)) (s : Layouts) : Prop where
  devices : ∀ device, s.devices device = (layoutsOf chunksize device lines).getLast?.map fun chunk =>
    ⟨(layoutsOf chunksize device lines).length - 1, total LayoutLine.length chunk,
      layoutName device ((layoutsOf chunksize device lines).length - 1)⟩
  layouts : ∀ device k, s.files (layoutName device k) =
    ((layoutsOf chunksize device lines)[k]?.map layoutText).or (files (layoutName device k))
  others : ∀ name, (∀ device k, name ≠ layoutName device k) → s.files name = files name

variable {chunksize files}

theorem linesOf_concat (device : List Char) (lines : List (List Char × LayoutLine))
    (line : List Char × LayoutLine) : linesOf device (lines ++ [line]) =
      linesOf device lines ++ if line.1 = device then [line.2] else [] := by
  unfold linesOf
  rw [List.filter_append, List.map_append]
  split <;> simp [*]

theorem layoutsOf_concat_self (device : List Char) (lines : List (List Char × LayoutLine))
    (e : LayoutLine) : layoutsOf chunksize device (lines ++ [(device, e)]) =
      add LayoutLine.length chunksize (layoutsOf chunksize device lines) e := by
  unfold layoutsOf
  rw [linesOf_concat, if_pos rfl, chunksOf_concat]

theorem layoutsOf_concat_of_ne {device device' : List Char} (h : device' ≠ device)
    (lines : List (List Char × LayoutLine)) (e : LayoutLine) :
    layoutsOf chunksize device' (lines ++ [(device, e)]) = layoutsOf chunksize device' lines := by
  unfold layoutsOf
  rw [linesOf_concat, if_neg h.symm, List.append_nil]

theorem laid_nil : Laid chunksize files [] { files := files } :=
  ⟨fun _ => rfl, fun _ _ => rfl, fun _ _ => rfl⟩

variable {lines : List (List Char × LayoutLine)} {s : Layouts}

theorem getElem?_concat_of_ne {α : Type*} {l : List α} {k : ℕ} (h : k ≠ l.length) (a : α) :
    (l ++ [a])[k]? = l[k]? := by
  rw [List.getElem?_append]
  split
  · rfl
  · next hlt => rw [List.getElem?_eq_none (by simp; omega), List.getElem?_eq_none (by omega)]

/-- `chosen` is a device and the files with `chunk` in its open layout, which follows those in `front`;
the other layouts of the device are as in `chunks`. -/
structure Chosen (s : Layouts) (device : List Char) (chunks front : List (List LayoutLine))
    (chunk : List LayoutLine) (chosen : Device × (List Char → Option (List Char))) : Prop where
  entry : chosen.1 = ⟨front.length, total LayoutLine.length chunk, layoutName device front.length⟩
  file : chosen.2 (layoutName device front.length) = some (layoutText chunk)
  others : ∀ name ≠ layoutName device front.length, chosen.2 name = s.files name
  front : ∀ k ≠ front.length, chunks[k]? = front[k]?

/-- A layout that has just been opened is empty. -/
theorem chosen_openFile (s : Layouts) (device : List Char) (chunks : List (List LayoutLine)) :
    Chosen s device chunks chunks [] (⟨chunks.length, 0, layoutName device chunks.length⟩,
      openFile s.files (layoutName device chunks.length)) :=
  ⟨rfl, update_self (layoutName device chunks.length) _ s.files,
    fun _ hname => update_of_ne hname _ s.files, fun _ _ => rfl⟩

/-- **The layout a line goes to**: the last one, or one behind it if the line does not fit in. -/
theorem Laid.chooseFile (h : Laid chunksize files lines s) (device : List Char) (e : LayoutLine) :
    ∃ front chunk, layoutsOf chunksize device (lines ++ [(device, e)]) = front ++ [chunk ++ [e]] ∧
      Chosen s device (layoutsOf chunksize device lines) front chunk
        (SplitTrace.chooseFile chunksize s device e.length) := by
  have hdevice := h.devices device
  have hfile := h.layouts device
  rw [layoutsOf_concat_self]
  generalize layoutsOf chunksize device lines = chunks at hdevice hfile ⊢
  cases chunks using List.reverseRecOn with
  | nil =>
      have hchoose : SplitTrace.chooseFile chunksize s device e.length =
          (⟨0, 0, layoutName device 0⟩, openFile s.files (layoutName device 0)) := by
        unfold SplitTrace.chooseFile
        rw [hdevice]
        rfl
      rw [hchoose]
      exact ⟨[], [], rfl, chosen_openFile s device []⟩
  | append_singleton front chunk _ =>
      rw [List.getLast?_concat, Option.map_some, List.length_append, List.length_singleton,
        Nat.add_sub_cancel] at hdevice
      rw [add_concat]
      unfold SplitTrace.chooseFile
      rw [hdevice]
      by_cases hlimit : chunksize < total LayoutLine.length chunk + e.length
      · have hopened := chosen_openFile s device (front ++ [chunk])
        rw [List.length_append] at hopened
        simp only [gt_iff_lt, if_pos hlimit]
        exact ⟨front ++ [chunk], [], rfl, hopened⟩
      · simp only [gt_iff_lt, if_neg hlimit]
        refine ⟨front, chunk, rfl, rfl, ?_, fun _ _ => rfl, fun k hk => getElem?_concat_of_ne hk _⟩
        show s.files _ = _
        rw [hfile, List.getElem?_concat_length]
        rfl

/-- **One more line.** -/
theorem Laid.addLine (h : Laid chunksize files lines s) (device : List Char) (e : LayoutLine) :
    Laid chunksize files (lines ++ [(device, e)]) (SplitTrace.addLine chunksize s device e) := by
  obtain ⟨front, chunk, hlayouts, hchosen⟩ := h.chooseFile device e
  unfold SplitTrace.addLine
  simp only [hchosen.entry]
  refine ⟨fun device' => ?_, fun device' k => ?_, fun name hname => ?_⟩
  · by_cases hd : device' = device
    · subst hd
      rw [hlayouts, List.getLast?_concat]
      simp [total_concat]
    · rw [layoutsOf_concat_of_ne hd]
      exact (update_of_ne hd _ _).trans (h.devices device')
  · by_cases hname : layoutName device' k = layoutName device front.length
    · obtain ⟨rfl, rfl⟩ := layoutName_inj.mp hname
      show update _ _ _ _ = _
      rw [hlayouts, List.getElem?_concat_length, update_self, hchosen.file]
      simp [layoutText]
    · show update _ _ _ _ = _
      rw [update_of_ne hname, hchosen.others _ hname, h.layouts]
      by_cases hd : device' = device
      · subst hd
        have hk : k ≠ front.length := fun hk => hname (by rw [hk])
        rw [hlayouts, hchosen.front k hk, getElem?_concat_of_ne hk]
      · rw [layoutsOf_concat_of_ne hd]
  · show update _ _ _ _ = _
    rw [update_of_ne (hname device _), hchosen.others _ (hname device _)]
    exact h.others name hname

/-! ## §5 — the whole listing -/

/-- A trace listing: a line with four fields has numbers in the last three of them, none negative. -/
def IsListing (listing : List Char) : Prop :=
  ∀ line ∈ readlines listing, (split line).length = 4 →
    ∃ p ∈ lineOf line, 0 ≤ p.2.inode ∧ 0 ≤ p.2.start ∧ 0 ≤ p.2.length

instance (listing : List Char) : Decidable (IsListing listing) := by
  unfold IsListing
  infer_instance

theorem readlines_ne_nil {listing : List Char} : ∀ line ∈ readlines listing, line ≠ [] := by
  induction listing with
  | nil => simp [readlines]
  | cons c cs ih =>
      unfold readlines
      split
      · simpa using ih
      split
      · simp
      · next line lines hlines =>
        rw [hlines] at ih
        intro line' hline'
        rcases List.mem_cons.mp hline' with rfl | hmem
        · exact List.cons_ne_nil _ _
        · exact ih line' (List.mem_cons_of_mem _ hmem)

theorem parseLines_of_lineOf {line : Line} (hne : line ≠ []) {device : List Char} {e : LayoutLine}
    (h : lineOf line = some (device, e)) (texts : List Line) (s : Layouts) :
    parseLines chunksize (line :: texts) s =
      parseLines chunksize texts (addLine chunksize s device e) := by
  unfold lineOf at h
  split at h
  · next hsplit =>
    split at h
    · next hinode hstart hlength =>
      cases h
      simp only [parseLines, if_neg hne, hsplit, hinode, hstart, hlength]
    · cases h
  · cases h

/-- A line with another number of fields is left out. -/
theorem parseLines_invalid {line : Line} (hne : line ≠ []) (h : (split line).length ≠ 4) (chunksize : ℤ)
    (texts : List Line) (s : Layouts) :
    lineOf line = none ∧
      parseLines chunksize (line :: texts) s = parseLines chunksize texts s := by
  have hfields : ∀ a b c d, split line ≠ [a, b, c, d] := by
    intro a b c d heq
    exact h (by rw [heq]; rfl)
  unfold lineOf
  rw [parseLines, if_neg hne]
  split
  · next heq => exact absurd heq (hfields _ _ _ _)
  · exact ⟨rfl, rfl⟩

/-- **The loop over lines that can be read.** -/
theorem Laid.parseLines {texts : List Line} (h : Laid chunksize files lines s)
    (hne : ∀ line ∈ texts, line ≠ [])
    (hread : ∀ line ∈ texts, (split line).length = 4 → ∃ device e, lineOf line = some (device, e)) :
    ∃ t, SplitTrace.parseLines chunksize texts s = some t ∧
      Laid chunksize files (lines ++ texts.filterMap lineOf) t := by
  induction texts generalizing lines s with
  | nil => exact ⟨s, rfl, by simpa using h⟩
  | cons line texts ih =>
      rw [List.forall_mem_cons] at hne hread
      by_cases hfour : (split line).length = 4
      · obtain ⟨device, e, hline⟩ := hread.1 hfour
        obtain ⟨t, ht, hlaid⟩ := ih (h.addLine device e) hne.2 hread.2
        refine ⟨t, (parseLines_of_lineOf hne.1 hline texts s).trans ht, ?_⟩
        rw [List.filterMap_cons_some hline, List.append_cons]
        exact hlaid
      · obtain ⟨hnone, hskip⟩ := parseLines_invalid hne.1 hfour chunksize texts s
        obtain ⟨t, ht, hlaid⟩ := ih h hne.2 hread.2
        refine ⟨t, hskip.trans ht, ?_⟩
        rw [List.filterMap_cons_none hnone]
        exact hlaid

/-- The lines of a listing about a device, in order. -/
def listedLines (listing : List Char) (device : List Char) : List LayoutLine :=
  linesOf device ((readlines listing).filterMap lineOf)

/-- A listing is split into these layouts of each device. They have the device's lines in order, one of
several lines has no more pages than fit in, and each begins with a line that would have exceeded that in
the one before. They are numbered from 0 on, and no other file is touched. -/
structure IsSplit (listing : List Char) (chunksize : ℤ) (files : List Char → Option (List Char))
    (chunks : List Char → List (List LayoutLine)) (s : Layouts) : Prop where
  flatten : ∀ device, (chunks device).flatten = listedLines listing device
  chunking : ∀ device, IsChunking LayoutLine.length chunksize (chunks device)
  written : ∀ device k, ∀ chunk ∈ (chunks device)[k]?,
    s.files (layoutName device k) = some (layoutText chunk)
  others : ∀ name, (∀ device k, k < (chunks device).length → name ≠ layoutName device k) →
    s.files name = files name

/-- **Every listing is split.** -/
theorem parseTrace_split (listing : List Char) (hlisting : IsListing listing) (chunksize : ℤ)
    (files : List Char → Option (List Char)) :
    ∃ s chunks, parseTrace listing chunksize files = some s ∧
      IsSplit listing chunksize files chunks s := by
  obtain ⟨s, hs, hlaid⟩ := laid_nil.parseLines
    readlines_ne_nil fun line hline hfour => by
      obtain ⟨⟨device, e⟩, hread, -⟩ := hlisting line hline hfour
      exact ⟨device, e, hread⟩
  rw [List.nil_append] at hlaid
  refine ⟨s, fun device => layoutsOf chunksize device ((readlines listing).filterMap lineOf), hs,
    fun device => flatten_chunksOf _, fun device => isChunking_chunksOf _,
    fun device k chunk hchunk => ?_, fun name hname => ?_⟩
  · rw [hlaid.layouts, Option.mem_def.mp hchunk]
    rfl
  · by_cases hlayout : ∀ device k, name ≠ layoutName device k
    · exact hlaid.others name hlayout
    · -- a layout past the last one
      simp only [not_forall, not_not] at hlayout
      obtain ⟨device, k, rfl⟩ := hlayout
      have hpast : (layoutsOf chunksize device ((readlines listing).filterMap lineOf)).length ≤ k := by
        by_contra hlt
        exact hname device k (not_le.mp hlt) rfl
      rw [hlaid.layouts, List.getElem?_eq_none hpast]
      rfl

/-- Two devices, a line too long for any layout and one that is not of the listing. -/
def sampleListing : List Char := "8:1 5 0 3\n8:2 7 0 1\nno trace\n8:1 6 0 9\n8:1 6 9 0\n".toList

theorem parseTrace_split_sample : ∃ s chunks, parseTrace sampleListing 4 (fun _ => none) = some s ∧
    IsSplit sampleListing 4 (fun _ => none) chunks s :=
  parseTrace_split sampleListing (by decide) 4 _

/-- The long line has a layout of its own. -/
example : (layoutsOf 4 "8:1".toList ((readlines sampleListing).filterMap lineOf)).map List.length =
    [1, 1, 1] := by decide

end Prefetch.SplitTrace

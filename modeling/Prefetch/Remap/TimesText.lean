/-
# Prefetch.Remap.TimesText — the output of e2block2file as the input of e2remapblocks

`dump_times` prints a line for each piece of a range, and `load_extents` reads lines of this form, leaving out
those that say `unmapped`. With `-n` no names are printed, and what is read are the mapped pieces
(`readInput_timesText`).
-/
import Prefetch.Lib.Scan
import Prefetch.Remap.DumpTimes
import Prefetch.Remap.LoadExtents
import Mathlib.Data.List.TakeWhile

namespace Prefetch.Remap

open Scan

/-! ## §1 — what is printed -/

/-- The text behind `INO`, and the name if there is one. -/
def inoText (ino : ℕ) (name : Option String) : List Char :=
  ['I', 'N', 'O', ' '] ++ (Nat.toDigits 10 ino ++
    match name with
    | none => []
    | some name => ' ' :: name.toList)

/-- A line of the output, without its newline: `%Ld+%u unmapped` or `%Ld+%u %Ld INO %u`. -/
def TimesPiece.body (p : TimesPiece) : List Char :=
  printInt p.blocknum ++ ('+' :: (Nat.toDigits 10 p.len ++
    match p.mapping with
    | none => [' ', 'u', 'n', 'm', 'a', 'p', 'p', 'e', 'd']
    | some (offset, ino, name) => ' ' :: (printInt offset ++ ' ' :: inoText ino name)))

/-- The output of `dump_times`. -/
def timesText (printed : List (List TimesPiece)) : List Char :=
  printed.flatten.flatMap fun p => p.body ++ ['\n']

/-! ## §2 — what is read -/

/-- What becomes of a line: it is left out, an extent, or the program exits. On numbers that their types
do not hold, or blocks behind the last number of 32 bits, nothing is said. -/
inductive LineRead where
  | skipped
  | extent (l : Line)
  | parseError
  | outOfRange

/-- `sscanf(linebuf, "%Ld+%u %Ld INO %u", ...)` -/
def scanLine (linebuf : List Char) : Option (ℤ × ℤ × ℤ × ℤ) := do
  let blocknr ← number linebuf
  let text ← literal ['+'] blocknr.2
  let len ← number text
  let offset ← number len.2
  let text ← literal ['I', 'N', 'O'] (skipSpace offset.2)
  let ino ← number text
  some (blocknr.1, len.1, offset.1, ino.1)

/-- The numbers are in range. -/
def InRange32 (blocknr len offset ino : ℤ) : Prop :=
  (0 ≤ blocknr ∧ 0 ≤ len ∧ blocknr + len < 2 ^ 32) ∧ (-2 ^ 63 ≤ offset ∧ offset < 2 ^ 63) ∧
    0 ≤ ino ∧ ino < 2 ^ 32

instance (blocknr len offset ino : ℤ) : Decidable (InRange32 blocknr len offset ino) :=
  inferInstanceAs (Decidable (_ ∧ _ ∧ _ ∧ _))

theorem InRange32.fits {blocknr len offset ino : ℤ} (h : InRange32 blocknr len offset ino) :
    blocknr.toNat + len.toNat < 2 ^ 32 := by
  obtain ⟨hblocks, -⟩ := h
  omega

/-- The extent of a line. -/
def lineOf {blocknr len offset ino : ℤ} (h : InRange32 blocknr len offset ino) : Line :=
  ⟨⟨blocknr.toNat, len.toNat, offset, ino.toNat⟩, h.fits⟩

/-- The extent of a line, if its numbers are in range. -/
def extentOf (blocknr len offset ino : ℤ) : LineRead :=
  if h : InRange32 blocknr len offset ino then .extent (lineOf h) else .outOfRange

/-- What the loop of `load_extents` does with a line in its buffer, which ends at a NUL. -/
def readLine (linebuf : List Char) : LineRead :=
  let linebuf := linebuf.takeWhile (· ≠ '\x00')
  match linebuf.dropWhile (· ≠ ' ') with
  | [] => .parseError
  | _ :: text =>
      if text.take 8 = ['u', 'n', 'm', 'a', 'p', 'p', 'e', 'd'] then .skipped
      else
        match scanLine linebuf with
        | none => .parseError
        | some (blocknr, len, offset, ino) => extentOf blocknr len offset ino

/-- The extents of some lines; `none` where the program exits. -/
def readExtents : List (List Char) → Option (List Line)
  | [] => some []
  | linebuf :: rest =>
      match readLine linebuf with
      | .skipped => readExtents rest
      | .extent l => (readExtents rest).map (l :: ·)
      | .parseError => none
      | .outOfRange => none

/-- The lines `load_extents` reads from its input. -/
def readInput (text : List Char) : Option (List Line) := readExtents (linebufs 256 text.length text)

/-! ## §3 — read back -/

/-- A piece with numbers in range and no name, as `e2block2file -t -n` prints them. -/
structure TimesPiece.Printable (p : TimesPiece) : Prop where
  unnamed : ∀ m ∈ p.mapping, m.2.2 = none
  inRange : ∀ m ∈ p.mapping, InRange32 p.blocknum p.len m.1 m.2.1
  short : 0 ≤ p.blocknum ∧ p.blocknum + p.len < 2 ^ 33

/-- The extents of the mapped pieces. -/
def linesOf : List TimesPiece → List Line
  | [] => []
  | p :: pieces =>
      match p.mapping with
      | none => linesOf pieces
      | some (offset, ino, _) =>
          if h : InRange32 p.blocknum p.len offset ino then lineOf h :: linesOf pieces else linesOf pieces

/-- Letters that end neither a line nor a text. -/
def Plain (c : Char) : Prop := c ≠ '\n' ∧ c ≠ '\x00'

instance : DecidablePred Plain := fun _ => inferInstanceAs (Decidable (_ ∧ _))

theorem plain_of_all {text : List Char} (h : text.all (fun c => decide (Plain c)) = true) : ∀ c ∈ text, Plain c :=
  fun c hc => of_decide_eq_true (List.all_eq_true.mp h c hc)

theorem plain_of_isDigit {c : Char} (h : c.isDigit = true) : Plain c ∧ c ≠ ' ' := by
  refine ⟨⟨?_, ?_⟩, ?_⟩ <;> rintro rfl <;> exact absurd h (by decide)

theorem plain_toDigits (n : ℕ) : ∀ c ∈ Nat.toDigits 10 n, Plain c ∧ c ≠ ' ' :=
  fun _ hc => plain_of_isDigit (Fields.isDigit_of_mem hc)

theorem plain_printInt (z : ℤ) : ∀ c ∈ printInt z, Plain c ∧ c ≠ ' ' := by
  intro c hc
  cases z with
  | ofNat n => exact plain_toDigits n c hc
  | negSucc n =>
      rcases List.mem_cons.mp hc with rfl | hc
      · decide
      · exact plain_toDigits (n + 1) c hc

section Body

variable {p : TimesPiece} {offset : ℤ} {ino : ℕ}

theorem TimesPiece.body_unmapped (h : p.mapping = none) :
    p.body = printInt p.blocknum ++ '+' :: (Nat.toDigits 10 p.len ++
      [' ', 'u', 'n', 'm', 'a', 'p', 'p', 'e', 'd']) := by
  unfold TimesPiece.body
  rw [h]

theorem TimesPiece.body_mapped (h : p.mapping = some (offset, ino, none)) :
    p.body = printInt p.blocknum ++ '+' :: (Nat.toDigits 10 p.len ++
      ' ' :: (printInt offset ++ ' ' :: 'I' :: 'N' :: 'O' :: ' ' :: Nat.toDigits 10 ino)) := by
  unfold TimesPiece.body inoText
  rw [h]
  simp only [List.append_nil, List.cons_append, List.nil_append]

/-- A line has letters only that its buffer can hold. -/
theorem TimesPiece.Printable.plain (h : p.Printable) : ∀ c ∈ p.body, Plain c := by
  have hint : ∀ z, ∀ c ∈ printInt z, Plain c := fun z c hc => (plain_printInt z c hc).1
  have hnat : ∀ n, ∀ c ∈ Nat.toDigits 10 n, Plain c := fun n c hc => (plain_toDigits n c hc).1
  cases hm : p.mapping with
  | none =>
      rw [TimesPiece.body_unmapped hm]
      simp only [List.forall_mem_append, List.forall_mem_cons (a := '+')]
      exact ⟨hint _, by decide, hnat _, plain_of_all (by decide)⟩
  | some m =>
      obtain ⟨offset, ino, name⟩ := m
      obtain rfl : name = none := h.unnamed _ hm
      rw [TimesPiece.body_mapped hm]
      simp only [List.forall_mem_append, List.forall_mem_cons]
      exact ⟨hint _, by decide, hnat _, by decide, hint _, by decide, by decide, by decide, by decide, by decide,
        hnat _⟩

theorem length_toDigits_le {n k : ℕ} (hk : 0 < k) (h : n < 10 ^ k) : (Nat.toDigits 10 n).length ≤ k :=
  (Nat.length_toDigits_le_iff (by decide) hk).mpr h

theorem length_printInt_le {z : ℤ} (h : -2 ^ 63 ≤ z) (h' : z < 2 ^ 63) : (printInt z).length ≤ 20 := by
  cases z with
  | ofNat n =>
      have hn : n < 2 ^ 63 := by
        have hcast : (n : ℤ) < 2 ^ 63 := h'
        omega
      exact length_toDigits_le (by decide) (hn.trans (by decide))
  | negSucc n =>
      have hn : n + 1 ≤ 2 ^ 63 := by omega
      have hlen : (Nat.toDigits 10 (n + 1)).length ≤ 19 :=
        length_toDigits_le (by decide) (Nat.lt_of_le_of_lt hn (by decide))
      show (Nat.toDigits 10 (n + 1)).length + 1 ≤ 20
      omega

/-- A line has room in the buffer. -/
theorem TimesPiece.Printable.length_lt (h : p.Printable) : p.body.length + 1 < 256 := by
  obtain ⟨hfirst, hlast⟩ := h.short
  have hblock : (printInt p.blocknum).length ≤ 20 := length_printInt_le (by omega) (by omega)
  have hlen : (Nat.toDigits 10 p.len).length ≤ 10 :=
    length_toDigits_le (by decide) (Nat.lt_of_lt_of_le (by omega : p.len < 2 ^ 33) (by decide))
  cases hm : p.mapping with
  | none =>
      rw [TimesPiece.body_unmapped hm]
      simp only [List.length_append, List.length_cons, List.length_nil]
      omega
  | some m =>
      obtain ⟨offset, ino, name⟩ := m
      obtain rfl : name = none := h.unnamed _ hm
      obtain ⟨-, ⟨hlo, hhi⟩, -, hino⟩ := h.inRange _ hm
      have hcast : (ino : ℤ) < 2 ^ 32 := hino
      have hoffset : (printInt offset).length ≤ 20 := length_printInt_le hlo hhi
      have hinoLen : (Nat.toDigits 10 ino).length ≤ 10 :=
        length_toDigits_le (by decide) (Nat.lt_of_lt_of_le (by omega : ino < 2 ^ 32) (by decide))
      rw [TimesPiece.body_mapped hm]
      simp only [List.length_append, List.length_cons]
      omega

end Body

/-! ## §4 — line by line -/

section Read

variable {p : TimesPiece} {pieces : List TimesPiece}

theorem noDigit_cons {c : Char} {text : List Char} (h : c.isDigit = false) : NoDigit (c :: text) := by
  intro c' hc'
  obtain rfl : c = c' := Option.some.inj hc'
  exact h

/-- The number at the front of a text. -/
theorem number_front (z : ℤ) {rest : List Char} (h : NoDigit rest) : number (printInt z ++ rest) = some (z, rest) := by
  have hblank : ∀ c ∈ ([] : List Char), isSpace c = true := fun c hc => absurd hc List.not_mem_nil
  exact number_printInt z hblank h

/-- A number behind a blank. -/
theorem number_space (z : ℤ) {rest : List Char} (h : NoDigit rest) :
    number (' ' :: (printInt z ++ rest)) = some (z, rest) := by
  have hblank : ∀ c ∈ [' '], isSpace c = true := by
    intro c hc
    rw [List.mem_singleton.mp hc]
    rfl
  exact number_printInt z hblank h

/-- **The numbers of a line are read back.** -/
theorem scanLine_body (blocknr offset : ℤ) (len ino : ℕ) {rest : List Char} (h : NoDigit rest) :
    scanLine (printInt blocknr ++ '+' :: (Nat.toDigits 10 len ++
      ' ' :: (printInt offset ++ ' ' :: 'I' :: 'N' :: 'O' :: ' ' :: (Nat.toDigits 10 ino ++ rest))))
      = some (blocknr, (len : ℤ), offset, (ino : ℤ)) := by
  have hlen : ∀ text, NoDigit text → number (Nat.toDigits 10 len ++ text) = some ((len : ℤ), text) :=
    fun text htext => number_front (Int.ofNat len) htext
  have hino : number (' ' :: (Nat.toDigits 10 ino ++ rest)) = some ((ino : ℤ), rest) :=
    number_space (Int.ofNat ino) h
  have hplus : ∀ text, literal ['+'] ('+' :: text) = some text := fun text => literal_append ['+'] text
  have hword : ∀ text, literal ['I', 'N', 'O'] ('I' :: 'N' :: 'O' :: text) = some text :=
    fun text => literal_append ['I', 'N', 'O'] text
  have hskip : ∀ text, skipSpace (' ' :: 'I' :: text) = 'I' :: text := fun text => rfl
  have hplusDigit : ∀ text, NoDigit ('+' :: text) := fun text => noDigit_cons (by decide)
  have hspaceDigit : ∀ text, NoDigit (' ' :: text) := fun text => noDigit_cons (by decide)
  unfold scanLine
  simp only [Option.bind_eq_bind, number_front blocknr (hplusDigit _), Option.bind_some, hplus,
    hlen _ (hspaceDigit _), number_space offset (hspaceDigit _), hskip, hword, hino]

theorem takeWhile_plain {body : List Char} (h : ∀ c ∈ body, Plain c) :
    (body ++ ['\n']).takeWhile (· ≠ '\x00') = body ++ ['\n'] := by
  rw [List.takeWhile_eq_self_iff]
  intro c hc
  rw [decide_eq_true_iff]
  rcases List.mem_append.mp hc with hc | hc
  · exact (h c hc).2
  · rw [List.mem_singleton.mp hc]
    decide

/-- The first blank of a line comes behind the length. -/
theorem dropWhile_blank (blocknr : ℤ) (len : ℕ) (text : List Char) :
    (printInt blocknr ++ '+' :: (Nat.toDigits 10 len ++ ' ' :: text)).dropWhile (· ≠ ' ') = ' ' :: text := by
  have hint : ∀ c ∈ printInt blocknr, decide (c ≠ ' ') = true :=
    fun c hc => decide_eq_true (plain_printInt blocknr c hc).2
  have hnat : ∀ c ∈ Nat.toDigits 10 len, decide (c ≠ ' ') = true :=
    fun c hc => decide_eq_true (plain_toDigits len c hc).2
  rw [List.dropWhile_append_of_pos hint, List.dropWhile_cons_of_pos (by decide), List.dropWhile_append_of_pos hnat,
    List.dropWhile_cons_of_neg (by decide)]

/-- A printed number does not say `unmapped`. -/
theorem take_printInt_ne (z : ℤ) (text : List Char) :
    (printInt z ++ text).take 8 ≠ ['u', 'n', 'm', 'a', 'p', 'p', 'e', 'd'] := by
  have hfirst : ∃ c ds, printInt z = c :: ds ∧ c ≠ 'u' := by
    cases z with
    | ofNat n =>
        obtain ⟨c, ds, hcons, hc⟩ := Fields.exists_toDigits_eq_cons n
        refine ⟨c, ds, hcons, ?_⟩
        rintro rfl
        exact absurd hc (by decide)
    | negSucc n => exact ⟨'-', _, rfl, by decide⟩
  obtain ⟨c, ds, hcons, hc⟩ := hfirst
  rw [hcons]
  intro heq
  exact hc (List.cons.inj heq).1

theorem readLine_unmapped (h : p.Printable) (hm : p.mapping = none) :
    readLine (p.body ++ ['\n']) = .skipped := by
  unfold readLine
  rw [takeWhile_plain h.plain, TimesPiece.body_unmapped hm]
  have hblank := dropWhile_blank p.blocknum p.len ['u', 'n', 'm', 'a', 'p', 'p', 'e', 'd', '\n']
  simp only [List.append_assoc, List.cons_append, List.nil_append]
  rw [hblank]
  rfl

theorem readLine_mapped (h : p.Printable) {offset : ℤ} {ino : ℕ} (hm : p.mapping = some (offset, ino, none)) :
    readLine (p.body ++ ['\n']) = extentOf p.blocknum p.len offset ino := by
  unfold readLine
  rw [takeWhile_plain h.plain, TimesPiece.body_mapped hm]
  simp only [List.append_assoc, List.cons_append]
  rw [dropWhile_blank, scanLine_body p.blocknum offset p.len ino (noDigit_cons (by decide))]
  exact if_neg (take_printInt_ne offset _)

/-- The lines of some pieces are read as their extents. -/
theorem readExtents_bodies (h : ∀ p ∈ pieces, p.Printable) :
    readExtents (pieces.map fun p => p.body ++ ['\n']) = some (linesOf pieces) := by
  induction pieces with
  | nil => rfl
  | cons p pieces ih =>
      have hp := h p List.mem_cons_self
      have hrest := ih fun q hq => h q (List.mem_cons_of_mem p hq)
      rw [List.map_cons, readExtents, linesOf, hrest]
      cases hm : p.mapping with
      | none => rw [readLine_unmapped hp hm]
      | some m =>
          obtain ⟨offset, ino, name⟩ := m
          obtain rfl : name = none := hp.unnamed _ hm
          have hin : InRange32 p.blocknum p.len offset ino := hp.inRange _ hm
          rw [readLine_mapped hp hm, extentOf, dif_pos hin]
          dsimp only
          rw [dif_pos hin, Option.map_some]

/-- **What e2block2file prints is what e2remapblocks reads.** -/
theorem readInput_timesText {printed : List (List TimesPiece)} (h : ∀ p ∈ printed.flatten, p.Printable) :
    readInput (timesText printed) = some (linesOf printed.flatten) := by
  have hlines : ∀ p ∈ printed.flatten, '\n' ∉ p.body ∧ p.body.length + 1 < 256 :=
    fun p hp => ⟨fun hmem => ((h p hp).plain _ hmem).1 rfl, (h p hp).length_lt⟩
  unfold readInput timesText
  rw [linebufs_flatMap hlines (length_le_flatMap_lines _ _), readExtents_bodies h]

end Read

end Prefetch.Remap

/-
# Prefetch.TraceFile.StackHeader — what a short file leaves of the header (`prefetch_lib.cpp`)

`open_trace_file` reads the header into a variable on its stack and takes any number of bytes for a success
(the loader in the kernel asks for all of them). The checks then look at what was on the stack before.
Every file that is the beginning of an acceptable header is accepted with some stack, and two stacks can send
the reader to two places: `stackFree_iff`.
-/
import Prefetch.TraceFile.UserFile

namespace Prefetch.TraceFile

open Prefetch.Core Codec Transfers

variable {M : Machine} {e : Endian}

/-! ## §1 — opening and reading -/

/-- `open_trace_file`, then `read_prefetch_record` until it reads no more: the error, or the descriptor, how
reading ended and the records. -/
def openAndRead (e : Endian) (M : Machine) (opened : Option Errno) (stack file : List UInt8)
    (reads : ℕ → Outcome Errno) :
    Except ℤ (PrefetchTraceDesc × ℤ × List (RecordData M.bits)) :=
  (openTraceFile e opened stack file (reads 0)).map fun desc =>
    (desc, readRecords e reads 1 0 desc [])

/-- It is what `trace_file_read_data` does. -/
theorem traceFileReadData_eq (opened : Option Errno) (stack file : List UInt8)
    (reads : ℕ → Outcome Errno) :
    traceFileReadData e opened stack file reads 0 [] =
      match openAndRead e M opened stack file reads with
      | .error _ => (-1, [])
      | .ok result => result.2 := by
  unfold traceFileReadData openAndRead
  cases openTraceFile e opened stack file (reads 0) <;> rfl

/-- The bytes the first read brings. -/
def headerRead (file : List UInt8) (outcome : Outcome Errno) : List UInt8 :=
  file.take (outcome.moved (min sizeofHeader file.length))

/-- The header the checks look at. -/
def headerSeen (e : Endian) (stack file : List UInt8) (outcome : Outcome Errno) : PrefetchTraceHeader :=
  (headerCodec e).decode (headerRead file outcome ++ stack.drop (headerRead file outcome).length)

theorem length_headerRead_le (file : List UInt8) (outcome : Outcome Errno) :
    (headerRead file outcome).length ≤ sizeofHeader := by
  have hmoved := outcome.moved_le (min sizeofHeader file.length)
  rw [headerRead, List.length_take]
  omega

/-- The read, less its result. -/
theorem read_header (file : List UInt8) {outcome : Outcome Errno} (hok : outcome.isError = false) :
    ∃ n : ℕ, read ⟨file, 0⟩ outcome sizeofHeader =
      ((n : ℤ), headerRead file outcome, ⟨file, n⟩) := by
  have hthere : readAt file 0 sizeofHeader = file.take sizeofHeader := by
    simp [readAt]
  have hmoved := outcome.moved_le (min sizeofHeader file.length)
  refine ⟨outcome.moved (min sizeofHeader file.length), ?_⟩
  rw [read_of_not_error hok ⟨file, 0⟩ rfl]
  simp only [hthere, List.length_take, List.take_take, Nat.zero_add, headerRead]
  rw [min_eq_left (hmoved.trans (min_le_left _ _))]

/-- **What `open_trace_file` makes of the header it sees.** -/
theorem openTraceFile_seen {stack : List UInt8} (hstack : stack.length = sizeofHeader)
    (file : List UInt8) {outcome : Outcome Errno} (hok : outcome.isError = false) :
    openTraceFile e none stack file outcome =
      if (headerSeen e stack file outcome).Accepted then
        .ok ⟨file, (headerSeen e stack file outcome).dataStart.toNat⟩
      else .error (-1) := by
  obtain ⟨n, hread⟩ := read_header file hok
  have hle := length_headerRead_le file outcome
  have hwhole : (headerRead file outcome ++ stack.drop (headerRead file outcome).length).length ≤
      sizeofHeader := by
    rw [List.length_append, List.length_drop]
    omega
  unfold openTraceFile
  simp only [hread]
  rw [if_neg (by omega), List.take_of_length_le hwhole, checks_eq]
  rfl

theorem openTraceFile_error {stack file : List UInt8} {outcome : Outcome Errno}
    (herr : outcome.isError = true) : openTraceFile e none stack file outcome = .error (-1) := by
  cases outcome with
  | error err => simp [openTraceFile, read, kernelRead, err.negative]
  | short n => cases herr
  | full => cases herr

/-! ## §2 — the last byte of the header -/

/-- The second byte of a word matters. -/
theorem word_decode_ne {x y y' : UInt8} (h : y ≠ y') :
    (word e 2).decode [x, y] ≠ (word e 2).decode [x, y'] := by
  have hx := x.toNat_lt
  have hy := y.toNat_lt
  have hy' := y'.toNat_lt
  have hne : y.toNat ≠ y'.toNat := fun heq => h (UInt8.toNat_inj.1 heq)
  intro heq
  have hnat := congrArg BitVec.toNat heq
  cases e with
  | little =>
      simp [word, Endian.arrange, ofBytes, Nat.ofDigits] at hnat
      omega
  | big =>
      simp [word, Endian.arrange, ofBytes, Nat.ofDigits] at hnat
      omega

/-- `data_start` is in the last two bytes. -/
theorem decode_dataStart {front : List UInt8} (hfront : front.length = 8) (x y : UInt8) :
    ((headerCodec e).decode (front ++ [x, y])).dataStart = (word e 2).decode [x, y] := by
  show (word e 2).decode
    ((((((front ++ [x, y]).drop 4).take 6).drop 2).take 4).drop 2 |>.take 2) = _
  congr 1
  simp [List.drop_take, List.drop_append, hfront]

/-- The bytes are the beginning of a header that is accepted. -/
def BeginsAccepted (e : Endian) (start : List UInt8) : Prop :=
  ∃ rest, (start ++ rest).length = sizeofHeader ∧ ((headerCodec e).decode (start ++ rest)).Accepted

/-- **The rest of such a header can be completed in two ways** that send the reader to two places. -/
theorem exists_two_rests {start : List UInt8} (hshort : start.length < sizeofHeader)
    (hbegins : BeginsAccepted e start) : ∃ rest rest',
      (start ++ rest).length = sizeofHeader ∧ (start ++ rest').length = sizeofHeader ∧
      ((headerCodec e).decode (start ++ rest)).Accepted ∧
      ((headerCodec e).decode (start ++ rest)).dataStart ≠
        ((headerCodec e).decode (start ++ rest')).dataStart := by
  obtain ⟨rest, hlen, haccepted⟩ := hbegins
  have hne : rest ≠ [] := by
    rintro rfl
    rw [List.append_nil] at hlen
    omega
  obtain ⟨init, y, rfl⟩ := List.eq_nil_or_concat' rest |>.resolve_left hne
  -- the last byte is not one of those that are there
  have hnine : (start ++ init).length = 9 := by
    simp only [List.length_append, List.length_singleton, sizeofHeader] at hlen ⊢
    omega
  obtain ⟨front, x, hfront⟩ : ∃ front x, start ++ init = front ++ [x] := by
    refine List.eq_nil_or_concat' (start ++ init) |>.resolve_left ?_
    intro hnil
    rw [hnil] at hnine
    cases hnine
  have height : front.length = 8 := by
    rw [hfront, List.length_append, List.length_singleton] at hnine
    omega
  have hsplit : ∀ z, start ++ (init ++ [z]) = front ++ [x, z] := by
    intro z
    rw [← List.append_assoc, hfront, List.append_assoc]
    rfl
  refine ⟨init ++ [y], init ++ [y + 1], hlen, ?_, haccepted, ?_⟩
  · rw [hsplit, List.length_append, height]
    rfl
  · rw [hsplit, hsplit, decode_dataStart height, decode_dataStart height]
    exact word_decode_ne (by simp)

/-! ## §3 — what the stack decides -/

/-- What was on the stack makes no difference, and no file is accepted but for a complete header of its
own. -/
structure StackFree (e : Endian) (M : Machine) (opened : Option Errno) (file : List UInt8)
    (reads : ℕ → Outcome Errno) : Prop where
  same : ∀ stack stack' : List UInt8, stack.length = sizeofHeader → stack'.length = sizeofHeader →
    openAndRead e M opened stack file reads = openAndRead e M opened stack' file reads
  complete : ∀ (stack : List UInt8) result, stack.length = sizeofHeader →
    openAndRead e M opened stack file reads = .ok result →
      sizeofHeader ≤ file.length ∧ (headerOf e file).Accepted

variable {opened : Option Errno} {file : List UInt8} {reads : ℕ → Outcome Errno}

/-- Where `open_trace_file` fails with every stack. -/
theorem stackFree_of_error
    (herror : ∀ stack : List UInt8, stack.length = sizeofHeader →
      openTraceFile e opened stack file (reads 0) = .error (-1)) :
    StackFree e M opened file reads where
  same stack stack' hstack hstack' := by
    rw [openAndRead, openAndRead, herror stack hstack, herror stack' hstack']
  complete stack result hstack hresult := by
    rw [openAndRead, herror stack hstack] at hresult
    cases hresult

/-- The whole header comes from the file. -/
theorem stackFree_of_whole (hok : (reads 0).isError = false)
    (hwhole : (headerRead file (reads 0)).length = sizeofHeader) : StackFree e M none file reads := by
  have hfile : headerRead file (reads 0) = file.take sizeofHeader ∧ sizeofHeader ≤ file.length := by
    unfold headerRead at hwhole ⊢
    have hmoved := (reads 0).moved_le (min sizeofHeader file.length)
    rw [List.length_take] at hwhole
    have hall : (reads 0).moved (min sizeofHeader file.length) = sizeofHeader := by omega
    exact ⟨by rw [hall], by omega⟩
  have hseen : ∀ stack : List UInt8, stack.length = sizeofHeader →
      headerSeen e stack file (reads 0) = headerOf e file := by
    intro stack hstack
    rw [headerSeen, hwhole, List.drop_eq_nil_of_le hstack.le, List.append_nil, hfile.1]
    rfl
  constructor
  · intro stack stack' hstack hstack'
    rw [openAndRead, openAndRead, openTraceFile_seen hstack file hok, openTraceFile_seen hstack' file hok,
      hseen stack hstack, hseen stack' hstack']
  · intro stack result hstack hresult
    rw [openAndRead, openTraceFile_seen hstack file hok, hseen stack hstack] at hresult
    split_ifs at hresult with haccepted
    · exact ⟨hfile.2, haccepted⟩
    · cases hresult

/-- **Opening and reading is the same whatever was on the stack, and accepts complete headers alone, if and
only if the file cannot be opened or read, the read brings the whole header, or what it brings is not the
beginning of a header that is accepted.** -/
theorem stackFree_iff (e : Endian) (M : Machine) (opened : Option Errno) (file : List UInt8)
    (reads : ℕ → Outcome Errno) :
    StackFree e M opened file reads ↔
      opened.isSome = true ∨ (reads 0).isError = true ∨
        (headerRead file (reads 0)).length = sizeofHeader ∨
          ¬ BeginsAccepted e (headerRead file (reads 0)) := by
  cases opened with
  | some err => exact iff_of_true (stackFree_of_error fun _ _ => rfl) (.inl rfl)
  | none =>
  cases hok : (reads 0).isError with
  | true =>
      exact iff_of_true (stackFree_of_error fun _ _ => openTraceFile_error hok) (.inr (.inl rfl))
  | false =>
  constructor
  · intro hfree
    by_contra hcondition
    simp only [not_or, not_not] at hcondition
    obtain ⟨-, -, hshort, hbegins⟩ := hcondition
    obtain ⟨rest, rest', hlen, hlen', haccepted, hne⟩ := exists_two_rests
      (lt_of_le_of_ne (length_headerRead_le file (reads 0)) hshort) hbegins
    have hseen : ∀ rest, headerSeen e (headerRead file (reads 0) ++ rest) file (reads 0) =
        (headerCodec e).decode (headerRead file (reads 0) ++ rest) := by
      intro rest
      rw [headerSeen, List.drop_left]
    have hsame := hfree.same _ _ hlen hlen'
    rw [openAndRead, openAndRead, openTraceFile_seen hlen file hok, openTraceFile_seen hlen' file hok,
      hseen, hseen, if_pos haccepted] at hsame
    split_ifs at hsame
    · injection hsame with hdesc
      have hpos := congrArg (fun result => result.1.pos) hdesc
      exact hne (BitVec.eq_of_toNat_eq hpos)
    · cases hsame
  · rintro (hopened | herr | hwhole | hbegins)
    · cases hopened
    · cases herr
    · exact stackFree_of_whole hok hwhole
    · apply stackFree_of_error
      intro stack hstack
      rw [openTraceFile_seen hstack file hok, if_neg]
      intro haccepted
      refine hbegins ⟨_, ?_, haccepted⟩
      have hle := length_headerRead_le file (reads 0)
      rw [List.length_append, List.length_drop]
      omega

/-- An empty file is accepted if the header of another one is still on the stack. -/
theorem empty_file_accepted :
    openAndRead .little .bits32 none (headerBytes .little) [] fullTransfers = .ok (⟨[], 10⟩, 0, []) ∧
      ¬ StackFree .little .bits32 none [] fullTransfers := by
  have hstack : (headerBytes .little).length = sizeofHeader := length_headerBytes .little
  have hseen : headerSeen .little (headerBytes .little) [] (fullTransfers 0) = savedHeader :=
    (headerCodec .little).decode_encode savedHeader
  have hend : (readPrefetchRecord .little ⟨[], 10⟩ (fullTransfers 1) :
      Except ℤ (RecordImage .bits32 × PrefetchTraceDesc)) = .error 1 :=
    readPrefetchRecord_eof .little (Nat.zero_le _)
  have hopen : openAndRead .little .bits32 none (headerBytes .little) [] fullTransfers =
      .ok (⟨[], 10⟩, 0, []) := by
    have hpos : savedHeader.dataStart.toNat = 10 := rfl
    rw [openAndRead, openTraceFile_seen hstack [] rfl, hseen, if_pos savedHeader_accepted, hpos,
      Except.map, readRecords_error .little hend]
    rfl
  refine ⟨hopen, ?_⟩
  intro hfree
  exact absurd (hfree.complete _ _ hstack hopen).1 (by decide)

end Prefetch.TraceFile

/-
# Prefetch.TraceFile.UserFile — trace files in user space (`prefetch_lib.cpp`, `prefetch-process-trace.cpp`)

The library opens a trace file, leaves the descriptor at the first record and reads one record a call;
`output_trace_file_data` writes a file record by record. §4 compares them with the loader and the saver in
the kernel: both sides check the same three fields of the header, the kernel takes the records as one block
and the library one by one, and what either side writes both read.
-/
import Prefetch.TraceFile.KernelFile
import Prefetch.Trace.Merge

namespace Prefetch.TraceFile

open Prefetch.Core Codec Transfers

variable {M : Machine} (e : Endian)

/-! ## §1 — reading -/

/-- `prefetch_trace_desc_t`: a descriptor open for reading, and where it is. -/
structure PrefetchTraceDesc where
  file : List UInt8
  pos : ℕ
  deriving DecidableEq, Repr

/-- `read`: its result, the bytes read and the descriptor after it. -/
def read (desc : PrefetchTraceDesc) (outcome : Outcome Errno) (count : ℕ) :
    ℤ × List UInt8 × PrefetchTraceDesc :=
  let got := kernelRead desc.file outcome desc.pos count
  if got.1 < 0 then (-1, [], desc)
  else (got.1, got.2, { desc with pos := desc.pos + got.2.length })

/-- `open_trace_file`. What the read does not fill of `header` is what was on the stack. A regular file is
seeked to any place that is not negative. -/
def openTraceFile (opened : Option Errno) (stack file : List UInt8) (outcome : Outcome Errno) :
    Except ℤ PrefetchTraceDesc :=
  match opened with
  | some _ => .error (-1)
  | none =>
      let got := read ⟨file, 0⟩ outcome sizeofHeader
      if got.1 = -1 then .error (-1)
      else
        let header := (headerCodec e).decode ((got.2.1 ++ stack.drop got.2.1.length).take sizeofHeader)
        if strncmp (List.ofFn header.magic) (List.ofFn traceFileMagic) ≠ 0 then .error (-1)
        else if header.versionMajor ≠ PREFETCH_FORMAT_VERSION_MAJOR then .error (-1)
        else if header.dataStart.toNat < sizeofHeader then .error (-1)
        else .ok { got.2.2 with pos := header.dataStart.toNat }

/-- `read_prefetch_record`: the record and the descriptor after it, 1 at the end of the file, or an
error. -/
def readPrefetchRecord (desc : PrefetchTraceDesc) (outcome : Outcome Errno) :
    Except ℤ (RecordImage M × PrefetchTraceDesc) :=
  let got := read desc outcome M.sizeofRecord
  if got.1 = 0 then .error 1
  else if got.1 < 0 then .error (-1)
  else if got.1 ≠ M.sizeofRecord then .error (-1)
  else .ok ((recordCodec e M).decode got.2.1, got.2.2)

/-- A read that does not fail moves the descriptor past the bytes it moved. -/
theorem read_of_not_error {outcome : Outcome Errno} (hok : outcome.isError = false)
    (desc : PrefetchTraceDesc) {count n : ℕ}
    (hn : outcome.moved (readAt desc.file desc.pos count).length = n) :
    read desc outcome count =
      ((n : ℤ), (readAt desc.file desc.pos count).take n, { desc with pos := desc.pos + n }) := by
  have hlen : ((readAt desc.file desc.pos count).take n).length = n := by
    rw [List.length_take, ← hn]
    exact min_eq_left (Outcome.moved_le _ _)
  unfold read
  rw [kernelRead_of_not_error hok, hn]
  simp only
  rw [if_neg (by omega), hlen]

/-- A record that is read moves the descriptor past it. -/
theorem readPrefetchRecord_pos {desc desc' : PrefetchTraceDesc} {outcome : Outcome Errno}
    {image : RecordImage M} (h : readPrefetchRecord e desc outcome = .ok (image, desc')) :
    desc'.file = desc.file ∧ desc'.pos = desc.pos + M.sizeofRecord ∧
      desc'.pos ≤ desc.file.length := by
  cases hok : outcome.isError with
  | true =>
      cases outcome with
      | error err => simp [readPrefetchRecord, read, kernelRead, err.negative] at h
      | short n => cases hok
      | full => cases hok
  | false =>
      generalize hn : outcome.moved (readAt desc.file desc.pos M.sizeofRecord).length = n
      have hle := Outcome.moved_le outcome (readAt desc.file desc.pos M.sizeofRecord).length
      rw [hn, readAt, List.length_take, List.length_drop] at hle
      unfold readPrefetchRecord at h
      simp only [read_of_not_error hok desc hn] at h
      split at h
      · cases h
      · next hmore =>
        rw [if_neg (by omega)] at h
        split at h
        · cases h
        · next hwhole =>
          cases h
          have hsize : 0 < M.sizeofRecord := Machine.sizeofRecord_pos
          have heq : n = M.sizeofRecord := by omega
          exact ⟨rfl, by rw [heq], by show desc.pos + n ≤ _; omega⟩

/-- The loop of `trace_file_read_data`: what it returns and the records after it. -/
def readRecords (reads : ℕ → Outcome Errno) (call : ℕ) (index : ℤ) (desc : PrefetchTraceDesc)
    (records : List (RecordData M.bits)) : ℤ × List (RecordData M.bits) :=
  match h : (readPrefetchRecord e desc (reads call) : Except ℤ (RecordImage M × PrefetchTraceDesc)) with
  | .error r => if r = 1 then (0, records) else (-1, records)
  | .ok (image, desc') =>
      readRecords reads (call + 1) (index + 1) desc' (records ++ [⟨image.record, index⟩])
termination_by desc.file.length - desc.pos
decreasing_by
  obtain ⟨hfile, hpos, hle⟩ := readPrefetchRecord_pos e h
  have hsize : 0 < M.sizeofRecord := Machine.sizeofRecord_pos
  rw [hfile]
  omega

/-- The loop goes on with each record it reads. -/
theorem readRecords_ok {reads : ℕ → Outcome Errno} {call : ℕ} {desc desc' : PrefetchTraceDesc}
    {image : RecordImage M} (h : readPrefetchRecord e desc (reads call) = .ok (image, desc'))
    (index : ℤ) (records : List (RecordData M.bits)) :
    readRecords e reads call index desc records =
      readRecords e reads (call + 1) (index + 1) desc' (records ++ [⟨image.record, index⟩]) := by
  rw [readRecords]
  split
  · next r hr =>
    rw [h] at hr
    cases hr
  · next hr =>
    rw [h] at hr
    cases hr
    rfl

/-- The loop ends where it reads none. -/
theorem readRecords_error {reads : ℕ → Outcome Errno} {call : ℕ} {desc : PrefetchTraceDesc} {r : ℤ}
    (h : (readPrefetchRecord e desc (reads call) :
      Except ℤ (RecordImage M × PrefetchTraceDesc)) = .error r)
    (index : ℤ) (records : List (RecordData M.bits)) :
    readRecords e reads call index desc records = (if r = 1 then 0 else -1, records) := by
  rw [readRecords]
  split
  · next r' hr =>
    rw [h] at hr
    cases hr
    split <;> rfl
  · next hr =>
    rw [h] at hr
    cases hr

/-- `trace_file_read_data`: `index` is the static counter of the records read from all files. -/
def traceFileReadData (opened : Option Errno) (stack file : List UInt8) (reads : ℕ → Outcome Errno)
    (index : ℤ) (records : List (RecordData M.bits)) : ℤ × List (RecordData M.bits) :=
  match openTraceFile e opened stack file (reads 0) with
  | .error _ => (-1, records)
  | .ok desc => readRecords e reads 1 index desc records

/-! ## §2 — writing -/

/-- `fill_trace_file_header` -/
def fillTraceFileHeader (header : PrefetchTraceHeader) : PrefetchTraceHeader :=
  { header with
    magic := traceFileMagic
    versionMajor := PREFETCH_FORMAT_VERSION_MAJOR
    versionMinor := PREFETCH_FORMAT_VERSION_MINOR
    dataStart := BitVec.ofNat 16 sizeofHeader }

/-- `fwrite` of one item: whether the error indicator is set, and the bytes that got out. -/
def fwrite (outcome : Outcome Errno) (block : List UInt8) : Bool × List UInt8 :=
  match outcome with
  | .error _ => (true, [])
  | .short n => (decide (n < block.length), block.take n)
  | .full => (false, block)

/-- The loop of `output_trace_file_data`. An item that is not written whole sets the error indicator, so
the loop is never left by `r == 0`. -/
def outputRecords (writes : ℕ → Outcome Errno) : ℕ → List UInt8 → List (RecordImage M) →
    ℤ × List UInt8
  | _, out, [] => (0, out)
  | call, out, image :: images =>
      let done := fwrite (writes call) ((recordCodec e M).encode image)
      if done.1 then (-1, out ++ done.2)
      else outputRecords writes (call + 1) (out ++ done.2) images

/-- `output_trace_file_data`: what it returns and what it writes to `stdout`. `stack` is `header` before it
is filled in and `padding i` is in the padding of the `i`-th record. -/
def outputTraceFileData (stack : PrefetchTraceHeader) (padding : ℕ → Fin (paddingBytes M) → UInt8)
    (data : List (RecordData M.bits)) (writes : ℕ → Outcome Errno) : ℤ × List UInt8 :=
  let done := fwrite (writes 0) ((headerCodec e).encode (fillTraceFileHeader stack))
  if done.1 then (-1, done.2)
  else outputRecords e writes 1 done.2 (recordImages padding (data.map RecordData.record))

/-! ## §3 — calls that move all they are asked to -/

/-- Every call moves all it is asked to, or what there is. -/
def fullTransfers : ℕ → Outcome Errno := fun _ => .full

theorem read_full (desc : PrefetchTraceDesc) (count : ℕ) :
    read desc .full count = (((readAt desc.file desc.pos count).length : ℤ),
      readAt desc.file desc.pos count,
      { desc with pos := desc.pos + (readAt desc.file desc.pos count).length }) := by
  rw [read_of_not_error rfl desc rfl, Outcome.moved, List.take_length]

/-- **What `open_trace_file` accepts.** -/
theorem openTraceFile_eq (stack : List UInt8) {file : List UInt8} (hlen : sizeofHeader ≤ file.length) :
    openTraceFile e none stack file .full =
      if (headerOf e file).Accepted then .ok ⟨file, (headerOf e file).dataStart.toNat⟩
      else .error (-1) := by
  have hthere : readAt file 0 sizeofHeader = file.take sizeofHeader := by
    simp [readAt]
  have hwhole : (file.take sizeofHeader).length = sizeofHeader := by
    rw [List.length_take, min_eq_left hlen]
  unfold openTraceFile
  simp only [read_full, hthere, hwhole]
  rw [if_neg (by decide), List.take_left' hwhole, checks_eq]
  rfl

/-- A record that is there is read. -/
theorem readPrefetchRecord_full {desc : PrefetchTraceDesc}
    (hroom : desc.pos + M.sizeofRecord ≤ desc.file.length) :
    readPrefetchRecord e desc .full =
      .ok ((recordCodec e M).decode ((desc.file.drop desc.pos).take M.sizeofRecord),
        { desc with pos := desc.pos + M.sizeofRecord }) := by
  have hsize : 0 < M.sizeofRecord := Machine.sizeofRecord_pos
  have hthere : (readAt desc.file desc.pos M.sizeofRecord).length = M.sizeofRecord := by
    simp only [readAt, List.length_take, List.length_drop]
    omega
  unfold readPrefetchRecord
  simp only [read_full, hthere]
  rw [if_neg (by omega), if_neg (by omega), if_neg (not_not.mpr rfl)]
  rfl

/-- Past the last record is the end of the file. -/
theorem readPrefetchRecord_eof {desc : PrefetchTraceDesc} (hend : desc.file.length ≤ desc.pos) :
    (readPrefetchRecord e desc .full : Except ℤ (RecordImage M × PrefetchTraceDesc)) = .error 1 := by
  have hthere : readAt desc.file desc.pos M.sizeofRecord = [] := by
    rw [readAt, List.drop_eq_nil_of_le hend, List.take_nil]
  unfold readPrefetchRecord
  simp only [read_full, hthere]
  exact if_pos rfl

/-- **Reading record after record reads the array of records** from the descriptor to the end. -/
theorem readRecords_full {k : ℕ} {desc : PrefetchTraceDesc}
    (hwhole : desc.file.length = desc.pos + k * M.sizeofRecord) (call : ℕ) (index : ℤ)
    (records : List (RecordData M.bits)) :
    ∃ more, readRecords e fullTransfers call index desc records = (0, records ++ more) ∧
      more.map RecordData.record =
        ((recordCodec e M).decodeMany k (desc.file.drop desc.pos)).map RecordImage.record := by
  induction k generalizing desc call index records with
  | zero =>
      refine ⟨[], ?_, rfl⟩
      have hend : (readPrefetchRecord e desc (fullTransfers call) :
          Except ℤ (RecordImage M × PrefetchTraceDesc)) = .error 1 :=
        readPrefetchRecord_eof e (by omega)
      rw [readRecords_error e hend, List.append_nil]
      rfl
  | succ k ih =>
      have hroom : desc.pos + M.sizeofRecord ≤ desc.file.length := by
        rw [hwhole, Nat.succ_mul]
        omega
      have hrest : desc.file.length = desc.pos + M.sizeofRecord + k * M.sizeofRecord := by
        rw [hwhole, Nat.succ_mul]
        omega
      have hrecord : readPrefetchRecord e desc (fullTransfers call) = _ :=
        readPrefetchRecord_full e hroom
      -- the array is `image` and what the rest of the file holds
      generalize himage :
        (recordCodec e M).decode ((desc.file.drop desc.pos).take M.sizeofRecord) = image at hrecord
      obtain ⟨more, hmore, hrecords⟩ := @ih ⟨desc.file, desc.pos + M.sizeofRecord⟩ hrest (call + 1)
        (index + 1) (records ++ [⟨image.record, index⟩])
      refine ⟨⟨image.record, index⟩ :: more, ?_, ?_⟩
      · rw [readRecords_ok e hrecord, hmore, List.append_assoc]
        rfl
      · rw [List.map_cons, hrecords]
        simp only [decodeMany, recordCodec_width, List.drop_drop, List.map_cons, himage]

/-- Record after record is written as the array of them. -/
theorem outputRecords_full (call : ℕ) (out : List UInt8) (images : List (RecordImage M)) :
    outputRecords e fullTransfers call out images = (0, out ++ (recordCodec e M).encodeAll images) := by
  induction images generalizing call out with
  | nil => simp [outputRecords, encodeAll]
  | cons image images ih =>
      show outputRecords e fullTransfers (call + 1) (out ++ (recordCodec e M).encode image) images = _
      rw [ih, List.append_assoc]
      rfl

/-- **`output_trace_file_data` writes the file `prefetch_save_trace_fragment` writes.** -/
theorem outputTraceFileData_full (stack : PrefetchTraceHeader)
    (padding : ℕ → Fin (paddingBytes M) → UInt8) (data : List (RecordData M.bits)) :
    outputTraceFileData e stack padding data fullTransfers =
      (0, headerBytes e ++
        (recordCodec e M).encodeAll (recordImages padding (data.map RecordData.record))) := by
  show outputRecords e fullTransfers 1 (headerBytes e) _ = _
  exact outputRecords_full e 1 _ _

/-! ## §4 — one format -/

theorem fullTransfers_moves (i : ℕ) : (fullTransfers i).Moves := trivial

/-- Calls that move all they are asked to complete a block with the first of them. -/
theorem fullTransfers_completes (size : ℕ) :
    Completes size (fun call => fullTransfers (call + 1)) := by
  cases size with
  | zero => exact ⟨0, nofun, Nat.zero_le _⟩
  | succ size =>
      refine ⟨1, ?_, ?_⟩
      · intro i hi
        have hzero : i = 0 := by omega
        subst hzero
        exact ⟨rfl, Nat.succ_pos size⟩
      · simp [offered, fullTransfers, Outcome.moved]

/-- Both readers accept a file and find these records in it. -/
structure ReadAs (stack file : List UInt8) (records : List (Record M)) : Prop where
  loaded : ∃ block, prefetchLoadTraceFragment e none true file fullTransfers = .ok block ∧
    recordsIn e M block = records
  opened : ∃ desc data, openTraceFile e none stack file (fullTransfers 0) = .ok desc ∧
    readRecords e fullTransfers 1 0 desc [] = (0, data) ∧ data.map RecordData.record = records

/-- Such a file is what `trace_file_read_data` reads. -/
theorem ReadAs.traceFileReadData {stack file : List UInt8} {records : List (Record M)}
    (h : ReadAs e stack file records) :
    ∃ data, TraceFile.traceFileReadData e none stack file fullTransfers 0 [] = (0, data) ∧
      data.map RecordData.record = records := by
  obtain ⟨desc, data, hopen, hread, hdata⟩ := h.opened
  refine ⟨data, ?_, hdata⟩
  rw [TraceFile.traceFileReadData, hopen]
  exact hread

/-- The bytes from `data_start` on are a positive number of records, where `data_start` is not inside
the header. -/
def WholeRecords (M : Machine) (file : List UInt8) : Prop :=
  (headerOf e file).dataStart.toNat < sizeofHeader ∨
    ∃ k, 0 < k ∧ file.length = (headerOf e file).dataStart.toNat + k * M.sizeofRecord

variable {stack file : List UInt8}

/-- **The loader accepts what `open_trace_file` accepts**, if it gets the memory. -/
theorem load_iff_open (M : Machine) (memory : Bool) (hlen : sizeofHeader ≤ file.length)
    (hsize : file.length < 2 ^ 31) (hwhole : WholeRecords e M file) :
    (∃ block, prefetchLoadTraceFragment e none memory file fullTransfers = .ok block) ↔
      memory = true ∧ ∃ desc, openTraceFile e none stack file (fullTransfers 0) = .ok desc := by
  -- both check the same header; the loader wants some data behind it as well
  have hopen := openTraceFile_eq e stack hlen
  simp only [load_eq_ok_iff e hlen hsize rfl fullTransfers_moves, fullTransfers, hopen]
  by_cases hacc : (headerOf e file).Accepted
  · have hroom : (headerOf e file).dataStart.toNat < file.length := by
      rcases hwhole with hinside | ⟨k, hk, hwhole⟩
      · exact absurd hacc.dataStart (not_le.mpr hinside)
      · have hpos : 0 < k * M.sizeofRecord := Nat.mul_pos hk Machine.sizeofRecord_pos
        omega
    simp [hacc, hroom]
  · simp [hacc]

/-- The array the loader returns is what is read record by record. -/
theorem readRecords_eq_recordsIn (hlen : sizeofHeader ≤ file.length) (hsize : file.length < 2 ^ 31)
    (hwhole : WholeRecords e M file) {memory : Bool} {block : List UInt8} {desc : PrefetchTraceDesc}
    (hload : prefetchLoadTraceFragment e none memory file fullTransfers = .ok block)
    (hopen : openTraceFile e none stack file (fullTransfers 0) = .ok desc) :
    ∃ data, readRecords e fullTransfers 1 0 desc [] = (0, data) ∧
      data.map RecordData.record = recordsIn e M block := by
  obtain ⟨hacc, -, -, rfl⟩ := (load_eq_ok_iff e hlen hsize rfl fullTransfers_moves).mp hload
  rw [show fullTransfers 0 = .full from rfl, openTraceFile_eq e stack hlen, if_pos hacc] at hopen
  cases hopen
  -- a header that is accepted does not have `data_start` inside it
  rcases hwhole with hinside | ⟨k, -, hwhole⟩
  · exact absurd hacc.dataStart (not_le.mpr hinside)
  · obtain ⟨data, hread, hrecords⟩ := @readRecords_full M e k
      ⟨file, (headerOf e file).dataStart.toNat⟩ hwhole 1 0 []
    have hblock : (file.drop (headerOf e file).dataStart.toNat).length =
        k * (recordCodec e M).width := by
      rw [List.length_drop, recordCodec_width]
      omega
    refine ⟨data, hread, ?_⟩
    have hwidth : 0 < (recordCodec e M).width := by
      rw [recordCodec_width]
      exact Machine.sizeofRecord_pos
    rw [hrecords, recordsIn, decodeAll_of_length _ hwidth hblock]

/-- A header with records after it is read as these records. -/
theorem readAs_saved (stack : List UInt8) {images : List (RecordImage M)} (hne : images ≠ [])
    (hsize : sizeofHeader + images.length * M.sizeofRecord < 2 ^ 31) :
    ReadAs e stack (headerBytes e ++ (recordCodec e M).encodeAll images)
      (images.map RecordImage.record) := by
  have hlength : (headerBytes e ++ (recordCodec e M).encodeAll images).length =
      sizeofHeader + images.length * M.sizeofRecord := by
    rw [List.length_append, length_headerBytes, length_encodeAll, recordCodec_width]
  have hpos : 0 < images.length := List.length_pos_iff.mpr hne
  have hlen : sizeofHeader ≤ (headerBytes e ++ (recordCodec e M).encodeAll images).length := by
    omega
  have hwhole : WholeRecords e M (headerBytes e ++ (recordCodec e M).encodeAll images) := by
    refine Or.inr ⟨images.length, hpos, ?_⟩
    rw [headerOf_saved, hlength]
    rfl
  have hload : prefetchLoadTraceFragment e none true
      (headerBytes e ++ (recordCodec e M).encodeAll images) fullTransfers =
        .ok ((recordCodec e M).encodeAll images) := by
    apply load_saved e _ _ rfl fullTransfers_moves
    · intro hnil
      have hzero := congrArg List.length hnil
      rw [length_encodeAll, recordCodec_width, List.length_nil] at hzero
      exact absurd hzero (Nat.mul_pos hpos Machine.sizeofRecord_pos).ne'
    · rw [length_encodeAll, recordCodec_width]
      exact hsize
  have hrecords := recordsIn_encodeAll e images
  obtain ⟨-, desc, hopen⟩ :=
    (load_iff_open e M true hlen (hlength ▸ hsize) hwhole).mp ⟨_, hload⟩
  obtain ⟨data, hread, hdata⟩ :=
    readRecords_eq_recordsIn e hlen (hlength ▸ hsize) hwhole hload hopen
  exact ⟨⟨_, hload, hrecords⟩, desc, data, hopen, hread, hdata.trans hrecords⟩

/-- **The two readers and the two writers implement one format.** On every file of at least a header and
less than 2^31 bytes, from `data_start` on in whole records, the readers accept the same headers and find
the same records, the kernel if it has memory for them; and what either writer makes of records that fit
into such a file, both readers take back as these records. -/
theorem one_trace_file_format (M : Machine) (e : Endian) (stack : List UInt8) :
    (∀ (memory : Bool) (file : List UInt8), sizeofHeader ≤ file.length → file.length < 2 ^ 31 →
      WholeRecords e M file →
        ((∃ block, prefetchLoadTraceFragment e none memory file fullTransfers = .ok block) ↔
          memory = true ∧ ∃ desc, openTraceFile e none stack file (fullTransfers 0) = .ok desc) ∧
        ∀ block desc, prefetchLoadTraceFragment e none memory file fullTransfers = .ok block →
          openTraceFile e none stack file (fullTransfers 0) = .ok desc →
            ∃ data, readRecords e fullTransfers 1 0 desc [] = (0, data) ∧
              data.map RecordData.record = recordsIn e M block) ∧
    ∀ records : List (Record M), records ≠ [] →
      sizeofHeader + records.length * M.sizeofRecord < 2 ^ 31 →
        (∀ padding old, ∃ (ret : ℤ) (file : List UInt8), 0 ≤ ret ∧
          (∃ enough, ∀ fuel ≥ enough, prefetchSaveTraceFragment e none old
            ((recordCodec e M).encodeAll (recordImages padding records)) fullTransfers fuel =
              some (ret, file)) ∧
          ReadAs e stack file records) ∧
        ∀ header padding data, data.map RecordData.record = records →
          ∃ file, outputTraceFileData e header padding data fullTransfers = (0, file) ∧
            ReadAs e stack file records := by
  refine ⟨fun memory file hlen hsize hwhole => ⟨load_iff_open e M memory hlen hsize hwhole, ?_⟩, ?_⟩
  · intro block desc hload hopen
    exact readRecords_eq_recordsIn e hlen hsize hwhole hload hopen
  · intro records hne hsize
    have hread : ∀ padding, ReadAs e stack
        (headerBytes e ++ (recordCodec e M).encodeAll (recordImages padding records)) records := by
      intro padding
      have himages : recordImages padding records ≠ [] := by
        rw [← List.length_pos_iff, length_recordImages]
        exact List.length_pos_iff.mpr hne
      have hread := readAs_saved e stack himages (by rwa [length_recordImages])
      rwa [record_recordImages] at hread
    refine ⟨fun padding old => ?_, ?_⟩
    · obtain ⟨ret, hret, enough, hrun⟩ := writeFragment_completes (length_headerBytes e)
        (Int.natCast_nonneg sizeofHeader)
        (fullTransfers_completes ((recordCodec e M).encodeAll (recordImages padding records)).length)
      refine ⟨ret, _, hret, ⟨enough, fun fuel hfuel => ?_⟩, hread padding⟩
      rw [save_header_full e old rfl]
      exact hrun fuel hfuel
    · rintro header padding data rfl
      exact ⟨_, outputTraceFileData_full e header padding data, hread padding⟩

/-- A file with one record, saved by the kernel of a 32-bit machine and read by both sides. -/
theorem one_trace_file_format_record :
    ∃ (ret : ℤ) (file : List UInt8), 0 ≤ ret ∧
      ReadAs .little (List.replicate 10 0) file [(⟨1, 2, 3, 4⟩ : Record .bits32)] := by
  obtain ⟨ret, file, hret, -, hread⟩ :=
    ((one_trace_file_format .bits32 .little (List.replicate 10 0)).2 [⟨1, 2, 3, 4⟩] (by decide)
      (by decide)).1 (fun _ _ => 0) []
  exact ⟨ret, file, hret, hread⟩

/-- A file of 2^31 bytes or a little more has a negative size. -/
theorem load_negative_size {rest : List UInt8} (hlength : rest.length = 2 ^ 27 * 16) :
    prefetchLoadTraceFragment e none true (headerBytes e ++ rest) fullTransfers =
      .error (-EINVAL) := by
  have hfile : (headerBytes e ++ rest).length = 2 ^ 31 + 10 := by
    rw [List.length_append, hlength, length_headerBytes]
    rfl
  have hlen : sizeofHeader ≤ (headerBytes e ++ rest).length := by
    rw [hfile, sizeofHeader]
    omega
  rw [load_eq e hlen rfl, headerOf_saved, if_pos savedHeader_accepted, hfile, loadData,
    if_pos (by decide)]

/-- Without memory the kernel does not load what `open_trace_file` accepts, and a file of 2^31 bytes or
more is not loaded although `output_trace_file_data` writes it: its size is an int. -/
theorem large_file_not_loaded :
    (∃ file : List UInt8, WholeRecords .little .bits32 file ∧
      (∃ desc, openTraceFile .little none [] file (fullTransfers 0) = .ok desc) ∧
      ∀ block, prefetchLoadTraceFragment .little none false file fullTransfers ≠ .ok block) ∧
    ∃ data : List (RecordData (Machine.bits .bits32)), data ≠ [] ∧
      ∀ block, prefetchLoadTraceFragment .little none true
        (outputTraceFileData .little savedHeader (fun _ _ => 0) data fullTransfers).2 fullTransfers ≠
          .ok block := by
  constructor
  · refine ⟨headerBytes .little ++ List.replicate 16 0, ?_, ?_, ?_⟩
    · refine Or.inr ⟨1, Nat.one_pos, ?_⟩
      rw [headerOf_saved]
      rfl
    · refine ⟨⟨headerBytes .little ++ List.replicate 16 0, 10⟩, ?_⟩
      rw [show fullTransfers 0 = .full from rfl, openTraceFile_eq .little [] (by decide),
        headerOf_saved, if_pos savedHeader_accepted]
      rfl
    · intro block hload
      obtain ⟨-, -, hmemory, -⟩ :=
        (load_eq_ok_iff .little (by decide) (by decide) rfl fullTransfers_moves).mp hload
      cases hmemory
  -- the number stays a variable, so that no list of this length is ever built
  · obtain ⟨n, hn⟩ : ∃ n : ℕ, n = 2 ^ 27 := ⟨_, rfl⟩
    have hpos : n ≠ 0 := by omega
    refine ⟨List.replicate n ⟨⟨0, 0, 0, 0⟩, 0⟩, ?_, fun block => ?_⟩
    · rwa [Ne, List.replicate_eq_nil_iff]
    · rw [outputTraceFileData_full, load_negative_size]
      · nofun
      · rw [length_encodeAll, length_recordImages, List.length_map, List.length_replicate, hn]
        rfl

end Prefetch.TraceFile

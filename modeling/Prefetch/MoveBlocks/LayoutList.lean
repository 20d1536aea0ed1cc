/-
# Prefetch.MoveBlocks.LayoutList — reading the layout file

`process_layout_list` turns the lines of a layout file into relocations: an inode by name or number, an
offset and a length in pages, scaled to blocks and narrowed to 32 bits, the range cut down to the file.
The cut is decided on the 32-bit sum of offset and length. A range whose sum wraps passes it uncut, so
what is recorded is right exactly when no recorded line has such a sum.
-/
import Prefetch.Lib.Scan
import Prefetch.MoveBlocks.Estimate

namespace Prefetch.MoveBlocks

/-! ## §1 — lines, fields and numbers -/

/-- `BUF_SIZE` -/
def bufSize : ℕ := 1024

/-- The contents of `line_buf`, to the end of the file. -/
def layoutLines (text : List Char) : List (List Char) := Scan.linebufs bufSize text.length text

/-- No part of the layout file is left out. -/
theorem flatten_layoutLines (text : List Char) : (layoutLines text).flatten = text :=
  Scan.flatten_linebufs (by decide) le_rfl

/-- The fields `strtok` cuts out of a line with the delimiters of the tool. -/
def lineFields (line : List Char) : List (List Char) :=
  Fields.fields (fun c => c = ' ' || c = '\t' || c = '\n') (line.takeWhile (· ≠ '\x00'))

/-- `atol`, as `strtol` does it: 0 where there is no number; out of range, the nearest `long`. -/
def atol (s : List Char) : ℤ :=
  match Scan.number s with
  | none => 0
  | some (z, _) => max (-2 ^ 63) (min (2 ^ 63 - 1) z)

/-- An integer stored in 32 unsigned bits. -/
def toUnsigned (n : ℤ) : ℕ := (n % 2 ^ 32).toNat

theorem toUnsigned_lt (n : ℤ) : toUnsigned n < 2 ^ 32 := by
  unfold toUnsigned
  omega

/-! ## §2 — the file system as the reader sees it -/

/-- The size fields of `ext2_inode`. -/
structure InodeSize where
  /-- `LINUX_S_ISREG(inode->i_mode)` -/
  isReg : Bool
  iSize : ℕ
  iSizeHigh : ℕ

/-- `inode_file_size`. -/
def inodeFileSize (inode : InodeSize) : ℕ :=
  if inode.isReg then inode.iSize ||| (inode.iSizeHigh <<< 32) else inode.iSize

/-- `ceil_div`. -/
def ceilDiv (number divisor : ℕ) : ℕ :=
  if number % divisor = 0 then number / divisor else number / divisor + 1

/-- What `process_layout_list` asks of libext2fs and the system. -/
structure LayoutEnv where
  /-- `sysconf(_SC_PAGESIZE)` -/
  pageSize : ℕ
  /-- `EXT2_FIRST_INO` -/
  firstIno : ℕ
  /-- `ext2fs_namei_follow` from the root -/
  nameiFollow : List Char → Option ℕ
  /-- `ext2fs_read_inode` -/
  readInode : ℕ → Option InodeSize

variable (g : Geometry)

/-- `fs->blocksize`: an address has four bytes. -/
def blocksize : ℕ := 4 * g.addrPerBlock

/-- The size of a file in blocks. -/
def fileBlocks (inode : InodeSize) : ℕ := ceilDiv (inodeFileSize inode) (blocksize g)

/-- `page_to_blocks_factor`. -/
def pageToBlocksFactor (env : LayoutEnv) : ℕ := env.pageSize / blocksize g

/-- `file_size_in_blocks`, an `unsigned`. -/
def fileSizeInBlocks (inode : InodeSize) : ℕ := fileBlocks g inode % 2 ^ 32

/-! ## §3 — one line -/

/-- The fields of a line with the inode its first one stands for. -/
structure LineEntry where
  inodeNumber : ℕ
  offsetField : Option (List Char)
  lengthField : Option (List Char)

/-- The inode a first field stands for. -/
def fieldInode (env : LayoutEnv) : List Char → Option ℕ
  | [] => none
  | c :: fileName =>
      if c = '/' then env.nameiFollow (c :: fileName)
      else if c.isDigit then some (toUnsigned (atol (c :: fileName)))
      else none

/-- A line up to the check of the inode number: comments, empty lines, lines without fields, unknown
names and reserved inodes are skipped. -/
def lineEntry (env : LayoutEnv) (line : List Char) : Option LineEntry :=
  if line.head? = some '#' || line.head? = some '\n' || line.head? = some '\x00' then none
  else
    match lineFields line with
    | [] => none
    | fileName :: fields =>
        match fieldInode env fileName with
        | none => none
        | some inodeNumber =>
            if inodeNumber < env.firstIno then none
            else some ⟨inodeNumber, fields[0]?, fields[1]?⟩

/-- A relocation before the cut, with the size of its file. -/
structure Request where
  inodeNumber : ℕ
  blockOffset : ℕ
  blocksCount : ℕ
  fileSizeInBlocks : ℕ
  deriving DecidableEq, Repr

/-- A field in pages, scaled to blocks. The product is a `long`, taken to wrap where it does not fit; the
result is a `blk_t`. -/
def pagesToBlocks (env : LayoutEnv) (field : List Char) : ℕ :=
  toUnsigned (atol field * pageToBlocksFactor g env)

/-- The range an entry asks for: none where the inode cannot be read or the range begins behind the end
of the file. -/
def entryRequest (env : LayoutEnv) (entry : LineEntry) : Option Request :=
  match env.readInode entry.inodeNumber with
  | none => none
  | some inode =>
      let blockOffset := match entry.offsetField with
        | none => 0
        | some field => pagesToBlocks g env field
      if fileSizeInBlocks g inode ≤ blockOffset then none
      else
        some {
          inodeNumber := entry.inodeNumber
          blockOffset := blockOffset
          blocksCount := match entry.lengthField with
            | none => fileSizeInBlocks g inode - blockOffset
            | some field => pagesToBlocks g env field
          fileSizeInBlocks := fileSizeInBlocks g inode }

/-- The relocation recorded for a request: cut down to the file if the 32-bit sum exceeds its size. -/
def Request.cutDown (q : Request) : Relocation :=
  if q.fileSizeInBlocks < (q.blockOffset + q.blocksCount) % 2 ^ 32 then
    ⟨q.inodeNumber, q.blockOffset, q.fileSizeInBlocks - q.blockOffset⟩
  else ⟨q.inodeNumber, q.blockOffset, q.blocksCount⟩

/-! ## §4 — the loop -/

/-- `*relocations` and `*estimated_block_size`. -/
structure Layout where
  relocations : List Relocation
  estimatedBlockSize : ℕ

/-- How `process_layout_list` ends. -/
inductive LayoutOutcome where
  | failedAssertion
  | returned (value : ℕ) (layout : Layout)

/-- `memory_for_relocations`. -/
def memoryForRelocations : ℕ := 20000

/-- The `for` loop over the lines. -/
def layoutLoop (env : LayoutEnv) : List (List Char) → Layout → LayoutOutcome
  | [], layout => .returned 1 layout
  | line :: lines, layout =>
      match lineEntry env line with
      | none => layoutLoop env lines layout
      | some entry =>
          if memoryForRelocations ≤ layout.relocations.length then .returned 1 layout
          else
            match entryRequest g env entry with
            | none => layoutLoop env lines layout
            | some q =>
                match estimateBlocksForRange g q.cutDown.blockOffset q.cutDown.blocksCount with
                | none => .failedAssertion
                | some n =>
                    layoutLoop env lines
                      ⟨layout.relocations ++ [q.cutDown], layout.estimatedBlockSize + n⟩

/-- `process_layout_list` on the text of the layout file, if it can be opened; `memory` is whether the
array of relocations can be allocated. -/
def processLayoutList (env : LayoutEnv) (memory : Bool) : Option (List Char) → LayoutOutcome
  | none => .returned 0 ⟨[], 0⟩
  | some text =>
      if memory = false then .returned 0 ⟨[], 0⟩
      else if pageToBlocksFactor g env * blocksize g ≠ env.pageSize then .returned 0 ⟨[], 0⟩
      else layoutLoop g env (layoutLines text) ⟨[], 0⟩

/-! ## §5 — what is recorded -/

/-- The request of a line, if there is one. -/
def lineRequest (env : LayoutEnv) (line : List Char) : Option Request :=
  (lineEntry env line).bind (entryRequest g env)

/-- The requests of the lines, in order. -/
def requests (env : LayoutEnv) (lines : List (List Char)) : List Request :=
  lines.filterMap (lineRequest g env)

variable {g}

theorem estimatedBlockSize_cons (r : Relocation) (relocations : List Relocation) :
    estimatedBlockSize g (r :: relocations)
      = (estimateBlocksForRange g r.blockOffset r.blocksCount).bind fun n =>
          (estimatedBlockSize g relocations).map (n + ·) := by
  rw [estimatedBlockSize]
  cases estimateBlocksForRange g r.blockOffset r.blocksCount with
  | none => rfl
  | some n => cases estimatedBlockSize g relocations <;> rfl

/-- The outcome of a loop that records `relocations` behind those of `layout`. -/
def recordAll (layout : Layout) (relocations : List Relocation) : LayoutOutcome :=
  match estimatedBlockSize g relocations with
  | none => .failedAssertion
  | some n => .returned 1 ⟨layout.relocations ++ relocations, layout.estimatedBlockSize + n⟩

theorem recordAll_nil (layout : Layout) :
    recordAll (g := g) layout [] = .returned 1 layout := by
  show LayoutOutcome.returned 1 ⟨layout.relocations ++ [], layout.estimatedBlockSize + 0⟩ = _
  rw [List.append_nil, Nat.add_zero]

theorem recordAll_cons (layout : Layout) (r : Relocation) (relocations : List Relocation) :
    recordAll (g := g) layout (r :: relocations)
      = match estimateBlocksForRange g r.blockOffset r.blocksCount with
        | none => .failedAssertion
        | some n =>
            recordAll (g := g) ⟨layout.relocations ++ [r], layout.estimatedBlockSize + n⟩ relocations := by
  unfold recordAll
  rw [estimatedBlockSize_cons]
  cases estimateBlocksForRange g r.blockOffset r.blocksCount with
  | none => rfl
  | some n =>
      cases estimatedBlockSize g relocations with
      | none => rfl
      | some m => simp only [Option.map_some, Option.bind_some, List.append_assoc, List.singleton_append,
          Nat.add_assoc]

/-- **The loop records the requests**, cut down and in order, until the array is full. -/
theorem layoutLoop_eq (env : LayoutEnv) (lines : List (List Char)) (layout : Layout) :
    layoutLoop g env lines layout
      = recordAll (g := g) layout
          (((requests g env lines).take (memoryForRelocations - layout.relocations.length)).map
            Request.cutDown) := by
  induction lines generalizing layout with
  | nil =>
      rw [requests, List.filterMap_nil, List.take_nil, List.map_nil, recordAll_nil]
      rfl
  | cons line lines ih =>
      rw [layoutLoop]
      cases hentry : lineEntry env line with
      | none =>
          have hrequest : lineRequest g env line = none := by rw [lineRequest, hentry, Option.bind_none]
          rw [requests, List.filterMap_cons_none hrequest]
          exact ih layout
      | some entry =>
          have hrequest : lineRequest g env line = entryRequest g env entry := by
            rw [lineRequest, hentry, Option.bind_some]
          by_cases hfull : memoryForRelocations ≤ layout.relocations.length
          · rw [Nat.sub_eq_zero_of_le hfull, List.take_zero, List.map_nil, recordAll_nil]
            exact if_pos hfull
          · refine (if_neg hfull).trans ?_
            cases hq : entryRequest g env entry with
            | none =>
                rw [requests, List.filterMap_cons_none (hrequest.trans hq)]
                exact ih layout
            | some q =>
                obtain ⟨room, hroom⟩ : ∃ room,
                    memoryForRelocations - layout.relocations.length = room + 1 :=
                  ⟨memoryForRelocations - layout.relocations.length - 1, by omega⟩
                rw [requests, List.filterMap_cons_some (hrequest.trans hq), hroom, List.take_succ_cons,
                  List.map_cons, recordAll_cons]
                dsimp only
                cases hn : estimateBlocksForRange g q.cutDown.blockOffset q.cutDown.blocksCount with
                | none => rfl
                | some n =>
                    have hnext : memoryForRelocations - (layout.relocations ++ [q.cutDown]).length
                        = room := by
                      rw [List.length_append, List.length_singleton]
                      omega
                    have hrest := ih ⟨layout.relocations ++ [q.cutDown], layout.estimatedBlockSize + n⟩
                    rw [hnext] at hrest
                    exact hrest

/-! ## §6 — no assertion fails without a wrap -/

section Assertion

variable {first last : ℕ}

theorem estimateFrom3Indirect_isSome (hle : first ≤ last) :
    (estimateFrom3Indirect g first last).isSome := by
  unfold estimateFrom3Indirect
  by_cases h1 : is3IndirectBlock g first = true
  · have h2 : is3IndirectBlock g last = true :=
      is3IndirectBlock_iff.mpr ((is3IndirectBlock_iff.mp h1).trans hle)
    rw [if_pos h1, if_pos h2]
    rfl
  · rw [if_neg h1]
    rfl

theorem estimateFrom2Indirect_isSome (hle : first ≤ last) :
    (estimateFrom2Indirect g first last).isSome := by
  unfold estimateFrom2Indirect
  by_cases h1 : is2IndirectBlock g first = true
  · rw [if_pos h1]
    by_cases h2 : is2IndirectBlock g last = true
    · rw [if_pos h2, Option.isSome_map]
      exact estimateFrom3Indirect_isSome hle
    · rw [if_neg h2, Option.isSome_map]
      rw [is2IndirectBlock_iff] at h1 h2
      unfold ext2NdirBlocks
      exact estimateFrom3Indirect_isSome (by omega)
  · rw [if_neg h1]
    exact estimateFrom3Indirect_isSome hle

theorem estimateFrom1Indirect_isSome (hle : first ≤ last) :
    (estimateFrom1Indirect g first last).isSome := by
  unfold estimateFrom1Indirect
  by_cases h1 : is1IndirectBlock g first = true
  · rw [if_pos h1]
    by_cases h2 : is1IndirectBlock g last = true
    · rw [if_pos h2, Option.isSome_map]
      exact estimateFrom2Indirect_isSome hle
    · rw [if_neg h2, Option.isSome_map]
      rw [is1IndirectBlock_iff] at h1 h2
      unfold ext2NdirBlocks
      exact estimateFrom2Indirect_isSome (by omega)
  · rw [if_neg h1]
    exact estimateFrom2Indirect_isSome hle

/-- The assertions of the estimate hold for a range that does not wrap. -/
theorem estimateBlocksForRange_isSome {start count : ℕ} (hwrap : start + count < 2 ^ 32) :
    (estimateBlocksForRange g start count).isSome := by
  unfold estimateBlocksForRange
  by_cases hcount : count = 0
  · rw [if_pos hcount]
    rfl
  have hend : (start + count + (2 ^ 32 - 1)) % 2 ^ 32 = start + count - 1 := by omega
  rw [if_neg hcount, hend]
  by_cases h0 : isDirectBlock start = true
  · rw [if_pos h0]
    by_cases h1 : isDirectBlock (start + count - 1) = true
    · rw [if_pos h1, Option.isSome_map]
      exact estimateFrom1Indirect_isSome (by omega)
    · have hlast : 12 ≤ start + count - 1 := Nat.le_of_not_lt fun hlt => h1 (decide_eq_true hlt)
      rw [if_neg h1, Option.isSome_map]
      exact estimateFrom1Indirect_isSome hlast
  · rw [if_neg h0]
    exact estimateFrom1Indirect_isSome (by omega)

theorem estimatedBlockSize_isSome {relocations : List Relocation}
    (h : ∀ r ∈ relocations, r.blockOffset + r.blocksCount < 2 ^ 32) :
    (estimatedBlockSize g relocations).isSome := by
  induction relocations with
  | nil => rfl
  | cons r relocations ih =>
      obtain ⟨n, hn⟩ := Option.isSome_iff_exists.mp
        (estimateBlocksForRange_isSome (g := g) (h r List.mem_cons_self))
      rw [estimatedBlockSize_cons, hn, Option.bind_some, Option.isSome_map]
      exact ih fun r' hr' => h r' (List.mem_cons_of_mem _ hr')

end Assertion

/-! ## §7 — what is right -/

/-- A relocation of an inode that is not reserved, inside its file. -/
structure WithinFile (g : Geometry) (env : LayoutEnv) (r : Relocation) : Prop where
  notReserved : env.firstIno ≤ r.inodeNumber
  inside : ∃ inode, env.readInode r.inodeNumber = some inode ∧ r.blockOffset < fileBlocks g inode
    ∧ r.blocksCount ≤ fileBlocks g inode - r.blockOffset

/-- No assertion failed, every relocation recorded lies inside its file, and the estimates add up. -/
def LayoutRight (g : Geometry) (env : LayoutEnv) : LayoutOutcome → Prop
  | .failedAssertion => False
  | .returned _ layout =>
      (∀ r ∈ layout.relocations, WithinFile g env r)
        ∧ estimatedBlockSize g layout.relocations = some layout.estimatedBlockSize

/-- What holds of a request before the cut. -/
structure SoundRequest (g : Geometry) (env : LayoutEnv) (q : Request) : Prop where
  notReserved : env.firstIno ≤ q.inodeNumber
  inode : ∃ inode, env.readInode q.inodeNumber = some inode ∧ q.fileSizeInBlocks = fileSizeInBlocks g inode
  offset_lt : q.blockOffset < q.fileSizeInBlocks
  count_lt : q.blocksCount < 2 ^ 32

theorem entryRequest_sound {env : LayoutEnv} {entry : LineEntry} {q : Request}
    (hino : env.firstIno ≤ entry.inodeNumber) (h : entryRequest g env entry = some q) :
    SoundRequest g env q := by
  unfold entryRequest at h
  cases hinode : env.readInode entry.inodeNumber with
  | none =>
      rw [hinode] at h
      cases h
  | some inode =>
      rw [hinode] at h
      dsimp only at h
      split_ifs at h with hend
      cases h
      refine ⟨hino, ⟨inode, hinode, rfl⟩, Nat.lt_of_not_le hend, ?_⟩
      have hsize : fileSizeInBlocks g inode < 2 ^ 32 := Nat.mod_lt _ (by decide)
      cases entry.lengthField with
      | none => exact (Nat.sub_le _ _).trans_lt hsize
      | some field => exact toUnsigned_lt _

theorem lineEntry_notReserved {env : LayoutEnv} {line : List Char} {entry : LineEntry}
    (h : lineEntry env line = some entry) : env.firstIno ≤ entry.inodeNumber := by
  unfold lineEntry at h
  split_ifs at h
  split at h
  · cases h
  · split at h
    · cases h
    · split_ifs at h with hreserved
      cases h
      exact Nat.le_of_not_lt hreserved

theorem requests_sound {env : LayoutEnv} {lines : List (List Char)} {q : Request}
    (h : q ∈ requests g env lines) : SoundRequest g env q := by
  obtain ⟨line, -, hq⟩ := List.mem_filterMap.mp h
  obtain ⟨entry, hentry, hq⟩ := Option.bind_eq_some_iff.mp hq
  exact entryRequest_sound (lineEntry_notReserved hentry) hq

section Cut

variable {env : LayoutEnv} {q : Request}

/-- Without a wrap, a request is cut down to a range that does not wrap. -/
theorem cutDown_lt (h : SoundRequest g env q) (hwrap : q.blockOffset + q.blocksCount < 2 ^ 32) :
    q.cutDown.blockOffset + q.cutDown.blocksCount < 2 ^ 32 := by
  have hoffset := h.offset_lt
  obtain ⟨inode, -, hsize⟩ := h.inode
  have hlt : q.fileSizeInBlocks < 2 ^ 32 := hsize ▸ Nat.mod_lt _ (Nat.two_pow_pos 32)
  unfold Request.cutDown
  split_ifs
  · show q.blockOffset + (q.fileSizeInBlocks - q.blockOffset) < 2 ^ 32
    omega
  · exact hwrap

/-- The cut does its work exactly where the sum does not wrap. -/
theorem withinFile_cutDown_iff (h : SoundRequest g env q)
    (hsize : ∀ n inode, env.readInode n = some inode → fileBlocks g inode < 2 ^ 32) :
    WithinFile g env q.cutDown ↔ q.blockOffset + q.blocksCount < 2 ^ 32 := by
  have hoffset := h.offset_lt
  have hcount := h.count_lt
  obtain ⟨inode, hinode, heq⟩ := h.inode
  rw [fileSizeInBlocks, Nat.mod_eq_of_lt (hsize _ _ hinode)] at heq
  constructor
  · rintro ⟨-, inode', hinode', hlt, hle⟩
    by_contra hwrap
    -- the wrapped sum is below the offset, so nothing is cut
    have hcut : q.cutDown = ⟨q.inodeNumber, q.blockOffset, q.blocksCount⟩ := if_neg (by omega)
    rw [hcut] at hinode' hlt hle
    have hsame : inode' = inode := Option.some.inj (hinode'.symm.trans hinode)
    have hfile := hsize _ _ hinode
    rw [hsame, ← heq] at hle
    rw [← heq] at hfile
    have hle' : q.blocksCount ≤ q.fileSizeInBlocks - q.blockOffset := hle
    omega
  · intro hwrap
    unfold Request.cutDown
    split_ifs with hcut
    · exact ⟨h.notReserved, inode, hinode, heq ▸ hoffset, by rw [heq]⟩
    · refine ⟨h.notReserved, inode, hinode, heq ▸ hoffset, ?_⟩
      rw [Nat.mod_eq_of_lt hwrap] at hcut
      show q.blocksCount ≤ fileBlocks g inode - q.blockOffset
      omega

end Cut

/-! ## §8 — the layout is right exactly when no sum wraps -/

/-- The 32-bit sum of offset and length wraps. -/
def Request.Wraps (q : Request) : Prop := 2 ^ 32 ≤ q.blockOffset + q.blocksCount

instance : DecidablePred Request.Wraps :=
  fun q => inferInstanceAs (Decidable (2 ^ 32 ≤ q.blockOffset + q.blocksCount))

/-- The lines are read: the file opens, the array is allocated, and a page is a whole number of
blocks. -/
def LinesRead (g : Geometry) (env : LayoutEnv) (memory : Bool) : Prop :=
  memory = true ∧ pageToBlocksFactor g env * blocksize g = env.pageSize

theorem layoutRight_nil {env : LayoutEnv} {value : ℕ} : LayoutRight g env (.returned value ⟨[], 0⟩) :=
  ⟨fun _ hr => absurd hr List.not_mem_nil, rfl⟩

/-- From an empty layout, the loop is right exactly when none of the requests recorded wraps. -/
theorem layoutLoop_right_iff {env : LayoutEnv} {lines : List (List Char)}
    (hsize : ∀ n inode, env.readInode n = some inode → fileBlocks g inode < 2 ^ 32) :
    LayoutRight g env (layoutLoop g env lines ⟨[], 0⟩)
      ↔ ∀ q ∈ (requests g env lines).take memoryForRelocations, ¬ q.Wraps := by
  have hsound : ∀ q ∈ (requests g env lines).take memoryForRelocations, SoundRequest g env q :=
    fun q hq => requests_sound (List.mem_of_mem_take hq)
  rw [layoutLoop_eq, List.length_nil, Nat.sub_zero]
  generalize (requests g env lines).take memoryForRelocations = recorded at hsound ⊢
  unfold recordAll
  constructor
  · intro h q hq hwraps
    cases hestimate : estimatedBlockSize g (recorded.map Request.cutDown) with
    | none =>
        rw [hestimate] at h
        exact h
    | some n =>
        rw [hestimate] at h
        have hwithin : WithinFile g env q.cutDown := h.1 _ (List.mem_map_of_mem hq)
        exact Nat.not_lt_of_le hwraps ((withinFile_cutDown_iff (hsound q hq) hsize).mp hwithin)
  · intro h
    have hwrap : ∀ q ∈ recorded, q.blockOffset + q.blocksCount < 2 ^ 32 := fun q hq =>
      Nat.lt_of_not_le (h q hq)
    have hcut : ∀ r ∈ recorded.map Request.cutDown, r.blockOffset + r.blocksCount < 2 ^ 32 :=
      fun r hr => by
        obtain ⟨q, hq, rfl⟩ := List.mem_map.mp hr
        exact cutDown_lt (hsound q hq) (hwrap q hq)
    obtain ⟨n, hn⟩ := Option.isSome_iff_exists.mp (estimatedBlockSize_isSome (g := g) hcut)
    rw [hn]
    refine ⟨fun r hr => ?_, ?_⟩
    · obtain ⟨q, hq, rfl⟩ := List.mem_map.mp hr
      exact (withinFile_cutDown_iff (hsound q hq) hsize).mpr (hwrap q hq)
    · show estimatedBlockSize g (recorded.map Request.cutDown) = some (0 + n)
      rw [hn, Nat.zero_add]

/-- **What is recorded is right exactly when no sum wraps.** For every layout file and files below
`2 ^ 32` blocks: every relocation recorded lies inside its file, no assertion fails and the estimates add
up, if and only if none of the first `20000` acceptable lines has an offset and a length whose 32-bit sum
wraps. -/
theorem processLayoutList_right_iff {env : LayoutEnv} {memory : Bool} {listFile : Option (List Char)}
    (hsize : ∀ n inode, env.readInode n = some inode → fileBlocks g inode < 2 ^ 32) :
    LayoutRight g env (processLayoutList g env memory listFile)
      ↔ ∀ text, listFile = some text → LinesRead g env memory →
          ∀ q ∈ (requests g env (layoutLines text)).take memoryForRelocations, ¬ q.Wraps := by
  cases listFile with
  | none => exact iff_of_true layoutRight_nil fun _ h => absurd h.symm (Option.some_ne_none _)
  | some text =>
      rw [processLayoutList]
      by_cases hmemory : memory = false
      · rw [if_pos hmemory]
        refine iff_of_true layoutRight_nil fun text' _ hread => ?_
        rw [hmemory] at hread
        exact Bool.noConfusion hread.1
      rw [if_neg hmemory]
      by_cases hfactor : pageToBlocksFactor g env * blocksize g = env.pageSize
      · rw [if_neg (not_not.mpr hfactor), layoutLoop_right_iff hsize]
        constructor
        · intro h text' htext _
          cases htext
          exact h
        · intro h
          exact h text rfl ⟨Bool.not_eq_false _ ▸ hmemory, hfactor⟩
      · rw [if_pos hfactor]
        exact iff_of_true layoutRight_nil fun text' _ hread => absurd hread.2 hfactor

/-- Pages of four blocks, and one file of twenty pages. -/
def sampleLayoutEnv : LayoutEnv where
  pageSize := 4096
  firstIno := 11
  nameiFollow := fun _ => none
  readInode := fun n => if n = 12 then some ⟨true, 81920, 0⟩ else none

/-- Ten pages from page `10`, and minus five pages from page `10`. -/
def sampleLine : List Char := ['1', '2', ' ', '1', '0', ' ', '1', '0', '\n']
def sampleNegativeLine : List Char := ['1', '2', ' ', '1', '0', ' ', '-', '5', '\n']

theorem sampleLayoutEnv_size (n : ℕ) (inode : InodeSize)
    (h : sampleLayoutEnv.readInode n = some inode) : fileBlocks oneKilobyteBlocks inode < 2 ^ 32 := by
  have hinode : (if n = 12 then some ⟨true, 81920, 0⟩ else none) = some inode := h
  split_ifs at hinode
  cases hinode
  decide

theorem sampleLine_requests :
    requests oneKilobyteBlocks sampleLayoutEnv (layoutLines sampleLine) = [⟨12, 40, 40, 80⟩] := by
  decide

theorem sampleNegativeLine_requests :
    requests oneKilobyteBlocks sampleLayoutEnv (layoutLines sampleNegativeLine)
      = [⟨12, 40, 2 ^ 32 - 20, 80⟩] := by
  decide

/-- A negative length: `40 + (2 ^ 32 - 20)` wraps to `20`, and the range is recorded with all its
`2 ^ 32 - 20` blocks. -/
theorem processLayoutList_negative_length :
    ¬ LayoutRight oneKilobyteBlocks sampleLayoutEnv
      (processLayoutList oneKilobyteBlocks sampleLayoutEnv true (some sampleNegativeLine)) := by
  have hloop : processLayoutList oneKilobyteBlocks sampleLayoutEnv true (some sampleNegativeLine)
      = layoutLoop oneKilobyteBlocks sampleLayoutEnv (layoutLines sampleNegativeLine) ⟨[], 0⟩ := by
    rw [processLayoutList, if_neg (by decide), if_neg (by decide)]
  rw [hloop, layoutLoop_right_iff sampleLayoutEnv_size, sampleNegativeLine_requests]
  intro h
  exact h _ List.mem_cons_self (by decide)

/-- Ten pages from page `10` of a file of twenty. -/
theorem processLayoutList_right_sample :
    LayoutRight oneKilobyteBlocks sampleLayoutEnv
      (processLayoutList oneKilobyteBlocks sampleLayoutEnv true (some sampleLine)) := by
  refine (processLayoutList_right_iff sampleLayoutEnv_size).mpr fun text htext _ q hq => ?_
  cases htext
  rw [sampleLine_requests] at hq
  rw [List.mem_singleton.mp (List.mem_of_mem_take hq)]
  decide

end Prefetch.MoveBlocks

/-
# Prefetch.Remap.LoadBlocks — the blocks e2block2file is asked about

`load_blocks` reads ranges of device blocks, scales them to blocks of the file system, sorts them and
merges them in place. The merge is the forward pass over sorted spans, so that what is left is sorted and
apart and covers what the scaled extents cover. The scaled extents do not cover all they should: start
and length are scaled separately, and of a range that is not aligned the last one or two blocks are left
out, unless another range has them. And the array grows one range too late: the write of the range
number `8192` goes behind its end.
-/
import Prefetch.Lib.Qsort
import Prefetch.Lib.Quotients
import Prefetch.Lib.SpanMerge
import Mathlib.Data.Finset.Range

namespace Prefetch.Remap

open Qsort Quotients SpanMerge

/-! ## §1 — extents -/

/-- A line of the input, in device blocks. -/
structure InputRange where
  blocknum : ℤ
  len : ℕ
  deriving DecidableEq, Repr

/-- `struct input_extent_map`, in blocks of the file system. -/
structure InputExtent where
  block : ℕ
  len : ℕ
  deriving DecidableEq, Repr, Inhabited

/-- `block + len` of an extent, an `unsigned`. -/
def InputExtent.stop (e : InputExtent) : ℕ := (e.block + e.len) % 2 ^ 32

/-- A number stored in an `int`. -/
def toInt (n : ℤ) : ℤ := (n + 2 ^ 31) % 2 ^ 32 - 2 ^ 31

theorem toInt_eq {n : ℤ} (h : -2 ^ 31 ≤ n) (h' : n < 2 ^ 31) : toInt n = n := by
  unfold toInt
  omega

/-- `log2i`. -/
def log2i (num : ℕ) : ℤ :=
  match (List.range 32).find? fun i => num < 2 ^ i with
  | some i => (i : ℤ) - 1
  | none => 31

theorem log2i_two_pow {k : ℕ} (hk : k < 32) : log2i (2 ^ k) = k := by
  revert hk k
  decide

/-- `input_extent_cmp`. -/
def inputExtentCmp (ap bp : InputExtent) : ℤ := toInt (ap.block - bp.block)

/-! ## §2 — reading -/

/-- What `load_blocks` works with: block sizes and start of the partition, and which of its requests for
memory are granted. -/
structure LoadEnv where
  blocksize : ℕ
  blktraceBlockSize : ℕ
  partitionStart : ℕ
  grants : ℕ → Bool

/-- `log2i(fs->blocksize/blktrace_block_size)` -/
def LoadEnv.shift (env : LoadEnv) : ℕ := (log2i (env.blocksize / env.blktraceBlockSize)).toNat

/-- `IEXTENTS_ALLOC_ENTRIES` and `BMAP_ALLOC_ENTRIES`. -/
def iextentsAllocEntries : ℕ := 8192
def bmapAllocEntries : ℕ := 8192

/-- The state of the loop: the `extent_count` elements written, the entries allocated for them, the
requests for memory made so far, and for every write its index with the entries allocated then. -/
structure ReadState where
  iextents : List InputExtent
  allocated : ℕ
  requests : ℕ
  writes : List (ℕ × ℕ)

/-- The extent a range is scaled to. -/
def scaleRange (env : LoadEnv) (range : InputRange) : InputExtent where
  block := ((range.blocknum - env.partitionStart) / 2 ^ env.shift % 2 ^ 32).toNat
  len := range.len / 2 ^ env.shift

/-- The growth of the array; an error is `exit(1)` with the state at that moment. -/
def growIextents (env : LoadEnv) (s : ReadState) : Except ReadState ReadState :=
  if s.allocated < s.iextents.length then
    if env.grants s.requests then
      .ok { s with allocated := s.allocated + bmapAllocEntries, requests := s.requests + 1 }
    else .error s
  else .ok s

/-- The assignments to `iextents[extent_count]`. -/
def storeRange (env : LoadEnv) (range : InputRange) (s : ReadState) : ReadState :=
  if range.blocknum < env.partitionStart then s
  else
    { s with
      iextents := s.iextents ++ [scaleRange env range]
      writes := s.writes ++ [(s.iextents.length, s.allocated)] }

/-- The body of the loop. -/
def readRange (env : LoadEnv) (s : ReadState) (range : InputRange) : Except ReadState ReadState :=
  (growIextents env s).map (storeRange env range)

/-- The loop, with the allocation before it. -/
def readRanges (env : LoadEnv) (input : List InputRange) : Except ReadState ReadState :=
  if env.grants 0 then input.foldlM (readRange env) ⟨[], iextentsAllocEntries, 1, []⟩
  else .error ⟨[], 0, 0, []⟩

/-- The state the loop ends in, one way or the other. -/
def lastState : Except ReadState ReadState → ReadState
  | .ok s => s
  | .error s => s

/-! ## §3 — merging in place -/

/-- `iextents` as an array. -/
abbrev ExtentTable : Type := ℕ → InputExtent

/-- The extent in hand, with its length extended over the next one if that reaches further. -/
def extendOver (e next : InputExtent) : InputExtent :=
  if e.stop < next.stop then { e with len := (next.block + next.len + 2 ^ 32 - e.block) % 2 ^ 32 } else e

/-- The inner loop: the array and `shift` after it. `n` bounds the turns. -/
def absorbNext (extentCount i : ℕ) : ℕ → ExtentTable → ℕ → ExtentTable × ℕ
  | 0, iextents, shift => (iextents, shift)
  | n + 1, iextents, shift =>
      if i + shift + 1 < extentCount ∧ (iextents (i + shift + 1)).block ≤ (iextents i).stop then
        absorbNext extentCount i n
          (Function.update iextents i (extendOver (iextents i) (iextents (i + shift + 1)))) (shift + 1)
      else (iextents, shift)

/-- The outer loop from `i` on. -/
def compactFrom (extentCount : ℕ) : ℕ → ℕ → ExtentTable → ℕ → ExtentTable × ℕ
  | 0, _, iextents, shift => (iextents, shift)
  | n + 1, i, iextents, shift =>
      if i < extentCount - shift then
        let moved := Function.update iextents i (iextents (i + shift))
        let absorbed := absorbNext extentCount i extentCount moved shift
        compactFrom extentCount n (i + 1) absorbed.1 absorbed.2
      else (iextents, shift)

/-- The merge of overlapping extents; what is left are the first `extent_count - shift`. -/
def mergeOverlapping (sorted : List InputExtent) : List InputExtent :=
  let merged := compactFrom sorted.length sorted.length 0 (fun i => sorted.getD i default) 0
  (List.range (sorted.length - merged.2)).map merged.1

/-- `load_blocks`: the extents it leaves, or nothing where it exits. `eof` is whether the loop stopped at
the end of the file. -/
def loadBlocks (env : LoadEnv) (qsort : List InputExtent → List InputExtent) (eof : Bool)
    (input : List InputRange) : Option (List InputExtent) :=
  match readRanges env input with
  | .error _ => none
  | .ok s => if eof then some (mergeOverlapping (qsort s.iextents)) else none

/-! ## §4 — what the loop reads -/

/-- The ranges that do not begin before the partition. -/
def accepted (env : LoadEnv) (input : List InputRange) : List InputRange :=
  input.filter fun r => (env.partitionStart : ℤ) ≤ r.blocknum

section Read

variable {env : LoadEnv} {s : ReadState} {input : List InputRange}

theorem accepted_cons_of_lt {r : InputRange} (h : r.blocknum < env.partitionStart) :
    accepted env (r :: input) = accepted env input :=
  List.filter_cons_of_neg (by simpa using h)

theorem accepted_cons_of_le {r : InputRange} (h : (env.partitionStart : ℤ) ≤ r.blocknum) :
    accepted env (r :: input) = r :: accepted env input :=
  List.filter_cons_of_pos (by simpa using h)

/-- What a turn of the loop does: it exits for want of memory, or the array grows or does not, and the
range is stored or skipped. -/
theorem readRange_cases (env : LoadEnv) (s : ReadState) (r : InputRange) :
    (s.allocated < s.iextents.length ∧ env.grants s.requests = false ∧ readRange env s r = .error s)
      ∨ ∃ t, t.iextents = s.iextents ∧ t.writes = s.writes
          ∧ (s.iextents.length ≤ s.allocated → t = s)
          ∧ readRange env s r = .ok (storeRange env r t) := by
  unfold readRange growIextents
  by_cases hgrow : s.allocated < s.iextents.length
  · rw [if_pos hgrow]
    cases hgrant : env.grants s.requests with
    | false => exact Or.inl ⟨hgrow, rfl, rfl⟩
    | true =>
        exact Or.inr ⟨{ s with allocated := s.allocated + bmapAllocEntries, requests := s.requests + 1 },
          rfl, rfl, fun hle => absurd hgrow (Nat.not_lt.mpr hle), rfl⟩
  · rw [if_neg hgrow]
    exact Or.inr ⟨s, rfl, rfl, fun _ => rfl, rfl⟩

theorem foldlM_cons_ok {s t : ReadState} {r : InputRange} (h : readRange env s r = .ok t) :
    (r :: input).foldlM (readRange env) s = input.foldlM (readRange env) t := by
  rw [List.foldlM_cons, h]
  rfl

theorem foldlM_cons_error {s t : ReadState} {r : InputRange} (h : readRange env s r = .error t) :
    (r :: input).foldlM (readRange env) s = .error t := by
  rw [List.foldlM_cons, h]
  rfl

/-- Writes are not forgotten. -/
theorem writes_subset_lastState :
    s.writes ⊆ (lastState (input.foldlM (readRange env) s)).writes := by
  induction input generalizing s with
  | nil => exact fun _ hw => hw
  | cons r input ih =>
      rcases readRange_cases env s r with ⟨-, -, hstep⟩ | ⟨t, -, hwrites, -, hstep⟩
      · rw [foldlM_cons_error hstep]
        exact fun _ hw => hw
      · rw [foldlM_cons_ok hstep]
        refine List.Subset.trans ?_ ih
        rw [← hwrites]
        unfold storeRange
        split_ifs
        · exact fun _ hw => hw
        · exact List.subset_append_left _ _

/-- What has been read, unless the loop exits: the accepted ranges, scaled. -/
theorem foldlM_readRange_iextents {t : ReadState} (h : input.foldlM (readRange env) s = .ok t) :
    t.iextents = s.iextents ++ (accepted env input).map (scaleRange env) := by
  induction input generalizing s with
  | nil =>
      cases h
      exact (List.append_nil _).symm
  | cons r input ih =>
      rcases readRange_cases env s r with ⟨-, -, hstep⟩ | ⟨u, hiextents, -, -, hstep⟩
      · rw [foldlM_cons_error hstep] at h
        cases h
      · rw [foldlM_cons_ok hstep] at h
        rw [ih h]
        unfold storeRange
        split_ifs with hskip
        · rw [accepted_cons_of_lt hskip, hiextents]
        · rw [accepted_cons_of_le (Int.not_lt.mp hskip), List.map_cons, hiextents, List.append_assoc,
            List.singleton_append]

/-- With memory at hand the loop comes to its end. -/
theorem foldlM_readRange_ok (hgrants : ∀ n, env.grants n = true) :
    ∃ t, input.foldlM (readRange env) s = .ok t := by
  induction input generalizing s with
  | nil => exact ⟨s, rfl⟩
  | cons r input ih =>
      rcases readRange_cases env s r with ⟨-, hdenied, -⟩ | ⟨u, -, -, -, hstep⟩
      · rw [hgrants] at hdenied
        cases hdenied
      · rw [foldlM_cons_ok hstep]
        exact ih

/-! ### writes -/

/-- Every write is below the number of elements allocated at that moment. -/
def WritesInBounds (s : ReadState) : Prop := ∀ w ∈ s.writes, w.1 < w.2

/-- As long as the first allocation suffices, it stays the only one and all writes are inside. -/
theorem writesInBounds_of_few (hfew : s.iextents.length + (accepted env input).length ≤ s.allocated)
    (h : WritesInBounds s) : WritesInBounds (lastState (input.foldlM (readRange env) s)) := by
  induction input generalizing s with
  | nil => exact h
  | cons r input ih =>
      rcases readRange_cases env s r with ⟨hgrow, -, -⟩ | ⟨t, -, -, hsame, hstep⟩
      · omega
      · have hts : t = s := hsame (by omega)
        subst hts
        rw [foldlM_cons_ok hstep]
        unfold storeRange
        split_ifs with hskip
        · rw [accepted_cons_of_lt hskip] at hfew
          exact ih hfew h
        · rw [accepted_cons_of_le (Int.not_lt.mp hskip), List.length_cons] at hfew
          refine ih ?_ fun w hw => ?_
          · simp only [List.length_append, List.length_singleton]
            omega
          · rcases List.mem_append.mp hw with hw | hw
            · exact h w hw
            · rw [List.mem_singleton.mp hw]
              show t.iextents.length < t.allocated
              omega

/-- One range too many is written behind the allocated elements before the array grows. -/
theorem write_at_allocated (hlen : s.iextents.length ≤ s.allocated)
    (hmany : s.allocated < s.iextents.length + (accepted env input).length) :
    (s.allocated, s.allocated) ∈ (lastState (input.foldlM (readRange env) s)).writes := by
  induction input generalizing s with
  | nil => exact absurd hmany (Nat.not_lt.mpr hlen)
  | cons r input ih =>
      rcases readRange_cases env s r with ⟨hgrow, -, -⟩ | ⟨t, -, -, hsame, hstep⟩
      · omega
      · have hts : t = s := hsame hlen
        subst hts
        rw [foldlM_cons_ok hstep]
        by_cases hskip : r.blocknum < env.partitionStart
        · rw [accepted_cons_of_lt hskip] at hmany
          rw [storeRange, if_pos hskip]
          exact ih hlen hmany
        · rw [accepted_cons_of_le (Int.not_lt.mp hskip), List.length_cons] at hmany
          rcases Nat.lt_or_ge t.iextents.length t.allocated with hlt | hge
          · have hkeep : (storeRange env r t).allocated = t.allocated := by
              unfold storeRange
              split_ifs
              rfl
            have hnext : (storeRange env r t).iextents.length = t.iextents.length + 1 := by
              rw [storeRange, if_neg hskip]
              exact List.length_append
            have hwrite := ih (s := storeRange env r t) (by omega) (by omega)
            rwa [hkeep] at hwrite
          · -- the array is full, and the test still says otherwise
            refine writes_subset_lastState ?_
            rw [storeRange, if_neg hskip]
            refine List.mem_append_right _ ?_
            rw [Nat.le_antisymm hlen hge]
            exact List.mem_singleton_self _

end Read

/-- **The array grows one range too late.** Every write while reading is inside the allocated elements
exactly when the first allocation fails or no more than its `8192` ranges are accepted. -/
theorem readRanges_writesInBounds_iff {env : LoadEnv} {input : List InputRange} :
    WritesInBounds (lastState (readRanges env input))
      ↔ env.grants 0 = false ∨ (accepted env input).length ≤ 8192 := by
  unfold readRanges
  cases hgrant : env.grants 0 with
  | false => exact iff_of_true (fun w hw => absurd hw List.not_mem_nil) (Or.inl rfl)
  | true =>
      refine ⟨fun h => Or.inr (Nat.le_of_not_lt fun hmany => ?_), fun h => ?_⟩
      · have hwrite : (8192, 8192) ∈ (lastState
            (input.foldlM (readRange env) ⟨[], iextentsAllocEntries, 1, []⟩)).writes :=
          write_at_allocated (Nat.zero_le _) (by
            rw [List.length_nil, Nat.zero_add]
            exact hmany)
        exact absurd (h _ hwrite) (Nat.lt_irrefl _)
      · have hfew : (accepted env input).length ≤ 8192 := h.resolve_left fun hfalse => by cases hfalse
        refine writesInBounds_of_few ?_ fun w hw => absurd hw List.not_mem_nil
        rw [List.length_nil, Nat.zero_add]
        exact hfew

/-- A device of blocks of the file system's size, from block `0` on, and memory for everything. -/
def sampleLoadEnv (blocksize : ℕ) : LoadEnv where
  blocksize := blocksize
  blktraceBlockSize := 512
  partitionStart := 0
  grants := fun _ => true

/-- With `8193` ranges the last one is written behind the array. -/
theorem readRanges_8193_out_of_bounds :
    ¬ WritesInBounds (lastState (readRanges (sampleLoadEnv 512) (List.replicate 8193 ⟨0, 1⟩))) := by
  intro h
  have haccepted : accepted (sampleLoadEnv 512) (List.replicate 8193 ⟨0, 1⟩)
      = List.replicate 8193 ⟨0, 1⟩ :=
    List.filter_eq_self.mpr fun r hr => by
      rw [List.eq_of_mem_replicate hr]
      decide
  have hwrite : (8192, 8192) ∈ (lastState (readRanges (sampleLoadEnv 512)
      (List.replicate 8193 ⟨0, 1⟩))).writes :=
    write_at_allocated (Nat.zero_le _) (by
      rw [haccepted, List.length_replicate]
      decide)
  exact absurd (h _ hwrite) (Nat.lt_irrefl _)

/-! ## §5 — the merge on lists -/

/-- The pass with `e` in hand. -/
def mergeExtentsFrom : InputExtent → List InputExtent → List InputExtent
  | e, [] => [e]
  | e, next :: rest =>
      if next.block ≤ e.stop then mergeExtentsFrom (extendOver e next) rest
      else e :: mergeExtentsFrom next rest

/-- The pass over a list. -/
def mergeExtents : List InputExtent → List InputExtent
  | [] => []
  | e :: rest => mergeExtentsFrom e rest

/-- The array holds the list from index `start` on. -/
def Holds (iextents : ExtentTable) : ℕ → List InputExtent → Prop
  | _, [] => True
  | start, e :: rest => iextents start = e ∧ Holds iextents (start + 1) rest

section InPlace

variable {iextents : ExtentTable} {i start : ℕ} {l : List InputExtent}

theorem Holds.update (h : Holds iextents start l) (hi : i < start) (e : InputExtent) :
    Holds (Function.update iextents i e) start l := by
  induction l generalizing start with
  | nil => trivial
  | cons x l ih =>
      refine ⟨?_, ih h.2 (hi.trans (Nat.lt_succ_self start))⟩
      rw [Function.update_of_ne hi.ne']
      exact h.1

theorem holds_getD (front l : List InputExtent) :
    Holds (fun i => (front ++ l).getD i default) front.length l := by
  induction l generalizing front with
  | nil => trivial
  | cons x l ih =>
      refine ⟨?_, ?_⟩
      · show (front ++ x :: l).getD front.length default = x
        rw [List.getD_eq_getElem?_getD, List.getElem?_append_right le_rfl, Nat.sub_self]
        rfl
      · have hnext := ih (front ++ [x])
        rwa [List.length_append, List.length_singleton, List.append_assoc, List.singleton_append] at hnext

theorem Holds.map_range' (h : Holds iextents start l) :
    (List.range' start l.length).map iextents = l := by
  induction l generalizing start with
  | nil => rfl
  | cons x l ih => rw [List.length_cons, List.range'_succ, List.map_cons, h.1, ih h.2]

/-- The inner loop writes the extent in hand only, and stops at the first extent it does not reach. -/
theorem absorbNext_spec (extentCount : ℕ) (rest : List InputExtent) (n : ℕ) (iextents : ExtentTable)
    (shift : ℕ) (hn : rest.length ≤ n) (h : Holds iextents (i + shift + 1) rest)
    (hcount : i + shift + 1 + rest.length = extentCount) :
    ∃ e rest' shift', absorbNext extentCount i n iextents shift = (Function.update iextents i e, shift')
      ∧ Holds iextents (i + shift' + 1) rest' ∧ i + shift' + 1 + rest'.length = extentCount
      ∧ rest'.length ≤ rest.length
      ∧ mergeExtentsFrom (iextents i) rest = e :: mergeExtents rest' := by
  induction rest generalizing n iextents shift with
  | nil =>
      refine ⟨iextents i, [], shift, ?_, trivial, hcount, le_rfl, rfl⟩
      rw [List.length_nil] at hcount
      rw [Function.update_eq_self]
      cases n with
      | zero => rfl
      | succ n => exact if_neg fun hlt => absurd hlt.1 (by omega)
  | cons x rest ih =>
      rw [List.length_cons] at hcount hn
      obtain ⟨n, rfl⟩ : ∃ m, n = m + 1 := ⟨n - 1, by omega⟩
      obtain ⟨hx, hrest⟩ := h
      rw [absorbNext, hx, mergeExtentsFrom]
      by_cases hreach : x.block ≤ (iextents i).stop
      · rw [if_pos ⟨by omega, hreach⟩, if_pos hreach]
        obtain ⟨e, rest', shift', heq, hholds, hcount', hle, hmerge⟩ :=
          ih n (Function.update iextents i (extendOver (iextents i) x)) (shift + 1) (by omega)
            (hrest.update (by omega) _) (by omega)
        rw [Function.update_self] at hmerge
        rw [Function.update_idem] at heq
        refine ⟨e, rest', shift', heq, ?_, hcount', hle.trans (Nat.le_succ _), hmerge⟩
        -- what lies ahead has not been written
        have hback := hholds.update (i := i) (by omega) (iextents i)
        rwa [Function.update_idem, Function.update_eq_self] at hback
      · rw [if_neg fun hlt => hreach hlt.2, if_neg hreach]
        refine ⟨iextents i, x :: rest, shift, ?_, ⟨hx, hrest⟩, hcount, le_rfl, rfl⟩
        rw [Function.update_eq_self]

/-- The outer loop leaves the merged list from `i` on. -/
theorem compactFrom_spec (extentCount n i : ℕ) (iextents : ExtentTable) (shift : ℕ)
    (rest : List InputExtent) (hn : rest.length ≤ n) (h : Holds iextents (i + shift) rest)
    (hcount : i + shift + rest.length = extentCount) :
    ∃ left shift', compactFrom extentCount n i iextents shift = (left, shift')
      ∧ Holds left i (mergeExtents rest) ∧ extentCount - shift' = i + (mergeExtents rest).length
      ∧ ∀ j, j < i → left j = iextents j := by
  induction n generalizing i iextents shift rest with
  | zero =>
      obtain rfl : rest = [] := List.length_eq_zero_iff.mp (Nat.le_zero.mp hn)
      rw [List.length_nil] at hcount
      exact ⟨iextents, shift, rfl, trivial, by rw [mergeExtents, List.length_nil]; omega, fun _ _ => rfl⟩
  | succ n ih =>
      rw [compactFrom]
      cases rest with
      | nil =>
          rw [List.length_nil] at hcount
          have hdone : ¬ i < extentCount - shift := by omega
          rw [if_neg hdone]
          exact ⟨iextents, shift, rfl, trivial, by rw [mergeExtents, List.length_nil]; omega,
            fun _ _ => rfl⟩
      | cons x rest =>
          rw [List.length_cons] at hcount hn
          obtain ⟨hx, hrest⟩ := h
          have hmore : i < extentCount - shift := by omega
          rw [if_pos hmore, hx]
          have hmoved : Function.update iextents i x i = x := Function.update_self _ _ _
          obtain ⟨e, rest', shift', habsorb, hholds, hcount', hle, hmerge⟩ :=
            absorbNext_spec extentCount rest extentCount (Function.update iextents i x) shift (by omega)
              (hrest.update (by omega) _) (by omega)
          rw [hmoved] at hmerge
          rw [Function.update_idem] at habsorb
          have hahead : Holds (Function.update iextents i e) (i + 1 + shift') rest' := by
            have hback := hholds.update (i := i) (by omega) e
            rwa [Function.update_idem, Nat.add_right_comm] at hback
          obtain ⟨left, last, heq, hleft, hlength, hkeep⟩ :=
            ih (i + 1) (Function.update iextents i e) shift' rest' (by omega) hahead (by omega)
          refine ⟨left, last, ?_, ?_, ?_, fun j hj => ?_⟩
          · dsimp only
            rw [habsorb]
            exact heq
          · rw [mergeExtents, hmerge]
            refine ⟨?_, hleft⟩
            rw [hkeep i (Nat.lt_succ_self i), Function.update_self]
          · rw [mergeExtents, hmerge, List.length_cons]
            omega
          · rw [hkeep j (hj.trans (Nat.lt_succ_self i)), Function.update_of_ne hj.ne]

/-- **The loops leave the merged list.** -/
theorem mergeOverlapping_eq (sorted : List InputExtent) :
    mergeOverlapping sorted = mergeExtents sorted := by
  obtain ⟨left, shift, heq, hleft, hlength, -⟩ :=
    compactFrom_spec sorted.length sorted.length 0 (fun i => sorted.getD i default) 0 sorted le_rfl
      (holds_getD [] sorted) (Nat.zero_add _)
  unfold mergeOverlapping
  rw [heq]
  show (List.range (sorted.length - shift)).map left = mergeExtents sorted
  rw [hlength, Nat.zero_add, List.range_eq_range', hleft.map_range']

end InPlace

/-! ## §6 — the merge as a pass over spans -/

/-- The blocks of an extent, as a span without key or tag. -/
def InputExtent.span (e : InputExtent) : Span Unit Unit where
  key := ()
  lo := e.block
  hi := e.block + e.len
  tag := ()
  lo_le_hi := Nat.le_add_right _ _

/-- The end of an extent is a block number. -/
def InputExtent.NoWrap (e : InputExtent) : Prop := e.block + e.len < 2 ^ 32

theorem InputExtent.NoWrap.stop_eq {e : InputExtent} (h : e.NoWrap) : e.stop = e.block + e.len :=
  Nat.mod_eq_of_lt h

section Spans

variable {e next : InputExtent}

theorem block_extendOver : (extendOver e next).block = e.block := by
  unfold extendOver
  split_ifs <;> rfl

theorem block_add_len_extendOver (he : e.NoWrap) (hnext : next.NoWrap) (hle : e.block ≤ next.block) :
    (extendOver e next).block + (extendOver e next).len
      = max (e.block + e.len) (next.block + next.len) := by
  unfold extendOver
  rw [he.stop_eq, hnext.stop_eq]
  unfold InputExtent.NoWrap at hnext
  split_ifs with hlt
  · rw [max_eq_right hlt.le]
    show e.block + (next.block + next.len + 2 ^ 32 - e.block) % 2 ^ 32 = _
    omega
  · rw [max_eq_left (Nat.le_of_not_lt hlt)]

theorem NoWrap.extendOver (he : e.NoWrap) (hnext : next.NoWrap) (hle : e.block ≤ next.block) :
    (extendOver e next).NoWrap := by
  unfold InputExtent.NoWrap
  rw [block_add_len_extendOver he hnext hle]
  exact max_lt he hnext

theorem span_extendOver (he : e.NoWrap) (hnext : next.NoWrap) (hle : e.block ≤ next.block) :
    (extendOver e next).span = join e.span next.span := by
  have hstop := block_add_len_extendOver he hnext hle
  rw [block_extendOver] at hstop
  unfold InputExtent.span join
  simp only [block_extendOver, hstop, min_eq_left hle, min_self]

theorem touches_span_iff (he : e.NoWrap) (hle : e.block ≤ next.block) :
    Touches e.span next.span ↔ next.block ≤ e.stop := by
  rw [he.stop_eq]
  constructor
  · exact fun h => h.2.1
  · exact fun h => ⟨rfl, h, hle.trans (Nat.le_add_right _ _)⟩

/-- **The merge is the forward pass over the sorted spans.** -/
theorem span_mergeExtentsFrom {rest : List InputExtent} (hwrap : ∀ x ∈ e :: rest, x.NoWrap)
    (hsorted : (e :: rest).Pairwise fun a b => a.block ≤ b.block) :
    (mergeExtentsFrom e rest).map InputExtent.span = mergeFrom e.span (rest.map InputExtent.span) := by
  induction rest generalizing e with
  | nil => rfl
  | cons next rest ih =>
      have he := hwrap e List.mem_cons_self
      have hnext := hwrap next (List.mem_cons_of_mem _ List.mem_cons_self)
      obtain ⟨hfirst, htail⟩ := List.pairwise_cons.mp hsorted
      have hle := hfirst next List.mem_cons_self
      rw [mergeExtentsFrom, List.map_cons, mergeFrom]
      by_cases hreach : next.block ≤ e.stop
      · rw [if_pos hreach, if_pos ((touches_span_iff he hle).mpr hreach), ← span_extendOver he hnext hle]
        refine ih (fun x hx => ?_) (List.pairwise_cons.mpr ⟨fun x hx => ?_, (List.pairwise_cons.mp htail).2⟩)
        · rcases List.mem_cons.mp hx with rfl | hx
          · exact NoWrap.extendOver he hnext hle
          · exact hwrap x (List.mem_cons_of_mem _ (List.mem_cons_of_mem _ hx))
        · rw [block_extendOver]
          exact hfirst x (List.mem_cons_of_mem _ hx)
      · rw [if_neg hreach, if_neg (mt (touches_span_iff he hle).mp hreach), List.map_cons,
          ih (fun x hx => hwrap x (List.mem_cons_of_mem _ hx)) htail]

end Spans

theorem span_mergeExtents {l : List InputExtent} (hwrap : ∀ x ∈ l, x.NoWrap)
    (hsorted : l.Pairwise fun a b => a.block ≤ b.block) :
    (mergeExtents l).map InputExtent.span = merge (l.map InputExtent.span) := by
  cases l with
  | nil => rfl
  | cons e rest => exact span_mergeExtentsFrom hwrap hsorted

/-- The blocks of the extents. -/
def blocksOf (l : List InputExtent) : Set ℕ := {b | ∃ e ∈ l, e.block ≤ b ∧ b < e.block + e.len}

theorem blocksOf_eq (l : List InputExtent) :
    blocksOf l = {b | ∃ s ∈ l.map InputExtent.span, ((), b) ∈ s.points} := by
  ext b
  constructor
  · rintro ⟨e, he, hb⟩
    exact ⟨e.span, List.mem_map_of_mem he, rfl, hb⟩
  · rintro ⟨_, hs, -, hb⟩
    obtain ⟨e, he, rfl⟩ := List.mem_map.mp hs
    exact ⟨e, he, hb⟩

/-- Sorted, pairwise disjoint, and not even adjacent. -/
def ApartExtents (l : List InputExtent) : Prop := l.Pairwise fun a b => a.block + a.len < b.block

theorem mergeExtents_apart {l : List InputExtent} (hwrap : ∀ x ∈ l, x.NoWrap)
    (hsorted : l.Pairwise fun a b => a.block ≤ b.block) : ApartExtents (mergeExtents l) := by
  have hbefore : (l.map InputExtent.span).Pairwise Before :=
    List.pairwise_map.mpr (hsorted.imp fun hle => Or.inr ⟨rfl, hle⟩)
  have hapart := merge_apart hbefore
  rw [← span_mergeExtents hwrap hsorted] at hapart
  refine (List.pairwise_map.mp hapart).imp fun hab => ?_
  rcases hab with hlt | ⟨-, hgap⟩
  · exact absurd hlt (lt_irrefl _)
  · exact hgap

theorem blocksOf_mergeExtents {l : List InputExtent} (hwrap : ∀ x ∈ l, x.NoWrap)
    (hsorted : l.Pairwise fun a b => a.block ≤ b.block) : blocksOf (mergeExtents l) = blocksOf l := by
  rw [blocksOf_eq, blocksOf_eq, span_mergeExtents hwrap hsorted]
  ext b
  exact merge_points _ _

/-! ## §7 — which blocks are loaded -/

/-- How many device blocks make a block of the file system. -/
def LoadEnv.ratio (env : LoadEnv) : ℕ := env.blocksize / env.blktraceBlockSize

/-- The first device block of a range, counted from the start of the partition. -/
def InputRange.first (env : LoadEnv) (r : InputRange) : ℕ := (r.blocknum - env.partitionStart).toNat

/-- The blocks of the file system that contain a device block of an accepted range. -/
def listedBlocks (env : LoadEnv) (input : List InputRange) : Set ℕ :=
  {b | ∃ r ∈ accepted env input,
    ∃ d, (r.first env ≤ d ∧ d < r.first env + r.len) ∧ d / env.ratio = b}

/-- The last blocks of a range that scaling leaves out: none if first block and length are multiples of
the ratio, two if their remainders make up more than one block, else one. -/
def leftOut (env : LoadEnv) (r : InputRange) : List ℕ :=
  let remainders := r.first env % env.ratio + r.len % env.ratio
  let last := r.first env / env.ratio + r.len / env.ratio
  if r.len = 0 ∨ remainders = 0 then []
  else if remainders ≤ env.ratio then [last]
  else [last, last + 1]

/-- Each block left out of a range is among those another one is scaled to. -/
def TailsCovered (env : LoadEnv) (input : List InputRange) : Prop :=
  ∀ r ∈ accepted env input, ∀ b ∈ leftOut env r, ∃ r' ∈ accepted env input,
    r'.first env / env.ratio ≤ b ∧ b < r'.first env / env.ratio + r'.len / env.ratio

/-- A file system block is a power of two of device blocks, and the blocks of accepted ranges have
numbers below `2 ^ 31`. -/
structure Scalable (env : LoadEnv) (input : List InputRange) : Prop where
  ratio : ∃ k < 32, env.ratio = 2 ^ k
  small : ∀ r ∈ accepted env input, (r.first env + (r.len - 1)) / env.ratio < 2 ^ 31

section Scale

variable {env : LoadEnv} {input : List InputRange} {r : InputRange}

theorem Scalable.ratio_pos (h : Scalable env input) : 0 < env.ratio := by
  obtain ⟨k, -, hk⟩ := h.ratio
  rw [hk]
  exact Nat.two_pow_pos k

theorem Scalable.shift_eq (h : Scalable env input) : 2 ^ env.shift = env.ratio := by
  obtain ⟨k, hk, heq⟩ := h.ratio
  have hshift : env.shift = k := by
    show (log2i env.ratio).toNat = k
    rw [heq, log2i_two_pow hk]
    rfl
  rw [hshift, heq]

/-- A range is scaled by dividing its first block and its length. -/
theorem Scalable.scaleRange_eq (h : Scalable env input) (hr : r ∈ accepted env input) :
    scaleRange env r = ⟨r.first env / env.ratio, r.len / env.ratio⟩ := by
  have hpos : (env.partitionStart : ℤ) ≤ r.blocknum := by
    simpa using (List.mem_filter.mp hr).2
  have hfirst : r.blocknum - env.partitionStart = (r.first env : ℤ) :=
    (Int.toNat_of_nonneg (by omega)).symm
  have hlt : r.first env / env.ratio < 2 ^ 32 := by
    have hsmall := h.small r hr
    have hmono : r.first env / env.ratio ≤ (r.first env + (r.len - 1)) / env.ratio :=
      Nat.div_le_div_right (Nat.le_add_right _ _)
    omega
  unfold scaleRange
  rw [hfirst, h.shift_eq]
  have hblock : ((r.first env : ℤ) / 2 ^ env.shift % 2 ^ 32).toNat = r.first env / env.ratio := by
    have hpow : (2 : ℤ) ^ env.shift = (env.ratio : ℤ) := by
      rw [← h.shift_eq]
      exact (Int.natCast_pow 2 _).symm
    have hmod : (2 : ℤ) ^ 32 = ((2 ^ 32 : ℕ) : ℤ) := rfl
    rw [hpow, hmod, ← Int.natCast_ediv, ← Int.natCast_mod, Int.toNat_natCast, Nat.mod_eq_of_lt hlt]
  rw [hblock]

/-- The blocks a range meets are those it is scaled to, and those left out. -/
theorem exists_div_ratio_iff (hpos : 0 < env.ratio) {b : ℕ} :
    (∃ d, (r.first env ≤ d ∧ d < r.first env + r.len) ∧ d / env.ratio = b)
      ↔ (r.first env / env.ratio ≤ b ∧ b < r.first env / env.ratio + r.len / env.ratio)
        ∨ b ∈ leftOut env r := by
  rcases Nat.eq_zero_or_pos r.len with hzero | hlen
  · have hnone : leftOut env r = [] := if_pos (Or.inl hzero)
    rw [hnone, hzero, Nat.zero_div]
    constructor
    · rintro ⟨d, hd, -⟩
      omega
    · rintro (hb | hb)
      · omega
      · exact absurd hb List.not_mem_nil
  · rw [exists_div_eq_iff hpos hlen, div_last_eq hlen hpos]
    unfold leftOut
    have hlen' := hlen.ne'
    dsimp only
    by_cases hrem : r.first env % env.ratio + r.len % env.ratio = 0
    · have hone : 1 ≤ r.len / env.ratio := by
        have hdvd : env.ratio ∣ r.len := Nat.dvd_of_mod_eq_zero (by omega)
        exact Nat.div_pos (Nat.le_of_dvd hlen hdvd) hpos
      rw [if_pos hrem, if_pos (Or.inr hrem)]
      simp only [List.not_mem_nil, or_false]
      generalize r.len / env.ratio = n at hone ⊢
      generalize r.first env / env.ratio = m
      omega
    · have hsome : ¬ (r.len = 0 ∨ r.first env % env.ratio + r.len % env.ratio = 0) := by omega
      rw [if_neg hrem, if_neg hsome]
      generalize r.len / env.ratio = n
      generalize r.first env / env.ratio = m
      split_ifs
      · simp only [List.mem_singleton]
        omega
      · simp only [List.mem_cons, List.not_mem_nil, or_false]
        omega

theorem Scalable.noWrap (h : Scalable env input) (hr : r ∈ accepted env input) :
    (scaleRange env r).NoWrap ∧ (scaleRange env r).block < 2 ^ 31 := by
  have hsmall := h.small r hr
  have hmono : r.first env / env.ratio ≤ (r.first env + (r.len - 1)) / env.ratio :=
    Nat.div_le_div_right (Nat.le_add_right _ _)
  rw [h.scaleRange_eq hr]
  unfold InputExtent.NoWrap
  dsimp only
  refine ⟨?_, by omega⟩
  rcases Nat.eq_zero_or_pos r.len with hzero | hlen
  · rw [hzero, Nat.zero_div]
    omega
  · rw [div_last_eq hlen h.ratio_pos] at hsmall
    split_ifs at hsmall <;> omega

/-- The scaled extents cover the blocks listed exactly when nothing is left out for good. -/
theorem Scalable.blocksOf_scaled_iff (h : Scalable env input) :
    blocksOf ((accepted env input).map (scaleRange env)) = listedBlocks env input
      ↔ TailsCovered env input := by
  have hscaled : ∀ b, b ∈ blocksOf ((accepted env input).map (scaleRange env))
      ↔ ∃ r ∈ accepted env input,
        r.first env / env.ratio ≤ b ∧ b < r.first env / env.ratio + r.len / env.ratio := fun b => by
    constructor
    · rintro ⟨_, he, hb⟩
      obtain ⟨r, hr, rfl⟩ := List.mem_map.mp he
      rw [h.scaleRange_eq hr] at hb
      exact ⟨r, hr, hb⟩
    · rintro ⟨r, hr, hb⟩
      refine ⟨_, List.mem_map_of_mem hr, ?_⟩
      rw [h.scaleRange_eq hr]
      exact hb
  constructor
  · intro heq r hr b hb
    rw [← hscaled, heq]
    exact ⟨r, hr, (exists_div_ratio_iff h.ratio_pos).mpr (Or.inr hb)⟩
  · intro hcovered
    ext b
    rw [hscaled]
    constructor
    · rintro ⟨r, hr, hb⟩
      exact ⟨r, hr, (exists_div_ratio_iff h.ratio_pos).mpr (Or.inl hb)⟩
    · rintro ⟨r, hr, hb⟩
      rcases (exists_div_ratio_iff h.ratio_pos).mp hb with hb | hb
      · exact ⟨r, hr, hb⟩
      · exact hcovered r hr b hb

end Scale

/-- With memory and a file read to its end, the extents left are apart and cover what the scaled extents
cover. -/
theorem loadBlocks_spec {env : LoadEnv} {input : List InputRange}
    {qsort : List InputExtent → List InputExtent} (hgrants : ∀ n, env.grants n = true)
    (hqsort : Sorts inputExtentCmp qsort) (h : Scalable env input) :
    ∃ extents, loadBlocks env qsort true input = some extents ∧ ApartExtents extents
      ∧ blocksOf extents = blocksOf ((accepted env input).map (scaleRange env)) := by
  obtain ⟨s, hs⟩ : ∃ s, input.foldlM (readRange env) ⟨[], iextentsAllocEntries, 1, []⟩ = .ok s :=
    foldlM_readRange_ok hgrants
  have hread : readRanges env input = .ok s := by
    rw [readRanges, if_pos (hgrants 0), hs]
  have hiextents : s.iextents = (accepted env input).map (scaleRange env) :=
    foldlM_readRange_iextents hs
  have hperm := hqsort.perm ((accepted env input).map (scaleRange env))
  -- the comparison is that of the blocks
  have hkey : ∀ a ∈ (accepted env input).map (scaleRange env),
      ∀ b ∈ (accepted env input).map (scaleRange env), inputExtentCmp a b ≤ 0 ↔ a.block ≤ b.block := by
    intro a ha b hb
    obtain ⟨r, hr, rfl⟩ := List.mem_map.mp ha
    obtain ⟨r', hr', rfl⟩ := List.mem_map.mp hb
    have hlt := (h.noWrap hr).2
    have hlt' := (h.noWrap hr').2
    rw [inputExtentCmp, toInt_eq (by omega) (by omega)]
    omega
  have hsorted := hqsort.ordered_key InputExtent.block hkey
  have hwrap : ∀ e ∈ qsort ((accepted env input).map (scaleRange env)), e.NoWrap := fun e he => by
    obtain ⟨r, hr, rfl⟩ := List.mem_map.mp (hperm.mem_iff.mp he)
    exact (h.noWrap hr).1
  refine ⟨mergeExtents (qsort ((accepted env input).map (scaleRange env))), ?_,
    mergeExtents_apart hwrap hsorted, ?_⟩
  · rw [loadBlocks, hread, ← hiextents, ← mergeOverlapping_eq]
    rfl
  · rw [blocksOf_mergeExtents hwrap hsorted]
    ext b
    exact exists_congr fun e => and_congr_left' hperm.mem_iff

/-- **The blocks loaded.** With memory and a file read to its end, the extents left are sorted and apart;
they cover exactly the blocks listed if and only if every block that scaling leaves out of a range is
among those another range is scaled to. -/
theorem loadBlocks_right_iff {env : LoadEnv} {input : List InputRange}
    {qsort : List InputExtent → List InputExtent} (hgrants : ∀ n, env.grants n = true)
    (hqsort : Sorts inputExtentCmp qsort) (h : Scalable env input) :
    ∃ extents, loadBlocks env qsort true input = some extents
      ∧ ((ApartExtents extents ∧ blocksOf extents = listedBlocks env input) ↔ TailsCovered env input) := by
  obtain ⟨extents, hload, hapart, hblocks⟩ := loadBlocks_spec hgrants hqsort h
  refine ⟨extents, hload, ?_⟩
  rw [hblocks, h.blocksOf_scaled_iff]
  exact and_iff_right hapart

/-- Eight device blocks to a block: the device blocks `7` and `8` lie in the blocks `0` and `1`, and no
block is loaded. -/
theorem loadBlocks_unaligned :
    ¬ ∃ extents, loadBlocks (sampleLoadEnv 4096) (attachSort inputExtentCmp) true [⟨7, 2⟩] = some extents
      ∧ ApartExtents extents ∧ blocksOf extents = listedBlocks (sampleLoadEnv 4096) [⟨7, 2⟩] := by
  have hscalable : Scalable (sampleLoadEnv 4096) [⟨7, 2⟩] := ⟨⟨3, by decide, by decide⟩, by decide⟩
  rintro ⟨extents, hload, -, hblocks⟩
  obtain ⟨extents', hload', -, hblocks'⟩ :=
    loadBlocks_spec (fun _ => rfl) (attachSort_sorts inputExtentCmp) hscalable
  cases Option.some.inj (hload.symm.trans hload')
  have hcovered := hscalable.blocksOf_scaled_iff.mp (hblocks'.symm.trans hblocks)
  revert hcovered
  unfold TailsCovered
  decide

/-- The same range, with another one around it. -/
theorem loadBlocks_covered :
    TailsCovered (sampleLoadEnv 4096) [⟨7, 2⟩, ⟨0, 16⟩]
      ∧ ∃ extents,
        loadBlocks (sampleLoadEnv 4096) (attachSort inputExtentCmp) true [⟨7, 2⟩, ⟨0, 16⟩] = some extents
          ∧ ApartExtents extents
          ∧ blocksOf extents = listedBlocks (sampleLoadEnv 4096) [⟨7, 2⟩, ⟨0, 16⟩] := by
  have hcovered : TailsCovered (sampleLoadEnv 4096) [⟨7, 2⟩, ⟨0, 16⟩] := by
    unfold TailsCovered
    decide
  have hscalable : Scalable (sampleLoadEnv 4096) [⟨7, 2⟩, ⟨0, 16⟩] := ⟨⟨3, by decide, by decide⟩, by decide⟩
  obtain ⟨extents, hload, hiff⟩ :=
    loadBlocks_right_iff (fun _ => rfl) (attachSort_sorts inputExtentCmp) hscalable
  exact ⟨hcovered, extents, hload, hiff.mpr hcovered⟩

end Prefetch.Remap

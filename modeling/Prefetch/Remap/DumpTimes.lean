/-
# Prefetch.Remap.DumpTimes — the input ranges, cut at the mapped extents

With `-t`, e2block2file prints each range of the input in pieces: the part of a gap before the next mapped
extent, or the part of an extent with its inode and logical offset. `find_map_block` gives the first
extent that ends behind a block. Each range is cut right if the searches it takes are, and they are on
tables of up to `2 ^ 30` extents; on larger ones, up to the end of the extent before the one where the
sum of the ends overflows.
-/
import Mathlib.Algebra.GroupWithZero.Nat
import Prefetch.Remap.Bisect

namespace Prefetch.Remap

open Qsort

/-! ## §1 — `find_map_block` -/

/-- `struct block_map` as `insert_new_block` leaves it under `-t`, with what is printed of its inode. -/
structure MappedExtent where
  block : ℕ
  len : ℕ
  offset : ℤ
  ino : ℕ
  name : Option String
  deriving DecidableEq, Inhabited

/-- The blocks of an entry. -/
def MappedExtent.extent (e : MappedExtent) : InputExtent := ⟨e.block, e.len⟩

/-- `block_map_cmp` -/
def blockMapCmp (a b : MappedExtent) : ℤ := toInt (a.block - b.block)

/-- The loop of `find_map_block`, `n` turns at most, and what is returned after it. -/
def findMapBlockLoop (bmap : List MappedExtent) (blocknr : ℕ) : ℕ → ℤ → ℤ → Lookup
  | 0, _, _ => .running
  | n + 1, start, stop =>
      if start ≤ stop then
        match readAt bmap (midpoint start stop) with
        | none => .outside
        | some e =>
            if e.block ≤ blocknr ∧ blocknr < e.extent.stop then .found (midpoint start stop).toNat
            else if e.block < blocknr then
              findMapBlockLoop bmap blocknr n (midpoint start stop + 1) stop
            else findMapBlockLoop bmap blocknr n start (midpoint start stop - 1)
      else if bmap.length ≤ start.toNat then .missing
      else .found start.toNat

/-- `find_map_block` -/
def findMapBlock (bmap : List MappedExtent) (blocknr : ℕ) : Lookup :=
  findMapBlockLoop bmap blocknr (bmap.length + 1) 0 (toInt (bmap.length - 1))

/-! ## §2 — `dump_times` -/

/-- A line of the output; without a mapping it says `unmapped`. -/
structure TimesPiece where
  blocknum : ℤ
  len : ℕ
  mapping : Option (ℤ × ℕ × Option String)
  deriving DecidableEq

/-- Why the output breaks off: an entry before or behind the table is read, or the given number of turns
does not suffice. -/
inductive DumpError
  | outside
  | running
  deriving DecidableEq

/-- `cur_len` of the part before an extent. -/
def gapLen (act : MappedExtent) (blocknum : ℤ) (len : ℕ) : ℕ :=
  min ((act.block - blocknum) % 2 ^ 32).toNat len

/-- `cur_len` of the part in an extent. -/
def mappedLen (act : MappedExtent) (blocknum : ℤ) (len : ℕ) : ℕ :=
  min len ((act.len - (blocknum - act.block)) % 2 ^ 32).toNat

/-- The line for the part in an extent. -/
def mappedPiece (act : MappedExtent) (blocknum : ℤ) (len : ℕ) : TimesPiece where
  blocknum := blocknum
  len := mappedLen act blocknum len
  mapping := some (act.offset + (blocknum - act.block), act.ino, act.name)

/-- The inner loop of `dump_times`, `n` turns at most. -/
def dumpRange (bmap : List MappedExtent) : ℕ → ℤ → ℕ → Except DumpError (List TimesPiece)
  | 0, _, _ => .error .running
  | n + 1, blocknum, len =>
      if len = 0 then .ok []
      else
        match findMapBlock bmap (blocknum % 2 ^ 32).toNat with
        | .outside => .error .outside
        | .running => .error .running
        | .missing => .ok [⟨blocknum, len, none⟩]
        | .found i =>
            let act := bmap.getD i default
            if blocknum < act.block then
              let gap := gapLen act blocknum len
              if len - gap = 0 then .ok [⟨blocknum, gap, none⟩]
              else
                let mapped := mappedLen act (blocknum + gap) (len - gap)
                (dumpRange bmap n (blocknum + gap + mapped) (len - gap - mapped)).map fun pieces =>
                  ⟨blocknum, gap, none⟩ :: mappedPiece act (blocknum + gap) (len - gap) :: pieces
            else
              let mapped := mappedLen act blocknum len
              (dumpRange bmap n (blocknum + mapped) (len - mapped)).map fun pieces =>
                mappedPiece act blocknum len :: pieces

/-- A range of the input in blocks of the file system, as `dump_times` scales it. -/
def timesRange (env : LoadEnv) (r : InputRange) : ℤ × ℕ :=
  ((r.blocknum - env.partitionStart) / 2 ^ env.shift, r.len / 2 ^ env.shift)

/-- `dump_times`: the pieces of each range. -/
def dumpTimes (env : LoadEnv) (qsort : List MappedExtent → List MappedExtent) (bmap : List MappedExtent)
    (input : List InputRange) : Except DumpError (List (List TimesPiece)) :=
  (input.map (timesRange env)).mapM fun range => dumpRange (qsort bmap) (range.2 + 1) range.1 range.2

/-! ## §3 — the search -/

/-- The blocks of a table. -/
def spansOf (bmap : List MappedExtent) : List InputExtent := bmap.map MappedExtent.extent

/-- A sorted table of disjoint extents below block `2 ^ 31`, and so of no more than `2 ^ 31` extents. -/
structure SortedMap (bmap : List MappedExtent) : Prop where
  sorted : SortedExtents (spansOf bmap)
  below : ∀ e ∈ bmap, e.block + e.len ≤ 2 ^ 31
  count_le : bmap.length ≤ 2 ^ 31

/-- The first entry that ends behind the block, and `NULL` if there is none. -/
def IsNext (bmap : List MappedExtent) (b : ℕ) (r : Lookup) : Prop :=
  (∃ i, r = .found i ∧ i < bmap.length ∧ b < hi (spansOf bmap) i ∧ ∀ j, j < i → hi (spansOf bmap) j ≤ b)
    ∨ r = .missing ∧ ∀ j, j < bmap.length → hi (spansOf bmap) j ≤ b

section Search

variable {bmap : List MappedExtent} {b i : ℕ}

theorem length_spansOf : (spansOf bmap).length = bmap.length := List.length_map _

theorem extent_getD (hlen : i < bmap.length) :
    (bmap.getD i default).extent = (spansOf bmap).getD i default := by
  have hlen' : i < (spansOf bmap).length := by rwa [length_spansOf]
  rw [getD_eq hlen', getD_eq hlen]
  exact (List.getElem_map _).symm

theorem block_getD (hlen : i < bmap.length) : (bmap.getD i default).block = lo (spansOf bmap) i :=
  congrArg InputExtent.block (extent_getD hlen)

theorem end_getD (hlen : i < bmap.length) :
    (bmap.getD i default).block + (bmap.getD i default).len = hi (spansOf bmap) i := by
  have hextent := extent_getD hlen
  show (bmap.getD i default).extent.block + (bmap.getD i default).extent.len = _
  rw [hextent]
  rfl

variable (h : SortedMap bmap)

include h

theorem SortedMap.hi_le (hlen : i < bmap.length) : hi (spansOf bmap) i ≤ 2 ^ 31 := by
  rw [← end_getD hlen]
  exact h.below _ (getD_mem hlen)

theorem SortedMap.stop_eq (hlen : i < bmap.length) :
    (bmap.getD i default).extent.stop = hi (spansOf bmap) i := by
  rw [extent_getD hlen]
  have hle := h.hi_le hlen
  exact stop_getD_of_lt (by omega)

theorem SortedMap.lo_lt_hi (hlen : i < bmap.length) : lo (spansOf bmap) i < hi (spansOf bmap) i :=
  h.sorted.lo_lt_hi (by rwa [length_spansOf])

theorem SortedMap.hi_le_hi {j : ℕ} (hij : i ≤ j) (hj : j < bmap.length) :
    hi (spansOf bmap) i ≤ hi (spansOf bmap) j :=
  h.sorted.hi_le_hi hij (by rwa [length_spansOf])

theorem SortedMap.hi_le_lo {j : ℕ} (hij : i < j) (hj : j < bmap.length) :
    hi (spansOf bmap) i ≤ lo (spansOf bmap) j :=
  h.sorted.hi_le_lo hij (by rwa [length_spansOf])

/-- One turn of the loop, with the index behind `end` for `end`. -/
theorem SortedMap.turn {n start behind mid : ℕ} (hlt : start < behind) (hbehind : behind ≤ bmap.length)
    (hsum : start + (behind - 1) < 2 ^ 31) (hmid : mid = (start + (behind - 1)) / 2) :
    findMapBlockLoop bmap b (n + 1) start ((behind : ℤ) - 1)
      = if lo (spansOf bmap) mid ≤ b then
          if b < hi (spansOf bmap) mid then .found mid
          else findMapBlockLoop bmap b n (mid + 1 : ℕ) ((behind : ℤ) - 1)
        else findMapBlockLoop bmap b n start ((mid : ℤ) - 1) := by
  have hmidlt : mid < bmap.length := by omega
  have hcast : (behind : ℤ) - 1 = ((behind - 1 : ℕ) : ℤ) := by omega
  have hread : readAt bmap (mid : ℤ) = some (bmap.getD mid default) := readAt_getD hmidlt
  have hpos := h.lo_lt_hi hmidlt
  rw [findMapBlockLoop, if_pos (by omega), hcast, midpoint_eq hsum, ← hmid, hread]
  simp only [h.stop_eq hmidlt, block_getD hmidlt, Int.toNat_natCast]
  by_cases hlo : lo (spansOf bmap) mid ≤ b
  · by_cases hhi : b < hi (spansOf bmap) mid
    · rw [if_pos ⟨hlo, hhi⟩, if_pos hlo, if_pos hhi]
    · rw [if_neg fun hin => hhi hin.2, if_pos hlo, if_neg hhi, if_pos (by omega)]
      rfl
  · rw [if_neg fun hin => hlo hin.1, if_neg hlo, if_neg (by omega)]

/-- With nothing left between the ends, the lower one is the answer. -/
theorem SortedMap.loop_end {n start : ℕ}
    (hbefore : ∀ j, j < start → hi (spansOf bmap) j ≤ b)
    (hafter : start < bmap.length → b < lo (spansOf bmap) start) :
    IsNext bmap b (findMapBlockLoop bmap b (n + 1) start ((start : ℤ) - 1)) := by
  rw [findMapBlockLoop, if_neg (by omega), Int.toNat_natCast]
  split_ifs with hend
  · exact Or.inr ⟨rfl, fun j hj => hbefore j (hj.trans_le hend)⟩
  · have hlt := Nat.lt_of_not_le hend
    exact Or.inl ⟨start, rfl, hlt, (hafter hlt).trans (h.lo_lt_hi hlt), hbefore⟩

/-- With the upper end below `2 ^ 30`, the loop finds the first entry that ends behind the block. -/
theorem SortedMap.loop_isNext (n start behind : ℕ) (hn : behind < start + n) (hle : start ≤ behind)
    (hbehind : behind ≤ bmap.length) (hsmall : behind ≤ 2 ^ 30)
    (hbefore : ∀ j, j < start → hi (spansOf bmap) j ≤ b)
    (hafter : behind < bmap.length → b < lo (spansOf bmap) behind) :
    IsNext bmap b (findMapBlockLoop bmap b n start ((behind : ℤ) - 1)) := by
  induction n generalizing start behind with
  | zero => omega
  | succ n ih =>
      rcases hle.eq_or_lt with rfl | hlt
      · exact h.loop_end hbefore hafter
      · obtain ⟨mid, hmid⟩ : ∃ mid, mid = (start + (behind - 1)) / 2 := ⟨_, rfl⟩
        have hmidlt : mid < bmap.length := by omega
        rw [h.turn hlt hbehind (by omega) hmid]
        split_ifs with hlo hhi
        · refine Or.inl ⟨mid, rfl, hmidlt, hhi, fun j hj => ?_⟩
          exact (h.hi_le_lo hj hmidlt).trans hlo
        · refine ih (mid + 1) behind (by omega) (by omega) hbehind hsmall (fun j hj => ?_) hafter
          exact (h.hi_le_hi (Nat.lt_succ_iff.mp hj) hmidlt).trans (Nat.le_of_not_lt hhi)
        · exact ih start mid (by omega) (by omega) hmidlt.le (by omega) hbefore
            fun _ => Nat.lt_of_not_le hlo

/-- The sum of the ends is no `int`: the entry read is not in the table. -/
theorem SortedMap.loop_overflow {last start n : ℕ} (hlen : bmap.length = last + 1) (hn : 0 < n)
    (hle : start ≤ last) (hsum : 2 ^ 31 ≤ start + last) :
    findMapBlockLoop bmap b n (start : ℕ) ((bmap.length : ℤ) - 1) = .outside := by
  have hcount := h.count_le
  obtain ⟨m, rfl⟩ : ∃ m, n = m + 1 := ⟨n - 1, by omega⟩
  have hcast : (bmap.length : ℤ) - 1 = (last : ℕ) := by omega
  rw [findMapBlockLoop, hcast, if_pos (by omega), readAt_of_neg (midpoint_neg hsum (by omega))]

/-- On a table of more than `2 ^ 30` extents, with the upper end still at the last one: if all entries
before the one where the sum overflows end at the block or before, the search runs into it, else it finds
the answer. -/
theorem SortedMap.spine {last : ℕ} (hlen : bmap.length = last + 1) (hlarge : 2 ^ 30 ≤ last)
    (k start n : ℕ) (hk : last ≤ start + k) (hn : last + 1 < start + n) (hle : start ≤ last)
    (hbefore : ∀ j, j < start → hi (spansOf bmap) j ≤ b) :
    ((∀ j, j < overflowFrom last k start → hi (spansOf bmap) j ≤ b) →
        findMapBlockLoop bmap b n start ((bmap.length : ℤ) - 1) = .outside)
      ∧ (∀ j, j < overflowFrom last k start → b < hi (spansOf bmap) j →
        IsNext bmap b (findMapBlockLoop bmap b n start ((bmap.length : ℤ) - 1))) := by
  induction k generalizing start n with
  | zero =>
      refine ⟨fun _ => h.loop_overflow hlen (by omega) hle (by omega), fun j hj hlt => ?_⟩
      exact absurd (hbefore j hj) (Nat.not_le.mpr hlt)
  | succ k ih =>
      rw [overflowFrom]
      split_ifs with hsum
      · refine ⟨fun _ => h.loop_overflow hlen (by omega) hle hsum, fun j hj hlt => ?_⟩
        exact absurd (hbefore j hj) (Nat.not_le.mpr hlt)
      · obtain ⟨n, rfl⟩ : ∃ m, n = m + 1 := ⟨n - 1, by omega⟩
        obtain ⟨mid, hmid⟩ : ∃ mid, mid = (start + last) / 2 := ⟨_, rfl⟩
        have hpred : bmap.length - 1 = last := by omega
        have hmidlt : mid < bmap.length := by omega
        have hnext : mid + 1 ≤ last := by omega
        have hmid' : mid = (start + (bmap.length - 1)) / 2 := by rw [hmid, hpred]
        have hstart : start < bmap.length := by omega
        have hfits : start + (bmap.length - 1) < 2 ^ 31 := by omega
        have hturn : findMapBlockLoop bmap b (n + 1) start ((bmap.length : ℤ) - 1) = _ :=
          h.turn hstart le_rfl hfits hmid'
        obtain ⟨hover, -, -⟩ := overflowFrom_spec (n := k) hlarge hnext (by omega)
        rw [hturn, ← hmid]
        split_ifs with hlo hhi
        · refine ⟨fun hall => absurd (hall mid hover) (Nat.not_le.mpr hhi), fun _ _ _ => ?_⟩
          exact Or.inl ⟨mid, rfl, hmidlt, hhi, fun j hj => (h.hi_le_lo hj hmidlt).trans hlo⟩
        · refine ih (mid + 1) n (by omega) (by omega) hnext fun j hj => ?_
          exact (h.hi_le_hi (Nat.lt_succ_iff.mp hj) hmidlt).trans (Nat.le_of_not_lt hhi)
        · have hmidlo := h.lo_lt_hi hmidlt
          refine ⟨fun hall => ?_, fun _ _ _ => ?_⟩
          · have hle' := hall mid hover
            omega
          · exact h.loop_isNext n start mid (by omega) (by omega) hmidlt.le (by omega) hbefore
              fun _ => Nat.lt_of_not_le hlo

end Search

/-- The end of the entry before the one where the sum overflows. -/
def searchLimit (bmap : List MappedExtent) : ℕ :=
  hi (spansOf bmap) (overflowStart (bmap.length - 1) - 1)

/-- The search for the block overflows. -/
def SearchFails (bmap : List MappedExtent) (b : ℕ) : Prop :=
  2 ^ 30 < bmap.length ∧ searchLimit bmap ≤ b

/-- **`find_map_block`** finds the first entry that ends behind the block, or overflows. -/
theorem SortedMap.findMapBlock_spec {bmap : List MappedExtent} {b : ℕ} (h : SortedMap bmap) :
    (SearchFails bmap b → findMapBlock bmap b = .outside)
      ∧ (¬ SearchFails bmap b → IsNext bmap b (findMapBlock bmap b)) := by
  have hcount := h.count_le
  unfold findMapBlock
  rw [toInt_eq (by omega) (by omega)]
  rcases Nat.lt_or_ge (2 ^ 30) bmap.length with hlarge | hsmall
  · obtain ⟨last, hlast⟩ : ∃ last, bmap.length = last + 1 := ⟨bmap.length - 1, by omega⟩
    have hpred : bmap.length - 1 = last := by omega
    obtain ⟨hover, hover'⟩ := overflowStart_spec last (by omega)
    have hspine := h.spine (b := b) hlast (by omega) last 0 (bmap.length + 1) (by omega) (by omega)
      (Nat.zero_le _) fun j hj => absurd hj (Nat.not_lt_zero j)
    unfold SearchFails searchLimit
    rw [hpred]
    refine ⟨fun hfails => hspine.1 fun j hj => ?_, fun hfine => ?_⟩
    · have hj' : j ≤ overflowStart last - 1 := Nat.le_sub_one_of_lt hj
      exact (h.hi_le_hi hj' (by omega)).trans hfails.2
    · have hlt := Nat.lt_of_not_le fun hle => hfine ⟨hlarge, hle⟩
      exact hspine.2 _ (show overflowStart last - 1 < overflowStart last by omega) hlt
  · refine ⟨fun hfails => absurd hfails.1 (Nat.not_lt.mpr hsmall), fun _ => ?_⟩
    exact h.loop_isNext (bmap.length + 1) 0 bmap.length (by omega) (Nat.zero_le _) le_rfl hsmall
      (fun j hj => absurd hj (Nat.not_lt_zero j)) fun hlt => absurd hlt (Nat.lt_irrefl _)

/-! ## §4 — the pieces of a range -/

/-- The pieces follow each other from `start` on. -/
def Consecutive : ℤ → List TimesPiece → Prop
  | _, [] => True
  | start, p :: pieces => p.blocknum = start ∧ Consecutive (start + p.len) pieces

/-- A piece printed as unmapped is disjoint from every mapped extent; any other lies in one, and is printed
with its inode and the logical offset of its first block. -/
def PieceRight (bmap : List MappedExtent) (p : TimesPiece) : Prop :=
  match p.mapping with
  | none => ∀ e ∈ bmap, (e.block + e.len : ℤ) ≤ p.blocknum ∨ p.blocknum + p.len ≤ e.block
  | some mapping => ∃ e ∈ bmap, (e.block : ℤ) ≤ p.blocknum ∧ p.blocknum + p.len ≤ e.block + e.len
      ∧ mapping = (e.offset + (p.blocknum - e.block), e.ino, e.name)

/-- What should be printed for a range. -/
structure RangeRight (bmap : List MappedExtent) (start : ℤ) (len : ℕ) (pieces : List TimesPiece) : Prop where
  consecutive : Consecutive start pieces
  sum_len : (pieces.map TimesPiece.len).sum = len
  right : ∀ p ∈ pieces, PieceRight bmap p

/-- All searches for a range succeed. -/
def RangeFits (bmap : List MappedExtent) (start : ℤ) (len : ℕ) : Prop :=
  len = 0 ∨ bmap.length ≤ 2 ^ 30 ∨ start + len ≤ searchLimit bmap

theorem RangeRight.cons {bmap : List MappedExtent} {start : ℤ} {len : ℕ} {p : TimesPiece}
    {pieces : List TimesPiece} (hp : PieceRight bmap p) (hstart : p.blocknum = start) (hlen : p.len ≤ len)
    (h : RangeRight bmap (start + p.len) (len - p.len) pieces) : RangeRight bmap start len (p :: pieces) where
  consecutive := ⟨hstart, h.consecutive⟩
  sum_len := by
    rw [List.map_cons, List.sum_cons, h.sum_len]
    omega
  right q hq := by
    rcases List.mem_cons.mp hq with rfl | hq
    · exact hp
    · exact h.right q hq

theorem rangeRight_nil {bmap : List MappedExtent} {start : ℤ} : RangeRight bmap start 0 [] :=
  ⟨trivial, rfl, fun _ hp => absurd hp List.not_mem_nil⟩

theorem rangeRight_single {bmap : List MappedExtent} {start : ℤ} {len : ℕ}
    (h : PieceRight bmap ⟨start, len, none⟩) : RangeRight bmap start len [⟨start, len, none⟩] := by
  refine RangeRight.cons h rfl le_rfl ?_
  rw [Nat.sub_self]
  exact rangeRight_nil

section Pieces

variable {bmap : List MappedExtent} {b len i : ℕ}

theorem exists_index {e : MappedExtent} (he : e ∈ bmap) :
    ∃ j, j < bmap.length ∧ e.block = lo (spansOf bmap) j ∧ e.block + e.len = hi (spansOf bmap) j := by
  obtain ⟨j, hj, rfl⟩ := List.getElem_of_mem he
  rw [← getD_eq hj]
  exact ⟨j, hj, block_getD hj, end_getD hj⟩

variable (h : SortedMap bmap)

include h

/-- Up to the first entry that ends behind the block there is a gap. -/
theorem SortedMap.gap_right (hbefore : ∀ j, j < i → j < bmap.length → hi (spansOf bmap) j ≤ b)
    (hgap : i < bmap.length → b + len ≤ lo (spansOf bmap) i) : PieceRight bmap ⟨b, len, none⟩ := by
  intro e he
  obtain ⟨j, hj, hblock, hend⟩ := exists_index he
  rcases Nat.lt_or_ge j i with hlt | hge
  · have hle := hbefore j hlt hj
    exact Or.inl (by push_cast; omega)
  · have hgap' := hgap (hge.trans_lt hj)
    have hmono : lo (spansOf bmap) i ≤ lo (spansOf bmap) j :=
      h.sorted.lo_le_lo hge (by rwa [length_spansOf])
    exact Or.inr (by push_cast; omega)

/-- The part of a range in an entry, from a block of the entry on. -/
theorem SortedMap.mapped_right (len : ℕ) (hi' : i < bmap.length) (hlo : lo (spansOf bmap) i ≤ b)
    (hhi : b < hi (spansOf bmap) i) :
    mappedLen (bmap.getD i default) b len = min len (hi (spansOf bmap) i - b)
      ∧ PieceRight bmap (mappedPiece (bmap.getD i default) b len) := by
  have hblock := block_getD hi'
  have hend := end_getD hi'
  have hle := h.hi_le hi'
  have hlen : mappedLen (bmap.getD i default) b len = min len (hi (spansOf bmap) i - b) := by
    unfold mappedLen
    congr 1
    omega
  refine ⟨hlen, bmap.getD i default, getD_mem hi', ?_, ?_, rfl⟩
  · show ((bmap.getD i default).block : ℤ) ≤ (b : ℤ)
    omega
  · show (b : ℤ) + (mappedLen (bmap.getD i default) b len : ℕ) ≤ _
    rw [hlen]
    omega

end Pieces

/-- What a range comes to: the right pieces if the searches for it succeed, else a read outside the
table. -/
def DumpSpec (bmap : List MappedExtent) (start : ℤ) (len : ℕ) (r : Except DumpError (List TimesPiece)) : Prop :=
  (RangeFits bmap start len → ∃ pieces, r = .ok pieces ∧ RangeRight bmap start len pieces)
    ∧ (¬ RangeFits bmap start len → r = .error .outside)

theorem DumpSpec.cons {bmap : List MappedExtent} {start : ℤ} {len : ℕ} {p : TimesPiece}
    {r : Except DumpError (List TimesPiece)} (hp : PieceRight bmap p) (hstart : p.blocknum = start)
    (hlen : p.len ≤ len) (hfits : RangeFits bmap start len ↔ RangeFits bmap (start + p.len) (len - p.len))
    (h : DumpSpec bmap (start + p.len) (len - p.len) r) : DumpSpec bmap start len (r.map (p :: ·)) := by
  refine ⟨fun hf => ?_, fun hf => ?_⟩
  · obtain ⟨pieces, rfl, hpieces⟩ := h.1 (hfits.mp hf)
    exact ⟨p :: pieces, rfl, hpieces.cons hp hstart hlen⟩
  · rw [h.2 (mt hfits.mpr hf)]
    rfl

theorem map_cons_cons (r : Except DumpError (List TimesPiece)) (p q : TimesPiece) :
    (r.map (q :: ·)).map (p :: ·) = r.map fun pieces => p :: q :: pieces := by
  cases r <;> rfl

section Range

variable {bmap : List MappedExtent} {b len i n : ℕ} (h : SortedMap bmap)

include h

/-- A turn that begins in an entry. -/
theorem SortedMap.dump_mapped (len : ℕ) (hi' : i < bmap.length) (hlo : lo (spansOf bmap) i ≤ b)
    (hhi : b < hi (spansOf bmap) i) (hlen : 0 < len)
    (hlimit : 2 ^ 30 < bmap.length → hi (spansOf bmap) i ≤ searchLimit bmap)
    (hrest : ∀ b' len', len' < len → b' ≤ 2 ^ 31 →
      DumpSpec bmap (b' : ℕ) len' (dumpRange bmap n (b' : ℕ) len')) :
    DumpSpec bmap b len
      ((dumpRange bmap n (b + mappedLen (bmap.getD i default) b len)
        (len - mappedLen (bmap.getD i default) b len)).map
          (mappedPiece (bmap.getD i default) b len :: ·)) := by
  obtain ⟨hmapped, hpiece⟩ := h.mapped_right len hi' hlo hhi
  have hle := h.hi_le hi'
  have hplen : (mappedPiece (bmap.getD i default) b len).len = min len (hi (spansOf bmap) i - b) := hmapped
  refine DumpSpec.cons hpiece rfl (by rw [hplen]; exact min_le_left _ _) ?_ ?_
  · rw [hplen]
    unfold RangeFits
    omega
  · rw [hmapped, hplen]
    have hcast : (b : ℤ) + (min len (hi (spansOf bmap) i - b) : ℕ)
        = ((b + min len (hi (spansOf bmap) i - b) : ℕ) : ℤ) := (Int.natCast_add _ _).symm
    rw [hcast]
    exact hrest _ _ (by omega) (by omega)

/-- A turn that begins before an entry. -/
theorem SortedMap.dump_gap {gap : ℕ} (hi' : i < bmap.length) (hlt : b < lo (spansOf bmap) i)
    (hgap : gap = min (lo (spansOf bmap) i - b) len) (hbefore : ∀ j, j < i → hi (spansOf bmap) j ≤ b)
    (hlimit : 2 ^ 30 < bmap.length → hi (spansOf bmap) i ≤ searchLimit bmap)
    (hrest : ∀ b' len', len' < len → b' ≤ 2 ^ 31 →
      DumpSpec bmap (b' : ℕ) len' (dumpRange bmap n (b' : ℕ) len')) :
    DumpSpec bmap b len
      (if len - gap = 0 then .ok [⟨b, gap, none⟩]
      else
        (dumpRange bmap n (b + gap + mappedLen (bmap.getD i default) (b + gap) (len - gap))
          (len - gap - mappedLen (bmap.getD i default) (b + gap) (len - gap))).map fun pieces =>
            ⟨b, gap, none⟩ :: mappedPiece (bmap.getD i default) (b + gap) (len - gap) :: pieces) := by
  subst hgap
  have hile := h.hi_le hi'
  have hilo := h.lo_lt_hi hi'
  rcases Nat.lt_or_ge (lo (spansOf bmap) i - b) len with hpart | hwhole
  · -- the gap, then the part in the extent
    have hpiece : PieceRight bmap ⟨b, lo (spansOf bmap) i - b, none⟩ :=
      h.gap_right (fun j hj _ => hbefore j hj) fun _ => by omega
    have hcast : (b : ℤ) + (lo (spansOf bmap) i - b : ℕ) = (lo (spansOf bmap) i : ℕ) := by omega
    have hmapped := h.dump_mapped (len - (lo (spansOf bmap) i - b)) hi' le_rfl hilo
      (by omega) hlimit fun b' len' hlt hb' => hrest b' len' (by omega) hb'
    rw [← hcast] at hmapped
    rw [min_eq_left hpart.le, if_neg (by omega), ← map_cons_cons]
    exact DumpSpec.cons hpiece rfl hpart.le (by unfold RangeFits; dsimp only; omega) hmapped
  · -- the gap is longer than the range
    rw [min_eq_right hwhole, Nat.sub_self, if_pos rfl]
    refine ⟨fun _ => ⟨_, rfl, rangeRight_single ?_⟩, fun hf => ?_⟩
    · exact h.gap_right (fun j hj _ => hbefore j hj) fun _ => by omega
    · unfold RangeFits at hf
      omega

/-- Where the search does not overflow, the entry it finds is not behind the limit. -/
theorem SortedMap.hi_le_searchLimit (hfails : ¬ SearchFails bmap b) (hi' : i < bmap.length)
    (hbefore : ∀ j, j < i → hi (spansOf bmap) j ≤ b) (hlarge : 2 ^ 30 < bmap.length) :
    hi (spansOf bmap) i ≤ searchLimit bmap := by
  have hlt : b < searchLimit bmap := Nat.lt_of_not_le fun hle => hfails ⟨hlarge, hle⟩
  obtain ⟨hover, -⟩ := overflowStart_spec (bmap.length - 1) (by omega)
  refine h.hi_le_hi ?_ (by omega)
  by_contra hgt
  exact absurd (hbefore _ (Nat.lt_of_not_le hgt)) (Nat.not_le.mpr hlt)

/-- **The inner loop of `dump_times`.** -/
theorem SortedMap.dumpRange_spec (n b len : ℕ) (hn : len < n) (hb : b ≤ 2 ^ 31) :
    DumpSpec bmap b len (dumpRange bmap n b len) := by
  induction n generalizing b len with
  | zero => omega
  | succ n ih =>
      have hrest : ∀ b' len', len' < len → b' ≤ 2 ^ 31 →
          DumpSpec bmap (b' : ℕ) len' (dumpRange bmap n (b' : ℕ) len') := fun b' len' hlt hb' =>
        ih b' len' (by omega) hb'
      rw [dumpRange]
      by_cases hlen : len = 0
      · rw [if_pos hlen, hlen]
        exact ⟨fun _ => ⟨[], rfl, rangeRight_nil⟩, fun hf => absurd (Or.inl rfl) hf⟩
      have hblock : ((b : ℤ) % 2 ^ 32).toNat = b := by omega
      rw [if_neg hlen, hblock]
      by_cases hfails : SearchFails bmap b
      · -- the search for the first block overflows
        rw [h.findMapBlock_spec.1 hfails]
        refine ⟨fun hf => ?_, fun _ => rfl⟩
        obtain ⟨hlarge, hlimit⟩ := hfails
        unfold RangeFits at hf
        omega
      rcases h.findMapBlock_spec.2 hfails with ⟨i, hfound, hi', hhi, hbefore⟩ | ⟨hmissing, hall⟩
      · rw [hfound]
        have hact := block_getD hi'
        have hlimit := h.hi_le_searchLimit hfails hi' hbefore
        have hile := h.hi_le hi'
        dsimp only
        rw [hact]
        by_cases hgap : b < lo (spansOf bmap) i
        · have hgapLen : gapLen (bmap.getD i default) b len = min (lo (spansOf bmap) i - b) len := by
            have hilo := h.lo_lt_hi hi'
            unfold gapLen
            rw [hact]
            congr 1
            omega
          rw [if_pos (by omega), hgapLen]
          exact h.dump_gap hi' hgap rfl hbefore hlimit hrest
        · rw [if_neg (by omega)]
          exact h.dump_mapped len hi' (Nat.le_of_not_lt hgap) hhi (Nat.pos_of_ne_zero hlen) hlimit hrest
      · -- no entry ends behind the block
        rw [hmissing]
        refine ⟨fun _ => ⟨_, rfl, rangeRight_single ?_⟩, fun hf => ?_⟩
        · exact h.gap_right (fun j _ hj => hall j hj) fun hlt => absurd hlt (Nat.lt_irrefl _)
        · refine absurd (Or.inr (Or.inl (Nat.le_of_not_lt fun hlarge => ?_))) hf
          obtain ⟨hover, -⟩ := overflowStart_spec (bmap.length - 1) (by omega)
          exact hfails ⟨hlarge, hall _ (by omega)⟩

end Range

/-! ## §5 — all ranges -/

/-- A table of mapped extents, in any order: they are not empty, disjoint, and below block `2 ^ 31`. -/
structure MappedTable (bmap : List MappedExtent) : Prop where
  nonempty : ∀ e ∈ bmap, 0 < e.len
  disjoint : bmap.Pairwise fun a b => a.block + a.len ≤ b.block ∨ b.block + b.len ≤ a.block
  below : ∀ e ∈ bmap, e.block + e.len ≤ 2 ^ 31

/-- Disjoint extents in a stretch of blocks are no more than it has blocks. -/
theorem length_le_of_apart {l : List MappedExtent} {base bound : ℕ} (hbase : base ≤ bound)
    (hapart : l.Pairwise fun a b => a.block + a.len ≤ b.block)
    (h : ∀ e ∈ l, 0 < e.len ∧ base ≤ e.block ∧ e.block + e.len ≤ bound) :
    base + l.length ≤ bound := by
  induction l generalizing base with
  | nil => exact hbase
  | cons e l ih =>
      obtain ⟨hfirst, htail⟩ := List.pairwise_cons.mp hapart
      obtain ⟨hpos, hle, hend⟩ := h e List.mem_cons_self
      have hrest := ih hend htail fun x hx =>
        ⟨(h x (List.mem_cons_of_mem _ hx)).1, hfirst x hx, (h x (List.mem_cons_of_mem _ hx)).2.2⟩
      rw [List.length_cons]
      omega

/-- Sorting makes a table to be searched of it. -/
theorem MappedTable.sortedMap {bmap : List MappedExtent} {qsort : List MappedExtent → List MappedExtent}
    (h : MappedTable bmap) (hqsort : Sorts blockMapCmp qsort) : SortedMap (qsort bmap) := by
  have hperm := hqsort.perm bmap
  have hnonempty : ∀ e ∈ qsort bmap, 0 < e.len := fun e he => h.nonempty e (hperm.mem_iff.mp he)
  have hbelow : ∀ e ∈ qsort bmap, e.block + e.len ≤ 2 ^ 31 := fun e he =>
    h.below e (hperm.mem_iff.mp he)
  have hsorted : (qsort bmap).Pairwise fun a b => a.block ≤ b.block := by
    refine hqsort.ordered_key MappedExtent.block fun a ha b hb => ?_
    have ha' := h.nonempty a ha
    have hb' := h.nonempty b hb
    have ha'' := h.below a ha
    have hb'' := h.below b hb
    rw [blockMapCmp, toInt_eq (by omega) (by omega)]
    omega
  have hdisjoint := (hperm.pairwise_iff fun hab => Or.symm hab).mpr h.disjoint
  have hapart : (qsort bmap).Pairwise fun a b => a.block + a.len ≤ b.block := by
    refine (hsorted.and hdisjoint).imp_of_mem fun {a b} ha hb hab => ?_
    rcases hab.2 with hle | hle
    · exact hle
    · have hpos := hnonempty b hb
      have hle' := hab.1
      omega
  have hcount : (qsort bmap).length ≤ 2 ^ 31 := by
    have hlen := length_le_of_apart (Nat.zero_le (2 ^ 31)) hapart
      fun e he => ⟨hnonempty e he, Nat.zero_le _, hbelow e he⟩
    rwa [Nat.zero_add] at hlen
  refine ⟨⟨?_, List.pairwise_map.mpr hapart, ?_, ?_⟩, hbelow, hcount⟩
  · intro e he
    obtain ⟨m, hm, rfl⟩ := List.mem_map.mp he
    exact hnonempty m hm
  · intro e he
    obtain ⟨m, hm, rfl⟩ := List.mem_map.mp he
    exact (hbelow m hm).trans (by decide)
  · rw [length_spansOf]
    omega

/-- What is right of a piece does not depend on the order of the table. -/
theorem PieceRight.of_perm {l l' : List MappedExtent} {p : TimesPiece} (hperm : l.Perm l')
    (h : PieceRight l p) : PieceRight l' p := by
  unfold PieceRight at h ⊢
  cases hm : p.mapping with
  | none =>
      rw [hm] at h
      exact fun e he => h e (hperm.mem_iff.mpr he)
  | some mapping =>
      rw [hm] at h
      obtain ⟨e, he, hrest⟩ := h
      exact ⟨e, hperm.mem_iff.mp he, hrest⟩

/-- What `dump_times` should print for the scaled ranges. -/
def TimesRight (bmap : List MappedExtent) (ranges : List (ℤ × ℕ))
    (r : Except DumpError (List (List TimesPiece))) : Prop :=
  ∃ printed, r = .ok printed
    ∧ List.Forall₂ (fun range pieces => RangeRight bmap range.1 range.2 pieces) ranges printed

/-- The output is right if and only if it is for each range. -/
theorem timesRight_mapM_iff {bmap sorted : List MappedExtent} {ranges : List (ℤ × ℕ)}
    {dump : ℤ × ℕ → Except DumpError (List TimesPiece)} (hperm : sorted.Perm bmap)
    (h : ∀ range ∈ ranges, DumpSpec sorted range.1 range.2 (dump range)) :
    TimesRight bmap ranges (ranges.mapM dump) ↔ ∀ range ∈ ranges, RangeFits sorted range.1 range.2 := by
  induction ranges with
  | nil => exact iff_of_true ⟨[], rfl, .nil⟩ fun _ hr => absurd hr List.not_mem_nil
  | cons range ranges ih =>
      have hfirst := h range List.mem_cons_self
      have hrest := ih fun r hr => h r (List.mem_cons_of_mem _ hr)
      rw [List.mapM_cons, List.forall_mem_cons]
      by_cases hfits : RangeFits sorted range.1 range.2
      · obtain ⟨pieces, hpieces, hright⟩ := hfirst.1 hfits
        have hright' : RangeRight bmap range.1 range.2 pieces :=
          ⟨hright.consecutive, hright.sum_len, fun p hp => (hright.right p hp).of_perm hperm⟩
        rw [hpieces, and_iff_right hfits, ← hrest]
        constructor
        · rintro ⟨printed, heq, hall⟩
          cases hm : ranges.mapM dump with
          | error e =>
              rw [hm] at heq
              cases heq
          | ok printed' =>
              rw [hm] at heq
              cases heq
              exact ⟨printed', rfl, (List.forall₂_cons.mp hall).2⟩
        · rintro ⟨printed, heq, hall⟩
          rw [heq]
          exact ⟨pieces :: printed, rfl, .cons hright' hall⟩
      · rw [hfirst.2 hfits]
        refine iff_of_false ?_ fun hall => hfits hall.1
        rintro ⟨printed, heq, -⟩
        cases heq

/-- Ranges from non-negative blocks below `2 ^ 31` on are cut right if and only if all searches for them
succeed. -/
theorem timesRight_iff {bmap : List MappedExtent} {qsort : List MappedExtent → List MappedExtent}
    {ranges : List (ℤ × ℕ)} (h : MappedTable bmap) (hqsort : Sorts blockMapCmp qsort)
    (hranges : ∀ range ∈ ranges, 0 ≤ range.1 ∧ range.1 < 2 ^ 31) :
    TimesRight bmap ranges
        (ranges.mapM fun range => dumpRange (qsort bmap) (range.2 + 1) range.1 range.2)
      ↔ ∀ range ∈ ranges, RangeFits (qsort bmap) range.1 range.2 := by
  refine timesRight_mapM_iff (hqsort.perm bmap) fun range hr => ?_
  obtain ⟨hnonneg, hlt⟩ := hranges range hr
  obtain ⟨b, hb⟩ := Int.eq_ofNat_of_zero_le hnonneg
  rw [hb]
  exact (h.sortedMap hqsort).dumpRange_spec _ b _ (Nat.lt_succ_self _) (by omega)

/-- **What `dump_times` prints.** For every table of disjoint mapped extents and every list of ranges from
non-negative blocks below `2 ^ 31` on, the pieces printed are right if and only if each range is empty, or
the table has no more than `2 ^ 30` extents, or the range ends no later than the extent before the one
where the sum of the ends overflows. -/
theorem dumpTimes_right_iff {env : LoadEnv} {bmap : List MappedExtent}
    {qsort : List MappedExtent → List MappedExtent} {input : List InputRange} (h : MappedTable bmap)
    (hqsort : Sorts blockMapCmp qsort)
    (hinput : ∀ r ∈ input, 0 ≤ (timesRange env r).1 ∧ (timesRange env r).1 < 2 ^ 31) :
    TimesRight bmap (input.map (timesRange env)) (dumpTimes env qsort bmap input)
      ↔ ∀ r ∈ input, RangeFits (qsort bmap) (timesRange env r).1 (timesRange env r).2 := by
  have hranges : ∀ range ∈ input.map (timesRange env), 0 ≤ range.1 ∧ range.1 < 2 ^ 31 := fun range hr => by
    obtain ⟨r, hr', rfl⟩ := List.mem_map.mp hr
    exact hinput r hr'
  unfold dumpTimes
  rw [timesRight_iff h hqsort hranges, List.forall_mem_map]

/-- Two extents, the higher first. -/
def twoMapped : List MappedExtent := [⟨20, 2, 5, 13, none⟩, ⟨10, 4, 0, 12, some "/a"⟩]

theorem twoMapped_mapped : MappedTable twoMapped := by
  constructor <;> decide

/-- A range over both is cut in four pieces. -/
theorem dumpTimes_right_twoMapped :
    TimesRight twoMapped ([⟨11, 12⟩].map (timesRange (sampleLoadEnv 512)))
      (dumpTimes (sampleLoadEnv 512) (attachSort blockMapCmp) twoMapped [⟨11, 12⟩]) := by
  have hqsort := attachSort_sorts blockMapCmp
  refine (dumpTimes_right_iff twoMapped_mapped hqsort (by decide)).mpr fun r _ => Or.inr (Or.inl ?_)
  rw [(hqsort.perm _).length_eq]
  decide

/-- Every block from `1` on mapped, each in a file of its own. -/
def unitExtents (n : ℕ) : List MappedExtent := (List.range n).map fun i => ⟨i + 1, 1, 0, i + 12, none⟩

theorem unitExtents_mapped {n : ℕ} (hn : n < 2 ^ 31) : MappedTable (unitExtents n) where
  nonempty e he := by
    obtain ⟨i, -, rfl⟩ := List.mem_map.mp he
    exact Nat.one_pos
  disjoint := List.pairwise_map.mpr (List.pairwise_lt_range.imp fun hij => Or.inl (Nat.succ_lt_succ hij))
  below e he := by
    obtain ⟨i, hi', rfl⟩ := List.mem_map.mp he
    exact (Nat.succ_le_succ (Nat.succ_le_of_lt (List.mem_range.mp hi'))).trans hn

theorem timesRange_sampleLoadEnv (n : ℕ) : timesRange (sampleLoadEnv 512) ⟨n, 1⟩ = ((n : ℤ), 1) := by
  have hshift : (sampleLoadEnv 512).shift = 0 := by decide
  unfold timesRange
  rw [hshift]
  simp [sampleLoadEnv]

/-- With more than `2 ^ 30` of them, a range behind them all is not printed: the search reads outside the
table. -/
theorem unitExtents_not_right {n : ℕ} (hlarge : 2 ^ 30 < n) (hn : n + 1 < 2 ^ 31) :
    ¬ TimesRight (unitExtents n) ([⟨(n + 1 : ℕ), 1⟩].map (timesRange (sampleLoadEnv 512)))
      (dumpTimes (sampleLoadEnv 512) (attachSort blockMapCmp) (unitExtents n) [⟨(n + 1 : ℕ), 1⟩]) := by
  have hqsort := attachSort_sorts blockMapCmp
  have hlen : (attachSort blockMapCmp (unitExtents n)).length = n := by
    rw [(hqsort.perm _).length_eq, unitExtents, List.length_map, List.length_range]
  unfold dumpTimes
  rw [List.map_singleton, timesRange_sampleLoadEnv, timesRight_iff (unitExtents_mapped (by omega)) hqsort (by
    intro range hr
    rw [List.mem_singleton.mp hr]
    exact ⟨Int.natCast_nonneg (n + 1), by omega⟩)]
  intro hfits
  have hlimit : searchLimit (attachSort blockMapCmp (unitExtents n)) ≤ n + 1 := by
    obtain ⟨hover, -⟩ := overflowStart_spec (n - 1) (by omega)
    unfold searchLimit
    have hindex : overflowStart (n - 1) - 1 < (attachSort blockMapCmp (unitExtents n)).length := by omega
    have hmem := (hqsort.perm _).mem_iff.mp (getD_mem hindex)
    rw [hlen, ← end_getD hindex]
    generalize (attachSort blockMapCmp (unitExtents n)).getD (overflowStart (n - 1) - 1) default = e at hmem ⊢
    obtain ⟨i, hi', rfl⟩ := List.mem_map.mp hmem
    exact Nat.succ_le_succ (List.mem_range.mp hi')
  have hfit := hfits _ (List.mem_singleton_self _)
  unfold RangeFits at hfit
  rw [hlen] at hfit
  dsimp only at hfit
  omega

/-- So it is with `2 ^ 30 + 1` of them. -/
theorem dumpTimes_behind_large_table :
    MappedTable (unitExtents (2 ^ 30 + 1))
      ∧ timesRange (sampleLoadEnv 512) ⟨((2 ^ 30 + 2 : ℕ) : ℤ), 1⟩ = (((2 ^ 30 + 2 : ℕ) : ℤ), 1)
      ∧ ¬ TimesRight (unitExtents (2 ^ 30 + 1))
        ([⟨((2 ^ 30 + 2 : ℕ) : ℤ), 1⟩].map (timesRange (sampleLoadEnv 512)))
        (dumpTimes (sampleLoadEnv 512) (attachSort blockMapCmp) (unitExtents (2 ^ 30 + 1))
          [⟨((2 ^ 30 + 2 : ℕ) : ℤ), 1⟩]) :=
  ⟨unitExtents_mapped (by decide), timesRange_sampleLoadEnv _, unitExtents_not_right (by decide) (by decide)⟩

end Prefetch.Remap

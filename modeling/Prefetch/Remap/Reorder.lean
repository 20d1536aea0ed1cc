/-
# Prefetch.Remap.Reorder — the blocks of a filesystem in the order of a trace

`e2block2file -t -n` says of the blocks of an access trace where in which files they are, and `e2remapblocks`
moves the blocks it is told of to free space, in the order of its input.

`reorder_by_access` is about both programs, one after the other: every file reads as before, and the blocks of
files lie in the order in which the trace has them first.
-/
import Prefetch.Remap.MapBlocks
import Prefetch.Remap.RemapMain
import Prefetch.Remap.TimesText

namespace Prefetch.Remap

open MoveBlocks (Geometry View Place WellFormed Ext2fs HasValidBlocks Traversable documentedExt2fs
  documentedExt2fs_documented fileCalls fileCalls_callFor)
open Qsort

variable {g : Geometry}

/-! ## §1 — e2block2file -/

instance (s : ReadState) : Decidable (WritesInBounds s) := inferInstanceAs (Decidable (∀ w ∈ s.writes, w.1 < w.2))

/-- `main` of `e2block2file -t -n`, its input read to the end; `none` where the program exits or leaves its
arrays. -/
def e2block2file (lib : Ext2fs g) (env : LoadEnv) (sortInput : List InputExtent → List InputExtent)
    (sortMap : List MappedExtent → List MappedExtent) (v : View g) (scan : List ScannedInode)
    (input : List InputRange) : Option (List Char) :=
  if WritesInBounds (lastState (readRanges env input)) then
    match loadBlocks env sortInput true input with
    | none => none
    | some iextents =>
        match mapBlocks lib v iextents scan with
        | none => none
        | some bmap =>
            match dumpTimes env sortMap bmap input with
            | .error _ => none
            | .ok printed => some (timesText printed)
  else none

/-! ## §2 — the order of accesses -/

/-- The blocks of the ranges, as the trace has them. -/
def tracedBlocks (env : LoadEnv) (input : List InputRange) : List ℕ :=
  (input.map (timesRange env)).flatMap fun r => List.range' r.1.toNat r.2

/-- A block of a file that may be remapped. -/
def inGoodFile (firstIno : ℕ) (v : View g) (scan : List ScannedInode) (b : ℕ) : Bool :=
  scan.any fun i => firstIno ≤ i.inum && (i.visits v).any fun w => w.blocknr = b

/-- The blocks of these files, each where the trace has it first. -/
def accessOrder (firstIno : ℕ) (env : LoadEnv) (v : View g) (scan : List ScannedInode)
    (input : List InputRange) : List ℕ :=
  ((tracedBlocks env input).filter (inGoodFile firstIno v scan)).eraseDups

theorem inGoodFile_iff {firstIno b : ℕ} {v : View g} {scan : List ScannedInode} :
    inGoodFile firstIno v scan b = true ↔
      ∃ i ∈ scan, firstIno ≤ i.inum ∧ ∃ w ∈ i.visits v, w.blocknr = b := by
  unfold inGoodFile
  simp only [List.any_eq_true, Bool.and_eq_true, decide_eq_true_eq]

/-! ## §3 — blocks of the trace are found -/

/-- Ranges of a trace on the partition, the blocks of which are a power of two of device blocks. -/
structure OnPartition (env : LoadEnv) (input : List InputRange) : Prop where
  ratio : ∃ k < 32, env.ratio = 2 ^ k
  first : ∀ r ∈ input, (env.partitionStart : ℤ) ≤ r.blocknum
  last : ∀ r ∈ input, (timesRange env r).1 + (timesRange env r).2 < 2 ^ 30

section Traced

variable {env : LoadEnv} {input : List InputRange} {l iextents : List InputExtent} {r : InputRange} {b i : ℕ}

/-- In a table with gaps between its extents the search comes to the extent of a block. -/
theorem findBlockLoop_found (hapart : ApartExtents l) (hend : ∀ e ∈ l, e.block + e.len < 2 ^ 32)
    (hin : Inside l b i) (n start stop : ℕ) (hn : stop < start + n) (hstart : start ≤ i) (hstop : i ≤ stop)
    (hlen : stop < l.length) (hsum : stop < 2 ^ 30) : findBlockLoop l b n start stop = .found i := by
  obtain ⟨-, hlo, hhi⟩ := hin
  have hmono : ∀ k, lo l k ≤ hi l k := fun k => Nat.le_add_right _ _
  have hgap : ∀ j k, j < k → k < l.length → hi l j < lo l k := by
    intro j k hjk hk
    have hlt := List.pairwise_iff_getElem.mp hapart j k (hjk.trans hk) hk hjk
    rw [← getD_eq hk, ← getD_eq (hjk.trans hk)] at hlt
    exact hlt
  have hstored : ∀ k, k < l.length → (l.getD k default).stop = hi l k := fun k hk =>
    stop_getD_of_lt (hend _ (getD_mem hk))
  -- the extents around that of the block do not reach it
  have hbehind : ∀ k, i ≤ k → k < l.length → b < hi l k := by
    intro k hk hlt
    rcases Nat.eq_or_lt_of_le hk with rfl | hk
    · exact hhi
    · exact hhi.trans ((hgap i k hk hlt).trans_le (hmono k))
  have hbefore : ∀ k, k ≤ i → lo l k ≤ b := by
    intro k hk
    rcases Nat.eq_or_lt_of_le hk with rfl | hk
    · exact hlo
    · exact (hmono k).trans ((hgap k i hk (by omega)).le.trans hlo)
  induction n generalizing start stop with
  | zero => omega
  | succ n ih =>
      obtain ⟨mid, hmid⟩ : ∃ mid, mid = (start + stop) / 2 := ⟨_, rfl⟩
      rcases Nat.lt_trichotomy mid i with hlt | rfl | hgt
      · have hmidGap := hgap mid i hlt (by omega)
        have hmidLe := hmono mid
        have hturn := findBlockLoop_right (b := b) (n := n) (by omega) hlen (by omega) hmid (by omega) (by omega)
          (by rw [hstored mid (by omega)]; omega)
        rw [hturn, if_neg (Nat.not_lt.mpr (hbefore (mid + 1) hlt)), hstored stop hlen,
          if_neg (Nat.not_le.mpr (hbehind stop hstop hlen))]
        exact ih (mid + 1) stop (by omega) hlt hstop hlen hsum
      · exact findBlockLoop_hit (by omega) hlen (by omega) hmid hlo (by rw [hstored mid (by omega)]; exact hhi)
      · have hmidGap := hgap i mid hgt (by omega)
        have hturn := findBlockLoop_left (n := n) (by omega) hlen (by omega) hmid (hhi.trans hmidGap)
        rw [hturn, if_neg (Nat.not_lt.mpr (hbefore start hstart)), hstored (mid - 1) (by omega),
          if_neg (Nat.not_le.mpr (hbehind (mid - 1) (by omega) (by omega)))]
        exact ih start (mid - 1) (by omega) hstart (by omega) (by omega) (by omega)

/-- The first blocks of extents with gaps between them count them. -/
theorem ApartExtents.length_le (h : ApartExtents l) {n : ℕ} (hend : ∀ e ∈ l, e.block + e.len ≤ n) :
    l.length ≤ n + 1 := by
  have hnodup : (l.map InputExtent.block).Nodup := by
    rw [List.Nodup, List.pairwise_map]
    exact h.imp fun {e e'} hlt => by omega
  have hsubset : l.map InputExtent.block ⊆ List.range (n + 1) := by
    intro block hblock
    obtain ⟨e, he, rfl⟩ := List.mem_map.mp hblock
    have := hend e he
    exact List.mem_range.mpr (by omega)
  have hcount := (hnodup.subperm hsubset).length_le
  rw [List.length_map, List.length_range] at hcount
  exact hcount

/-- `dump_times` divides first block and length by the ratio. -/
theorem OnPartition.timesRange_eq (h : OnPartition env input) (hr : r ∈ input) :
    timesRange env r = (((r.first env / env.ratio : ℕ) : ℤ), r.len / env.ratio) := by
  have hempty : Scalable env [] := ⟨h.ratio, fun r hr => absurd hr List.not_mem_nil⟩
  have hfirst : r.blocknum - env.partitionStart = (r.first env : ℤ) :=
    (Int.toNat_of_nonneg (Int.sub_nonneg_of_le (h.first r hr))).symm
  have hpow : (2 : ℤ) ^ env.shift = (env.ratio : ℤ) := by
    rw [← hempty.shift_eq]
    exact (Int.natCast_pow 2 _).symm
  unfold timesRange
  rw [hfirst, hpow, hempty.shift_eq, Int.natCast_ediv]

theorem OnPartition.last_lt (h : OnPartition env input) (hr : r ∈ input) :
    r.first env / env.ratio + r.len / env.ratio < 2 ^ 30 := by
  have hlast := h.last r hr
  rw [h.timesRange_eq hr] at hlast
  dsimp only at hlast
  exact_mod_cast hlast

theorem OnPartition.accepted_eq (h : OnPartition env input) : accepted env input = input :=
  List.filter_eq_self.mpr fun r hr => decide_eq_true (h.first r hr)

theorem OnPartition.scalable (h : OnPartition env input) : Scalable env input := by
  refine ⟨h.ratio, fun r hr => ?_⟩
  rw [h.accepted_eq] at hr
  have hlast := h.last_lt hr
  have hempty : Scalable env [] := ⟨h.ratio, fun r hr => absurd hr List.not_mem_nil⟩
  have hmono : (r.len - 1) / env.ratio ≤ r.len / env.ratio := Nat.div_le_div_right (Nat.sub_le _ _)
  rw [Nat.add_div hempty.ratio_pos]
  split_ifs <;> omega

/-- A block of the trace is one of a scaled extent. -/
theorem OnPartition.mem_tracedBlocks (h : OnPartition env input) :
    b ∈ tracedBlocks env input ↔ b ∈ blocksOf ((accepted env input).map (scaleRange env)) := by
  have hscaled : ∀ r ∈ input, b ∈ List.range' (timesRange env r).1.toNat (timesRange env r).2 ↔
      (scaleRange env r).block ≤ b ∧ b < (scaleRange env r).block + (scaleRange env r).len := by
    intro r hr
    rw [h.timesRange_eq hr, h.scalable.scaleRange_eq (h.accepted_eq.symm ▸ hr), Int.toNat_natCast, List.mem_range'_1]
  unfold tracedBlocks
  rw [List.flatMap_map, List.mem_flatMap, h.accepted_eq]
  constructor
  · rintro ⟨r, hr, hb⟩
    exact ⟨_, List.mem_map_of_mem hr, (hscaled r hr).mp hb⟩
  · rintro ⟨_, he, hb⟩
    obtain ⟨r, hr, rfl⟩ := List.mem_map.mp he
    exact ⟨r, hr, (hscaled r hr).mpr hb⟩

theorem OnPartition.scaled_lt (h : OnPartition env input) (hr : r ∈ input) :
    (scaleRange env r).block + (scaleRange env r).len < 2 ^ 30 := by
  rw [h.scalable.scaleRange_eq (h.accepted_eq.symm ▸ hr)]
  exact h.last_lt hr

/-- Merging leaves extents where there were some. -/
theorem exists_block_of_mem_mergeExtents {e : InputExtent} (he : e ∈ mergeExtents l) :
    ∃ e' ∈ l, e.block = e'.block := by
  cases l with
  | nil => cases he
  | cons first rest =>
      change e ∈ mergeExtentsFrom first rest at he
      induction rest generalizing first with
      | nil => exact ⟨first, List.mem_cons_self, congrArg InputExtent.block (List.mem_singleton.mp he)⟩
      | cons next rest ih =>
          rw [mergeExtentsFrom] at he
          split_ifs at he
          · obtain ⟨e', he', hblock⟩ := ih _ he
            rcases List.mem_cons.mp he' with rfl | he'
            · exact ⟨first, List.mem_cons_self, hblock.trans block_extendOver⟩
            · exact ⟨e', List.mem_cons_of_mem _ (List.mem_cons_of_mem _ he'), hblock⟩
          · rcases List.mem_cons.mp he with rfl | he
            · exact ⟨_, List.mem_cons_self, rfl⟩
            · obtain ⟨e', he', hblock⟩ := ih _ he
              exact ⟨e', List.mem_cons_of_mem _ he', hblock⟩

/-- What is loaded depends on the memory only in that there is enough of it. -/
theorem loadBlocks_eq {qsort : List InputExtent → List InputExtent}
    (hload : loadBlocks env qsort true input = some iextents) :
    iextents = mergeExtents (qsort ((accepted env input).map (scaleRange env))) := by
  unfold loadBlocks at hload
  split at hload
  · cases hload
  · next s hread =>
    cases hload
    unfold readRanges at hread
    split_ifs at hread
    have hiextents : s.iextents = (accepted env input).map (scaleRange env) := foldlM_readRange_iextents hread
    rw [mergeOverlapping_eq, hiextents]

/-- **A block of the trace is found.** -/
theorem asked_of_traced {qsort : List InputExtent → List InputExtent} (hqsort : Sorts inputExtentCmp qsort)
    (h : OnPartition env input) (hload : loadBlocks env qsort true input = some iextents)
    (hb : b ∈ tracedBlocks env input) : asked iextents b = true := by
  have hperm := hqsort.perm ((accepted env input).map (scaleRange env))
  have hmerged := loadBlocks_eq hload
  -- as with memory for all requests
  obtain ⟨extents, hextents, hapart, hblocks⟩ := @loadBlocks_spec { env with grants := fun _ => true } input qsort
    (fun _ => rfl) hqsort ⟨h.scalable.ratio, h.scalable.small⟩
  obtain rfl : extents = iextents := (loadBlocks_eq hextents).trans hmerged.symm
  have hscaled : ∀ e' ∈ (accepted env input).map (scaleRange env), e'.block + e'.len < 2 ^ 30 := by
    intro e' he'
    obtain ⟨r, hr, rfl⟩ := List.mem_map.mp he'
    rw [h.accepted_eq] at hr
    exact h.scaled_lt hr
  have hend : ∀ e ∈ extents, e.block + e.len < 2 ^ 30 := by
    intro e he
    rcases Nat.eq_zero_or_pos e.len with hzero | hpos
    · rw [hmerged] at he
      obtain ⟨e', he', hblock⟩ := exists_block_of_mem_mergeExtents he
      have := hscaled e' (hperm.mem_iff.mp he')
      omega
    · have hlast : e.block + (e.len - 1) ∈ blocksOf extents := ⟨e, he, by omega, by omega⟩
      rw [hblocks] at hlast
      obtain ⟨e', he', hlo, hhi⟩ := hlast
      have := hscaled e' he'
      omega
  have hcount := hapart.length_le fun e he => Nat.le_of_lt_succ (hend e he)
  rw [h.mem_tracedBlocks] at hb
  obtain ⟨e, he, hlo, hhi⟩ : b ∈ blocksOf extents := hblocks ▸ hb
  obtain ⟨i, hlen, rfl⟩ := List.getElem_of_mem he
  obtain ⟨last, hlast⟩ : ∃ last, extents.length = last + 1 := ⟨extents.length - 1, by omega⟩
  have hin : Inside extents b i := by
    unfold Inside lo hi
    rw [getD_eq hlen]
    exact ⟨hlen, hlo, hhi⟩
  have hfound := findBlockLoop_found hapart (fun e he => (hend e he).trans (by decide)) hin (last + 1 + 1) 0 last
    (by omega) (Nat.zero_le _) (by omega) (by omega) (by omega)
  unfold asked
  rw [findBlock_eq hlast (by omega), hfound]

end Traced

/-! ## §4 — the pieces and their lines -/

section Pieces

variable {bmap : List MappedExtent} {pieces : List TimesPiece} {start : ℤ} {len firstIno : ℕ} {p : TimesPiece}
  {l : Line} {b : ℕ}

/-- A piece lies in its range. -/
theorem RangeRight.bounds (h : RangeRight bmap start len pieces) (hp : p ∈ pieces) :
    start ≤ p.blocknum ∧ p.blocknum + p.len ≤ start + len := by
  obtain ⟨hconsecutive, hsum, -⟩ := h
  induction pieces generalizing start len with
  | nil => cases hp
  | cons q pieces ih =>
      rw [List.map_cons, List.sum_cons] at hsum
      obtain ⟨hq, hrest⟩ := hconsecutive
      rcases List.mem_cons.mp hp with rfl | hp
      · omega
      · have := ih hp hrest rfl
        omega

theorem RangeRight.tail (h : RangeRight bmap start len (p :: pieces)) :
    p.blocknum = start ∧ p.len ≤ len ∧ PieceRight bmap p ∧
      RangeRight bmap (start + p.len) (len - p.len) pieces := by
  have hsum := h.sum_len
  rw [List.map_cons, List.sum_cons] at hsum
  exact ⟨h.consecutive.1, by omega, h.right p List.mem_cons_self, h.consecutive.2, by omega,
    fun q hq => h.right q (List.mem_cons_of_mem p hq)⟩

theorem mem_linesOf : l ∈ linesOf pieces ↔ ∃ p ∈ pieces, ∃ offset ino name,
    p.mapping = some (offset, ino, name) ∧ ∃ h : InRange32 p.blocknum p.len offset ino, l = lineOf h := by
  induction pieces with
  | nil => exact iff_of_false List.not_mem_nil fun ⟨p, hp, _⟩ => List.not_mem_nil hp
  | cons q pieces ih =>
      rw [linesOf, List.exists_mem_cons_iff, ← ih]
      cases hm : q.mapping with
      | none => simp
      | some m =>
          obtain ⟨offset, ino, name⟩ := m
          dsimp only
          split_ifs with h
          · rw [List.mem_cons]
            refine or_congr_left ⟨fun heq => ⟨offset, ino, name, rfl, h, heq⟩, ?_⟩
            rintro ⟨offset', ino', name', heq, h', rfl⟩
            cases heq
            rfl
          · refine (or_iff_right ?_).symm
            rintro ⟨offset', ino', name', heq, h', -⟩
            cases heq
            exact h h'

/-- A line is a part of a mapped extent. -/
structure LineOn (l : Line) (e : MappedExtent) : Prop where
  ino : l.ino = e.ino
  lo : e.block ≤ l.blocknr
  hi : l.blocknr + l.len ≤ e.block + e.len
  offset : l.offset = e.offset + (l.blocknr - e.block : ℕ)

theorem PieceRight.lineOn (h : PieceRight bmap p) {offset : ℤ} {ino : ℕ} {name : Option String}
    (hm : p.mapping = some (offset, ino, name)) (hin : InRange32 p.blocknum p.len offset ino) :
    ∃ e ∈ bmap, LineOn (lineOf hin) e := by
  unfold PieceRight at h
  rw [hm] at h
  obtain ⟨e, he, hlo, hhi, hmapping⟩ := h
  obtain ⟨rfl, hinode⟩ := Prod.mk.inj hmapping
  obtain ⟨rfl, -⟩ := Prod.mk.inj hinode
  obtain ⟨⟨hfirst, -⟩, -⟩ := hin
  refine ⟨e, he, Int.toNat_natCast _, ?_, ?_, ?_⟩
  · show e.block ≤ p.blocknum.toNat
    omega
  · show p.blocknum.toNat + (p.len : ℤ).toNat ≤ e.block + e.len
    omega
  · show e.offset + (p.blocknum - e.block) = e.offset + (p.blocknum.toNat - e.block : ℕ)
    omega

/-- A block of an extent of a good inode. -/
def listedIn (firstIno : ℕ) (bmap : List MappedExtent) (b : ℕ) : Bool :=
  bmap.any fun e => decide (firstIno ≤ e.ino ∧ e.block ≤ b ∧ b < e.block + e.len)

theorem listedIn_iff :
    listedIn firstIno bmap b = true ↔ ∃ e ∈ bmap, firstIno ≤ e.ino ∧ e.block ≤ b ∧ b < e.block + e.len := by
  unfold listedIn
  simp only [List.any_eq_true, decide_eq_true_eq]

/-- The blocks of a line are listed if its inode is good. -/
theorem LineOn.listedIn (htable : MappedTable bmap) {e : MappedExtent} (he : e ∈ bmap) (hl : LineOn l e)
    (hb : l.Lists b) : listedIn firstIno bmap b = true ↔ firstIno ≤ l.ino := by
  have hlo : l.blocknr ≤ b := hb.1
  have hhi : b < l.blocknr + l.len := hb.2
  have hstart := hl.lo
  have hend := hl.hi
  rw [listedIn_iff, hl.ino]
  constructor
  · rintro ⟨e', he', hgood, hlo', hhi'⟩
    have hsymm : Std.Symm fun a b : MappedExtent => a.block + a.len ≤ b.block ∨ b.block + b.len ≤ a.block :=
      ⟨fun _ _ h => h.symm⟩
    by_cases heq : e = e'
    · exact heq ▸ hgood
    · have := htable.disjoint.forall he he' heq
      omega
  · exact fun hgood => ⟨e, he, hgood, by omega, by omega⟩

/-- **The blocks of a range, as the lines have them**: those of the extents. -/
theorem RangeRight.wanted (htable : MappedTable bmap) (h : RangeRight bmap start len pieces) (hstart : 0 ≤ start)
    (hprintable : ∀ p ∈ pieces, p.Printable) :
    (linesOf pieces).flatMap (Line.wanted firstIno)
      = (List.range' start.toNat len).filter (Remap.listedIn firstIno bmap) := by
  induction pieces generalizing start len with
  | nil =>
      have hlen : len = 0 := h.sum_len.symm
      rw [hlen]
      rfl
  | cons p pieces ih =>
      obtain ⟨rfl, hle, hp, hrest⟩ := h.tail
      have hih := ih hrest (by omega) fun q hq => hprintable q (List.mem_cons_of_mem p hq)
      have hsplit : List.range' p.blocknum.toNat len
          = List.range' p.blocknum.toNat p.len ++ List.range' (p.blocknum + p.len).toNat (len - p.len) := by
        have hnext : (p.blocknum + p.len).toNat = p.blocknum.toNat + p.len := by omega
        rw [hnext, List.range'_append_1, Nat.add_sub_cancel' hle]
      rw [hsplit, List.filter_append, ← hih, linesOf]
      cases hm : p.mapping with
      | none =>
          -- no block of a gap is listed
          have hgap : (List.range' p.blocknum.toNat p.len).filter (Remap.listedIn firstIno bmap) = [] := by
            rw [List.filter_eq_nil_iff]
            intro b hb hlisted
            obtain ⟨e, he, -, hlo, hhi⟩ := listedIn_iff.mp hlisted
            obtain ⟨hfirst, hlast⟩ := List.mem_range'_1.mp hb
            unfold PieceRight at hp
            rw [hm] at hp
            have := hp e he
            omega
          rw [hgap]
          rfl
      | some m =>
          obtain ⟨offset, ino, name⟩ := m
          have hin : InRange32 p.blocknum p.len offset ino := (hprintable p List.mem_cons_self).inRange _ hm
          obtain ⟨e, he, hon⟩ := hp.lineOn hm hin
          dsimp only
          rw [dif_pos hin, List.flatMap_cons]
          congr 1
          have hblocks : (lineOf hin).blocks = List.range' p.blocknum.toNat p.len :=
            congrArg (List.range' p.blocknum.toNat) (Int.toNat_natCast p.len)
          have hlisted : ∀ b ∈ List.range' p.blocknum.toNat p.len,
              Remap.listedIn firstIno bmap b = true ↔ firstIno ≤ (lineOf hin).ino := by
            intro b hb
            rw [← hblocks, Piece.blocks] at hb
            exact hon.listedIn htable he (List.mem_range'_1.mp hb)
          unfold Line.wanted
          rw [hblocks]
          split_ifs with hgood
          · exact (List.filter_eq_self.mpr fun b hb => (hlisted b hb).mpr hgood).symm
          · exact (List.filter_eq_nil_iff.mpr fun b hb hmem => hgood ((hlisted b hb).mp hmem)).symm

end Pieces

/-! ## §5 — what is printed of a filesystem -/

/-- An indirect block that is reported lies in no run of data blocks: it would have ended the run. -/
theorem RunsOf.indirect_apart {ws : List Visit} {blocks : List BlockMap} (h : RunsOf ws blocks)
    (hordered : ws.Pairwise Visit.Before) (hcoded : ∀ w ∈ ws, w.Coded) {e : BlockMap} (he : e ∈ blocks)
    (hdata : 0 ≤ e.offset) {w : Visit} (hw : w ∈ ws) (hlevel : 0 < w.level) :
    (w.first : ℤ) ≤ e.offset ∨ e.offset + e.len ≤ w.first := by
  obtain ⟨pre, post, rfl⟩ := List.append_of_mem he
  obtain ⟨base, hbase⟩ : ∃ base, base = (pre.flatMap BlockMap.expand).length := ⟨_, rfl⟩
  have hvisit : ∀ i < e.len, ∃ u, ws[base + i]? = some u ∧ u.level = 0 ∧ (u.first : ℤ) = e.offset + i := by
    intro i hi
    have hentry : (ws.map Visit.entry)[base + i]? = some (e.block + i, e.offset + i) := by
      have hlen : i < e.expand.length := by
        unfold BlockMap.expand
        rw [List.length_map, List.length_range]
        exact hi
      rw [← h.expand, List.flatMap_append, List.flatMap_cons, hbase,
        List.getElem?_append_right (Nat.le_add_right _ _), Nat.add_sub_cancel_left, List.getElem?_append_left hlen,
        BlockMap.expand, List.getElem?_map, List.getElem?_range hi, Option.map_some]
    rw [List.getElem?_map] at hentry
    obtain ⟨u, hu, heq⟩ := Option.map_eq_some_iff.mp hentry
    have hcode : u.code = e.offset + i := congrArg Prod.snd heq
    rcases code_cases (hcoded u (List.mem_of_getElem? hu)) with ⟨hzero, hfirst⟩ | ⟨-, hneg, -⟩
    · exact ⟨u, hu, hzero, by omega⟩
    · omega
  by_contra hnot
  rw [not_or, not_le, not_le] at hnot
  -- the data blocks right before and at the offset of the indirect one
  obtain ⟨i, hi⟩ : ∃ i : ℕ, e.offset + i + 1 = w.first := ⟨(w.first - e.offset - 1).toNat, by omega⟩
  obtain ⟨u, hu, hulevel, hufirst⟩ := hvisit i (by omega)
  obtain ⟨u', hu', hulevel', hufirst'⟩ := hvisit (i + 1) (by omega)
  obtain ⟨k, hk, rfl⟩ := List.getElem_of_mem hw
  obtain ⟨hlt, rfl⟩ := List.getElem?_eq_some_iff.mp hu
  obtain ⟨hlt', rfl⟩ := List.getElem?_eq_some_iff.mp hu'
  rw [List.pairwise_iff_getElem] at hordered
  rcases Nat.lt_trichotomy k (base + i) with hbefore | rfl | hbehind
  · have := hordered k (base + i) hk hlt hbefore
    unfold Visit.Before at this
    omega
  · omega
  · rcases Nat.lt_or_ge k (base + (i + 1)) with hbefore' | hge
    · omega
    · rcases Nat.eq_or_lt_of_le hge with rfl | hbehind'
      · omega
      · have := hordered (base + (i + 1)) k hlt' hk hbehind'
        unfold Visit.Before at this
        omega

section Printed

variable {lib : Ext2fs g} {v : View g} {scan : List ScannedInode} {env : LoadEnv} {input : List InputRange}
  {iextents : List InputExtent} {blocks : ScannedInode → List BlockMap} {bmap : List MappedExtent}
  {printed : List (List TimesPiece)} {p : TimesPiece} {l : Line} {w : Visit} {n b firstIno : ℕ}

/-- A scan of the inodes, with files whose offsets the tool computes right. A regular file or a directory has
valid blocks. -/
structure Scannable (v : View g) (scan : List ScannedInode) : Prop where
  nodup : (scan.map ScannedInode.inum).Nodup
  inum_lt : ∀ i ∈ scan, i.inum < 2 ^ 32
  valid : ∀ i ∈ scan, i.linksCount ≠ 0 → i.regOrDir = true → HasValidBlocks v i.inum
  offsets : ∀ i ∈ scan, i.visits v ≠ [] → FirstsFit (v.fileTree i.inum) ∧ IndicesSettled (v.fileTree i.inum)

/-- The extents of a filesystem, and the pieces printed for the ranges. -/
structure Printed (v : View g) (scan : List ScannedInode) (env : LoadEnv) (input : List InputRange)
    (iextents : List InputExtent) (blocks : ScannedInode → List BlockMap) (bmap : List MappedExtent)
    (printed : List (List TimesPiece)) : Prop where
  mapsTo : MapsTo v (asked iextents) scan blocks bmap
  table : MappedTable bmap
  ranges : List.Forall₂ (fun range pieces => RangeRight bmap range.1 range.2 pieces)
    (input.map (timesRange env)) printed

/-- What a run of e2block2file prints. -/
theorem e2block2file_printed (hlib : lib.Documented) {reserved : Set ℕ} {used : ℕ → Bool}
    (hwf : WellFormed reserved v used) (hscan : Scannable v scan) (hinput : OnPartition env input)
    (hsmall : g.sBlocksCount ≤ 2 ^ 30)
    {sortInput : List InputExtent → List InputExtent} {sortMap : List MappedExtent → List MappedExtent}
    (hsort : Sorts blockMapCmp sortMap) {text : List Char}
    (hrun : e2block2file lib env sortInput sortMap v scan input = some text) :
    ∃ iextents blocks bmap printed, loadBlocks env sortInput true input = some iextents ∧
      Printed v scan env input iextents blocks bmap printed ∧ text = timesText printed := by
  unfold e2block2file at hrun
  split at hrun
  · split at hrun
    · cases hrun
    · next iextents hload =>
    split at hrun
    · cases hrun
    · next bmap hmap =>
      have hright : ∀ i ∈ scan, i.visits v ≠ [] → FileRight (v.fileTree i.inum) := fun i hi hne =>
        (fileRight_iff g.addrPerBlock_pos _).mpr (hscan.offsets i hi hne)
      have htraversable : ∀ i ∈ scan, i.linksCount ≠ 0 → i.regOrDir = true → Traversable v i.inum :=
        fun i hi hlinks hfile => hwf.traversable (hscan.valid i hi hlinks hfile)
      obtain ⟨blocks, hmaps⟩ := mapBlocks_spec hlib hscan.nodup htraversable hright hmap
      have htable := hmaps.mappedTable hwf hscan.nodup (hsmall.trans (by decide))
      have hranges : ∀ range ∈ input.map (timesRange env), 0 ≤ range.1 ∧ range.1 < 2 ^ 31 := by
        intro range hr
        obtain ⟨r, hr', rfl⟩ := List.mem_map.mp hr
        have hlast : r.first env / env.ratio < 2 ^ 31 :=
          Nat.lt_of_le_of_lt (Nat.le_add_right _ _) ((hinput.last_lt hr').trans (by decide))
        rw [hinput.timesRange_eq hr']
        exact ⟨Int.natCast_nonneg _, Int.ofNat_lt.mpr hlast⟩
      -- there are no more extents than blocks
      have hcount : (sortMap bmap).length ≤ 2 ^ 30 := by
        have hsorted := htable.sortedMap hsort
        have hapart : (sortMap bmap).Pairwise fun a b => a.block + a.len ≤ b.block :=
          List.pairwise_map.mp hsorted.sorted.apart
        have hlen := length_le_of_apart (Nat.zero_le (2 ^ 30)) hapart fun e he =>
          have he := (hsort.perm bmap).mem_iff.mp he
          ⟨hmaps.pos he, Nat.zero_le _, (hmaps.lt_blocksCount hwf he).trans hsmall⟩
        omega
      have htimes := (timesRight_iff htable hsort hranges).mpr fun range _ => .inr (.inl hcount)
      obtain ⟨printed, hprinted, hall⟩ := htimes
      have hdump : dumpTimes env sortMap bmap input = .ok printed := hprinted
      rw [hdump] at hrun
      cases hrun
      exact ⟨iextents, blocks, bmap, printed, hload, ⟨hmaps, htable, hall⟩, rfl⟩
  · cases hrun

/-- A piece is one of a range. -/
theorem Printed.piece (h : Printed v scan env input iextents blocks bmap printed) (hp : p ∈ printed.flatten) :
    ∃ r ∈ input, ∃ pieces, p ∈ pieces ∧ RangeRight bmap (timesRange env r).1 (timesRange env r).2 pieces := by
  have hranges := h.ranges
  clear h
  induction input generalizing printed with
  | nil =>
      rw [List.map_nil, List.forall₂_nil_left_iff] at hranges
      rw [hranges] at hp
      cases hp
  | cons r input ih =>
      rw [List.map_cons, List.forall₂_cons_left_iff] at hranges
      obtain ⟨pieces, rest, hpieces, hrest, rfl⟩ := hranges
      rw [List.flatten_cons] at hp
      rcases List.mem_append.mp hp with hp | hp
      · exact ⟨r, List.mem_cons_self, pieces, hp, hpieces⟩
      · obtain ⟨r', hr', hpiece⟩ := ih hp hrest
        exact ⟨r', List.mem_cons_of_mem r hr', hpiece⟩

/-- The codes of a file are well within the numbers of 64 bits. -/
theorem code_bounds (hw : w ∈ (v.fileTree n).visits) : -2 ^ 62 ≤ w.code ∧ w.code < 2 ^ 62 := by
  have htree := g.tree_lt
  have ha := g.addrPerBlock_pos
  have hsmall : g.addrPerBlock < 2 ^ 16 := by
    by_contra hge
    have hsquare := Nat.mul_le_mul (Nat.le_of_not_lt hge) (Nat.le_of_not_lt hge)
    omega
  have hcube : g.addrPerBlock ^ 3 < 2 ^ 48 := calc
    g.addrPerBlock ^ 3 < (2 ^ 16) ^ 3 := Nat.pow_lt_pow_left hsmall (by decide)
    _ = 2 ^ 48 := by norm_num
  have hsquare : g.addrPerBlock ^ 2 = g.addrPerBlock * g.addrPerBlock := Nat.pow_two _
  have hone : g.addrPerBlock ^ 1 = g.addrPerBlock := Nat.pow_one _
  have hzero : g.addrPerBlock ^ 0 = 1 := Nat.pow_zero _
  have hfirst : w.first < 2 ^ 49 ∧ w.level ≤ 3 := by
    unfold FileTree.visits at hw
    rw [List.mem_append, List.mem_append, List.mem_append, List.mem_flatMap] at hw
    rcases hw with ((⟨i, -, hw⟩ | hw) | hw) | hw <;> obtain ⟨hle, hlt, hlevel⟩ := mem_visits ha hw
    · exact ⟨by omega, by omega⟩
    · exact ⟨by omega, by omega⟩
    · exact ⟨by omega, by omega⟩
    · exact ⟨by omega, by omega⟩
  unfold Visit.code indirectToOff
  split_ifs <;> omega

variable {reserved : Set ℕ} {used : ℕ → Bool}

/-- A line of the output is a part of an extent, and of a range. -/
theorem Printed.lineOn (h : Printed v scan env input iextents blocks bmap printed)
    (hl : l ∈ linesOf printed.flatten) :
    (∃ e ∈ bmap, LineOn l e) ∧ ∃ r ∈ input, l.len ≤ (timesRange env r).2 := by
  obtain ⟨p, hp, offset, ino, name, hm, hin, rfl⟩ := mem_linesOf.mp hl
  obtain ⟨r, hr, pieces, hmem, hright⟩ := h.piece hp
  refine ⟨(hright.right p hmem).lineOn hm hin, r, hr, ?_⟩
  have hbounds := hright.bounds hmem
  show (p.len : ℤ).toNat ≤ (timesRange env r).2
  omega

/-- **Everything printed can be read.** -/
theorem Printed.printable (h : Printed v scan env input iextents blocks bmap printed)
    (hwf : WellFormed reserved v used) (hscan : Scannable v scan) (hinput : OnPartition env input)
    (hsmall : g.sBlocksCount ≤ 2 ^ 30) (hp : p ∈ printed.flatten) : p.Printable := by
  obtain ⟨r, hr, pieces, hmem, hright⟩ := h.piece hp
  obtain ⟨hfirst, hlast⟩ := hright.bounds hmem
  have hrange := hinput.last r hr
  have hstart : 0 ≤ (timesRange env r).1 := by
    rw [hinput.timesRange_eq hr]
    exact Int.natCast_nonneg _
  have hpiece := hright.right p hmem
  unfold PieceRight at hpiece
  refine ⟨fun m hm => ?_, fun m hm => ?_, by omega, by omega⟩
  · rw [hm] at hpiece
    obtain ⟨e, he, -, -, rfl⟩ := hpiece
    obtain ⟨i, -, -, hname, -⟩ := h.mapsTo.exists_run he
    exact hname
  · rw [hm] at hpiece
    obtain ⟨e, he, hlo, hhi, rfl⟩ := hpiece
    obtain ⟨i, hi, hino, hmapped⟩ := h.mapsTo.mapped he
    have hinum := hscan.inum_lt i hi
    refine ⟨⟨by omega, by omega, by omega⟩, ?_, by dsimp only; omega, by dsimp only; omega⟩
    -- the offset is that of a block of the file, or of the end of its extent
    have hpos := h.mapsTo.pos he
    obtain ⟨w, hw, -, hcode, -⟩ := hmapped (min (p.blocknum - e.block).toNat (e.len - 1)) (by omega)
    have hbounds := code_bounds (ScannedInode.mem_visits hw).2
    have hlen := (h.mapsTo.lt_blocksCount hwf he).trans hsmall
    dsimp only
    omega

/-- The blocks of extents are those of files that were asked for. -/
theorem Printed.listedIn_iff (h : Printed v scan env input iextents blocks bmap printed) :
    listedIn firstIno bmap b = true ↔ asked iextents b = true ∧ inGoodFile firstIno v scan b = true := by
  rw [Remap.listedIn_iff, inGoodFile_iff]
  constructor
  · rintro ⟨e, he, hgood, hlo, hhi⟩
    obtain ⟨i, hi, hino, hmapped⟩ := h.mapsTo.mapped he
    obtain ⟨w, hw, hasked, -, hblock⟩ := hmapped (b - e.block) (by omega)
    have hb : w.blocknr = b := by omega
    exact ⟨hb ▸ hasked, i, hi, hino ▸ hgood, w, hw, hb⟩
  · rintro ⟨hasked, i, hi, hgood, w, hw, rfl⟩
    have hentry : w.entry ∈ ((i.visits v).filter fun w => asked iextents w.blocknr).map Visit.entry :=
      List.mem_map_of_mem (List.mem_filter.mpr ⟨hw, hasked⟩)
    rw [← (h.mapsTo.runs i hi).expand, List.mem_flatMap] at hentry
    obtain ⟨run, hrun, hexpand⟩ := hentry
    obtain ⟨j, hj, heq⟩ := List.mem_map.mp hexpand
    have hblock : run.block + j = w.blocknr := congrArg Prod.fst heq
    have hlen := List.mem_range.mp hj
    refine ⟨⟨run.block, run.len, run.offset, i.inum, none⟩, ?_, hgood, by dsimp only; omega, by dsimp only; omega⟩
    rw [h.mapsTo.eq, List.mem_flatMap]
    exact ⟨i, hi, List.mem_map.mpr ⟨run, hrun, rfl⟩⟩

theorem linesOf_append (pieces pieces' : List TimesPiece) :
    linesOf (pieces ++ pieces') = linesOf pieces ++ linesOf pieces' := by
  induction pieces with
  | nil => rfl
  | cons p pieces ih =>
      rw [List.cons_append, linesOf, linesOf, ih]
      cases p.mapping with
      | none => rfl
      | some m =>
          dsimp only
          split_ifs <;> rfl

/-- The blocks of all lines, in order. -/
theorem Printed.flatMap_wanted (h : Printed v scan env input iextents blocks bmap printed)
    (hinput : OnPartition env input) (hprintable : ∀ p ∈ printed.flatten, p.Printable) :
    (linesOf printed.flatten).flatMap (Line.wanted firstIno)
      = (tracedBlocks env input).filter (listedIn firstIno bmap) := by
  have htable := h.table
  have hranges := h.ranges
  have hstart : ∀ r ∈ input, 0 ≤ (timesRange env r).1 := by
    intro r hr
    rw [hinput.timesRange_eq hr]
    exact Int.natCast_nonneg _
  clear h hinput
  unfold tracedBlocks
  induction input generalizing printed with
  | nil =>
      rw [List.map_nil, List.forall₂_nil_left_iff] at hranges
      rw [hranges]
      rfl
  | cons r input ih =>
      rw [List.map_cons, List.forall₂_cons_left_iff] at hranges
      obtain ⟨pieces, rest, hpieces, hrest, rfl⟩ := hranges
      rw [List.flatten_cons] at hprintable ⊢
      have hih := ih (fun p hp => hprintable p (List.mem_append_right _ hp)) hrest
        fun r hr => hstart r (List.mem_cons_of_mem _ hr)
      have hfirst : (linesOf pieces).flatMap (Line.wanted firstIno)
          = (List.range' (timesRange env r).1.toNat (timesRange env r).2).filter (listedIn firstIno bmap) :=
        hpieces.wanted htable (hstart r List.mem_cons_self) fun p hp => hprintable p (List.mem_append_left _ hp)
      rw [linesOf_append, List.flatMap_append, hfirst, hih, List.map_cons, List.flatMap_cons, List.filter_append]

/-- **The lines list the blocks in the order of accesses.** -/
theorem Printed.wantedBlocks_eq (h : Printed v scan env input iextents blocks bmap printed)
    (hinput : OnPartition env input) (hprintable : ∀ p ∈ printed.flatten, p.Printable)
    (hasked : ∀ b ∈ tracedBlocks env input, asked iextents b = true) :
    wantedBlocks firstIno (linesOf printed.flatten) = accessOrder firstIno env v scan input := by
  unfold Remap.wantedBlocks accessOrder
  rw [h.flatMap_wanted hinput hprintable]
  refine congrArg List.eraseDups (List.filter_congr fun b hb => ?_)
  rw [Bool.eq_iff_iff, h.listedIn_iff, and_iff_right (hasked b hb)]

end Printed

/-! ## §6 — both programs -/

section Both

variable {lib : Ext2fs g} {v : View g} {scan : List ScannedInode} {env : LoadEnv} {input : List InputRange}
  {iextents : List InputExtent} {blocks : ScannedInode → List BlockMap} {bmap : List MappedExtent}
  {printed : List (List TimesPiece)} {n : ℕ} [NeZero n] {s : RemapSettings n}

/-- e2remapblocks can work with the lines of e2block2file: it has the same inodes, and a buffer for every range,
and loads the lines to their end. -/
structure Remappable (s : RemapSettings n) (env : LoadEnv) (scan : List ScannedInode) (input : List InputRange)
    (lines : List Line) : Prop where
  links : ∀ i ∈ scan, s.linksCount i.inum = i.linksCount
  buffer : ∀ r ∈ input, (timesRange env r).2 ≤ s.remapBuf.blocks
  loads : ∀ pre l post, lines = pre ++ l :: post →
    ¬ ReachesFirst s.firstIno pre l ∧ ¬ AddsLost s.inodeMemory s.firstIno pre l

/-- **The lines of e2block2file say where blocks of files are.** -/
theorem Printed.described (h : Printed v scan env input iextents blocks bmap printed) (hscan : Scannable v scan)
    (hlines : Remappable s env scan input (linesOf printed.flatten))
    (hne : wantedBlocks s.firstIno (linesOf printed.flatten) ≠ []) :
    Described s (linesOf printed.flatten) v := by
  -- a line of an indirect block is its extent
  have hindirect : ∀ l e, e ∈ bmap → LineOn l e → 0 < l.len → (l.offset < 0 ↔ e.offset < 0) ∧
      (e.offset < 0 → l.len = 1 ∧ l.offset = e.offset ∧ e.len = 1) := by
    intro l e he hon hpos
    obtain ⟨i, hi, -, -, hrun⟩ := h.mapsTo.exists_run he
    have hsingle := (h.mapsTo.runs i hi).single _ hrun
    have hone : e.offset < 0 → e.len = 1 := hsingle
    have hlo := hon.lo
    have hhi := hon.hi
    have hoffset := hon.offset
    refine ⟨⟨fun hneg => by omega, fun hneg => ?_⟩, fun hneg => ?_⟩
    · have := hone hneg
      omega
    · have := hone hneg
      omega
  have hmet : ∀ l e, e ∈ bmap → LineOn l e → 0 < l.len → ∃ i ∈ scan, l.ino = i.inum ∧ i.visits v ≠ [] := by
    intro l e he hon hpos
    obtain ⟨i, hi, hino, hmapped⟩ := h.mapsTo.mapped he
    obtain ⟨w, hw, -⟩ := hmapped 0 (h.mapsTo.pos he)
    exact ⟨i, hi, hon.ino.trans hino, List.ne_nil_of_mem hw⟩
  refine ⟨hlines.loads, ?_, ?_, ?_, ?_, ?_, ?_, ?_⟩
  · obtain ⟨b, hb⟩ := List.exists_mem_of_ne_nil _ hne
    obtain ⟨l, hl, hgood, hlists⟩ := mem_wantedBlocks.mp hb
    have hlo : l.blocknr ≤ b := hlists.1
    have hhi : b < l.blocknr + l.len := hlists.2
    exact ⟨l, hl, hgood, by omega⟩
  · intro l hl hcounts j hj
    obtain ⟨⟨e, he, hon⟩, -⟩ := h.lineOn hl
    obtain ⟨i, hi, hino, hmapped⟩ := h.mapsTo.mapped he
    have hlo := hon.lo
    have hhi := hon.hi
    obtain ⟨w, hw, -, hcode, hblock⟩ := hmapped (l.blocknr - e.block + j) (by omega)
    have hw := (ScannedInode.mem_visits hw).2
    rw [← hino, ← hon.ino] at hw
    have hoffset := hon.offset
    exact ⟨w, hw, by omega, by omega⟩
  · intro l hl hcounts hneg
    obtain ⟨⟨e, he, hon⟩, -⟩ := h.lineOn hl
    obtain ⟨hiff, hone⟩ := hindirect l e he hon hcounts.2
    exact (hone (hiff.mp hneg)).1
  · intro l hl l' hl' hcounts hcounts' hino hdata hneg
    obtain ⟨⟨e, he, hon⟩, -⟩ := h.lineOn hl
    obtain ⟨⟨e', he', hon'⟩, -⟩ := h.lineOn hl'
    obtain ⟨hiff, -⟩ := hindirect l e he hon hcounts.2
    obtain ⟨hiff', hone'⟩ := hindirect l' e' he' hon' hcounts'.2
    obtain ⟨-, heq, -⟩ := hone' (hiff'.mp hneg)
    obtain ⟨i, hi, hino₁, -, hrun⟩ := h.mapsTo.exists_run he
    obtain ⟨i', hi', hino₂, hmapped⟩ := h.mapsTo.mapped he'
    have hnumbers : i.inum = i'.inum := by
      rw [← hino₁, ← hino₂, ← hon.ino, ← hon'.ino]
      exact hino
    obtain rfl : i = i' := List.inj_on_of_nodup_map hscan.nodup hi hi' hnumbers
    obtain ⟨w, hw, hasked, hcode, -⟩ := hmapped 0 (h.mapsTo.pos he')
    have hcoded : ∀ u ∈ (i.visits v).filter fun u => asked iextents u.blocknr, u.Coded := fun u hu =>
      file_visits_coded g.addrPerBlock_pos (ScannedInode.mem_visits (List.mem_filter.mp hu).1).2
    have hmem : w ∈ (i.visits v).filter fun u => asked iextents u.blocknr := List.mem_filter.mpr ⟨hw, hasked⟩
    have hordered : ((i.visits v).filter fun u => asked iextents u.blocknr).Pairwise Visit.Before := by
      refine List.Pairwise.sublist List.filter_sublist ?_
      unfold ScannedInode.visits
      split_ifs
      · exact List.Pairwise.nil
      · exact file_visits_ordered g.addrPerBlock_pos (v.fileTree i.inum)
    rcases code_cases (hcoded w hmem) with ⟨-, hfirst⟩ | ⟨hlevel, -, hfirst⟩
    · have hneg' := hiff'.mp hneg
      omega
    · have hapart := (h.mapsTo.runs i hi).indirect_apart hordered hcoded hrun (by dsimp only; omega) hmem hlevel
      have hlo := hon.lo
      have hhi := hon.hi
      have hoffset := hon.offset
      have hcode' : w.code = l'.offset := by omega
      rw [hcode'] at hfirst
      dsimp only at hapart
      omega
  · intro l hl hcounts
    obtain ⟨⟨e, he, hon⟩, -⟩ := h.lineOn hl
    obtain ⟨i, hi, hino, hvisits⟩ := hmet l e he hon hcounts.2
    exact hino ▸ hscan.offsets i hi hvisits
  · intro l hl hcounts
    obtain ⟨⟨e, he, hon⟩, -⟩ := h.lineOn hl
    obtain ⟨i, hi, hino, hvisits⟩ := hmet l e he hon hcounts.2
    obtain ⟨w, hw⟩ := List.exists_mem_of_ne_nil _ hvisits
    rw [hino, hlines.links i hi]
    exact (ScannedInode.mem_visits hw).1
  · intro l hl hcounts
    obtain ⟨-, r, hr, hlen⟩ := h.lineOn hl
    exact hlen.trans (hlines.buffer r hr)

/-- **The blocks of files in the order of a trace.** What e2block2file prints for a trace is read by
e2remapblocks, both with a library that does as is documented. Then every file reads as before, and the block of
files that comes `k`-th in the trace is moved to the `k`-th of the free blocks; no other block is moved, and the
filesystem is well-formed with its free blocks counted. -/
theorem reorder_by_access (hlib : lib.Documented) (hblocks : g.sBlocksCount + 7 ≤ 2 ^ 32) {reserved : Set ℕ}
    {fs : FsBitmap} (hwf : WellFormed reserved v fs.blockMap) (hsmall : g.sBlocksCount ≤ 2 ^ 30)
    (hscan : Scannable v scan) (hinput : OnPartition env input)
    {sortInput : List InputExtent → List InputExtent} (hsortInput : Sorts inputExtentCmp sortInput)
    {sortMap : List MappedExtent → List MappedExtent} (hsortMap : Sorts blockMapCmp sortMap)
    (hq : Sorts cmpExtOffsetPtr s.qsort) {text : List Char}
    (hrun : e2block2file lib env sortInput sortMap v scan input = some text)
    (hlines : ∀ lines, readInput text = some lines → Remappable s env scan input lines)
    (hne : accessOrder s.firstIno env v scan input ≠ []) {exts : List FreeExtent}
    (hfind : findFreeBlocks (blockBitmap hblocks fs) (accessOrder s.firstIno env v scan input).length
      s.minFreeExtentSize s.findEnv = .returned exts)
    (hright : Right (blockBitmap hblocks fs) (accessOrder s.firstIno env v scan input).length exts)
    (hgroups : ∀ b ∈ accessOrder s.firstIno env v scan input ++ freeBlocks exts, b < groupEnd g b) :
    ∃ lines fuel v' fs', readInput text = some lines ∧
      e2remapblocks lib hblocks fuel s lines v fs = some (v', fs') ∧
      (∀ i k, v'.readBlock i k = v.readBlock i k) ∧
      (∀ p (k : ℕ), (accessOrder s.firstIno env v scan input)[k]? = some (v.ref p) →
        (freeBlocks exts)[k]? = some (v'.ref p)) ∧
      (∀ p, v.ref p ∉ accessOrder s.firstIno env v scan input → v'.ref p = v.ref p) ∧
      WellFormed reserved v' fs'.blockMap ∧ ∀ grp, Counted g fs grp → Counted g fs' grp := by
  obtain ⟨iextents, blocks, bmap, printed, hload, hprinted, rfl⟩ :=
    e2block2file_printed hlib hwf hscan hinput hsmall hsortMap hrun
  have hprintable : ∀ p ∈ printed.flatten, p.Printable := fun p hp =>
    hprinted.printable hwf hscan hinput hsmall hp
  have hread := readInput_timesText hprintable
  have hwanted : wantedBlocks s.firstIno (linesOf printed.flatten) = accessOrder s.firstIno env v scan input :=
    hprinted.wantedBlocks_eq hinput hprintable fun b hb => asked_of_traced hsortInput hinput hload hb
  rw [← hwanted] at hne hfind hright hgroups ⊢
  have hdescribed := hprinted.described hscan (hlines _ hread) hne
  obtain ⟨F, rfl⟩ := hright.freeExtents (findFreeBlocks_pos hdescribed.wanted_pos hfind hright)
  have hcount := hdescribed.blocks_pos hwf
  obtain ⟨fuel, v', fs', hall⟩ := hdescribed.remap hlib hblocks hwf hq hfind
    (fun f hf b hlo hhi => hright.inBlockMap hcount hf hlo hhi) hgroups
  exact ⟨_, fuel, v', fs', hread, hall⟩

end Both

/-! ## §7 — the blocks of a file, read in the order of the file -/

section Sample

def swappedScan : List ScannedInode := [⟨11, 1, true⟩]

/-- In sectors of 512 bytes. -/
def swappedTrace : List InputRange := [⟨50, 2⟩, ⟨46, 2⟩]

def swappedText : List Char :=
  ['2', '5', '+', '1', ' ', '0', ' ', 'I', 'N', 'O', ' ', '1', '1', '\n',
   '2', '3', '+', '1', ' ', '1', ' ', 'I', 'N', 'O', ' ', '1', '1', '\n']

theorem swapped_loaded :
    loadBlocks (sampleLoadEnv 1024) (attachSort inputExtentCmp) true swappedTrace = some [⟨23, 1⟩, ⟨25, 1⟩] := by
  show some (mergeOverlapping (attachSort inputExtentCmp [⟨25, 1⟩, ⟨23, 1⟩])) = _
  rw [attachSort_pair]
  decide

theorem swapped_traversable : Traversable swappedView 11 :=
  swapped_wellFormed.traversable ⟨_, rfl, rfl⟩

/-- The calls for the file are those for two direct blocks. -/
theorem swapped_look :
    (storeCallback 256 [⟨23, 1⟩, ⟨25, 1⟩]).look {} (fileCalls swappedView 11 false)
      = some { blocks := [⟨25, 1, 0⟩, ⟨23, 1, 1⟩] } := by
  have hcalls := fileCalls_callFor swappedView 11
  have hvisits : (swappedView.fileTree 11).visits = [⟨25, 0, 0, 0⟩, ⟨23, 0, 1, 1⟩] := by decide
  rw [hvisits] at hcalls
  generalize fileCalls swappedView 11 false = calls at hcalls ⊢
  obtain _ | @⟨⟨_, _, refBlk, _⟩, _, _, _, ⟨rfl, rfl, rfl⟩, hcalls⟩ := hcalls
  obtain _ | @⟨⟨_, _, refBlk', _⟩, _, _, _, ⟨rfl, rfl, rfl⟩, ⟨⟩⟩ := hcalls
  rfl

theorem swapped_mapped :
    mapBlocks (documentedExt2fs roomyGeometry) swappedView [⟨23, 1⟩, ⟨25, 1⟩] swappedScan
      = some [⟨25, 1, 0, 11, none⟩, ⟨23, 1, 1, 11, none⟩] := by
  have hiterate : (documentedExt2fs roomyGeometry).blockIterate {} (storeCallback 256 [⟨23, 1⟩, ⟨25, 1⟩])
      swappedView 11 {} = _ :=
    documentedExt2fs_documented.looks swapped_traversable (storeCallback_looksOnly 256)
  have hfile : mapFile (documentedExt2fs roomyGeometry) swappedView [⟨23, 1⟩, ⟨25, 1⟩] 11
      = some [⟨25, 1, 0⟩, ⟨23, 1, 1⟩] := by
    unfold mapFile
    rw [show roomyGeometry.addrPerBlock = 256 from rfl, hiterate, swapped_look]
    rfl
  have hinode : mapInode (documentedExt2fs roomyGeometry) swappedView [⟨23, 1⟩, ⟨25, 1⟩] ⟨11, 1, true⟩
      = some [⟨25, 1, 0, 11, none⟩, ⟨23, 1, 1, 11, none⟩] := by
    rw [mapInode, if_neg (by decide), hfile]
    rfl
  rw [mapBlocks, swappedScan, List.mapM_cons, hinode]
  rfl

theorem swapped_dumped :
    dumpTimes (sampleLoadEnv 1024) (attachSort blockMapCmp) [⟨25, 1, 0, 11, none⟩, ⟨23, 1, 1, 11, none⟩] swappedTrace
      = .ok [[⟨25, 1, some (0, 11, none)⟩], [⟨23, 1, some (1, 11, none)⟩]] := by
  unfold dumpTimes
  rw [attachSort_pair]
  rfl

theorem swapped_printed :
    e2block2file (documentedExt2fs roomyGeometry) (sampleLoadEnv 1024) (attachSort inputExtentCmp)
      (attachSort blockMapCmp) swappedView swappedScan swappedTrace = some swappedText := by
  unfold e2block2file
  rw [if_pos (by decide), swapped_loaded]
  dsimp only
  rw [swapped_mapped]
  dsimp only
  rw [swapped_dumped]
  rfl

theorem swapped_order :
    wantedBlocks 11 swappedLines = accessOrder 11 (sampleLoadEnv 1024) swappedView swappedScan swappedTrace := by
  decide

theorem swapped_scannable : Scannable swappedView swappedScan where
  nodup := List.nodup_singleton 11
  inum_lt i hi := by
    rw [List.mem_singleton.mp hi]
    decide
  valid i hi _ _ := by
    rw [List.mem_singleton.mp hi]
    exact swapped_traversable.valid
  offsets i hi _ := by
    rw [List.mem_singleton.mp hi]
    exact swapped_offsets

theorem swapped_onPartition : OnPartition (sampleLoadEnv 1024) swappedTrace where
  ratio := ⟨1, by decide, rfl⟩
  first := by decide
  last := by decide

theorem swapped_remappable (lines : List Line) (hread : readInput swappedText = some lines) :
    Remappable swappedSettings (sampleLoadEnv 1024) swappedScan swappedTrace lines := by
  have hlines : readInput swappedText = some swappedLines := rfl
  obtain rfl : swappedLines = lines := Option.some.inj (hlines.symm.trans hread)
  refine ⟨fun i hi => ?_, by decide, swapped_described.loads⟩
  rw [List.mem_singleton.mp hi]
  rfl

theorem reorder_by_access_swapped :
    ∃ lines fuel v' fs', readInput swappedText = some lines ∧
      e2remapblocks (documentedExt2fs roomyGeometry) roomyGeometry_blocks fuel swappedSettings lines swappedView
          swappedBitmap = some (v', fs') ∧
      (∀ i k, v'.readBlock i k = swappedView.readBlock i k) ∧
      (∀ p (k : ℕ), (accessOrder 11 (sampleLoadEnv 1024) swappedView swappedScan swappedTrace)[k]?
        = some (swappedView.ref p) → (freeBlocks [⟨32, 2, 0⟩])[k]? = some (v'.ref p)) ∧
      (∀ p, swappedView.ref p ∉ accessOrder 11 (sampleLoadEnv 1024) swappedView swappedScan swappedTrace →
        v'.ref p = swappedView.ref p) ∧
      WellFormed roomyReserved v' fs'.blockMap ∧
      ∀ grp, Counted roomyGeometry swappedBitmap grp → Counted roomyGeometry fs' grp :=
  reorder_by_access documentedExt2fs_documented roomyGeometry_blocks swapped_wellFormed (by decide)
    swapped_scannable swapped_onPartition (attachSort_sorts inputExtentCmp) (attachSort_sorts blockMapCmp)
    (attachSort_sorts cmpExtOffsetPtr) swapped_printed swapped_remappable (by decide)
    (swapped_order ▸ swapped_found) (swapped_order ▸ swapped_right) (by decide)

end Sample

end Prefetch.Remap

/-
# Prefetch.Trace.Merge — sorting and merging a trace (`prefetch-process-trace.cpp`)

`trace_file_data_sorted_sum` sorts the records with `trace_cmp` and then runs `trace_merge`, an
in-place fold: `current` is an iterator into the container being read, the merged record is written
back through it, and finished records go to a second container that is swapped in at the end.

§1 and §2 follow the source. §3 reads the fold as a pass over the list of records still to come and
§4 maps that pass onto the span merge of `Prefetch.Lib.SpanMerge`, where a record that does not wrap
is the span `[range_start, range_start + range_length)` filed under its device and inode and tagged
with its index. §5 states the law of the whole operation.
-/
import Prefetch.Lib.SpanMerge
import Prefetch.Trace.Record
import Mathlib.Data.List.FinRange

namespace Prefetch

open SpanMerge

variable {w : ℕ}

/-! ## §1 — records with their index -/

/-- `record_data_t`: a record and its position in the traces read. -/
structure RecordData (w : ℕ) where
  record : PrefetchTraceRecord w
  index : ℤ
  deriving DecidableEq, Repr

/-- `trace_record_cmp::operator()`, the order given to `std::sort`; the index is ignored. -/
def traceRecordCmp (t1 t2 : RecordData w) : Bool := traceCmp t1.record t2.record < 0

/-- `ranges_overlap`: true if the ranges overlap or are subsequent. -/
def rangesOverlap (start1 len1 start2 len2 : BitVec w) : Bool :=
  if start1 + len1 < start2 then false
  else if start2 + len2 < start1 then false
  else true

/-! ## §2 — the in-place fold -/

/-- `std::min` and `std::max` on `pgoff_t`. -/
def minPgoff (a b : BitVec w) : BitVec w := if b < a then b else a
def maxPgoff (a b : BitVec w) : BitVec w := if a < b then b else a

/-- `new_data` of `trace_merge`: the record written over `*current` when `*it` is merged into it. -/
def mergedData (current it : RecordData w) : RecordData w :=
  let r1 := current.record
  let r2 := it.record
  let rangeStart := minPgoff r1.rangeStart r2.rangeStart
  let maxEnd := maxPgoff (r1.rangeStart + r1.rangeLength) (r2.rangeStart + r2.rangeLength)
  { index := min it.index current.index
    record :=
      { device := r1.device
        inodeNo := r1.inodeNo
        rangeStart := rangeStart
        rangeLength := maxEnd - rangeStart } }

/-- Whether `trace_merge` keeps `*it` apart from `*current`. -/
def separateRecords (current it : RecordData w) : Bool :=
  let r1 := current.record
  let r2 := it.record
  r1.device != r2.device || r1.inodeNo != r2.inodeNo
    || !rangesOverlap r1.rangeStart r1.rangeLength r2.rangeStart r2.rangeLength

/-- The locals of `trace_merge` over a container of `n` records. The iterator `current` is `none`
while it equals `end`. -/
structure MergeState (w n : ℕ) where
  container : Fin n → RecordData w
  output : List (RecordData w)
  current : Option (Fin n)

/-- One iteration of the loop of `trace_merge`. -/
def mergeStep {n : ℕ} (s : MergeState w n) (it : Fin n) : MergeState w n :=
  match s.current with
  | none => { s with current := some it }
  | some current =>
      if separateRecords (s.container current) (s.container it) then
        { s with output := s.output ++ [s.container current], current := some it }
      else
        let newData := mergedData (s.container current) (s.container it)
        { s with container := Function.update s.container current newData }

/-- The end of `trace_merge`: the record in hand is added, and `output` replaces the container. -/
def mergeFinish {n : ℕ} (s : MergeState w n) : List (RecordData w) :=
  match s.current with
  | none => s.output
  | some current => s.output ++ [s.container current]

/-- `trace_merge` over the whole container. -/
def traceMerge (traceContainer : List (RecordData w)) : List (RecordData w) :=
  mergeFinish
    ((List.finRange traceContainer.length).foldl mergeStep
      { container := traceContainer.get, output := [], current := none })

/-- What `std::sort` promises with `trace_record_cmp`: a permutation in which no record compares less
than an earlier one. Records that compare equal may come in any order. -/
def IsSortOf (records sorted : List (RecordData w)) : Prop :=
  sorted.Perm records ∧ sorted.Pairwise fun a b => traceRecordCmp b a = false

/-- `trace_file_data_sorted_sum`: `result` is what merging some sort of `records` leaves. -/
def TraceFileDataSortedSum (records result : List (RecordData w)) : Prop :=
  ∃ sorted, IsSortOf records sorted ∧ result = traceMerge sorted

/-! ## §3 — the fold as a pass over the records to come -/

/-- What `trace_merge` still emits with `current` in hand and `rest` to read. -/
def mergePass : RecordData w → List (RecordData w) → List (RecordData w)
  | current, [] => [current]
  | current, it :: rest =>
      if separateRecords current it then current :: mergePass it rest
      else mergePass (mergedData current it) rest

/-- Writing through `current` never touches a record still to be read, because the iterator `it` has
left `current` behind. -/
theorem foldl_mergeStep {n : ℕ} (its : List (Fin n)) (s : MergeState w n) (current : Fin n)
    (hcurrent : s.current = some current) (hnodup : (current :: its).Nodup) :
    mergeFinish (its.foldl mergeStep s)
      = s.output ++ mergePass (s.container current) (its.map s.container) := by
  induction its generalizing s current with
  | nil => simp [mergeFinish, hcurrent, mergePass]
  | cons it its ih =>
      obtain ⟨hnotin, hits⟩ := List.nodup_cons.mp hnodup
      rw [List.foldl_cons, List.map_cons, mergePass]
      by_cases hsep : separateRecords (s.container current) (s.container it)
      -- `current` is emitted, and `it` takes its place
      · rw [if_pos hsep, ih _ it (by simp [mergeStep, hcurrent, hsep]) hits]
        simp [mergeStep, hcurrent, hsep]
      -- `current` takes `it` in and stays in hand
      · have hrest : (current :: its).Nodup :=
          List.nodup_cons.mpr ⟨fun h => hnotin (List.mem_cons_of_mem _ h), (List.nodup_cons.mp hits).2⟩
        rw [if_neg hsep, ih _ current (by simp [mergeStep, hcurrent, hsep]) hrest]
        simp only [mergeStep, hcurrent, hsep, Bool.false_eq_true, if_false, Function.update_self]
        congr 2
        refine List.map_congr_left fun j hj => Function.update_of_ne ?_ _ _
        rintro rfl
        exact hnotin (List.mem_cons_of_mem _ hj)

theorem traceMerge_nil : traceMerge ([] : List (RecordData w)) = [] := rfl

theorem traceMerge_cons (d : RecordData w) (rest : List (RecordData w)) :
    traceMerge (d :: rest) = mergePass d rest := by
  have hmap := List.map_get_finRange (d :: rest)
  have hnodup := List.nodup_finRange (d :: rest).length
  rw [traceMerge]
  simp only [List.length_cons, List.finRange_succ, List.map_cons, List.cons.injEq] at hmap hnodup ⊢
  rw [List.foldl_cons, foldl_mergeStep _ _ 0 rfl hnodup]
  simp only [mergeStep, List.nil_append, hmap.2]
  rfl

/-! ## §4 — a record that does not wrap is a span -/

/-- The span of pages a record stands for, filed under its device and inode. -/
def RecordData.span (d : RecordData w) : Span (ℕ ×ₗ ℕ) ℤ where
  key := d.record.file
  lo := d.record.rangeStart.toNat
  hi := d.record.rangeStart.toNat + d.record.rangeLength.toNat
  tag := d.index
  lo_le_hi := Nat.le_add_right _ _

@[simp] theorem RecordData.span_tag (d : RecordData w) : d.span.tag = d.index := rfl

theorem minPgoff_toNat (a b : BitVec w) : (minPgoff a b).toNat = min a.toNat b.toNat := by
  simp only [minPgoff, BitVec.lt_def]
  split <;> omega

theorem maxPgoff_toNat (a b : BitVec w) : (maxPgoff a b).toNat = max a.toNat b.toNat := by
  simp only [maxPgoff, BitVec.lt_def]
  split <;> omega

section Refinement

variable {current it : RecordData w}

theorem separateRecords_iff (hc : current.record.NoWrap) (hi : it.record.NoWrap) :
    separateRecords current it = true ↔ ¬ Touches current.span it.span := by
  have hcend := BitVec.toNat_add_of_lt hc
  have hiend := BitVec.toNat_add_of_lt hi
  simp only [separateRecords, rangesOverlap, Bool.or_eq_true, bne_iff_ne, Bool.not_eq_true',
    Touches, RecordData.span, PrefetchTraceRecord.file_eq_iff, BitVec.lt_def, hcend, hiend]
  split_ifs with h1 h2 <;> simp <;> grind

/-- Merging two records is taking the hull of their spans. -/
theorem mergedData_span (hc : current.record.NoWrap) (hi : it.record.NoWrap) :
    (mergedData current it).span = join current.span it.span ∧ (mergedData current it).record.NoWrap := by
  set newData := mergedData current it with hnew
  have hstart : newData.record.rangeStart.toNat
      = min current.record.rangeStart.toNat it.record.rangeStart.toNat := minPgoff_toNat _ _
  have hmax : (maxPgoff (current.record.rangeStart + current.record.rangeLength)
        (it.record.rangeStart + it.record.rangeLength)).toNat
      = max (current.record.rangeStart.toNat + current.record.rangeLength.toNat)
          (it.record.rangeStart.toNat + it.record.rangeLength.toNat) := by
    rw [maxPgoff_toNat, BitVec.toNat_add_of_lt hc, BitVec.toNat_add_of_lt hi]
  have hlen : newData.record.rangeLength.toNat
      = max (current.record.rangeStart.toNat + current.record.rangeLength.toNat)
          (it.record.rangeStart.toNat + it.record.rangeLength.toNat)
        - min current.record.rangeStart.toNat it.record.rangeStart.toNat := by
    rw [← hmax, ← hstart]
    refine BitVec.toNat_sub_of_le ?_
    rw [BitVec.le_def, hmax]
    have := hstart
    simp only [hnew, mergedData] at this
    omega
  have hend : newData.record.rangeStart.toNat + newData.record.rangeLength.toNat
      = max (current.record.rangeStart.toNat + current.record.rangeLength.toNat)
          (it.record.rangeStart.toNat + it.record.rangeLength.toNat) := by omega
  constructor
  · simp only [RecordData.span, join, Span.mk.injEq]
    exact ⟨rfl, hstart, hend, rfl⟩
  · rw [PrefetchTraceRecord.NoWrap, hend]
    exact max_lt hc hi

end Refinement

/-- The pass over records that do not wrap refines the pass over their spans, and emits records that
do not wrap. -/
theorem mergePass_refines {current : RecordData w} {rest : List (RecordData w)}
    (h : ∀ d ∈ current :: rest, d.record.NoWrap) :
    (mergePass current rest).map RecordData.span = mergeFrom current.span (rest.map RecordData.span)
      ∧ ∀ o ∈ mergePass current rest, o.record.NoWrap := by
  induction rest generalizing current with
  | nil => exact ⟨rfl, by simpa [mergePass] using h⟩
  | cons it rest ih =>
      simp only [List.mem_cons, forall_eq_or_imp] at h
      obtain ⟨hc, hi, hrest⟩ := h
      rw [List.map_cons, mergePass, mergeFrom]
      by_cases hsep : separateRecords current it
      · have hlater : ∀ d ∈ it :: rest, d.record.NoWrap := by simpa using ⟨hi, hrest⟩
        obtain ⟨hmap, hwrap⟩ := ih hlater
        rw [if_pos hsep, if_neg ((separateRecords_iff hc hi).mp hsep), List.map_cons, hmap]
        exact ⟨rfl, by simpa using ⟨hc, hwrap⟩⟩
      · obtain ⟨hspan, hno⟩ := mergedData_span hc hi
        have hlater : ∀ d ∈ mergedData current it :: rest, d.record.NoWrap := by
          simpa using ⟨hno, hrest⟩
        obtain ⟨hmap, hwrap⟩ := ih hlater
        rw [if_neg hsep, if_pos (not_not.mp (mt (separateRecords_iff hc hi).mpr hsep)), hmap, hspan]
        exact ⟨rfl, hwrap⟩

theorem traceMerge_refines {records : List (RecordData w)} (h : ∀ d ∈ records, d.record.NoWrap) :
    (traceMerge records).map RecordData.span = merge (records.map RecordData.span)
      ∧ ∀ o ∈ traceMerge records, o.record.NoWrap := by
  cases records with
  | nil => exact ⟨rfl, by simp [traceMerge_nil]⟩
  | cons d rest =>
      rw [traceMerge_cons]
      exact mergePass_refines h

/-- A sorted list of records gives a sorted list of spans. -/
theorem IsSortOf.spans {records sorted : List (RecordData w)} (h : IsSortOf records sorted) :
    (sorted.map RecordData.span).Pairwise Before := by
  refine List.pairwise_map.mpr (h.2.imp fun {a b} hab => ?_)
  have hnot : ¬ traceCmp b.record a.record < 0 := by simpa [traceRecordCmp] using hab
  exact PrefetchTraceRecord.file_start_of_not_traceCmp hnot

/-! ## §5 — the law of `trace_file_data_sorted_sum` -/

/-- An input record went into an output record when it is about the same file and its range lies
within the output range; the bounds of an empty range count too. -/
def MergedInto (r o : RecordData w) : Prop :=
  r.record.device = o.record.device ∧ r.record.inodeNo = o.record.inodeNo ∧
    o.record.rangeStart.toNat ≤ r.record.rangeStart.toNat ∧
    r.record.rangeStart.toNat + r.record.rangeLength.toNat
      ≤ o.record.rangeStart.toNat + o.record.rangeLength.toNat

theorem mergedInto_iff {r o : RecordData w} : MergedInto r o ↔ Within r.span o.span := by
  simp only [MergedInto, Within, RecordData.span, PrefetchTraceRecord.file_eq_iff]
  tauto

/-- The (device, inode, page) triples of a list of records. -/
def coveredPages (records : List (RecordData w)) : Set (BitVec 32 × BitVec w × ℕ) :=
  {t | ∃ d ∈ records, d.record.device = t.1 ∧ d.record.inodeNo = t.2.1 ∧ t.2.2 ∈ d.record.pages}

/-- Coverage of records is coverage of their spans. -/
theorem mem_coveredPages (records : List (RecordData w)) (device : BitVec 32) (inodeNo : BitVec w)
    (page : ℕ) : (device, inodeNo, page) ∈ coveredPages records ↔
      ∃ s ∈ records.map RecordData.span, (toLex (device.toNat, inodeNo.toNat), page) ∈ s.points := by
  simp only [coveredPages, Set.mem_ofPred_eq, List.mem_map, exists_exists_and_eq_and]
  refine exists_congr fun d => and_congr_right fun _ => ?_
  simp only [Span.points, RecordData.span, PrefetchTraceRecord.file, PrefetchTraceRecord.pages,
    Set.mem_ofPred_eq, EmbeddingLike.apply_eq_iff_eq, Prod.mk.injEq, BitVec.toNat_inj]
  tauto

/-- A record with its index is determined by its span. -/
theorem RecordData.span_injective : Function.Injective (RecordData.span (w := w)) := by
  rintro ⟨⟨d1, i1, s1, l1⟩, x1⟩ ⟨⟨d2, i2, s2, l2⟩, x2⟩ h
  simp only [span, Span.mk.injEq, PrefetchTraceRecord.file_eq_iff, BitVec.toNat_inj] at h
  obtain ⟨⟨rfl, rfl⟩, rfl, hlen, rfl⟩ := h
  obtain rfl := BitVec.toNat_inj.mp (Nat.add_left_cancel hlen)
  rfl

/-- **The law of `trace_file_data_sorted_sum`.** For records that do not wrap and any sort of them,
the result is sorted by device, inode and start with a gap between the ranges of one inode, covers
the same (device, inode, page) triples, each input record went into exactly one output record, and an
output record carries the least index among those that went into it. -/
theorem traceFileDataSortedSum_law {records result : List (RecordData w)}
    (hwrap : ∀ d ∈ records, d.record.NoWrap) (h : TraceFileDataSortedSum records result) :
    (result.Pairwise fun prev next =>
        prev.record.file < next.record.file ∨
          prev.record.file = next.record.file ∧ prev.record.rangeStart ≤ next.record.rangeStart) ∧
      (result.Pairwise fun prev next => prev.record.file = next.record.file →
        prev.record.rangeStart.toNat + prev.record.rangeLength.toNat
          < next.record.rangeStart.toNat) ∧
      coveredPages result = coveredPages records ∧
      (∀ r ∈ records, ∃! o, o ∈ result ∧ MergedInto r o) ∧
      ∀ o ∈ result, IsLeast {i | ∃ r ∈ records, MergedInto r o ∧ r.index = i} o.index := by
  obtain ⟨sorted, hsort, rfl⟩ := h
  have hperm : ∀ d, d ∈ sorted ↔ d ∈ records := fun d => hsort.1.mem_iff
  obtain ⟨hmap, -⟩ := traceMerge_refines fun d hd => hwrap d ((hperm d).mp hd)
  -- order and gaps both come from the spans being apart
  have happart : (traceMerge sorted).Pairwise fun a b => Apart a.span b.span := by
    rw [← List.pairwise_map, hmap]
    exact merge_apart hsort.spans
  refine ⟨happart.imp ?_, happart.imp ?_, ?_, ?_, ?_⟩
  · rintro a b (hlt | ⟨heq, hlt⟩)
    · exact Or.inl hlt
    · exact Or.inr ⟨heq, BitVec.le_def.mpr ((a.span.lo_le_hi.trans_lt hlt).le)⟩
  · rintro a b (hlt | ⟨-, hlt⟩) heq
    · exact absurd heq hlt.ne
    · exact hlt
  · ext ⟨device, inodeNo, page⟩
    rw [mem_coveredPages, mem_coveredPages, hmap, merge_points]
    simp [hperm]
  · intro r hr
    obtain ⟨s, ⟨hs, hw⟩, huniq⟩ :=
      existsUnique_within_merge hsort.spans (List.mem_map_of_mem ((hperm r).mpr hr))
    rw [← hmap] at hs
    obtain ⟨o, ho, rfl⟩ := List.mem_map.mp hs
    refine ⟨o, ⟨ho, mergedInto_iff.mpr hw⟩, fun o' ⟨ho', hw'⟩ => RecordData.span_injective ?_⟩
    exact huniq _ ⟨hmap ▸ List.mem_map_of_mem ho', mergedInto_iff.mp hw'⟩
  · intro o ho
    have hleast := merge_tag hsort.spans (hmap ▸ List.mem_map_of_mem ho)
    simp only [List.mem_map, exists_exists_and_eq_and, RecordData.span_tag, hperm] at hleast
    simpa only [mergedInto_iff] using hleast

/-- Two touching ranges of one inode out of order, and one of another inode. -/
def sampleRecords : List (RecordData 64) :=
  [⟨⟨1, 7, 3, 2⟩, 0⟩, ⟨⟨1, 8, 3, 1⟩, 1⟩, ⟨⟨1, 7, 1, 2⟩, 2⟩]

theorem sampleRecords_sum :
    TraceFileDataSortedSum sampleRecords [⟨⟨1, 7, 1, 4⟩, 0⟩, ⟨⟨1, 8, 3, 1⟩, 1⟩] :=
  ⟨[⟨⟨1, 7, 1, 2⟩, 2⟩, ⟨⟨1, 7, 3, 2⟩, 0⟩, ⟨⟨1, 8, 3, 1⟩, 1⟩], by
    unfold IsSortOf; decide, by decide⟩

theorem traceFileDataSortedSum_law_sample :
    coveredPages [(⟨⟨1, 7, 1, 4⟩, 0⟩ : RecordData 64), ⟨⟨1, 8, 3, 1⟩, 1⟩]
      = coveredPages sampleRecords :=
  (traceFileDataSortedSum_law (by decide) sampleRecords_sum).2.2.1

end Prefetch

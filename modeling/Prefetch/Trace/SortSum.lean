/-
# Prefetch.Trace.SortSum — `sort-sum` applied incrementally

`prefetch-process-trace -c sort-sum` reads the records of its files one after the other, sorts and
merges them and writes the records left, without their indices. `stop-prefetch.init` feeds its output
to later runs. `sortSum_incremental`: for records that do not wrap the output depends neither on the
order of the input nor on the sort, and merging a part first, or the whole again, changes nothing.

What the output depends on is the region the records cover, the bounds of empty ranges counted
(`SortSum.eq_of_region`).
-/
import Prefetch.Trace.Merge

namespace Prefetch

open SpanMerge

variable {w : ℕ}

/-! ## §1 — the command -/

/-- `trace_file_read_data`: each record gets the next index. -/
def traceFileReadData (records : List (PrefetchTraceRecord w)) : List (RecordData w) :=
  records.zipIdx.map fun r => ⟨r.1, r.2⟩

/-- The records `output_trace_file_data` writes. -/
def outputRecords (data : List (RecordData w)) : List (PrefetchTraceRecord w) := data.map (·.record)

/-- `sort-sum` on the records read, in the order they are read, may write `written`. -/
def SortSum (records written : List (PrefetchTraceRecord w)) : Prop :=
  ∃ result, TraceFileDataSortedSum (traceFileReadData records) result ∧
    written = outputRecords result

@[simp] theorem outputRecords_traceFileReadData (records : List (PrefetchTraceRecord w)) :
    outputRecords (traceFileReadData records) = records := by
  unfold outputRecords traceFileReadData
  rw [List.map_map]
  exact List.zipIdx_map_fst 0 records

/-! ## §2 — some sort exists -/

namespace PrefetchTraceRecord

/-- What `trace_cmp` compares by; the length is descending. -/
def sortKey (r : PrefetchTraceRecord w) : ℕ ×ₗ ℕ ×ₗ ℕ ×ₗ ℕᵒᵈ :=
  toLex (r.device.toNat, toLex (r.inodeNo.toNat,
    toLex (r.rangeStart.toNat, OrderDual.toDual r.rangeLength.toNat)))

theorem traceCmp_neg_iff (r s : PrefetchTraceRecord w) :
    traceCmp r s < 0 ↔ r.sortKey < s.sortKey := by
  simp only [sortKey, Prod.Lex.toLex_lt_toLex, OrderDual.toDual_lt_toDual, traceCmp, BitVec.lt_def,
    gt_iff_lt]
  split_ifs <;> omega

end PrefetchTraceRecord

/-- `std::sort` has something to return. -/
theorem exists_isSortOf (records : List (RecordData w)) : ∃ sorted, IsSortOf records sorted := by
  let le : RecordData w → RecordData w → Bool :=
    fun a b => decide (a.record.sortKey ≤ b.record.sortKey)
  refine ⟨records.mergeSort le, List.mergeSort_perm records le, ?_⟩
  -- `std::sort` promises less than stability, and a stable sort is one of those it may be
  have hsorted : (records.mergeSort le).Pairwise fun a b => le a b := by
    apply List.pairwise_mergeSort
    · intro a b c hab hbc
      simp only [le, decide_eq_true_eq] at *
      exact hab.trans hbc
    · intro a b
      simp only [le, Bool.or_eq_true, decide_eq_true_eq]
      exact le_total _ _
  apply hsorted.imp
  intro a b hab
  rw [traceRecordCmp, decide_eq_false_iff_not, PrefetchTraceRecord.traceCmp_neg_iff, not_lt]
  exact of_decide_eq_true hab

theorem exists_sortSum (records : List (PrefetchTraceRecord w)) : ∃ written, SortSum records written := by
  obtain ⟨sorted, hsort⟩ := exists_isSortOf (traceFileReadData records)
  exact ⟨_, _, ⟨sorted, hsort, rfl⟩, rfl⟩

/-! ## §3 — what the output depends on -/

namespace PrefetchTraceRecord

/-- The span of a record, filed under its device and inode. -/
def span (r : PrefetchTraceRecord w) : Span (ℕ ×ₗ ℕ) ℤ := RecordData.span ⟨r, 0⟩

/-- A record is determined by the bounds of its span. -/
theorem eq_of_bounds {r s : PrefetchTraceRecord w} (h : r.span.bounds = s.span.bounds) : r = s := by
  have hbounds : (r.span.key, r.span.lo, r.span.hi) = (s.span.key, s.span.lo, s.span.hi) := h
  obtain ⟨hkey, hlo, hhi⟩ : r.span.key = s.span.key ∧ r.span.lo = s.span.lo ∧
      r.span.hi = s.span.hi := by simpa using hbounds
  have hspan : RecordData.span ⟨r, 0⟩ = RecordData.span ⟨s, 0⟩ := by
    rw [Span.mk.injEq]
    exact ⟨hkey, hlo, hhi, rfl⟩
  exact congrArg RecordData.record (RecordData.span_injective hspan)

end PrefetchTraceRecord

/-- The region a list of records covers: for each file its pages, and the bounds of its ranges. -/
def coveredRegion (records : List (PrefetchTraceRecord w)) : Set ((ℕ ×ₗ ℕ) × ℕ) :=
  {p | ∃ r ∈ records, p ∈ r.span.region}

theorem mem_coveredRegion_outputRecords {data : List (RecordData w)} {p : (ℕ ×ₗ ℕ) × ℕ} :
    p ∈ coveredRegion (outputRecords data) ↔ ∃ s ∈ data.map RecordData.span, p ∈ s.region := by
  simp only [coveredRegion, outputRecords, Set.mem_ofPred_eq, List.mem_map, exists_exists_and_eq_and]
  rfl

theorem coveredRegion_append (A B : List (PrefetchTraceRecord w)) :
    coveredRegion (A ++ B) = coveredRegion A ∪ coveredRegion B := by
  ext p
  simp only [coveredRegion, Set.mem_ofPred_eq, Set.mem_union, List.mem_append, or_and_right, exists_or]

theorem coveredRegion_perm {A B : List (PrefetchTraceRecord w)} (h : A.Perm B) :
    coveredRegion A = coveredRegion B := by
  ext p
  simp only [coveredRegion, Set.mem_ofPred_eq, h.mem_iff]

section Output

variable {records written : List (PrefetchTraceRecord w)}

/-- The records read back from the data of a list. -/
theorem noWrap_traceFileReadData (hwrap : ∀ r ∈ records, r.NoWrap) :
    ∀ d ∈ traceFileReadData records, d.record.NoWrap := by
  intro d hd
  apply hwrap
  rw [← outputRecords_traceFileReadData records]
  exact List.mem_map_of_mem hd

/-- **What `sort-sum` writes**: the spans of the merge of some sorted list with the same region. -/
theorem SortSum.merged (h : SortSum records written) (hwrap : ∀ r ∈ records, r.NoWrap) :
    (∃ spans : List (Span (ℕ ×ₗ ℕ) ℤ), spans.Pairwise Before ∧
      (∀ p, (∃ s ∈ spans, p ∈ s.region) ↔ p ∈ coveredRegion records) ∧
      written.map (·.span.bounds) = (merge spans).map Span.bounds) ∧
    (∀ r ∈ written, r.NoWrap) ∧ coveredRegion written = coveredRegion records := by
  obtain ⟨_, ⟨sorted, hsort, rfl⟩, rfl⟩ := h
  have hdata : ∀ d ∈ sorted, d.record.NoWrap := by
    intro d hd
    exact noWrap_traceFileReadData hwrap d (hsort.1.mem_iff.1 hd)
  obtain ⟨hmap, hno⟩ := traceMerge_refines hdata
  -- sorting moves the records around, so the region is that of the input
  have hperm : (outputRecords sorted).Perm records := by
    have hmapped : (outputRecords sorted).Perm (outputRecords (traceFileReadData records)) :=
      hsort.1.map _
    rwa [outputRecords_traceFileReadData] at hmapped
  have hregion : ∀ p, (∃ s ∈ sorted.map RecordData.span, p ∈ s.region) ↔
      p ∈ coveredRegion records := by
    intro p
    rw [← mem_coveredRegion_outputRecords, coveredRegion_perm hperm]
  refine ⟨⟨sorted.map RecordData.span, hsort.spans, hregion, ?_⟩, ?_, ?_⟩
  · rw [← hmap, outputRecords, List.map_map, List.map_map]
    rfl
  · intro r hr
    obtain ⟨d, hd, rfl⟩ := List.mem_map.1 hr
    exact hno d hd
  · ext p
    rw [mem_coveredRegion_outputRecords, hmap, merge_cover (fun _ _ => region_join), hregion]

/-- **Two inputs that cover the same region give the same output**, whichever sorts were taken. -/
theorem SortSum.eq_of_region {records' written' : List (PrefetchTraceRecord w)}
    (h : SortSum records written) (h' : SortSum records' written')
    (hwrap : ∀ r ∈ records, r.NoWrap) (hwrap' : ∀ r ∈ records', r.NoWrap)
    (hregion : coveredRegion records = coveredRegion records') : written = written' := by
  obtain ⟨⟨spans, hsorted, hcover, hwritten⟩, -⟩ := h.merged hwrap
  obtain ⟨⟨spans', hsorted', hcover', hwritten'⟩, -⟩ := h'.merged hwrap'
  -- the merge of a sorted list is determined by the region it covers
  have hmerged := merge_bounds_eq hsorted hsorted'
    (fun p => by rw [hcover p, hcover' p, hregion])
  rw [← hwritten, ← hwritten'] at hmerged
  exact List.map_injective_iff.2 (fun _ _ => PrefetchTraceRecord.eq_of_bounds) hmerged

end Output

/-! ## §4 — incremental use -/

/-- **`sort-sum` is a merge that can be applied incrementally.** For records that do not wrap, however
`std::sort` orders records that compare equal: there is one output for `A` followed by `B`, it is the
output for every permutation of them and for the output of `A` followed by `B`, and `sort-sum` leaves
it as it is. -/
theorem sortSum_incremental {A B : List (PrefetchTraceRecord w)} (hA : ∀ r ∈ A, r.NoWrap)
    (hB : ∀ r ∈ B, r.NoWrap) :
    ∃ written, SortSum (A ++ B) written ∧
      (∀ C written', C.Perm (A ++ B) → SortSum C written' → written' = written) ∧
      (∀ summed written', SortSum A summed → SortSum (summed ++ B) written' → written' = written) ∧
      ∀ written', SortSum written written' → written' = written := by
  have hAB : ∀ r ∈ A ++ B, r.NoWrap := by
    intro r hr
    exact (List.mem_append.1 hr).elim (hA r) (hB r)
  obtain ⟨written, hsum⟩ := exists_sortSum (A ++ B)
  refine ⟨written, hsum, ?_, ?_, ?_⟩
  · intro C written' hperm hC
    apply hC.eq_of_region hsum _ hAB (coveredRegion_perm hperm)
    intro r hr
    exact hAB r (hperm.mem_iff.1 hr)
  · intro summed written' hsummed hmore
    obtain ⟨-, hno, hregion⟩ := hsummed.merged hA
    apply hmore.eq_of_region hsum _ hAB
    · rw [coveredRegion_append, coveredRegion_append, hregion]
    · intro r hr
      exact (List.mem_append.1 hr).elim (hno r) (hB r)
  · intro written' hagain
    obtain ⟨-, hno, hregion⟩ := hsum.merged hAB
    exact hagain.eq_of_region hsum hno hAB hregion

/-- Two ranges that touch only after a third has come between them, and an empty one. -/
theorem sortSum_incremental_sample :
    ∃ written, SortSum ([⟨1, 7, 4, 2⟩, ⟨1, 7, 0, 2⟩] ++ [⟨1, 7, 2, 2⟩, ⟨1, 7, 9, 0⟩] :
        List (PrefetchTraceRecord 64)) written ∧
      ∀ written', SortSum written written' → written' = written := by
  obtain ⟨written, hsum, -, -, hagain⟩ := sortSum_incremental (A := [⟨1, 7, 4, 2⟩, ⟨1, 7, 0, 2⟩])
    (B := [⟨1, 7, 2, 2⟩, ⟨1, 7, 9, 0⟩]) (w := 64) (by decide) (by decide)
  exact ⟨written, hsum, hagain⟩

end Prefetch

/-
# Prefetch.Trace.InPlaceMerge — merging a fragment in place (`prefetch-module/prefetch.c`)

`merge_trace_fragment` merges a sorted fragment in its own buffer: `record` points to the record in hand
and `next_record` runs ahead of it. `trace_merge` does the same into a fresh container, and that one is
compared with here.

The two never agree: what is returned is where the record in hand begins, so that record is left out; and
a record that cannot be merged is not copied to the place behind the record in hand, so that what was
merged there already stands there again.
-/
import Prefetch.Core.Buffer
import Prefetch.Trace.Merge

namespace Prefetch

open SpanMerge Prefetch.Core

variable {M : Machine}

/-! ## §1 — `merge_trace_fragment` -/

/-- The condition to merge `next_record` into `record`. -/
def canMerge (record nextRecord : Record M) : Bool :=
  record.device == nextRecord.device && record.inodeNo == nextRecord.inodeNo
    && decide (nextRecord.rangeStart ≤ record.rangeStart + record.rangeLength)

/-- `record` with its new `range_length`. -/
def extendRange (record nextRecord : Record M) : Record M :=
  { record with
    rangeLength := maxPgoff record.rangeLength
      (nextRecord.rangeStart + nextRecord.rangeLength - record.rangeStart) }

/-- The fragment, record by record from its start on, and the index of `record`. -/
structure FragmentMerge (M : Machine) where
  fragment : ℕ → Record M
  record : ℕ

/-- The body of the loop; `none` is the `BUG_ON`. -/
def mergeRecord (s : FragmentMerge M) (nextRecord : ℕ) : Option (FragmentMerge M) :=
  let r := s.fragment s.record
  let next := s.fragment nextRecord
  if canMerge r next then
    -- fragment must be sorted
    if next.rangeStart < r.rangeStart then none
    else some { s with fragment := Function.update s.fragment s.record (extendRange r next) }
  else some { s with record := s.record + 1 }

/-- `merge_trace_fragment` on a fragment of `n` records: the size it returns and the fragment after it. -/
def mergeTraceFragment (fragment : ℕ → Record M) (n : ℕ) : Option (ℕ × (ℕ → Record M)) :=
  ((List.range' 1 (n - 1)).foldlM mergeRecord ⟨fragment, 0⟩).map fun s =>
    (s.record * M.sizeofRecord, s.fragment)

/-! ## §2 — one merge of two records -/

theorem canMerge_iff {r s : Record M} (hr : r.NoWrap) :
    canMerge r s = true ↔
      r.file = s.file ∧ s.rangeStart.toNat ≤ r.rangeStart.toNat + r.rangeLength.toNat := by
  simp only [canMerge, Bool.and_eq_true, beq_iff_eq, decide_eq_true_eq, BitVec.le_def,
    BitVec.toNat_add_of_lt hr, PrefetchTraceRecord.file_eq_iff]

/-- A merge moves the end of the record in hand no further down. -/
theorem end_le_extendRange (r next : Record M) :
    r.rangeStart.toNat + r.rangeLength.toNat ≤
      (extendRange r next).rangeStart.toNat + (extendRange r next).rangeLength.toNat := by
  apply Nat.add_le_add_left
  show _ ≤ (maxPgoff _ _).toNat
  rw [maxPgoff_toNat]
  exact le_max_left _ _

section Pair

variable {current it : RecordData M.bits}

/-- `trace_merge` keeps apart what the kernel cannot merge. -/
theorem separateRecords_eq_not_canMerge (hc : current.record.NoWrap) (hi : it.record.NoWrap)
    (hsorted : Before current.span it.span) :
    separateRecords current it = !canMerge current.record it.record := by
  rw [Bool.eq_iff_iff, separateRecords_iff hc hi, Bool.not_eq_true', ← Bool.not_eq_true,
    canMerge_iff hc]
  apply not_congr
  constructor
  · rintro ⟨hfile, hstart, -⟩
    exact ⟨hfile, hstart⟩
  · rintro ⟨hfile, hstart⟩
    refine ⟨hfile, hstart, ?_⟩
    rcases hsorted with hlt | ⟨-, hle⟩
    · exact absurd hfile hlt.ne
    · exact hle.trans it.span.lo_le_hi

/-- Merged records are the same on both sides. -/
theorem mergedData_record (hc : current.record.NoWrap) (hi : it.record.NoWrap)
    (hle : current.record.rangeStart ≤ it.record.rangeStart) :
    (mergedData current it).record = extendRange current.record it.record := by
  have hstart : minPgoff current.record.rangeStart it.record.rangeStart =
      current.record.rangeStart := if_neg (BitVec.not_lt.mpr hle)
  have hle' : current.record.rangeStart.toNat ≤ it.record.rangeStart.toNat := hle
  have hcend := BitVec.toNat_add_of_lt hc
  have hiend := BitVec.toNat_add_of_lt hi
  have hlength : maxPgoff (current.record.rangeStart + current.record.rangeLength)
      (it.record.rangeStart + it.record.rangeLength) - current.record.rangeStart =
        maxPgoff current.record.rangeLength
          (it.record.rangeStart + it.record.rangeLength - current.record.rangeStart) := by
    apply BitVec.eq_of_toNat_eq
    have hsub : (it.record.rangeStart + it.record.rangeLength - current.record.rangeStart).toNat =
        it.record.rangeStart.toNat + it.record.rangeLength.toNat -
          current.record.rangeStart.toNat := by
      rw [BitVec.toNat_sub_of_le, hiend]
      rw [BitVec.le_def, hiend]
      omega
    rw [BitVec.toNat_sub_of_le, maxPgoff_toNat, maxPgoff_toNat, hcend, hiend, hsub]
    · omega
    · rw [BitVec.le_def, maxPgoff_toNat, hcend]
      omega
  unfold mergedData extendRange
  simp only [hstart, hlength]

end Pair

/-! ## §3 — how far the loop has come -/

theorem mergePass_length_pos (current : RecordData M.bits) (rest : List (RecordData M.bits)) :
    0 < (mergePass current rest).length := by
  induction rest generalizing current with
  | nil => exact Nat.one_pos
  | cons it rest ih =>
      rw [mergePass]
      split
      · exact Nat.succ_pos _
      · exact ih _

/-- The fragment holds these records. -/
def Holds (fragment : ℕ → Record M) (data : List (RecordData M.bits)) : Prop :=
  ∀ i (h : i < data.length), fragment i = data[i].record

/-- The record behind the `j`-th could still be merged into it. -/
def LeftBehind (fragment : ℕ → Record M) (j : ℕ) : Prop :=
  (fragment j).file = (fragment (j + 1)).file ∧
    (fragment (j + 1)).rangeStart.toNat ≤
      (fragment j).rangeStart.toNat + (fragment j).rangeLength.toNat

/-- Records of which one is left behind the other are not apart. -/
theorem LeftBehind.not_apart {fragment : ℕ → Record M} {j : ℕ} (h : LeftBehind fragment j)
    {a b : RecordData M.bits} (ha : a.record = fragment j) (hb : b.record = fragment (j + 1)) :
    ¬ Apart a.span b.span := by
  obtain ⟨hfile, hle⟩ := h
  rw [← ha, ← hb] at hfile hle
  rintro (hlt | ⟨-, hlt⟩)
  · exact absurd hfile hlt.ne
  · exact absurd hle (not_le.mpr hlt)

variable {data : List (RecordData M.bits)} {next : ℕ} {s : FragmentMerge M}

/-- `record` is behind `next_record`, nothing has been written from there on, and before it only lengths
have. -/
structure Pointers (data : List (RecordData M.bits)) (next : ℕ) (s : FragmentMerge M) : Prop where
  behind : s.record < next
  ahead : ∀ i (h : i < data.length), next ≤ i → s.fragment i = data[i].record
  starts : ∀ i (h : i < data.length), (s.fragment i).file = data[i].record.file ∧
    (s.fragment i).rangeStart = data[i].record.rangeStart

/-- The loop up to `next_record`, compared with `trace_merge`. At first the two have the same record in
hand and have emitted as many records. Once a record has been merged, the next one that cannot be is not
copied, and what it should have replaced stays. -/
inductive Stage (data : List (RecordData M.bits)) (next : ℕ) (s : FragmentMerge M) : Prop
  | together (current : RecordData M.bits) (hcurrent : s.fragment s.record = current.record)
      (hwrap : current.record.NoWrap)
      (hcount : (traceMerge data).length = s.record + (mergePass current (data.drop next)).length)
      (hmerged : s.record + 1 < next → LeftBehind s.fragment s.record)
  | apart (j : ℕ) (hj : j < s.record) (hleft : LeftBehind s.fragment j)
      (hcount : j + 2 ≤ (traceMerge data).length)

/-- Records in order have their files and starts in order. -/
theorem before_getElem (hsorted : (data.map RecordData.span).Pairwise Before) {i j : ℕ}
    (hi : i < data.length) (hj : j < data.length) (hij : i < j) :
    Before data[i].span data[j].span := by
  rw [List.pairwise_map] at hsorted
  exact List.pairwise_iff_getElem.mp hsorted i j hi hj hij

/-- What the record in hand and the next one have in common with the records as they were. -/
theorem Pointers.before (h : Pointers data next s) (hsorted : (data.map RecordData.span).Pairwise Before)
    (hnext : next < data.length) :
    (s.fragment s.record).file < (s.fragment next).file ∨
      (s.fragment s.record).file = (s.fragment next).file ∧
        (s.fragment s.record).rangeStart ≤ (s.fragment next).rangeStart := by
  have hrecord : s.record < data.length := h.behind.trans hnext
  obtain ⟨hfile, hstart⟩ := h.starts s.record hrecord
  rw [h.ahead next hnext le_rfl, hfile, hstart]
  exact before_getElem hsorted hrecord hnext h.behind

/-- **One turn of the loop.** The `BUG_ON` does not strike, and the pointers stay in order. -/
theorem mergeRecord_pointers (h : Pointers data next s)
    (hsorted : (data.map RecordData.span).Pairwise Before) (hnext : next < data.length) :
    ∃ t, mergeRecord s next = some t ∧ Pointers data (next + 1) t ∧
      t = if canMerge (s.fragment s.record) (s.fragment next) then
          ⟨Function.update s.fragment s.record
            (extendRange (s.fragment s.record) (s.fragment next)), s.record⟩
        else ⟨s.fragment, s.record + 1⟩ := by
  unfold mergeRecord
  dsimp only
  by_cases hcan : canMerge (s.fragment s.record) (s.fragment next) = true
  · have hfile : (s.fragment s.record).file = (s.fragment next).file := by
      simp only [canMerge, Bool.and_eq_true, beq_iff_eq] at hcan
      exact PrefetchTraceRecord.file_eq_iff.mpr hcan.1
    have hle : (s.fragment s.record).rangeStart ≤ (s.fragment next).rangeStart := by
      rcases h.before hsorted hnext with hlt | ⟨-, hle⟩
      · exact absurd hfile hlt.ne
      · exact hle
    rw [if_pos hcan, if_neg (BitVec.not_lt.mpr hle), if_pos hcan]
    refine ⟨_, rfl, ⟨Nat.lt_succ_of_lt h.behind, fun i hi hle => ?_, fun i hi => ?_⟩, rfl⟩
    · have hne : i ≠ s.record := by
        have := h.behind
        omega
      show Function.update s.fragment s.record _ i = _
      rw [Function.update_of_ne hne]
      exact h.ahead i hi (by omega)
    · by_cases heq : i = s.record
      -- only the length of the record in hand is written
      · subst heq
        show (Function.update s.fragment s.record _ s.record).file = _ ∧
          (Function.update s.fragment s.record _ s.record).rangeStart = _
        rw [Function.update_self]
        exact h.starts s.record hi
      · show (Function.update s.fragment s.record _ i).file = _ ∧
          (Function.update s.fragment s.record _ i).rangeStart = _
        rw [Function.update_of_ne heq]
        exact h.starts i hi
  · rw [if_neg hcan, if_neg hcan]
    exact ⟨_, rfl, ⟨Nat.succ_lt_succ h.behind, fun i hi hle => h.ahead i hi (by omega), h.starts⟩, rfl⟩

/-- Lengthening a record leaves the same records behind. -/
theorem LeftBehind.extend {fragment : ℕ → Record M} {j : ℕ} (h : LeftBehind fragment j) (i : ℕ)
    (nextRecord : Record M) :
    LeftBehind (Function.update fragment i (extendRange (fragment i) nextRecord)) j := by
  obtain ⟨hfile, hle⟩ := h
  generalize hnew : Function.update fragment i (extendRange (fragment i) nextRecord) = new
  have hone : ∀ k, (new k).file = (fragment k).file ∧ (new k).rangeStart = (fragment k).rangeStart ∧
      (fragment k).rangeStart.toNat + (fragment k).rangeLength.toNat ≤
        (new k).rangeStart.toNat + (new k).rangeLength.toNat := by
    intro k
    rw [← hnew]
    by_cases hk : k = i
    · subst hk
      rw [Function.update_self]
      exact ⟨rfl, rfl, end_le_extendRange _ _⟩
    · rw [Function.update_of_ne hk]
      exact ⟨rfl, rfl, le_rfl⟩
  refine ⟨?_, ?_⟩
  · rw [(hone j).1, (hone (j + 1)).1]
    exact hfile
  · rw [(hone (j + 1)).2.1]
    exact hle.trans (hone j).2.2

/-- The record in hand is followed by one it touches: by the next one, or by one left behind before. -/
theorem Pointers.leftBehind (hp : Pointers data next s) (hnext : next < data.length)
    (hmerged : s.record + 1 < next → LeftBehind s.fragment s.record)
    (hfile : (s.fragment s.record).file = data[next].record.file)
    (hstart : data[next].record.rangeStart.toNat ≤
      (s.fragment s.record).rangeStart.toNat + (s.fragment s.record).rangeLength.toNat) :
    LeftBehind s.fragment s.record := by
  by_cases hmore : s.record + 1 < next
  · exact hmerged hmore
  · have heq : s.record + 1 = next := by
      have := hp.behind
      omega
    have hit : s.fragment next = data[next].record := hp.ahead next hnext le_rfl
    unfold LeftBehind
    rw [heq, hit]
    exact ⟨hfile, hstart⟩

/-- **One turn of the loop, compared with `trace_merge`.** -/
theorem Stage.mergeRecord (h : Stage data next s) (hp : Pointers data next s)
    (hwraps : ∀ d ∈ data, d.record.NoWrap) (hsorted : (data.map RecordData.span).Pairwise Before)
    (hnext : next < data.length) :
    ∃ t, Prefetch.mergeRecord s next = some t ∧ Pointers data (next + 1) t ∧
      Stage data (next + 1) t := by
  obtain ⟨t, hstep, hpt, rfl⟩ := mergeRecord_pointers hp hsorted hnext
  refine ⟨_, hstep, hpt, ?_⟩
  have hit : s.fragment next = data[next].record := hp.ahead next hnext le_rfl
  have hiwrap : data[next].record.NoWrap := hwraps _ (List.getElem_mem hnext)
  cases h with
  | together current hcurrent hwrap hcount hmerged =>
      have hbefore : Before current.span data[next].span := by
        have := hp.before hsorted hnext
        rw [hcurrent, hit] at this
        exact this
      rw [List.drop_eq_getElem_cons hnext, mergePass,
        separateRecords_eq_not_canMerge hwrap hiwrap hbefore] at hcount
      rw [hcurrent, hit]
      by_cases hcan : canMerge current.record data[next].record = true
      -- both merge the next record into the one in hand
      · rw [if_neg (by simp [hcan])] at hcount
        rw [if_pos hcan]
        obtain ⟨hfile, hstart⟩ := (canMerge_iff hwrap).mp hcan
        have hle : current.record.rangeStart ≤ data[next].record.rangeStart := by
          rcases hbefore with hlt | ⟨-, hle⟩
          · exact absurd hfile hlt.ne
          · exact hle
        have hnew := mergedData_record hwrap hiwrap hle
        refine .together (mergedData current data[next]) ?_ (mergedData_span hwrap hiwrap).2 hcount ?_
        · rw [hnew]
          exact Function.update_self _ _ _
        · intro _
          -- the record merged just now may be the one left behind
          have hbehind : LeftBehind s.fragment s.record := by
            rw [← hcurrent] at hfile hstart
            exact hp.leftBehind hnext hmerged hfile hstart
          have hextended := hbehind.extend s.record data[next].record
          rw [hcurrent] at hextended
          exact hextended
      -- neither does
      · rw [if_pos (by simp [hcan]), List.length_cons] at hcount
        rw [if_neg hcan]
        by_cases hmore : s.record + 1 < next
        · refine .apart s.record (Nat.lt_succ_self _) (hmerged hmore) ?_
          have := mergePass_length_pos data[next] (data.drop (next + 1))
          omega
        · have heq : s.record + 1 = next := by
            have := hp.behind
            omega
          refine .together data[next] ?_ hiwrap ?_ ?_
          · show s.fragment (s.record + 1) = _
            rw [heq, hit]
          · show _ = s.record + 1 + _
            omega
          · intro hlt
            exact absurd hlt (by show ¬ s.record + 1 + 1 < next + 1; omega)
  | apart j hj hleft hcount =>
      split
      · exact .apart j hj (hleft.extend s.record _) hcount
      · exact .apart j (Nat.lt_succ_of_lt hj) hleft hcount

/-- **The whole loop.** -/
theorem Stage.mergeRecords {m : ℕ} (h : Stage data next s) (hp : Pointers data next s)
    (hwraps : ∀ d ∈ data, d.record.NoWrap) (hsorted : (data.map RecordData.span).Pairwise Before)
    (hend : next + m = data.length) :
    ∃ t, (List.range' next m).foldlM Prefetch.mergeRecord s = some t ∧ Stage data data.length t := by
  induction m generalizing next s with
  | zero =>
      rw [Nat.add_zero] at hend
      exact ⟨s, rfl, hend ▸ h⟩
  | succ m ih =>
      obtain ⟨t, hstep, hpt, ht⟩ := h.mergeRecord hp hwraps hsorted (by omega)
      obtain ⟨u, hrun, hu⟩ := ih ht hpt (by omega)
      refine ⟨u, ?_, hu⟩
      rw [List.range'_succ, List.foldlM_cons, hstep]
      exact hrun

/-! ## §4 — the two merges -/

/-- What `merge_trace_fragment` leaves, up to the size it returns, are the records `trace_merge` leaves. -/
def MergesAlike (fragment : ℕ → Record M) (data : List (RecordData M.bits)) : Prop :=
  ∃ size merged, mergeTraceFragment fragment data.length = some (size, merged) ∧
    (List.range (size / M.sizeofRecord)).map merged = (traceMerge data).map RecordData.record

/-- **`merge_trace_fragment` on a sorted fragment** returns; how it compares then is the loop's last
stage. -/
theorem mergeTraceFragment_stage {fragment : ℕ → Record M} (hne : data ≠ []) (hholds : Holds fragment data)
    (hwraps : ∀ d ∈ data, d.record.NoWrap) (hsorted : (data.map RecordData.span).Pairwise Before) :
    ∃ t : FragmentMerge M, mergeTraceFragment fragment data.length =
        some (t.record * M.sizeofRecord, t.fragment) ∧ Stage data data.length t := by
  obtain ⟨d, rest, rfl⟩ := List.exists_cons_of_ne_nil hne
  have hpointers : Pointers (d :: rest) 1 ⟨fragment, 0⟩ := by
    refine ⟨Nat.one_pos, fun i hi _ => hholds i hi, fun i hi => ?_⟩
    rw [← hholds i hi]
    exact ⟨rfl, rfl⟩
  have hstage : Stage (d :: rest) 1 ⟨fragment, 0⟩ := by
    refine .together d (hholds 0 (Nat.succ_pos _)) (hwraps d List.mem_cons_self) ?_
      (fun h => absurd h (lt_irrefl _))
    rw [traceMerge_cons, Nat.zero_add]
    rfl
  obtain ⟨t, hrun, ht⟩ := hstage.mergeRecords (m := rest.length) hpointers hwraps hsorted
    (Nat.add_comm _ _)
  refine ⟨t, ?_, ht⟩
  unfold mergeTraceFragment
  rw [List.length_cons, Nat.add_sub_cancel, hrun]
  rfl

/-- **The kernel's merge never agrees with `trace_merge`** on a sorted fragment that is not empty. -/
theorem not_mergesAlike (fragment : ℕ → Record M) (hne : data ≠ []) (hholds : Holds fragment data)
    (hwraps : ∀ d ∈ data, d.record.NoWrap) (hsorted : data.Pairwise fun a b => traceRecordCmp b a = false) :
    ¬ MergesAlike fragment data := by
  have hspans : (data.map RecordData.span).Pairwise Before :=
    IsSortOf.spans ⟨List.Perm.refl data, hsorted⟩
  obtain ⟨t, hrun, hstage⟩ := mergeTraceFragment_stage hne hholds hwraps hspans
  rintro ⟨size, merged, hsome, hsame⟩
  rw [hrun] at hsome
  obtain ⟨rfl, rfl⟩ := Prod.mk.inj (Option.some.inj hsome)
  rw [Nat.mul_div_cancel _ Machine.sizeofRecord_pos] at hsame
  have hlength := congrArg List.length hsame
  rw [List.length_map, List.length_range, List.length_map] at hlength
  cases hstage with
  -- the record in hand is left out
  | together current hcurrent hwrap hcount hmerged =>
      have := mergePass_length_pos current (data.drop data.length)
      omega
  -- two records that touch stand one behind the other
  | apart j hj hleft hcount =>
      obtain ⟨hmap, -⟩ := traceMerge_refines hwraps
      have happart := merge_apart hspans
      rw [← hmap, List.pairwise_map] at happart
      have hcell : ∀ i (h : i < (traceMerge data).length),
          (traceMerge data)[i].record = t.fragment i := by
        intro i h
        have := List.getElem_of_eq hsame.symm (i := i) (by simpa using h)
        simpa using this
      have htwo := List.pairwise_iff_getElem.mp happart j (j + 1) (by omega) (by omega)
        (Nat.lt_succ_self j)
      exact hleft.not_apart (hcell j (by omega)) (hcell (j + 1) (by omega)) htwo

/-- Five records in order, the second touching the first and the fifth the fourth. -/
def sampleFragment : List (RecordData Machine.bits64.bits) :=
  [⟨⟨1, 7, 0, 2⟩, 0⟩, ⟨⟨1, 7, 2, 2⟩, 1⟩, ⟨⟨1, 8, 0, 1⟩, 2⟩, ⟨⟨1, 9, 0, 1⟩, 3⟩, ⟨⟨1, 9, 1, 1⟩, 4⟩]

/-- The fragment in the buffer, with anything behind it. -/
def sampleBuffer (i : ℕ) : Record .bits64 :=
  ((sampleFragment.map RecordData.record)[i]?).getD ⟨0, 0, 0, 0⟩

theorem sampleBuffer_holds : Holds sampleBuffer sampleFragment := by
  unfold Holds
  decide

theorem not_mergesAlike_sample : ¬ MergesAlike sampleBuffer sampleFragment :=
  not_mergesAlike sampleBuffer (by decide) sampleBuffer_holds (by decide) (by decide)

/-- A fragment of one record is merged into nothing. -/
theorem single_record_lost :
    ¬ MergesAlike (M := .bits64) (fun _ => ⟨1, 7, 0, 2⟩) [⟨⟨1, 7, 0, 2⟩, 0⟩] := by
  rintro ⟨size, merged, hsome, hsame⟩
  cases hsome
  exact absurd hsame (by decide)

end Prefetch

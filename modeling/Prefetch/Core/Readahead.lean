/-
# Prefetch.Core.Readahead — prefetching a trace, `prefetch_do_prefetch`

The loop goes over the records of a trace and asks for a readahead for each. The super block, the inode
and the file of a record are kept for the next one as long as its device, or its device and inode number,
stay the same.

What a lookup yields is up to the rest of the kernel: `Lookups` says it for each call, the calls numbered
in the order they are made. A handle is named by the call that acquired it, so that its release can be
told from that of another one. `log` and `readaheads` have no counterpart in C: they list what was acquired
and released, and the readaheads asked for, each with the record it was made for.

`prefetched_iff`: the loop bound adds `sizeof` to a pointer to records, so it stops before the last records
(`prefetchDoPrefetch_ranges`). `prefetch_handles`: each readahead is made on the inode its record names,
and every handle is released exactly once.
-/
import Prefetch.Core.Buffer
import Prefetch.Lib.Leases

namespace Prefetch.Core

open Leases

variable {M : Machine} {σ ν : Type*}

/-! ## §1 — lookups and handles -/

/-- What the `n`-th call yields: super blocks (`σ`) by device, inodes (`ν`) by super block and number,
`none` being `NULL` or an error pointer; whether there is a file structure left; what
`force_page_cache_readahead` returns. -/
structure Lookups (M : Machine) (σ ν : Type*) where
  userGetSuper : ℕ → BitVec 32 → Option σ
  iget : ℕ → σ → BitVec M.bits → Option ν
  getEmptyFilp : ℕ → Bool
  forcePageCacheReadahead : ℕ → ℤ := fun _ => 0

/-- What was acquired by the `n`-th call. -/
inductive Handle where
  | superBlock (n : ℕ)
  | inode (n : ℕ)
  | file (n : ℕ)
  deriving DecidableEq, Repr

/-- The call that acquired a handle. -/
def Handle.call : Handle → ℕ
  | .superBlock n => n
  | .inode n => n
  | .file n => n

/-- A call of `force_page_cache_readahead`: the inode of its mapping, the mapping of its file, named by
the inode too, and its range; and the record it is made for. -/
structure Readahead (M : Machine) (ν : Type*) where
  record : Record M
  inode : ν
  file : Option ν
  start : BitVec M.bits
  length : BitVec M.bits

/-- The locals of `prefetch_do_prefetch`, pointers with the call that yielded them, and what has been done
so far. The file structure is represented by the inode its `f_mapping` belongs to. -/
structure PrefetchState (M : Machine) (σ ν : Type*) where
  prevRecord : Option (Record M) := none
  sb : Option (ℕ × σ) := none
  inode : Option (ℕ × ν) := none
  file : Option (ℕ × ν) := none
  ret : ℤ := 0
  readaheadsFailed : ℕ := 0
  calls : ℕ := 0
  log : List (Entry Handle) := []
  readaheads : List (Readahead M ν) := []

def ENFILE : ℤ := 23

/-! ## §2 — `prefetch_do_prefetch` -/

namespace PrefetchState

variable (s : PrefetchState M σ ν) (lookups : Lookups M σ ν) (record : Record M)

/-- `if (sb) drop_super(sb)` -/
def dropSuper : PrefetchState M σ ν :=
  { s with log := s.log ++ s.sb.toList.map fun sb => .give (.superBlock sb.1) }

/-- `if (inode) iput(inode)` -/
def iput : PrefetchState M σ ν :=
  { s with log := s.log ++ s.inode.toList.map fun inode => .give (.inode inode.1) }

/-- `if (file) put_filp(file)` -/
def putFilp : PrefetchState M σ ν :=
  { s with log := s.log ++ s.file.toList.map fun file => .give (.file file.1) }

/-- `sb = user_get_super(record->device)` -/
def userGetSuper : PrefetchState M σ ν :=
  let sb := (lookups.userGetSuper s.calls record.device).map fun sb => (s.calls, sb)
  { s with
    sb := sb
    calls := s.calls + 1
    log := s.log ++ sb.toList.map fun sb => .take (.superBlock sb.1) }

/-- `inode = iget(sb, record->inode_no)`, and `NULL` instead of an error. -/
def iget (sb : σ) : PrefetchState M σ ν :=
  let inode := (lookups.iget s.calls sb record.inodeNo).map fun inode => (s.calls, inode)
  { s with
    inode := inode
    calls := s.calls + 1
    log := s.log ++ inode.toList.map fun inode => .take (.inode inode.1) }

/-- `file = get_empty_filp()`, its fields set from the inode. -/
def getEmptyFilp (inode : ν) : PrefetchState M σ ν :=
  let file := if lookups.getEmptyFilp s.calls then some (s.calls, inode) else none
  { s with
    file := file
    calls := s.calls + 1
    log := s.log ++ file.toList.map fun file => .take (.file file.1) }

/-- Another device than that of the record before. -/
def deviceChanged : Prop := ∀ prev, s.prevRecord = some prev → prev.device ≠ record.device

/-- Another file than that of the record before. -/
def fileChanged : Prop :=
  ∀ prev, s.prevRecord = some prev → prev.device ≠ record.device ∨ prev.inodeNo ≠ record.inodeNo

instance : Decidable (s.deviceChanged record) := by
  unfold deviceChanged
  cases s.prevRecord with
  | none => exact isTrue nofun
  | some prev => exact decidable_of_iff (prev.device ≠ record.device) (by simp)

instance : Decidable (s.fileChanged record) := by
  unfold fileChanged
  cases s.prevRecord with
  | none => exact isTrue nofun
  | some prev =>
      exact decidable_of_iff (prev.device ≠ record.device ∨ prev.inodeNo ≠ record.inodeNo) (by simp)

/-- Opening the next device. -/
def openDevice : PrefetchState M σ ν :=
  if s.deviceChanged record then s.dropSuper.userGetSuper lookups record else s

/-- Opening the next file; the error is `goto out`. Where there is no inode the file structure stays. -/
def openFile (sb : σ) : Except (PrefetchState M σ ν) (PrefetchState M σ ν) :=
  if s.fileChanged record then
    let s := s.iput.iget lookups record sb
    match s.inode with
    | none => .ok s
    | some inode =>
        let s := s.putFilp.getEmptyFilp lookups inode.2
        if s.file.isNone then .error { s with ret := -ENFILE } else .ok s
  else .ok s

/-- The readahead for a record. -/
def readahead (inode : ν) : PrefetchState M σ ν :=
  { s with
    calls := s.calls + 1
    readaheads := s.readaheads ++
      [⟨record, inode, s.file.map Prod.snd, record.rangeStart, record.rangeLength⟩]
    readaheadsFailed := if lookups.forcePageCacheReadahead s.calls < 0 then s.readaheadsFailed + 1
      else s.readaheadsFailed }

/-- The body of the loop, up to `prev_record = record`. -/
def prefetchRecord : Except (PrefetchState M σ ν) (PrefetchState M σ ν) :=
  let s := s.openDevice lookups record
  match s.sb with
  | none => .ok { s with prevRecord := some record }
  | some sb =>
      (s.openFile lookups record sb.2).map fun s =>
        match s.inode with
        | none => { s with prevRecord := some record }
        | some inode => { s.readahead lookups record inode.2 with prevRecord := some record }

/-- What is released behind `out`. -/
def out : PrefetchState M σ ν := s.dropSuper.iput.putFilp

end PrefetchState

/-- The loop over the records, `record i` being the `i`-th one in memory. The bound is computed from a
pointer to records: `record + sizeof(struct prefetch_trace_record)` is as many records further on. -/
def prefetchFrom (lookups : Lookups M σ ν) (record : ℕ → Record M) (traceSize : ℤ) (i : ℕ)
    (s : PrefetchState M σ ν) : PrefetchState M σ ν :=
  if ((i + M.sizeofRecord) * M.sizeofRecord : ℕ) ≤ traceSize then
    match s.prefetchRecord lookups (record i) with
    | .error s => s
    | .ok s => prefetchFrom lookups record traceSize (i + 1) s
  else s
termination_by traceSize.toNat - i
decreasing_by
  have hpos := M.sizeofRecord_pos
  have hle : i + M.sizeofRecord ≤ (i + M.sizeofRecord) * M.sizeofRecord := Nat.le_mul_of_pos_right _ hpos
  omega

/-- `prefetch_do_prefetch` -/
def prefetchDoPrefetch (lookups : Lookups M σ ν) (enabled : Bool) (record : ℕ → Record M)
    (traceSize : ℤ) : PrefetchState M σ ν :=
  if ¬ enabled then { ret := -ENODEV } else (prefetchFrom lookups record traceSize 0 {}).out

/-! ## §3 — the records reached -/

/-- The loop over given records. -/
def prefetchAll (lookups : Lookups M σ ν) : List (Record M) → PrefetchState M σ ν →
    PrefetchState M σ ν
  | [], s => s
  | r :: rs, s =>
      match s.prefetchRecord lookups r with
      | .error s => s
      | .ok s => prefetchAll lookups rs s

/-- The records the loop gets to, if it is not left before. -/
def recordsReached (M : Machine) (traceSize : ℤ) : ℕ := traceSize.toNat / M.sizeofRecord + 1 - M.sizeofRecord

theorem lt_recordsReached {traceSize : ℤ} {i : ℕ} :
    ((i + M.sizeofRecord) * M.sizeofRecord : ℕ) ≤ traceSize ↔ i < recordsReached M traceSize := by
  have hpos := M.sizeofRecord_pos
  have hle : ((i + M.sizeofRecord) * M.sizeofRecord : ℕ) ≤ traceSize ↔
      (i + M.sizeofRecord) * M.sizeofRecord ≤ traceSize.toNat := by
    have hmul : 0 < (i + M.sizeofRecord) * M.sizeofRecord := Nat.mul_pos (by omega) hpos
    omega
  rw [hle, ← Nat.le_div_iff_mul_le hpos]
  unfold recordsReached
  omega

/-- **The loop goes over the first records** and leaves out as many at the end as a record has bytes, less
one. -/
theorem prefetchFrom_eq (lookups : Lookups M σ ν) (record : ℕ → Record M) (traceSize : ℤ) (i : ℕ)
    (s : PrefetchState M σ ν) : prefetchFrom lookups record traceSize i s =
      prefetchAll lookups ((List.range' i (recordsReached M traceSize - i)).map record) s := by
  fun_induction prefetchFrom lookups record traceSize i s with
  | case1 i s hbound s' hrecord =>
      rw [lt_recordsReached] at hbound
      rw [show recordsReached M traceSize - i = (recordsReached M traceSize - (i + 1)) + 1 by omega,
        List.range'_succ, List.map_cons, prefetchAll, hrecord]
  | case2 i s hbound s' hrecord ih =>
      rw [lt_recordsReached] at hbound
      rw [show recordsReached M traceSize - i = (recordsReached M traceSize - (i + 1)) + 1 by omega,
        List.range'_succ, List.map_cons, prefetchAll, hrecord]
      exact ih
  | case3 i s hbound =>
      rw [lt_recordsReached] at hbound
      rw [show recordsReached M traceSize - i = 0 by omega]
      rfl

/-! ## §4 — the readaheads made -/

/-- Every lookup succeeds. -/
structure Lookups.Succeed (lookups : Lookups M σ ν) : Prop where
  userGetSuper : ∀ n device, (lookups.userGetSuper n device).isSome
  iget : ∀ n sb inodeNo, (lookups.iget n sb inodeNo).isSome
  getEmptyFilp : ∀ n, lookups.getEmptyFilp n = true

section Steps

variable {lookups : Lookups M σ ν} {s t : PrefetchState M σ ν} {record : Record M} {sb : σ}

/-- What opening the device of a record does. -/
theorem openDevice_cases (s : PrefetchState M σ ν) (lookups : Lookups M σ ν) (record : Record M) :
    s.deviceChanged record ∧ s.openDevice lookups record = s.dropSuper.userGetSuper lookups record ∨
      ¬ s.deviceChanged record ∧ s.openDevice lookups record = s := by
  unfold PrefetchState.openDevice
  split
  · exact .inl ⟨‹_›, rfl⟩
  · exact .inr ⟨‹_›, rfl⟩

/-- What opening the file of a record does: nothing, or the inode is not found, or there is no file
structure for it, or it is opened. -/
theorem openFile_cases (s : PrefetchState M σ ν) (lookups : Lookups M σ ν) (record : Record M) (sb : σ) :
    ¬ s.fileChanged record ∧ s.openFile lookups record sb = .ok s ∨
      s.fileChanged record ∧ lookups.iget s.calls sb record.inodeNo = none ∧
        s.openFile lookups record sb = .ok (s.iput.iget lookups record sb) ∨
      s.fileChanged record ∧ ∃ inode, lookups.iget s.calls sb record.inodeNo = some inode ∧
        (lookups.getEmptyFilp (s.calls + 1) = false ∧ s.openFile lookups record sb =
            .error { (s.iput.iget lookups record sb).putFilp.getEmptyFilp lookups inode with
              ret := -ENFILE } ∨
          lookups.getEmptyFilp (s.calls + 1) = true ∧ s.openFile lookups record sb =
            .ok ((s.iput.iget lookups record sb).putFilp.getEmptyFilp lookups inode)) := by
  unfold PrefetchState.openFile
  by_cases hchanged : s.fileChanged record
  · rw [if_pos hchanged]
    cases higet : lookups.iget s.calls sb record.inodeNo with
    | none => exact .inr (.inl ⟨hchanged, rfl, by simp [PrefetchState.iget, PrefetchState.iput, higet]⟩)
    | some inode =>
        refine .inr (.inr ⟨hchanged, inode, rfl, ?_⟩)
        cases hfile : lookups.getEmptyFilp (s.calls + 1) with
        | false =>
            exact .inl ⟨rfl, by
              simp [PrefetchState.iget, PrefetchState.iput, PrefetchState.putFilp,
                PrefetchState.getEmptyFilp, higet, hfile]⟩
        | true =>
            exact .inr ⟨rfl, by
              simp [PrefetchState.iget, PrefetchState.iput, PrefetchState.putFilp,
                PrefetchState.getEmptyFilp, higet, hfile]⟩
  · rw [if_neg hchanged]
    exact .inl ⟨hchanged, rfl⟩

/-- What the loop does for a record: there is no device, or opening the file fails, or there is no inode,
or a readahead is made. -/
theorem prefetchRecord_cases (s : PrefetchState M σ ν) (lookups : Lookups M σ ν) (record : Record M) :
    (s.openDevice lookups record).sb = none ∧ s.prefetchRecord lookups record =
        .ok { s.openDevice lookups record with prevRecord := some record } ∨
      ∃ sb, (s.openDevice lookups record).sb = some sb ∧
        ((∃ t, (s.openDevice lookups record).openFile lookups record sb.2 = .error t ∧
            s.prefetchRecord lookups record = .error t) ∨
          ∃ t, (s.openDevice lookups record).openFile lookups record sb.2 = .ok t ∧
            (t.inode = none ∧
                s.prefetchRecord lookups record = .ok { t with prevRecord := some record } ∨
              ∃ inode, t.inode = some inode ∧ s.prefetchRecord lookups record =
                .ok { t.readahead lookups record inode.2 with prevRecord := some record })) := by
  cases hsb : (s.openDevice lookups record).sb with
  | none => exact .inl ⟨rfl, by simp [PrefetchState.prefetchRecord, hsb]⟩
  | some sb =>
      refine .inr ⟨sb, rfl, ?_⟩
      cases hopen : (s.openDevice lookups record).openFile lookups record sb.2 with
      | error t => exact .inl ⟨t, rfl, by simp [PrefetchState.prefetchRecord, hsb, hopen, Except.map]⟩
      | ok t =>
          refine .inr ⟨t, rfl, ?_⟩
          cases hinode : t.inode with
          | none =>
              exact .inl ⟨rfl, by simp [PrefetchState.prefetchRecord, hsb, hopen, Except.map, hinode]⟩
          | some inode =>
              exact .inr ⟨inode, rfl, by
                simp [PrefetchState.prefetchRecord, hsb, hopen, Except.map, hinode]⟩

/-- Opening a device leaves alone what belongs to the file. -/
theorem openDevice_frame (s : PrefetchState M σ ν) (lookups : Lookups M σ ν) (record : Record M) :
    (s.openDevice lookups record).readaheads = s.readaheads ∧
      (s.openDevice lookups record).inode = s.inode ∧
      (s.openDevice lookups record).prevRecord = s.prevRecord := by
  obtain ⟨-, heq⟩ | ⟨-, heq⟩ := openDevice_cases s lookups record <;> rw [heq] <;> exact ⟨rfl, rfl, rfl⟩

theorem isSome_of_not_deviceChanged (h : ¬ s.deviceChanged record) : s.prevRecord.isSome := by
  unfold PrefetchState.deviceChanged at h
  cases hprev : s.prevRecord with
  | none => exact absurd (by simp [hprev]) h
  | some prev => rfl

theorem deviceChanged_fileChanged (h : s.deviceChanged record) : s.fileChanged record :=
  fun prev hprev => .inl (h prev hprev)

/-- Where every lookup succeeds, the super block and the inode of the record before are at hand. -/
def PrefetchState.Ready (s : PrefetchState M σ ν) : Prop :=
  s.prevRecord.isSome → s.sb.isSome ∧ s.inode.isSome

/-- Where every lookup succeeds, the device is opened. -/
theorem openDevice_isSome (hlookups : lookups.Succeed) (hs : s.Ready) :
    (s.openDevice lookups record).sb.isSome := by
  obtain ⟨-, heq⟩ | ⟨hsame, heq⟩ := openDevice_cases s lookups record
  · rw [heq]
    simpa [PrefetchState.userGetSuper, PrefetchState.dropSuper] using
      hlookups.userGetSuper s.calls record.device
  · rw [heq]
    exact (hs (isSome_of_not_deviceChanged hsame)).1

/-- Where every lookup succeeds, the file is opened. -/
theorem openFile_ok (hlookups : lookups.Succeed) (record : Record M) (sb : σ)
    (hs : s.prevRecord.isSome → s.inode.isSome) (hsb : s.sb.isSome) :
    ∃ t, s.openFile lookups record sb = .ok t ∧ t.sb.isSome ∧ t.inode.isSome ∧
      t.readaheads = s.readaheads := by
  obtain ⟨hsame, heq⟩ | ⟨-, hnone, -⟩ | ⟨-, inode, higet, ⟨hfull, -⟩ | ⟨-, heq⟩⟩ :=
    openFile_cases s lookups record sb
  · have hdevice : ¬ s.deviceChanged record := fun hdev => hsame (deviceChanged_fileChanged hdev)
    exact ⟨s, heq, hsb, hs (isSome_of_not_deviceChanged hdevice), rfl⟩
  · have hsome := hlookups.iget s.calls sb record.inodeNo
    rw [hnone] at hsome
    cases hsome
  · rw [hlookups.getEmptyFilp] at hfull
    cases hfull
  · refine ⟨_, heq, hsb, ?_, rfl⟩
    simp [PrefetchState.getEmptyFilp, PrefetchState.putFilp, PrefetchState.iget, PrefetchState.iput,
      higet]

/-- Where every lookup succeeds, a record is prefetched. -/
theorem prefetchRecord_succeeds (hlookups : lookups.Succeed) (hs : s.Ready) (record : Record M) :
    ∃ t inode file, s.prefetchRecord lookups record = .ok t ∧ t.Ready ∧
      t.readaheads = s.readaheads ++ [⟨record, inode, file, record.rangeStart, record.rangeLength⟩] := by
  have hdevice : (s.openDevice lookups record).sb.isSome := openDevice_isSome hlookups hs
  obtain ⟨hreadaheadsFrame, hinodeFrame, hprevFrame⟩ := openDevice_frame s lookups record
  obtain ⟨sb, hsb⟩ := Option.isSome_iff_exists.1 hdevice
  have hprev : (s.openDevice lookups record).prevRecord.isSome →
      (s.openDevice lookups record).inode.isSome := by
    rw [hinodeFrame, hprevFrame]
    exact fun hsome => (hs hsome).2
  obtain ⟨u, hu, husb, huinode, hureadaheads⟩ := openFile_ok hlookups record sb.2 hprev hdevice
  obtain ⟨inode, hinode⟩ := Option.isSome_iff_exists.1 huinode
  refine ⟨{ u.readahead lookups record inode.2 with prevRecord := some record }, inode.2,
    u.file.map Prod.snd, ?_, fun _ => ⟨husb, huinode⟩, ?_⟩
  · unfold PrefetchState.prefetchRecord
    simp only [hsb]
    rw [hu]
    simp only [Except.map, hinode]
  · show u.readaheads ++ _ = _
    rw [hureadaheads, hreadaheadsFrame]

/-- Where every lookup succeeds, a readahead is asked for each record. -/
theorem prefetchAll_ranges (hlookups : lookups.Succeed) (rs : List (Record M)) (hs : s.Ready) :
    (prefetchAll lookups rs s).readaheads.map (fun r => (r.start, r.length)) =
      s.readaheads.map (fun r => (r.start, r.length)) ++
        rs.map fun r => (r.rangeStart, r.rangeLength) := by
  induction rs generalizing s with
  | nil => simp [prefetchAll]
  | cons r rs ih =>
      obtain ⟨t, inode, file, ht, htready, htreadaheads⟩ := prefetchRecord_succeeds hlookups hs r
      rw [prefetchAll, ht]
      simp only [ih htready, htreadaheads, List.map_append, List.map_cons, List.map_nil,
        List.append_assoc, List.cons_append, List.nil_append]

end Steps

variable {lookups : Lookups M σ ν}

/-- **The ranges prefetched are those of the first records**, where every lookup succeeds. -/
theorem prefetchDoPrefetch_ranges (hlookups : lookups.Succeed) (record : ℕ → Record M)
    (traceSize : ℤ) :
    (prefetchDoPrefetch lookups true record traceSize).readaheads.map (fun r => (r.start, r.length)) =
      (List.range (recordsReached M traceSize)).map fun i =>
        ((record i).rangeStart, (record i).rangeLength) := by
  have hready : (({} : PrefetchState M σ ν)).Ready := fun h => nomatch h
  have hranges := prefetchAll_ranges hlookups
    ((List.range' 0 (recordsReached M traceSize - 0)).map record) hready
  rw [← prefetchFrom_eq] at hranges
  show (prefetchFrom lookups record traceSize 0 {}).readaheads.map _ = _
  rw [hranges, ← List.range_eq_range', List.map_map, Nat.sub_zero]
  rfl

/-- A readahead is made for each of the `n` records of a trace, in order, with its range. -/
def AllPrefetched (lookups : Lookups M σ ν) (enabled : Bool) (record : ℕ → Record M) (n : ℕ)
    (traceSize : ℤ) : Prop :=
  (prefetchDoPrefetch lookups enabled record traceSize).readaheads.map (fun r => (r.start, r.length)) =
    (List.range n).map fun i => ((record i).rangeStart, (record i).rangeLength)

/-- The records reached in a trace of `n` complete records. -/
theorem recordsReached_of_complete {n : ℕ} {traceSize : ℤ}
    (hle : ((n * M.sizeofRecord : ℕ) : ℤ) ≤ traceSize)
    (hlt : traceSize < ((n + 1) * M.sizeofRecord : ℕ)) :
    recordsReached M traceSize = n + 1 - M.sizeofRecord := by
  have hdiv : traceSize.toNat / M.sizeofRecord = n := by
    rw [Nat.div_eq_iff M.sizeofRecord_pos]
    rw [Nat.add_mul, Nat.one_mul] at hlt
    have := M.sizeofRecord_pos
    constructor <;> omega
  unfold recordsReached
  rw [hdiv]

/-- **Every record of a trace is prefetched only when it has none**, whatever else is in it. -/
theorem prefetched_iff (hlookups : lookups.Succeed) (enabled : Bool) (record : ℕ → Record M) (n : ℕ)
    (traceSize : ℤ) (hle : ((n * M.sizeofRecord : ℕ) : ℤ) ≤ traceSize)
    (hlt : traceSize < ((n + 1) * M.sizeofRecord : ℕ)) :
    AllPrefetched lookups enabled record n traceSize ↔ n = 0 := by
  have hsize : 16 ≤ M.sizeofRecord := by cases M <;> decide
  unfold AllPrefetched
  cases enabled with
  | false =>
      constructor
      · intro h
        simpa [prefetchDoPrefetch] using (congrArg List.length h).symm
      · rintro rfl
        rfl
  | true =>
      rw [prefetchDoPrefetch_ranges hlookups, recordsReached_of_complete hle hlt]
      constructor
      · intro h
        have hlen := congrArg List.length h
        simp only [List.length_map, List.length_range] at hlen
        omega
      · rintro rfl
        rw [show 0 + 1 - M.sizeofRecord = 0 by omega]

/-- One device with one inode, both always there. -/
def Lookups.always : Lookups M Unit Unit :=
  ⟨fun _ _ => some (), fun _ _ _ => some (), fun _ => true, fun _ => 0⟩

theorem Lookups.always_succeed : (Lookups.always (M := M)).Succeed :=
  ⟨fun _ _ => rfl, fun _ _ _ => rfl, fun _ => rfl⟩

/-- Twenty records and some bytes more. -/
theorem prefetched_iff_twenty :
    AllPrefetched (M := .bits64) Lookups.always true (fun _ => ⟨0x801, 14, 0, 3⟩) 20 645 ↔ 20 = 0 :=
  prefetched_iff Lookups.always_succeed true _ 20 645 (by decide) (by decide)

/-- One record of 32 bytes, and no readahead. -/
theorem not_prefetched_one_record :
    ¬ ∀ (lookups : Lookups .bits64 Unit Unit) (record : ℕ → Record .bits64) (n : ℕ) (traceSize : ℤ),
      lookups.Succeed → traceSize = n * 32 → AllPrefetched lookups true record n traceSize := by
  intro h
  have hone := h Lookups.always (fun _ => ⟨0x801, 14, 0, 3⟩) 1 32 Lookups.always_succeed (by decide)
  unfold AllPrefetched at hone
  rw [prefetchDoPrefetch_ranges Lookups.always_succeed] at hone
  exact absurd hone (by decide)

/-! ## §5 — the handles -/

namespace PrefetchState

/-- The handle of the super block, of the inode and of the file structure at hand. -/
def sbHandle (s : PrefetchState M σ ν) : Option Handle := s.sb.map fun sb => .superBlock sb.1
def inodeHandle (s : PrefetchState M σ ν) : Option Handle := s.inode.map fun inode => .inode inode.1
def fileHandle (s : PrefetchState M σ ν) : Option Handle := s.file.map fun file => .file file.1

/-- What is held: the handles at hand. -/
def Holds (s : PrefetchState M σ ν) : Handle → Prop
  | .superBlock n => .superBlock n ∈ s.sbHandle
  | .inode n => .inode n ∈ s.inodeHandle
  | .file n => .file n ∈ s.fileHandle

/-- What was acquired and released so far accounts for what is held. -/
def Accounted (s : PrefetchState M σ ν) : Prop := Ledger Handle.call s.Holds s.calls s.log

variable {s : PrefetchState M σ ν} {h : Handle} {n : ℕ}

@[simp] theorem sbHandle_ne_inode : s.sbHandle ≠ some (.inode n) := by simp [sbHandle]
@[simp] theorem sbHandle_ne_file : s.sbHandle ≠ some (.file n) := by simp [sbHandle]
@[simp] theorem inodeHandle_ne_superBlock : s.inodeHandle ≠ some (.superBlock n) := by
  simp [inodeHandle]
@[simp] theorem inodeHandle_ne_file : s.inodeHandle ≠ some (.file n) := by simp [inodeHandle]
@[simp] theorem fileHandle_ne_superBlock : s.fileHandle ≠ some (.superBlock n) := by simp [fileHandle]
@[simp] theorem fileHandle_ne_inode : s.fileHandle ≠ some (.inode n) := by simp [fileHandle]

theorem holds_of_sbHandle (hmem : h ∈ s.sbHandle) : s.Holds h := by
  cases h with
  | superBlock n => exact hmem
  | inode n => exact absurd hmem sbHandle_ne_inode
  | file n => exact absurd hmem sbHandle_ne_file

theorem holds_of_inodeHandle (hmem : h ∈ s.inodeHandle) : s.Holds h := by
  cases h with
  | superBlock n => exact absurd hmem inodeHandle_ne_superBlock
  | inode n => exact hmem
  | file n => exact absurd hmem inodeHandle_ne_file

theorem holds_of_fileHandle (hmem : h ∈ s.fileHandle) : s.Holds h := by
  cases h with
  | superBlock n => exact absurd hmem fileHandle_ne_superBlock
  | inode n => exact absurd hmem fileHandle_ne_inode
  | file n => exact hmem

/-- A handle in the place of another one: the old one is released, the new one, if there is one, acquired
by the next call. -/
theorem Accounted.replaced (hs : s.Accounted) {t : PrefetchState M σ ν} (old new : Option Handle)
    (hold : ∀ h ∈ old, s.Holds h) (hnew : ∀ h ∈ new, h.call = s.calls)
    (hholds : ∀ h, t.Holds h ↔ h ∈ new ∨ s.Holds h ∧ h ∉ old) (hcalls : t.calls = s.calls + 1)
    (hlog : t.log = s.log ++ old.toList.map .give ++ new.toList.map .take) : t.Accounted := by
  unfold Accounted
  rw [hlog, hcalls]
  exact Ledger.replace hs hold hnew hholds

theorem Accounted.openDevice (hs : s.Accounted) (lookups : Lookups M σ ν) (record : Record M) :
    (s.openDevice lookups record).Accounted := by
  obtain ⟨-, heq⟩ | ⟨-, heq⟩ := openDevice_cases s lookups record
  · rw [heq]
    set t := s.dropSuper.userGetSuper lookups record with ht
    have hinode : t.inodeHandle = s.inodeHandle := rfl
    have hfile : t.fileHandle = s.fileHandle := rfl
    refine hs.replaced s.sbHandle t.sbHandle (fun h => holds_of_sbHandle) ?_ ?_ rfl ?_
    · simp only [ht, sbHandle, userGetSuper, dropSuper]
      cases lookups.userGetSuper s.calls record.device <;> simp [Handle.call]
    · intro h
      cases h <;> simp [Holds, hinode, hfile]
    · simp [ht, userGetSuper, dropSuper, sbHandle, Option.toList_map, Function.comp_def]
  · rw [heq]
    exact hs

theorem Accounted.iget (hs : s.Accounted) (lookups : Lookups M σ ν) (record : Record M) (sb : σ) :
    (s.iput.iget lookups record sb).Accounted := by
  set t := s.iput.iget lookups record sb with ht
  have hsb : t.sbHandle = s.sbHandle := rfl
  have hfile : t.fileHandle = s.fileHandle := rfl
  refine hs.replaced s.inodeHandle t.inodeHandle (fun h => holds_of_inodeHandle) ?_ ?_ rfl ?_
  · simp only [ht, inodeHandle, PrefetchState.iget, iput]
    cases lookups.iget s.calls sb record.inodeNo <;> simp [Handle.call]
  · intro h
    cases h <;> simp [Holds, hsb, hfile]
  · simp [ht, PrefetchState.iget, iput, inodeHandle, Option.toList_map, Function.comp_def]

theorem Accounted.getEmptyFilp (hs : s.Accounted) (lookups : Lookups M σ ν) (inode : ν) :
    (s.putFilp.getEmptyFilp lookups inode).Accounted := by
  set t := s.putFilp.getEmptyFilp lookups inode with ht
  have hsb : t.sbHandle = s.sbHandle := rfl
  have hinode : t.inodeHandle = s.inodeHandle := rfl
  refine hs.replaced s.fileHandle t.fileHandle (fun h => holds_of_fileHandle) ?_ ?_ rfl ?_
  · simp only [ht, fileHandle, PrefetchState.getEmptyFilp, putFilp]
    by_cases hroom : lookups.getEmptyFilp s.calls <;> simp [hroom, Handle.call]
  · intro h
    cases h <;> simp [Holds, hsb, hinode]
  · simp [ht, PrefetchState.getEmptyFilp, putFilp, fileHandle, Option.toList_map, Function.comp_def]

/-- The state a record is left with, whether the loop goes on or not. -/
def behind : Except (PrefetchState M σ ν) (PrefetchState M σ ν) → PrefetchState M σ ν
  | .ok s => s
  | .error s => s

theorem Accounted.openFile (hs : s.Accounted) (lookups : Lookups M σ ν) (record : Record M) (sb : σ) :
    (behind (s.openFile lookups record sb)).Accounted := by
  have higet := hs.iget lookups record sb
  obtain ⟨-, heq⟩ | ⟨-, -, heq⟩ | ⟨-, inode, -, ⟨-, heq⟩ | ⟨-, heq⟩⟩ :=
    openFile_cases s lookups record sb
  · rw [heq]
    exact hs
  · rw [heq]
    exact higet
  · rw [heq]
    exact higet.getEmptyFilp lookups inode
  · rw [heq]
    exact higet.getEmptyFilp lookups inode

theorem Accounted.readahead (hs : s.Accounted) (lookups : Lookups M σ ν) (record : Record M)
    (inode : ν) : (s.readahead lookups record inode).Accounted := Ledger.skip hs

/-- **A record keeps the account.** -/
theorem Accounted.prefetchRecord (hs : s.Accounted) (lookups : Lookups M σ ν) (record : Record M) :
    (behind (s.prefetchRecord lookups record)).Accounted := by
  have hdevice := hs.openDevice lookups record
  obtain ⟨-, heq⟩ | ⟨sb, -, ⟨t, hopen, heq⟩ | ⟨t, hopen, ⟨-, heq⟩ | ⟨inode, -, heq⟩⟩⟩ :=
    prefetchRecord_cases s lookups record
  · rw [heq]
    exact hdevice
  all_goals
    have hfile := hdevice.openFile lookups record sb.2
    rw [hopen] at hfile
    rw [heq]
  · exact hfile
  · exact hfile
  · exact hfile.readahead lookups record inode.2

theorem Accounted.prefetchAll (hs : s.Accounted) (lookups : Lookups M σ ν) (rs : List (Record M)) :
    (prefetchAll lookups rs s).Accounted := by
  induction rs generalizing s with
  | nil => exact hs
  | cons r rs ih =>
      have hstep := hs.prefetchRecord lookups r
      rw [Core.prefetchAll]
      cases hrecord : s.prefetchRecord lookups r with
      | error t =>
          rw [hrecord] at hstep
          exact hstep
      | ok t =>
          rw [hrecord] at hstep
          exact ih hstep

/-- What is behind `out` releases handles only. -/
theorem readaheads_out (s : PrefetchState M σ ν) : s.out.readaheads = s.readaheads := rfl

theorem log_out_subset (s : PrefetchState M σ ν) : s.log ⊆ s.out.log := by
  simp [PrefetchState.out, dropSuper, iput, putFilp]

/-- Behind `out` nothing is held. -/
theorem Accounted.out (hs : s.Accounted) : Ledger Handle.call (fun _ => False) s.calls s.out.log := by
  have hsb := Ledger.release hs fun h (hmem : h ∈ s.sbHandle) => holds_of_sbHandle hmem
  have hinode := hsb.release fun h (hmem : h ∈ s.inodeHandle) =>
    ⟨holds_of_inodeHandle hmem, by cases h <;> simp_all⟩
  have hfile := hinode.release fun h (hmem : h ∈ s.fileHandle) =>
    ⟨⟨holds_of_fileHandle hmem, by cases h <;> simp_all⟩, by cases h <;> simp_all⟩
  have hlog : s.out.log = s.log ++ s.sbHandle.toList.map .give ++ s.inodeHandle.toList.map .give ++
      s.fileHandle.toList.map .give := by
    simp [PrefetchState.out, dropSuper, iput, putFilp, sbHandle, inodeHandle, fileHandle,
      Option.toList_map, Function.comp_def]
  rw [hlog]
  refine hfile.congr fun h => ?_
  cases h <;> simp [Holds]

end PrefetchState

/-! ## §6 — the inodes -/

/-- A readahead made where it should be: on the inode and with the file that were looked up for the device
and the inode number of its record, in this run, and with its range. -/
structure Readahead.Right (lookups : Lookups M σ ν) (log : List (Entry Handle)) (r : Readahead M ν) :
    Prop where
  lookup : ∃ n sb m, lookups.userGetSuper n r.record.device = some sb ∧
    lookups.iget m sb r.record.inodeNo = some r.inode ∧
    .take (.superBlock n) ∈ log ∧ .take (.inode m) ∈ log
  file : r.file = some r.inode
  start : r.start = r.record.rangeStart
  length : r.length = r.record.rangeLength

theorem Readahead.Right.mono {log log' : List (Entry Handle)} {r : Readahead M ν}
    (h : r.Right lookups log) (hsub : log ⊆ log') : r.Right lookups log' := by
  obtain ⟨n, sb, m, hsb, hinode, hn, hm⟩ := h.lookup
  exact ⟨⟨n, sb, m, hsb, hinode, hsub hn, hsub hm⟩, h.file, h.start, h.length⟩

namespace PrefetchState

variable {s : PrefetchState M σ ν} {record : Record M}

/-- The super block at hand is that of the record's device; and where there is one, the inode at hand is
that of the record, and the file is its. -/
structure Opened (lookups : Lookups M σ ν) (record : Record M) (s : PrefetchState M σ ν) : Prop where
  sb : ∀ n sb, s.sb = some (n, sb) → lookups.userGetSuper n record.device = some sb
  inode : ∀ n sb m inode, s.sb = some (n, sb) → s.inode = some (m, inode) →
    lookups.iget m sb record.inodeNo = some inode ∧ ∃ k, s.file = some (k, inode)

/-- What holds before a record: handles are accounted for, those at hand are the previous record's, and
all readaheads are right. -/
structure Good (lookups : Lookups M σ ν) (s : PrefetchState M σ ν) : Prop where
  accounted : s.Accounted
  opened : ∀ prev, s.prevRecord = some prev → s.Opened lookups prev
  right : ∀ r ∈ s.readaheads, r.Right lookups s.log

theorem good_init (lookups : Lookups M σ ν) : ({} : PrefetchState M σ ν).Good lookups where
  accounted := ledger_init fun h => by cases h <;> simp [Holds, sbHandle, inodeHandle, fileHandle]
  opened := nofun
  right := nofun

/-- Unless the device is another one, the record before has it. -/
theorem exists_prev_of_not_deviceChanged (h : ¬ s.deviceChanged record) :
    ∃ prev, s.prevRecord = some prev ∧ prev.device = record.device := by
  simpa [deviceChanged] using h

theorem exists_prev_of_not_fileChanged (h : ¬ s.fileChanged record) :
    ∃ prev, s.prevRecord = some prev ∧ prev.device = record.device ∧ prev.inodeNo = record.inodeNo := by
  simpa [fileChanged] using h

/-- Once its device is opened, the super block at hand is the record's. -/
theorem Good.openDevice_sb (hs : s.Good lookups) (record : Record M) {n : ℕ} {sb : σ}
    (hsb : (s.openDevice lookups record).sb = some (n, sb)) :
    lookups.userGetSuper n record.device = some sb := by
  obtain ⟨-, heq⟩ | ⟨hsame, heq⟩ := openDevice_cases s lookups record
  · rw [heq] at hsb
    obtain ⟨x, hx, hpair⟩ := Option.map_eq_some_iff.1 hsb
    cases hpair
    exact hx
  · obtain ⟨prev, hprev, hdevice⟩ := exists_prev_of_not_deviceChanged hsame
    rw [heq] at hsb
    rw [← hdevice]
    exact (hs.opened prev hprev).sb n sb hsb

theorem fileChanged_openDevice :
    (s.openDevice lookups record).fileChanged record ↔ s.fileChanged record := by
  unfold fileChanged
  rw [(openDevice_frame s lookups record).2.2]

/-- Once its file is opened too, the inode and the file at hand are the record's. -/
theorem Good.openFile_opened (hs : s.Good lookups) {t : PrefetchState M σ ν} {sb : ℕ × σ}
    (hsb : (s.openDevice lookups record).sb = some sb)
    (hopen : (s.openDevice lookups record).openFile lookups record sb.2 = .ok t) :
    t.sb = some sb ∧ t.Opened lookups record := by
  obtain ⟨hsame, heq⟩ | ⟨-, hnone, heq⟩ | ⟨-, inode, hinode, ⟨-, heq⟩ | ⟨hroom, heq⟩⟩ :=
    openFile_cases (s.openDevice lookups record) lookups record sb.2
  · rw [heq] at hopen
    cases hopen
    -- Neither device nor inode number changed, so everything at hand is from the record before.
    rw [fileChanged_openDevice] at hsame
    have hdevice : ¬ s.deviceChanged record := fun hdev => hsame (deviceChanged_fileChanged hdev)
    obtain ⟨-, hopened⟩ := (openDevice_cases s lookups record).resolve_left fun h => hdevice h.1
    obtain ⟨prev, hprev, hdev, hino⟩ := exists_prev_of_not_fileChanged hsame
    have hold := hs.opened prev hprev
    refine ⟨hsb, fun n sb hsb => hs.openDevice_sb record hsb, ?_⟩
    rw [hopened, ← hino]
    exact hold.inode
  · rw [heq] at hopen
    cases hopen
    refine ⟨hsb, fun n sb hsb => hs.openDevice_sb record hsb, ?_⟩
    intro n x m inode _ hinode
    simp [PrefetchState.iget, iput, hnone] at hinode
  · rw [heq] at hopen
    cases hopen
  · rw [heq] at hopen
    cases hopen
    refine ⟨hsb, fun n sb hsb => hs.openDevice_sb record hsb, ?_⟩
    intro n x m inode' hx hinode'
    obtain rfl : sb = (n, x) := Option.some.inj (hsb.symm.trans hx)
    obtain ⟨rfl, rfl⟩ : _ = m ∧ inode = inode' := by
      simpa [PrefetchState.getEmptyFilp, putFilp, PrefetchState.iget, iput, hinode] using hinode'
    refine ⟨hinode, (s.openDevice lookups record).calls + 1, ?_⟩
    simp [PrefetchState.getEmptyFilp, putFilp, PrefetchState.iget, iput, hroom]

theorem log_openDevice_subset : s.log ⊆ (s.openDevice lookups record).log := by
  obtain ⟨-, heq⟩ | ⟨-, heq⟩ := openDevice_cases s lookups record
  · rw [heq]
    simp [userGetSuper, dropSuper]
  · rw [heq]
    exact List.Subset.refl _

theorem log_openFile_subset (s : PrefetchState M σ ν) (lookups : Lookups M σ ν) (record : Record M)
    (sb : σ) : s.log ⊆ (behind (s.openFile lookups record sb)).log := by
  obtain ⟨-, heq⟩ | ⟨-, -, heq⟩ | ⟨-, inode, -, ⟨-, heq⟩ | ⟨-, heq⟩⟩ :=
    openFile_cases s lookups record sb
  · rw [heq]
    exact List.Subset.refl _
  all_goals
    rw [heq]
    simp [behind, PrefetchState.getEmptyFilp, putFilp, PrefetchState.iget, iput]

theorem readaheads_openFile (s : PrefetchState M σ ν) (lookups : Lookups M σ ν) (record : Record M)
    (sb : σ) :
    (behind (s.openFile lookups record sb)).readaheads = s.readaheads := by
  obtain ⟨-, heq⟩ | ⟨-, -, heq⟩ | ⟨-, inode, -, ⟨-, heq⟩ | ⟨-, heq⟩⟩ :=
    openFile_cases s lookups record sb <;> rw [heq] <;> rfl

/-- What is at hand was acquired in this run. -/
theorem Accounted.take_mem (hs : s.Accounted) {h : Handle} (hheld : s.Holds h) : .take h ∈ s.log := by
  obtain ⟨count, hbal⟩ := hs.balanced
  exact hbal.take_mem hheld

/-- The readahead asked for with the inode at hand is right. -/
theorem Opened.right (hs : s.Opened lookups record) (hacc : s.Accounted) {sb : ℕ × σ} {inode : ℕ × ν}
    (hsb : s.sb = some sb) (hinode : s.inode = some inode) :
    Readahead.Right lookups s.log
      ⟨record, inode.2, s.file.map Prod.snd, record.rangeStart, record.rangeLength⟩ := by
  obtain ⟨n, sb⟩ := sb
  obtain ⟨m, inode⟩ := inode
  obtain ⟨higet, k, hfile⟩ := hs.inode n sb m inode hsb hinode
  have hsuper : s.Holds (.superBlock n) := by simp [Holds, sbHandle, hsb]
  have hheld : s.Holds (.inode m) := by simp [Holds, inodeHandle, hinode]
  refine ⟨⟨n, sb, m, hs.sb n sb hsb, higet, hacc.take_mem hsuper, hacc.take_mem hheld⟩, ?_, rfl, rfl⟩
  rw [hfile]
  rfl

/-- What a record adds: no readahead, or the right one for it. -/
theorem Good.prefetchRecord_readaheads (hs : s.Good lookups) (record : Record M) :
    s.log ⊆ (behind (s.prefetchRecord lookups record)).log ∧
      ((behind (s.prefetchRecord lookups record)).readaheads = s.readaheads ∨
        ∃ r : Readahead M ν, r.record = record ∧
          r.Right lookups (behind (s.prefetchRecord lookups record)).log ∧
          (behind (s.prefetchRecord lookups record)).readaheads = s.readaheads ++ [r]) := by
  have hdevice : s.log ⊆ (s.openDevice lookups record).log := log_openDevice_subset
  obtain ⟨-, heq⟩ | ⟨sb, hsb, ⟨t, hopen, heq⟩ | ⟨t, hopen, ⟨-, heq⟩ | ⟨inode, hinode, heq⟩⟩⟩ :=
    prefetchRecord_cases s lookups record
  · rw [heq]
    exact ⟨hdevice, .inl (openDevice_frame s lookups record).1⟩
  all_goals
    have hlog := log_openFile_subset (s.openDevice lookups record) lookups record sb.2
    have hreadaheads := readaheads_openFile (s.openDevice lookups record) lookups record sb.2
    rw [hopen] at hlog hreadaheads
    rw [(openDevice_frame s lookups record).1] at hreadaheads
    rw [heq]
  · exact ⟨List.Subset.trans hdevice hlog, .inl hreadaheads⟩
  · exact ⟨List.Subset.trans hdevice hlog, .inl hreadaheads⟩
  · obtain ⟨htsb, hopened⟩ := hs.openFile_opened hsb hopen
    have hacc := (hs.accounted.openDevice lookups record).openFile lookups record sb.2
    rw [hopen] at hacc
    refine ⟨List.Subset.trans hdevice hlog, .inr ⟨_, rfl, hopened.right hacc htsb hinode, ?_⟩⟩
    show t.readaheads ++ _ = _
    rw [show t.readaheads = s.readaheads from hreadaheads]

/-- **A record keeps what holds before it.** -/
theorem Good.prefetchRecord (hs : s.Good lookups) (record : Record M) :
    (behind (s.prefetchRecord lookups record)).Accounted ∧
      (∀ r ∈ (behind (s.prefetchRecord lookups record)).readaheads,
        r.Right lookups (behind (s.prefetchRecord lookups record)).log) := by
  refine ⟨hs.accounted.prefetchRecord lookups record, ?_⟩
  obtain ⟨hlog, heq | ⟨r, -, hright, heq⟩⟩ := hs.prefetchRecord_readaheads record
  · rw [heq]
    exact fun r hr => (hs.right r hr).mono hlog
  · rw [heq]
    intro r' hr'
    rcases List.mem_append.1 hr' with hr' | hr'
    · exact (hs.right r' hr').mono hlog
    · cases List.mem_singleton.1 hr'
      exact hright

theorem Good.next (hs : s.Good lookups) {record : Record M} {t : PrefetchState M σ ν}
    (ht : s.prefetchRecord lookups record = .ok t) : t.Good lookups := by
  obtain ⟨hacc, hright⟩ := hs.prefetchRecord record
  rw [ht] at hacc hright
  refine ⟨hacc, ?_, hright⟩
  obtain ⟨hsb, heq⟩ | ⟨sb, hsb, ⟨u, hopen, heq⟩ | ⟨u, hopen, ⟨-, heq⟩ | ⟨inode, hinode, heq⟩⟩⟩ :=
    prefetchRecord_cases s lookups record
  · cases ht.symm.trans heq
    rintro _ ⟨⟩
    constructor
    · intro n sb hsome
      cases hsb.symm.trans hsome
    · intro n sb m inode hsome
      cases hsb.symm.trans hsome
  · cases ht.symm.trans heq
  · cases ht.symm.trans heq
    rintro _ ⟨⟩
    obtain ⟨-, hopened⟩ := hs.openFile_opened hsb hopen
    exact ⟨hopened.sb, hopened.inode⟩
  · cases ht.symm.trans heq
    rintro _ ⟨⟩
    obtain ⟨-, hopened⟩ := hs.openFile_opened hsb hopen
    exact ⟨hopened.sb, hopened.inode⟩

/-- **All records keep it**, and readaheads are made for some of them, in order. -/
theorem Good.prefetchAll (hs : s.Good lookups) (rs : List (Record M)) :
    (prefetchAll lookups rs s).Accounted ∧
      (∀ r ∈ (prefetchAll lookups rs s).readaheads, r.Right lookups (prefetchAll lookups rs s).log) ∧
      ∃ made, made.Sublist rs ∧ (prefetchAll lookups rs s).readaheads.map Readahead.record =
        s.readaheads.map Readahead.record ++ made := by
  induction rs generalizing s with
  | nil => exact ⟨hs.accounted, hs.right, [], List.Sublist.refl _, (List.append_nil _).symm⟩
  | cons r rs ih =>
      obtain ⟨hacc, hright⟩ := hs.prefetchRecord r
      obtain ⟨-, hmade⟩ := hs.prefetchRecord_readaheads r
      have hmade : ∃ made, made.Sublist [r] ∧
          (behind (s.prefetchRecord lookups r)).readaheads.map Readahead.record =
            s.readaheads.map Readahead.record ++ made := by
        rcases hmade with heq | ⟨r', hr', -, heq⟩
        · exact ⟨[], List.nil_sublist _, by rw [heq, List.append_nil]⟩
        · exact ⟨[r], List.Sublist.refl _, by rw [heq, List.map_append, List.map_singleton, hr']⟩
      obtain ⟨made, hsub, hmap⟩ := hmade
      rw [Core.prefetchAll]
      cases hrecord : s.prefetchRecord lookups r with
      | error t =>
          rw [hrecord] at hacc hright hmap
          exact ⟨hacc, hright, made, hsub.trans (List.singleton_sublist.2 List.mem_cons_self), hmap⟩
      | ok t =>
          rw [hrecord] at hmap
          obtain ⟨hacc', hright', made', hsub', hmap'⟩ := ih (hs.next hrecord)
          refine ⟨hacc', hright', made ++ made', hsub.append hsub', ?_⟩
          rw [hmap', show t.readaheads.map Readahead.record = _ from hmap, List.append_assoc]

end PrefetchState

/-- **Every readahead is made on the inode of its record, and every handle is released**: readaheads are
made for records of the trace, in order, each with the inode and the super block looked up for that very
record; and each super block, inode and file acquired is released once, after it was acquired. -/
theorem prefetch_handles (lookups : Lookups M σ ν) (enabled : Bool) (record : ℕ → Record M)
    (traceSize : ℤ) :
    let s := prefetchDoPrefetch lookups enabled record traceSize
    (s.readaheads.map Readahead.record).Sublist
        ((List.range (recordsReached M traceSize)).map record) ∧
      (∀ r ∈ s.readaheads, r.Right lookups s.log) ∧
      ∀ h, holding h s.log = some false ∧ s.log.count (.give h) = s.log.count (.take h) ∧
        s.log.count (.take h) ≤ 1 := by
  intro s
  by_cases henabled : enabled
  · have hs : s = (prefetchFrom lookups record traceSize 0 {}).out := by
      simp [s, prefetchDoPrefetch, henabled]
    rw [prefetchFrom_eq, Nat.sub_zero, ← List.range_eq_range'] at hs
    obtain ⟨hacc, hright, made, hsub, hmade⟩ := (PrefetchState.good_init lookups).prefetchAll
      ((List.range (recordsReached M traceSize)).map record)
    rw [hs]
    refine ⟨?_, fun r hr => ?_, fun h => ?_⟩
    · rw [PrefetchState.readaheads_out, hmade]
      exact hsub
    · rw [PrefetchState.readaheads_out] at hr
      exact (hright r hr).mono (PrefetchState.log_out_subset _)
    · exact hacc.out.released (fun _ => id) h
  · have hs : s = { ret := -ENODEV } := by simp [s, prefetchDoPrefetch, henabled]
    rw [hs]
    exact ⟨List.nil_sublist _, nofun, fun h => ⟨rfl, rfl, Nat.zero_le _⟩⟩

end Prefetch.Core

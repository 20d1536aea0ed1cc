/-
# Prefetch.Core.PageRuns — the ranges a walk over one file reports

`recordRange` stands for `add_referenced_page_range` and only remembers its calls; whatever else a report
does, the calls are the same (`walkLoop_mapSession`). Up to empty ranges the calls are the maximal runs of
the referenced pages in ascending order, `walkFileCache_runs`: the range collected so far ends a gap
before the next referenced page, or a page that is not referenced lies in between. Only the empty range
before the first page may end where a referenced page begins and not be continued by it.
-/
import Prefetch.Core.PageCache
import Prefetch.Lib.MaximalRuns

namespace Prefetch.Core

open MaximalRuns

variable {M : Machine} {σ τ : Type*} {ops : BitOps} {m : AddressSpace M}

/-! ## §1 — the calls, whatever they do -/

/-- A call of `add_referenced_page_range`, remembered. -/
def recordRange (calls : List (BitVec M.bits × BitVec M.bits)) (start len : BitVec M.bits) :
    List (BitVec M.bits × BitVec M.bits) := calls ++ [(start, len)]

/-- The walk, with what its reports act on seen through `f`. -/
def WalkState.mapSession (f : σ → τ) (st : WalkState M σ) : WalkState M τ where
  mapping := st.mapping
  session := f st.session
  page0 := st.page0
  start := st.start
  len := st.len
  previousPageReferenced := st.previousPageReferenced

section Natural

variable {add : σ → BitVec M.bits → BitVec M.bits → σ} {add' : τ → BitVec M.bits → BitVec M.bits → τ}
  {f : σ → τ}

theorem report_mapSession (hf : ∀ s start len, f (add s start len) = add' (f s) start len)
    (st : WalkState M σ) : (st.mapSession f).report add' = f (st.report add) := by
  unfold WalkState.report WalkState.mapSession
  dsimp only
  split
  · exact (hf _ _ _).symm
  · rfl

theorem visitPage_mapSession (hf : ∀ s start len, f (add s start len) = add' (f s) start len)
    (st : WalkState M σ) (page : Page M) :
    visitPage ops add' (st.mapSession f) page = (visitPage ops add st page).mapSession f := by
  have hreport := report_mapSession hf st
  unfold visitPage
  dsimp only
  rw [hreport]
  show ite (page.index = st.start + st.len ∧ st.previousPageReferenced = ops.testClearPageReferenced page) _ _ = _
  split
  · rfl
  · rfl

/-- **The walk does not look at what its reports act on.** -/
theorem walkLoop_mapSession (hf : ∀ s start len, f (add s start len) = add' (f s) start len)
    (batch : BitVec M.bits → ℕ) (fuel : ℕ) (st : WalkState M σ) :
    walkLoop ops add' batch fuel (st.mapSession f) =
      (walkLoop ops add batch fuel st).map (WalkState.mapSession f) := by
  have hpages : ∀ (pages : List (Page M)) (st : WalkState M σ),
      pages.foldl (visitPage ops add') (st.mapSession f) =
        (pages.foldl (visitPage ops add) st).mapSession f := by
    intro pages
    induction pages with
    | nil => exact fun _ => rfl
    | cons page pages ih =>
        intro st
        rw [List.foldl_cons, List.foldl_cons, visitPage_mapSession hf, ih]
  induction fuel generalizing st with
  | zero => rfl
  | succ fuel ih =>
      have hlookup : gangLookup (st.mapSession f).mapping ((st.mapSession f).start +
          (st.mapSession f).len) (batch ((st.mapSession f).start + (st.mapSession f).len) + 1) =
            gangLookup st.mapping (st.start + st.len) (batch (st.start + st.len) + 1) := rfl
      rw [walkLoop, walkLoop]
      simp only [hlookup]
      cases gangLookup st.mapping (st.start + st.len) (batch (st.start + st.len) + 1) with
      | nil =>
          dsimp only
          rw [report_mapSession hf]
          rfl
      | cons page0 rest =>
          dsimp only
          rw [← ih, ← hpages]
          congr 2
          show ite (st.page0.isSome = true) _ _ = _
          split
          · rfl
          · rfl

/-- What the reports of a walk do is made of the calls. -/
theorem walkLoop_reportAll (ops : BitOps) (add : σ → BitVec M.bits → BitVec M.bits → σ) (session : σ)
    (batch : BitVec M.bits → ℕ) (fuel : ℕ) :
    walkLoop ops add batch fuel { mapping := m, session := session } =
      (walkLoop ops recordRange batch fuel { mapping := m, session := [] }).map
        (WalkState.mapSession (reportAll add session)) := by
  have hf : ∀ calls start len, reportAll add session (recordRange calls start len) =
      add (reportAll add session calls) start len := by
    intro calls start len
    simp [recordRange, reportAll]
  exact walkLoop_mapSession hf batch fuel { mapping := m, session := [] }

/-- The calls a walk over a file makes. -/
def reportedRanges (ops : BitOps) (batch : BitVec M.bits → ℕ) (m : AddressSpace M) :
    List (BitVec M.bits × BitVec M.bits) := (walkFileCache ops recordRange batch [] m).2

theorem walkFileCache_reported (ops : BitOps) (add : σ → BitVec M.bits → BitVec M.bits → σ) (session : σ)
    (batch : BitVec M.bits → ℕ) :
    walkFileCache ops add batch session m =
      (m.clearReferenced, reportAll add session (reportedRanges ops batch m)) := by
  obtain ⟨calls, hwalk, -⟩ := walkFileCache_spec ops add batch session m
  have hends : (walkLoop ops recordRange batch (m.pages.length + 1)
      { mapping := m, session := [] }).isSome = true := walkLoop_isSome batch m []
  obtain ⟨last, hlast⟩ := Option.isSome_iff_exists.1 hends
  have hrun := walkLoop_reportAll (m := m) ops add session batch (m.pages.length + 1)
  rw [hlast, Option.map_some] at hrun
  have hcalls : (walkFileCache ops add batch session m).2 =
      reportAll add session (reportedRanges ops batch m) := by
    simp only [walkFileCache, reportedRanges, hrun, hlast, Option.get_some]
    rfl
  rw [← hcalls, hwalk]

end Natural

/-! ## §2 — the ranges are apart -/

/-- The ranges that are not empty. -/
def ranges (calls : List (BitVec M.bits × BitVec M.bits)) : List (ℕ × ℕ) :=
  (calls.filter (fun call => 0 < call.2.toNat)).map (fun call => (call.1.toNat, call.2.toNat))

theorem ranges_snoc (calls : List (BitVec M.bits × BitVec M.bits)) (start len : BitVec M.bits) :
    ranges (calls ++ [(start, len)]) =
      ranges calls ++ if 0 < len.toNat then [(start.toNat, len.toNat)] else [] := by
  unfold ranges
  rw [List.filter_append, List.map_append]
  congr 1
  by_cases hlen : 0 < len.toNat <;> simp [hlen]

/-- The pages in the ranges. -/
theorem covered_ranges (calls : List (BitVec M.bits × BitVec M.bits)) :
    covered (ranges calls) = {i | i ∈ calls.flatMap indices} := by
  ext i
  simp only [covered, ranges, indices, Set.mem_ofPred_eq, List.mem_map, List.mem_filter,
    List.mem_flatMap, List.mem_range'_1, decide_eq_true_eq]
  constructor
  · rintro ⟨r, ⟨call, ⟨hmem, -⟩, rfl⟩, hle, hlt⟩
    exact ⟨call, hmem, hle, hlt⟩
  · rintro ⟨call, hmem, hle, hlt⟩
    exact ⟨_, ⟨call, ⟨hmem, by omega⟩, rfl⟩, hle, hlt⟩

/-- What the range collected so far still has to keep away from. -/
def WalkState.limit (st : WalkState M σ) : ℕ :=
  if st.previousPageReferenced ≠ 0 then st.start.toNat else st.start.toNat + st.len.toNat

/-- Midway through a walk: the ranges reported are apart, and end a gap before the collected one, if that
will be reported, or before the page the walk has come to. -/
structure RunsInv (st : WalkState M (List (BitVec M.bits × BitVec M.bits))) : Prop where
  apart : Apart (ranges st.session)
  behind : ∀ r ∈ ranges st.session, r.1 + r.2 < st.limit
  first : st.page0.isSome = false → st.session = []

variable {st : WalkState M (List (BitVec M.bits × BitVec M.bits))}

/-- The range collected so far may be reported. -/
theorem RunsInv.report (h : RunsInv st) : Apart (ranges (st.report recordRange)) ∧
    ∀ r ∈ ranges (st.report recordRange), r.1 + r.2 < st.start.toNat + st.len.toNat ∨
      (st.previousPageReferenced ≠ 0 ∧ st.len ≠ 0) ∧ r.1 + r.2 = st.start.toNat + st.len.toNat := by
  have hbehind := h.behind
  unfold WalkState.limit at hbehind
  unfold WalkState.report
  by_cases hprev : st.previousPageReferenced ≠ 0
  · rw [if_pos hprev]
    simp only [if_pos hprev] at hbehind
    show Apart (ranges (st.session ++ [(st.start, st.len)])) ∧
      ∀ r ∈ ranges (st.session ++ [(st.start, st.len)]), _
    rw [ranges_snoc]
    by_cases hlen : 0 < st.len.toNat
    · rw [if_pos hlen]
      refine ⟨h.apart.snoc hlen hbehind, ?_⟩
      intro r hr
      rcases List.mem_append.1 hr with hr | hr
      · exact .inl (Nat.lt_add_right _ (hbehind r hr))
      · have hne : st.len ≠ 0 := fun hzero => by simp [hzero] at hlen
        rw [List.mem_singleton.1 hr]
        exact .inr ⟨⟨hprev, hne⟩, rfl⟩
    · rw [if_neg hlen, List.append_nil]
      exact ⟨h.apart, fun r hr => .inl (Nat.lt_add_right _ (hbehind r hr))⟩
  · rw [if_neg hprev]
    simp only [if_neg hprev] at hbehind
    exact ⟨h.apart, fun r hr => .inl (hbehind r hr)⟩

/-- **One page further.** Where the next page is referenced and the range before it ends right there, the
page extends that range. -/
theorem RunsInv.visitPage {session : List (BitVec M.bits × BitVec M.bits)}
    {done rest : List (Page M)} {p : Page M} {calls : List (BitVec M.bits × BitVec M.bits)}
    (hwalk : WalkInv ops recordRange m session done (p :: rest) calls st) (h : RunsInv st) :
    RunsInv (visitPage ops recordRange st p) := by
  have hahead := hwalk.ahead p List.mem_cons_self
  unfold Core.visitPage
  dsimp only
  split
  · next hext =>
    obtain ⟨hindex, hprev⟩ := hext
    have hlen := hwalk.toNat_len_succ hindex
    refine ⟨h.apart, ?_, h.first⟩
    intro r hr
    have hr' := h.behind r hr
    unfold WalkState.limit at hr' ⊢
    dsimp only
    rw [hprev] at hr'
    split at hr'
    · next hcur =>
      rw [if_pos hcur]
      exact hr'
    · next hcur =>
      rw [if_neg hcur, hlen]
      omega
  · next hext =>
    obtain ⟨hapart, hbehind⟩ := h.report
    refine ⟨hapart, ?_, nofun⟩
    intro r hr
    unfold WalkState.limit
    dsimp only
    rw [toNat_one]
    rcases hbehind r hr with hbefore | ⟨⟨hprev, hlen⟩, hend⟩
    · split <;> omega
    · -- the page is not referenced, or there is a gap before it
      split
      · next hcur =>
        have hne : p.index.toNat ≠ st.start.toNat + st.len.toNat := by
          intro heq
          apply hext
          -- with pages in it the range has the value of a bit that was taken, as the page has
          have hset : p.referenced = true := BitOps.testClearPageReferenced_ne_zero.1 hcur
          refine ⟨BitVec.toNat_inj.1 (heq.trans hwalk.toNat_next.symm), ?_⟩
          rw [(hwalk.taken hlen).resolve_left hprev]
          exact (if_pos hset).symm
        omega
      · omega

/-! ## §3 — the maximal runs -/

/-- The indices of the pages of a file that are in the cache and referenced. -/
def referencedSet (m : AddressSpace M) : Set ℕ :=
  {i | ∃ p ∈ m.pages, p.index.toNat = i ∧ p.referenced = true}

theorem mem_referencedIndices {pages : List (Page M)} {i : ℕ} :
    i ∈ referencedIndices pages ↔ ∃ p ∈ pages, p.index.toNat = i ∧ p.referenced = true := by
  simp only [referencedIndices, List.mem_map, List.mem_filter]
  constructor
  · rintro ⟨p, ⟨hmem, href⟩, rfl⟩
    exact ⟨p, hmem, rfl, href⟩
  · rintro ⟨p, hmem, rfl, href⟩
    exact ⟨p, ⟨hmem, href⟩, rfl⟩

/-- More rounds change nothing. -/
theorem walkLoop_mono {add : σ → BitVec M.bits → BitVec M.bits → σ} {batch : BitVec M.bits → ℕ}
    {fuel more : ℕ} {st st' : WalkState M σ} (h : walkLoop ops add batch fuel st = some st')
    (hle : fuel ≤ more) : walkLoop ops add batch more st = some st' := by
  induction fuel generalizing more st with
  | zero => cases h
  | succ fuel ih =>
      obtain ⟨more, rfl⟩ := Nat.exists_eq_add_of_le' (Nat.one_le_of_lt hle)
      rw [walkLoop] at h ⊢
      cases hlookup : gangLookup st.mapping (st.start + st.len) (batch (st.start + st.len) + 1) with
      | nil => simpa only [hlookup] using h
      | cons page0 rest =>
          simp only [hlookup] at h ⊢
          exact ih h (Nat.le_of_succ_le_succ hle)

theorem reportAll_recordRange (calls : List (BitVec M.bits × BitVec M.bits)) :
    ∀ session, reportAll recordRange session calls = session ++ calls := by
  induction calls with
  | nil => exact fun session => (List.append_nil session).symm
  | cons call calls ih =>
      intro session
      show reportAll recordRange (session ++ [call]) calls = _
      rw [ih, List.append_assoc, List.singleton_append]

/-- **`walk_file_cache` reports the maximal runs of referenced pages.** For every content of the cache and
every way the lookups split it, the loop ends; there is one list of calls for whatever the reports do; the
calls with a range that is not empty are the maximal runs of consecutive referenced pages, each once and
in ascending order; and no page has its bit set afterwards. It does not matter what the operations on the
bit return for one that is set. -/
theorem walkFileCache_runs (ops : BitOps) (m : AddressSpace M) (batch : BitVec M.bits → ℕ) :
    ∃ calls : List (BitVec M.bits × BitVec M.bits),
      (∀ {σ : Type*} (add : σ → BitVec M.bits → BitVec M.bits → σ) (session : σ), ∃ st,
        (∀ fuel > m.pages.length,
          walkLoop ops add batch fuel { mapping := m, session := session } = some st) ∧
        walkFileCache ops add batch session m = (st.mapping, st.session) ∧
        st.session = reportAll add session calls ∧
        st.mapping.pages = m.pages.map (fun p => { p with referenced := false })) ∧
      (calls.filter (fun call => 0 < call.2.toNat)).Pairwise (fun r s => r.1.toNat < s.1.toNat) ∧
      ∀ start len : BitVec M.bits, 0 < len.toNat →
        ((start, len) ∈ calls ↔ IsMaximalRun (referencedSet m) start.toNat len.toNat) := by
  have hinit : RunsInv ({ mapping := m, session := [] } :
      WalkState M (List (BitVec M.bits × BitVec M.bits))) :=
    ⟨apart_nil, fun r hr => absurd hr List.not_mem_nil, fun _ => rfl⟩
  obtain ⟨last, reported, hlast, hwalk, hruns⟩ := walkLoop_rule (P := RunsInv) batch
    (fun _ hnone _ hst => ⟨hst.apart, by simp [hst.first hnone, ranges], nofun⟩)
    (fun hwalk _ hst => hst.visitPage hwalk) (Nat.lt_succ_self m.pages.length)
    (walkInv_init ops recordRange m []) (fun _ => rfl) hinit
  obtain ⟨hapart, -⟩ := hruns.report
  refine ⟨last.report recordRange, ?_, ?_, ?_⟩
  · intro σ add session
    have hrun := walkLoop_reportAll (m := m) ops add session batch (m.pages.length + 1)
    rw [hlast, Option.map_some] at hrun
    refine ⟨_, fun fuel hfuel => walkLoop_mono hrun hfuel, ?_, rfl, ?_⟩
    · simp only [walkFileCache, hrun, Option.get_some]
    · show last.mapping.pages = _
      rw [hwalk.mapping_eq]
      rfl
  · have hgaps := hapart.gaps
    rw [ranges, List.pairwise_map] at hgaps
    apply hgaps.imp
    intro r s hrs
    exact Nat.lt_of_le_of_lt (Nat.le_add_right _ _) hrs
  · intro start len hlen
    obtain ⟨calls, hcalls, hindices⟩ := hwalk.report
    rw [reportAll_recordRange, List.nil_append] at hcalls
    have hcovered : covered (ranges (last.report recordRange)) = referencedSet m := by
      rw [covered_ranges, hcalls, hindices]
      ext i
      exact mem_referencedIndices
    rw [← hcovered, ← mem_iff_isMaximalRun hapart]
    simp only [ranges, List.mem_map, List.mem_filter, decide_eq_true_eq]
    constructor
    · intro hmem
      exact ⟨(start, len), ⟨hmem, hlen⟩, rfl⟩
    · rintro ⟨call, ⟨hmem, -⟩, heq⟩
      obtain ⟨hstart, hsize⟩ := Prod.mk.inj heq
      have hcall : call = (start, len) := Prod.ext (BitVec.toNat_inj.1 hstart) (BitVec.toNat_inj.1 hsize)
      rwa [← hcall]

/-- Pages looked up one by one; the first report is the empty range collected before the first page. -/
example : (walkFileCache .x86 recordRange (fun _ => 0) [] ({
    host := none
    pages := [⟨3, true⟩, ⟨4, true⟩, ⟨5, false⟩, ⟨7, true⟩]
    sorted := by decide
    index_lt := by decide } : AddressSpace .bits32)).2 = [(0, 0), (3, 2), (7, 1)] := by decide

end Prefetch.Core

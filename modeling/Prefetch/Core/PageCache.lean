/-
# Prefetch.Core.PageCache — the pages of a file in memory and the walk over them

`walk_file_cache` goes over the cached pages of one file in batches that `radix_tree_gang_lookup`
hands out, takes the referenced bit of each and reports the ranges of consecutive referenced pages to
`add_referenced_page_range`. What a report does is the parameter `add`, which acts on a state `σ`.

`walkFileCache_spec`: the ranges reported, laid out one after the other, are the indices of the
referenced pages in ascending order, and no bit is left set. It holds for every way the lookups split
the pages into batches, and whatever the two operations on the bit return for a bit that is set: the
walk compares what they return, and they need not return the same.
-/
import Prefetch.Core.Buffer
import Mathlib.Data.List.Range
import Mathlib.Order.Basic

namespace Prefetch.Core

variable {M : Machine}

/-! ## §1 — address spaces -/

/-- `struct page`: its place in the file and its referenced bit. -/
structure Page (M : Machine) where
  index : BitVec M.bits
  referenced : Bool := false
  deriving DecidableEq, Repr

/-- `struct inode`: `i_ino`, and the device of `i_sb->s_bdev` where there is one. -/
structure Inode (M : Machine) where
  device : Option (BitVec 32)
  iIno : BitVec M.bits
  deriving DecidableEq, Repr

/-- `struct address_space`: the inode it belongs to, if any, and the pages of its tree in ascending
order. No file is so long that it has a page at the largest `pgoff_t`. -/
@[ext] structure AddressSpace (M : Machine) where
  host : Option (Inode M)
  pages : List (Page M)
  sorted : pages.Pairwise (fun p q => p.index.toNat < q.index.toNat)
  index_lt : ∀ p ∈ pages, p.index.toNat + 1 < 2 ^ M.bits

namespace AddressSpace

theorem sorted_nil : ([] : List (Page M)).Pairwise (fun p q => p.index.toNat < q.index.toNat) := .nil

theorem index_lt_nil : ∀ p ∈ ([] : List (Page M)), p.index.toNat + 1 < 2 ^ M.bits :=
  List.forall_mem_nil _

/-- Set or clear the referenced bit of the page at an index. -/
def setReferenced (m : AddressSpace M) (index : BitVec M.bits) (b : Bool) : AddressSpace M where
  host := m.host
  pages := m.pages.map (fun p => if p.index = index then { p with referenced := b } else p)
  sorted := by
    apply m.sorted.map
    intro p q hpq
    split_ifs <;> exact hpq
  index_lt := by
    intro p hp
    obtain ⟨q, hq, rfl⟩ := List.mem_map.1 hp
    have hlt := m.index_lt q hq
    split_ifs <;> exact hlt

/-- No page has its bit set. -/
def clearReferenced (m : AddressSpace M) : AddressSpace M where
  host := m.host
  pages := m.pages.map (fun p => { p with referenced := false })
  sorted := by
    apply m.sorted.map
    intro p q hpq
    exact hpq
  index_lt := by
    intro p hp
    obtain ⟨q, hq, rfl⟩ := List.mem_map.1 hp
    exact m.index_lt q hq

/-- A new page comes into the cache, its referenced bit clear. -/
def insert (m : AddressSpace M) (index : BitVec M.bits) (hlt : index.toNat + 1 < 2 ^ M.bits) :
    AddressSpace M where
  host := m.host
  pages := m.pages.filter (fun p => p.index.toNat < index.toNat) ++
    { index := index } :: m.pages.filter (fun p => index.toNat < p.index.toNat)
  sorted := by
    rw [List.pairwise_append, List.pairwise_cons]
    refine ⟨m.sorted.filter _, ⟨?_, m.sorted.filter _⟩, ?_⟩
    · intro p hp
      simpa using (List.mem_filter.1 hp).2
    · intro p hp q hq
      have hp' : p.index.toNat < index.toNat := by simpa using (List.mem_filter.1 hp).2
      rcases List.mem_cons.1 hq with rfl | hq
      · exact hp'
      · have hq' : index.toNat < q.index.toNat := by simpa using (List.mem_filter.1 hq).2
        exact hp'.trans hq'
  index_lt := by
    intro p hp
    simp only [List.mem_append, List.mem_cons, List.mem_filter] at hp
    rcases hp with hp | rfl | hp
    · exact m.index_lt p hp.1
    · exact hlt
    · exact m.index_lt p hp.1

/-- A page leaves the cache. -/
def remove (m : AddressSpace M) (index : BitVec M.bits) : AddressSpace M where
  host := m.host
  pages := m.pages.filter (fun p => p.index ≠ index)
  sorted := m.sorted.filter _
  index_lt := fun p hp => m.index_lt p (List.mem_filter.1 hp).1

/-- The page at an index, if it is cached. -/
def find (m : AddressSpace M) (index : BitVec M.bits) : Option (Page M) :=
  m.pages.find? (fun p => p.index = index)

end AddressSpace

/-! ## §2 — `walk_file_cache` -/

/-- The `int` that `test_bit` and the one that `test_and_clear_bit` return for a bit that is set. Both return
0 for one that is clear. -/
structure BitOps where
  testBit : ℤ
  testAndClearBit : ℤ
  testBit_ne_zero : testBit ≠ 0
  testAndClearBit_ne_zero : testAndClearBit ≠ 0

/-- On x86 `test_bit` compares with 0, and `test_and_clear_bit` returns the borrow of `sbb`. -/
def BitOps.x86 : BitOps where
  testBit := 1
  testAndClearBit := -1
  testBit_ne_zero := by decide
  testAndClearBit_ne_zero := by decide

/-- `PageReferenced` -/
def BitOps.pageReferenced (ops : BitOps) (page : Page M) : ℤ := if page.referenced then ops.testBit else 0

/-- `TestClearPageReferenced`, which clears the bit, too. -/
def BitOps.testClearPageReferenced (ops : BitOps) (page : Page M) : ℤ :=
  if page.referenced then ops.testAndClearBit else 0

theorem BitOps.testClearPageReferenced_ne_zero {ops : BitOps} {page : Page M} :
    ops.testClearPageReferenced page ≠ 0 ↔ page.referenced = true := by
  unfold BitOps.testClearPageReferenced
  cases page.referenced
  · simp
  · simpa using ops.testAndClearBit_ne_zero

theorem BitOps.pageReferenced_ne_zero {ops : BitOps} {page : Page M} :
    ops.pageReferenced page ≠ 0 ↔ page.referenced = true := by
  unfold BitOps.pageReferenced
  cases page.referenced
  · simp
  · simpa using ops.testBit_ne_zero

/-- The locals of `walk_file_cache`, the address space it walks and what its reports act on. -/
structure WalkState (M : Machine) (σ : Type*) where
  mapping : AddressSpace M
  session : σ
  page0 : Option (Page M) := none
  start : BitVec M.bits := 0
  len : BitVec M.bits := 0
  previousPageReferenced : ℤ := 0

/-- `radix_tree_gang_lookup`: up to `n` pages from index `first` on. -/
def gangLookup (m : AddressSpace M) (first : BitVec M.bits) (n : ℕ) : List (Page M) :=
  (m.pages.filter (fun p => first ≤ p.index)).take n

section Walk

variable {σ : Type*} (ops : BitOps) (add : σ → BitVec M.bits → BitVec M.bits → σ)

/-- The range collected so far is reported if its pages were referenced. -/
def WalkState.report (st : WalkState M σ) : σ :=
  if st.previousPageReferenced ≠ 0 then add st.session st.start st.len else st.session

/-- The body of the loop over a batch. -/
def visitPage (st : WalkState M σ) (page : Page M) : WalkState M σ :=
  let currentPageReferenced := ops.testClearPageReferenced page
  let mapping := st.mapping.setReferenced page.index false
  if page.index = st.start + st.len ∧ st.previousPageReferenced = currentPageReferenced then
    { st with
      mapping := mapping
      len := st.len + 1
      previousPageReferenced := currentPageReferenced }
  else
    { mapping := mapping
      session := st.report add
      page0 := some page
      start := page.index
      len := 1
      previousPageReferenced := currentPageReferenced }

/-- The loop over batches, cut off after `fuel` rounds. `batch i` is how many pages beyond the first a
lookup from index `i` may return. -/
def walkLoop (batch : BitVec M.bits → ℕ) : ℕ → WalkState M σ → Option (WalkState M σ)
  | 0, _ => none
  | fuel + 1, st =>
      let pvec := gangLookup st.mapping (st.start + st.len) (batch (st.start + st.len) + 1)
      match pvec with
      | [] => some { st with session := st.report add }
      | page0 :: _ =>
          let st := if st.page0.isSome then st else
            { st with page0 := some page0, previousPageReferenced := ops.pageReferenced page0 }
          walkLoop batch fuel (pvec.foldl (visitPage ops add) st)

/-! ## §3 — what the walk reports -/

/-- The indices of a range. -/
def indices (range : BitVec M.bits × BitVec M.bits) : List ℕ :=
  List.range' range.1.toNat range.2.toNat

/-- The indices of the referenced pages. -/
def referencedIndices (pages : List (Page M)) : List ℕ :=
  (pages.filter (·.referenced)).map (·.index.toNat)

/-- Reports made one after the other. -/
def reportAll (session : σ) (calls : List (BitVec M.bits × BitVec M.bits)) : σ :=
  calls.foldl (fun s range => add s range.1 range.2) session

/-- The range collected so far and not yet reported. -/
def WalkState.pending (st : WalkState M σ) : List ℕ :=
  if st.previousPageReferenced ≠ 0 then indices (st.start, st.len) else []

/-- Midway through the walk of `m`: the pages of `done` are behind, those of `rest` ahead. -/
structure WalkInv (m : AddressSpace M) (session : σ) (done rest : List (Page M))
    (calls : List (BitVec M.bits × BitVec M.bits)) (st : WalkState M σ) : Prop where
  split : m.pages = done ++ rest
  host : st.mapping.host = m.host
  pages : st.mapping.pages = done.map (fun p => { p with referenced := false }) ++ rest
  session : st.session = reportAll add session calls
  behind : ∀ p ∈ done, p.index.toNat < st.start.toNat + st.len.toNat
  ahead : ∀ p ∈ rest, st.start.toNat + st.len.toNat ≤ p.index.toNat
  fits : st.start.toNat + st.len.toNat < 2 ^ M.bits
  /-- only the empty range before the first page has a value that was not taken with its bit -/
  taken : st.len ≠ 0 → st.previousPageReferenced = 0 ∨ st.previousPageReferenced = ops.testAndClearBit
  reported : calls.flatMap indices ++ st.pending = referencedIndices done

variable {ops add} {m : AddressSpace M} {session : σ} {done rest : List (Page M)}
  {calls : List (BitVec M.bits × BitVec M.bits)} {st : WalkState M σ}

theorem referencedIndices_append (ps qs : List (Page M)) :
    referencedIndices (ps ++ qs) = referencedIndices ps ++ referencedIndices qs := by
  simp [referencedIndices]

theorem referencedIndices_singleton (p : Page M) :
    referencedIndices [p] = if p.referenced then [p.index.toNat] else [] := by
  cases h : p.referenced <;> simp [referencedIndices, h]

theorem WalkInv.toNat_next (h : WalkInv ops add m session done rest calls st) :
    (st.start + st.len).toNat = st.start.toNat + st.len.toNat := by
  rw [BitVec.toNat_add, Nat.mod_eq_of_lt h.fits]

/-- The next lookup continues where the walk stands. -/
theorem WalkInv.gangLookup (h : WalkInv ops add m session done rest calls st) (n : ℕ) :
    gangLookup st.mapping (st.start + st.len) n = rest.take n := by
  have hdone : (done.map (fun p => { p with referenced := false })).filter
      (fun p : Page M => st.start + st.len ≤ p.index) = [] := by
    rw [List.filter_eq_nil_iff]
    intro p hp
    obtain ⟨q, hq, rfl⟩ := List.mem_map.1 hp
    have hlt := h.behind q hq
    simp only [decide_eq_true_eq, BitVec.le_def, h.toNat_next]
    omega
  have hrest : rest.filter (fun p : Page M => st.start + st.len ≤ p.index) = rest := by
    rw [List.filter_eq_self]
    intro p hp
    simpa only [decide_eq_true_eq, BitVec.le_def, h.toNat_next] using h.ahead p hp
  rw [Core.gangLookup, h.pages, List.filter_append, hdone, hrest, List.nil_append]

/-- Taking the bit of the next page. -/
theorem WalkInv.setReferenced {p : Page M} (h : WalkInv ops add m session done (p :: rest) calls st) :
    (st.mapping.setReferenced p.index false).pages =
      (done ++ [p]).map (fun p => { p with referenced := false }) ++ rest := by
  have hsorted := m.sorted
  rw [h.split, List.pairwise_append, List.pairwise_cons] at hsorted
  obtain ⟨-, ⟨hrest, -⟩, hdone⟩ := hsorted
  show st.mapping.pages.map _ = _
  rw [h.pages, List.map_append, List.map_cons, if_pos rfl, List.map_append, List.append_assoc]
  congr 1
  · rw [List.map_map]
    apply List.map_congr_left
    intro q hq
    have hne : q.index ≠ p.index := by
      intro heq
      have hlt := hdone q hq p List.mem_cons_self
      rw [heq] at hlt
      exact hlt.ne rfl
    rw [Function.comp_apply, if_neg hne]
  · rw [List.map_singleton, List.singleton_append]
    congr 1
    have hid : ∀ q ∈ rest,
        (if q.index = p.index then { q with referenced := false } else q) = q := by
      intro q hq
      apply if_neg
      intro heq
      have hlt := hrest q hq
      rw [heq] at hlt
      exact hlt.ne rfl
    rw [List.map_congr_left hid, List.map_id']

theorem toNat_one : (1 : BitVec M.bits).toNat = 1 := by
  cases M <;> rfl

/-- The page after the range collected so far extends it. -/
theorem indices_extend {start len : BitVec M.bits}
    (h : start.toNat + len.toNat + 1 < 2 ^ M.bits) :
    indices (start, len + 1) = indices (start, len) ++ [start.toNat + len.toNat] := by
  have hlen : (len + 1).toNat = len.toNat + 1 := by
    rw [BitVec.toNat_add, toNat_one, Nat.mod_eq_of_lt (by omega)]
  simp only [indices, hlen, List.range'_concat, Nat.one_mul]

theorem indices_one (index : BitVec M.bits) : indices (index, 1) = [index.toNat] := by
  simp only [indices, toNat_one, List.range'_one]

/-- The range collected so far goes to the reported ones. -/
theorem WalkInv.report (h : WalkInv ops add m session done rest calls st) :
    ∃ calls', st.report add = reportAll add session calls' ∧
      calls'.flatMap indices = referencedIndices done := by
  by_cases hprev : st.previousPageReferenced = 0
  · refine ⟨calls, ?_, ?_⟩
    · simp [WalkState.report, hprev, h.session]
    · simpa [WalkState.pending, hprev] using h.reported
  · refine ⟨calls ++ [(st.start, st.len)], ?_, ?_⟩
    · simp [WalkState.report, hprev, h.session, reportAll]
    · simpa [WalkState.pending, hprev] using h.reported

/-- The index of the page behind the range. -/
theorem WalkInv.toNat_index {p : Page M} (h : WalkInv ops add m session done (p :: rest) calls st)
    (hindex : p.index = st.start + st.len) : p.index.toNat = st.start.toNat + st.len.toNat := by
  rw [hindex, h.toNat_next]

/-- The range with the page behind it is no longer than the file. -/
theorem WalkInv.toNat_len_succ {p : Page M} (h : WalkInv ops add m session done (p :: rest) calls st)
    (hindex : p.index = st.start + st.len) : (st.len + 1).toNat = st.len.toNat + 1 := by
  have hlt := m.index_lt p (h.split ▸ by simp)
  have hnext := h.toNat_index hindex
  rw [BitVec.toNat_add, toNat_one, Nat.mod_eq_of_lt (by omega)]

/-- One page further. -/
theorem WalkInv.visitPage {p : Page M} (h : WalkInv ops add m session done (p :: rest) calls st) :
    ∃ calls', WalkInv ops add m session (done ++ [p]) rest calls' (visitPage ops add st p) := by
  have hsorted := m.sorted
  rw [h.split, List.pairwise_append, List.pairwise_cons] at hsorted
  obtain ⟨-, ⟨hrest, -⟩, hdone⟩ := hsorted
  have hlt := m.index_lt p (h.split ▸ by simp)
  have hpages := h.setReferenced
  have hsplit : m.pages = done ++ [p] ++ rest := by
    rw [h.split, List.append_assoc, List.singleton_append]
  have hcurrent : ops.testClearPageReferenced p = 0 ∨ ops.testClearPageReferenced p = ops.testAndClearBit := by
    unfold BitOps.testClearPageReferenced
    split
    · exact .inr rfl
    · exact .inl rfl
  unfold Core.visitPage
  dsimp only
  split
  · next hext =>
    -- the page extends the range
    obtain ⟨hindex, hprev⟩ := hext
    have hnext := h.toNat_index hindex
    have hlen := h.toNat_len_succ hindex
    refine ⟨calls, hsplit, h.host, hpages, h.session, ?_, ?_, ?_, fun _ => hcurrent, ?_⟩
    · intro q hq
      dsimp only
      rcases List.mem_append.1 hq with hq | hq
      · have := h.behind q hq
        omega
      · rw [List.mem_singleton.1 hq]
        omega
    · intro q hq
      have := hrest q hq
      dsimp only
      omega
    · dsimp only
      omega
    · rw [referencedIndices_append, ← h.reported, referencedIndices_singleton, List.append_assoc]
      congr 1
      simp only [WalkState.pending, hprev, BitOps.testClearPageReferenced_ne_zero]
      by_cases hp : p.referenced = true
      · rw [if_pos hp, if_pos hp, if_pos hp, indices_extend (by omega), hnext]
      · rw [if_neg hp, if_neg hp, if_neg hp]
        rfl
  · -- the page begins a new range
    obtain ⟨calls', hreport, hcalls'⟩ := h.report
    refine ⟨calls', hsplit, h.host, hpages, hreport, ?_, ?_, ?_, fun _ => hcurrent, ?_⟩
    · intro q hq
      dsimp only
      rw [toNat_one]
      rcases List.mem_append.1 hq with hq | hq
      · have := hdone q hq p List.mem_cons_self
        omega
      · rw [List.mem_singleton.1 hq]
        omega
    · intro q hq
      have := hrest q hq
      dsimp only
      rw [toNat_one]
      omega
    · dsimp only
      rw [toNat_one]
      exact hlt
    · rw [referencedIndices_append, ← hcalls', referencedIndices_singleton]
      simp only [WalkState.pending, indices_one, BitOps.testClearPageReferenced_ne_zero]

/-- A batch further. -/
theorem WalkInv.foldl_visitPage {batch : List (Page M)}
    (h : WalkInv ops add m session done (batch ++ rest) calls st) :
    ∃ calls', WalkInv ops add m session (done ++ batch) rest calls'
      (batch.foldl (Core.visitPage ops add) st) := by
  induction batch generalizing done calls st with
  | nil => exact ⟨calls, by simpa using h⟩
  | cons p batch ih =>
      obtain ⟨calls', h'⟩ := h.visitPage
      obtain ⟨calls'', h''⟩ := ih h'
      exact ⟨calls'', by simpa using h''⟩

/-- Nothing is pending before the first page, so `previous_page_referenced` may be chosen. -/
theorem WalkInv.begin (h : WalkInv ops add m session done rest calls st) (page0 : Page M)
    (hfirst : st.page0.isSome = false → st.len = 0) :
    WalkInv ops add m session done rest calls
      (if st.page0.isSome then st else
        { st with page0 := some page0, previousPageReferenced := ops.pageReferenced page0 }) := by
  split
  · exact h
  · next hnone =>
    have hlen := hfirst (by simpa using hnone)
    refine ⟨h.split, h.host, h.pages, h.session, h.behind, h.ahead, h.fits, fun hne => absurd hlen hne, ?_⟩
    rw [← h.reported]
    simp [WalkState.pending, indices, hlen]

theorem isSome_page0_foldl {batch : List (Page M)} (h : st.page0.isSome = true) :
    (batch.foldl (Core.visitPage ops add) st).page0.isSome = true := by
  induction batch generalizing st with
  | nil => exact h
  | cons p batch ih =>
      apply ih
      unfold Core.visitPage
      dsimp only
      split
      · exact h
      · rfl

/-- **The loop ends**, one round for each batch and one more; what each page keeps holds at the end. -/
theorem walkLoop_rule (batch : BitVec M.bits → ℕ) {P : WalkState M σ → Prop}
    (hbegin : ∀ {done page0 rest calls st}, WalkInv ops add m session done (page0 :: rest) calls st →
      st.page0.isSome = false → st.len = 0 → P st →
      P { st with page0 := some page0, previousPageReferenced := ops.pageReferenced page0 })
    (hvisit : ∀ {done p rest calls st}, WalkInv ops add m session done (p :: rest) calls st →
      st.page0.isSome = true → P st → P (Core.visitPage ops add st p))
    {fuel : ℕ} (hfuel : rest.length < fuel) (h : WalkInv ops add m session done rest calls st)
    (hfirst : st.page0.isSome = false → st.len = 0) (hP : P st) :
    ∃ last calls', walkLoop ops add batch fuel st = some { last with session := last.report add } ∧
      WalkInv ops add m session m.pages [] calls' last ∧ P last := by
  have hbatch : ∀ {pages done rest calls st}, WalkInv ops add m session done (pages ++ rest) calls st →
      st.page0.isSome = true → P st → P (pages.foldl (Core.visitPage ops add) st) := by
    intro pages
    induction pages with
    | nil => exact fun _ _ hP => hP
    | cons p pages ih =>
        intro done rest calls st h hsome hP
        obtain ⟨calls', h'⟩ := h.visitPage
        have hnext : ([p].foldl (Core.visitPage ops add) st).page0.isSome = true :=
          isSome_page0_foldl hsome
        exact ih h' hnext (hvisit h hsome hP)
  induction fuel generalizing done rest calls st with
  | zero => omega
  | succ fuel ih =>
      rw [walkLoop]
      simp only [h.gangLookup]
      cases hrest : rest with
      | nil =>
          subst hrest
          have hall : m.pages = done := by rw [h.split, List.append_nil]
          exact ⟨st, calls, rfl, hall ▸ h, hP⟩
      | cons p rest' =>
          subst hrest
          have htake := List.take_append_drop (batch (st.start + st.len) + 1) (p :: rest')
          have hinit := h.begin p hfirst
          have hPinit : P (if st.page0.isSome then st else
              { st with page0 := some p, previousPageReferenced := ops.pageReferenced p }) := by
            split
            · exact hP
            · next hnone =>
              have hnone' : st.page0.isSome = false := by simpa using hnone
              exact hbegin h hnone' (hfirst hnone') hP
          have hsome : (if st.page0.isSome then st else
              { st with page0 := some p, previousPageReferenced := ops.pageReferenced p }).page0.isSome =
                true := by
            split
            · assumption
            · rfl
          rw [← htake] at hinit
          obtain ⟨calls', h'⟩ := hinit.foldl_visitPage
          refine ih ?_ h' ?_ (hbatch hinit hsome hPinit)
          · simp only [List.length_drop, List.length_cons] at hfuel ⊢
            omega
          · intro hnone
            rw [isSome_page0_foldl hsome] at hnone
            cases hnone

/-- Behind the last page every bit is cleared. -/
theorem WalkInv.mapping_eq (h : WalkInv ops add m session m.pages [] calls st) :
    st.mapping = m.clearReferenced := by
  apply AddressSpace.ext
  · exact h.host
  · show st.mapping.pages = m.pages.map _
    rw [h.pages, List.append_nil]

/-- Everything is reported when the loop ends. -/
theorem walkLoop_spec (batch : BitVec M.bits → ℕ) {fuel : ℕ} (hfuel : rest.length < fuel)
    (h : WalkInv ops add m session done rest calls st)
    (hfirst : st.page0.isSome = false → st.len = 0) :
    ∃ st' calls', walkLoop ops add batch fuel st = some st' ∧ st'.mapping = m.clearReferenced ∧
      st'.session = reportAll add session calls' ∧
      calls'.flatMap indices = referencedIndices m.pages := by
  obtain ⟨last, calls', hlast, hend, -⟩ := walkLoop_rule (P := fun _ => True) batch
    (fun _ _ _ _ => trivial) (fun _ _ _ => trivial) hfuel h hfirst trivial
  obtain ⟨calls'', hreport, hcalls⟩ := hend.report
  exact ⟨_, calls'', hlast, hend.mapping_eq, hreport, hcalls⟩

variable (ops add) in
/-- The walk as it begins. -/
theorem walkInv_init (m : AddressSpace M) (session : σ) :
    WalkInv ops add m session [] m.pages [] { mapping := m, session := session } where
  split := rfl
  host := rfl
  pages := rfl
  session := rfl
  behind := by simp
  ahead := by simp
  fits := Nat.two_pow_pos M.bits
  taken := fun _ => .inl rfl
  reported := rfl

theorem walkLoop_isSome (batch : BitVec M.bits → ℕ) (m : AddressSpace M) (session : σ) :
    (walkLoop ops add batch (m.pages.length + 1)
      { mapping := m, session := session }).isSome = true := by
  obtain ⟨st', -, hst', -⟩ := walkLoop_spec batch (Nat.lt_succ_self _)
    (walkInv_init ops add m session) (fun _ => rfl)
  rw [hst']
  rfl

variable (ops add) in
/-- `walk_file_cache`: the address space and what the reports acted on, afterwards. -/
def walkFileCache (batch : BitVec M.bits → ℕ) (session : σ) (m : AddressSpace M) :
    AddressSpace M × σ :=
  let st := (walkLoop ops add batch (m.pages.length + 1) { mapping := m, session := session }).get
    (walkLoop_isSome batch m session)
  (st.mapping, st.session)

variable (ops add) in
/-- **The walk over one file**: every bit is cleared, and the ranges reported are, one after the
other, the indices of the pages that were referenced. -/
theorem walkFileCache_spec (batch : BitVec M.bits → ℕ) (session : σ) (m : AddressSpace M) :
    ∃ calls, walkFileCache ops add batch session m =
        (m.clearReferenced, reportAll add session calls) ∧
      calls.flatMap indices = referencedIndices m.pages := by
  obtain ⟨st', calls, hst', hmapping, hsession, hcalls⟩ := walkLoop_spec batch
    (Nat.lt_succ_self _) (walkInv_init ops add m session) (fun _ => rfl)
  refine ⟨calls, ?_, hcalls⟩
  simp only [walkFileCache, hst', Option.get_some, hmapping, hsession]

end Walk

end Prefetch.Core

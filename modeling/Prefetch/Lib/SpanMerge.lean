/-
# Prefetch.Lib.SpanMerge — one forward pass over sorted keyed spans

A `Span` is a half-open interval of natural numbers filed under a key and carrying a tag. The pass
keeps one span in hand and absorbs the next one while the two share a key and overlap or touch; when
they do not, the span in hand is emitted. On a list sorted by key and lower end the emitted spans are
pairwise apart, cover exactly the points of the input, and each carries the least tag of the spans
that went into it. Up to tags the result depends on the region the spans cover only, bounds counted
(`merge_bounds_eq`). Nothing here depends on what the keys, tags or points stand for.
-/
import Mathlib.Order.Bounds.Basic
import Mathlib.Order.MinMax
import Mathlib.Data.List.Pairwise
import Mathlib.Data.List.Sort
import Mathlib.Data.Prod.Lex
import Mathlib.Data.Set.Lattice

namespace SpanMerge

/-! ## §1 — spans -/

/-- A half-open interval `[lo, hi)` (possibly empty) under a key, with a tag. -/
structure Span (κ ι : Type*) where
  key : κ
  lo : ℕ
  hi : ℕ
  tag : ι
  lo_le_hi : lo ≤ hi

variable {κ ι : Type*}

/-- The keyed points a span covers. -/
def Span.points (s : Span κ ι) : Set (κ × ℕ) := {p | p.1 = s.key ∧ s.lo ≤ p.2 ∧ p.2 < s.hi}

/-- `s` lies inside `t`, ends included; this also places an empty `s`. -/
def Within (s t : Span κ ι) : Prop := s.key = t.key ∧ t.lo ≤ s.lo ∧ s.hi ≤ t.hi

/-- Same key, and overlapping or subsequent. -/
def Touches (s t : Span κ ι) : Prop := s.key = t.key ∧ t.lo ≤ s.hi ∧ s.lo ≤ t.hi

instance [DecidableEq κ] (s t : Span κ ι) : Decidable (Touches s t) := by
  unfold Touches; infer_instance

theorem Within.refl (s : Span κ ι) : Within s s := ⟨rfl, le_rfl, le_rfl⟩

theorem Within.trans {s t u : Span κ ι} (hst : Within s t) (htu : Within t u) : Within s u :=
  ⟨hst.1.trans htu.1, htu.2.1.trans hst.2.1, hst.2.2.trans htu.2.2⟩

section Join

variable [LinearOrder ι]

/-- The hull of two spans under the key of the first, with the smaller tag. -/
def join (s t : Span κ ι) : Span κ ι where
  key := s.key
  lo := min s.lo t.lo
  hi := max s.hi t.hi
  tag := min t.tag s.tag
  lo_le_hi := (min_le_left _ _).trans (s.lo_le_hi.trans (le_max_left _ _))

@[simp] theorem join_key (s t : Span κ ι) : (join s t).key = s.key := rfl
@[simp] theorem join_lo (s t : Span κ ι) : (join s t).lo = min s.lo t.lo := rfl
@[simp] theorem join_hi (s t : Span κ ι) : (join s t).hi = max s.hi t.hi := rfl
@[simp] theorem join_tag (s t : Span κ ι) : (join s t).tag = min t.tag s.tag := rfl

theorem within_join_left (s t : Span κ ι) : Within s (join s t) :=
  ⟨rfl, min_le_left _ _, le_max_left _ _⟩

theorem within_join_right {s t : Span κ ι} (h : Touches s t) : Within t (join s t) :=
  ⟨h.1.symm, min_le_right _ _, le_max_right _ _⟩

/-- Touching spans have no gap between them, so their hull covers nothing new. -/
theorem points_join {s t : Span κ ι} (h : Touches s t) :
    (join s t).points = s.points ∪ t.points := by
  obtain ⟨hkey, htl, hsl⟩ := h
  ext ⟨k, p⟩
  simp only [Span.points, Set.mem_ofPred_eq, Set.mem_union, join_key, join_lo, join_hi, ← hkey]
  have := s.lo_le_hi
  have := t.lo_le_hi
  constructor
  · rintro ⟨rfl, hlo, hhi⟩
    by_cases hp : p < s.hi
    · by_cases hq : s.lo ≤ p
      · exact Or.inl ⟨rfl, hq, hp⟩
      · exact Or.inr ⟨rfl, by omega, by omega⟩
    · exact Or.inr ⟨rfl, by omega, by omega⟩
  · rintro (⟨rfl, hlo, hhi⟩ | ⟨rfl, hlo, hhi⟩) <;> exact ⟨rfl, by omega, by omega⟩

end Join

/-! ## §2 — the sort orders -/

section Orders

variable [LinearOrder κ]

/-- The order the input is sorted by: key, then lower end. -/
def Before (s t : Span κ ι) : Prop := s.key < t.key ∨ s.key = t.key ∧ s.lo ≤ t.lo

/-- The order the output is sorted by: under one key there is a gap between consecutive spans. -/
def Apart (s t : Span κ ι) : Prop := s.key < t.key ∨ s.key = t.key ∧ s.hi < t.lo

/-- Two spans that are apart hold no span in common. -/
theorem Apart.not_within {s t u : Span κ ι} (h : Apart t u) (ht : Within s t) : ¬ Within s u := by
  intro hu
  have hkey : t.key = u.key := ht.1.symm.trans hu.1
  obtain hlt | ⟨-, hgap⟩ := h
  · exact absurd hkey hlt.ne
  · have := s.lo_le_hi
    have := ht.2.2
    have := hu.2.1
    omega

/-- Two members of a list of spans apart from each other are the same or apart. -/
theorem eq_or_apart {l : List (Span κ ι)} (h : l.Pairwise Apart) {a b : Span κ ι} (ha : a ∈ l)
    (hb : b ∈ l) : a = b ∨ Apart a b ∨ Apart b a := by
  have hfwd : l.Pairwise (fun a b => a = b ∨ Apart a b ∨ Apart b a) :=
    h.imp fun hab => Or.inr (Or.inl hab)
  have hbwd : l.Pairwise (flip fun a b => a = b ∨ Apart a b ∨ Apart b a) :=
    h.imp fun hab => Or.inr (Or.inr hab)
  exact List.Pairwise.forall_of_forall_of_flip
    (R := fun a b => a = b ∨ Apart a b ∨ Apart b a) (fun _ _ => Or.inl rfl) hfwd hbwd ha hb

/-- In a list of spans apart from each other, the one holding a given span is unique. -/
theorem within_unique {l : List (Span κ ι)} (h : l.Pairwise Apart) {s o o' : Span κ ι}
    (ho : o ∈ l) (ho' : o' ∈ l) (hs : Within s o) (hs' : Within s o') : o = o' := by
  obtain heq | hoo | hoo := eq_or_apart h ho ho'
  · exact heq
  · exact absurd hs' (hoo.not_within hs)
  · exact absurd hs (hoo.not_within hs')

end Orders

/-! ## §3 — the pass -/

variable [LinearOrder κ] [LinearOrder ι]

/-- The pass with `cur` in hand. -/
def mergeFrom : Span κ ι → List (Span κ ι) → List (Span κ ι)
  | cur, [] => [cur]
  | cur, x :: xs => if Touches cur x then mergeFrom (join cur x) xs else cur :: mergeFrom x xs

/-- The pass over a whole list. -/
def merge : List (Span κ ι) → List (Span κ ι)
  | [] => []
  | x :: xs => mergeFrom x xs

/-- With sorted input, absorbing `x` keeps the span in hand before everything still to come. -/
theorem sorted_join {cur x : Span κ ι} {xs : List (Span κ ι)}
    (h : (cur :: x :: xs).Pairwise Before) :
    (join cur x :: xs).Pairwise Before := by
  simp only [List.pairwise_cons, List.mem_cons, forall_eq_or_imp] at h ⊢
  obtain ⟨⟨-, hcur⟩, -, hxs⟩ := h
  refine ⟨fun y hy => ?_, hxs⟩
  obtain hlt | ⟨heq, hle⟩ := hcur y hy
  · exact Or.inl hlt
  · exact Or.inr ⟨heq, (min_le_left _ _).trans hle⟩

/-- An emitted span starts where some input span of its key starts. -/
theorem mergeFrom_start {cur : Span κ ι} {xs : List (Span κ ι)}
    (h : (cur :: xs).Pairwise Before) {o : Span κ ι} (ho : o ∈ mergeFrom cur xs) :
    ∃ s ∈ cur :: xs, o.key = s.key ∧ o.lo = s.lo := by
  induction xs generalizing cur with
  | nil =>
      rw [mergeFrom, List.mem_singleton] at ho
      exact ⟨cur, by simp, by simp [ho]⟩
  | cons x xs ih =>
      rw [mergeFrom] at ho
      split at ho
      next ht =>
        obtain ⟨s, hs, hkey, hlo⟩ := ih (sorted_join h) ho
        obtain rfl | hs := List.mem_cons.mp hs
        · -- the hull starts with `cur`, which comes no later than `x`
          have hcx : Before cur x := (List.pairwise_cons.mp h).1 x (by simp)
          have hle : cur.lo ≤ x.lo := by
            obtain hlt | ⟨-, hle⟩ := hcx
            · exact absurd ht.1 hlt.ne
            · exact hle
          exact ⟨cur, by simp, hkey, by rw [hlo, join_lo, min_eq_left hle]⟩
        · exact ⟨s, by simp [hs], hkey, hlo⟩
      next =>
        obtain rfl | ho := List.mem_cons.mp ho
        · exact ⟨o, by simp, rfl, rfl⟩
        · obtain ⟨s, hs, hstart⟩ := ih (List.pairwise_cons.mp h).2 ho
          exact ⟨s, List.mem_cons_of_mem _ hs, hstart⟩

/-- Emitted spans are sorted with a gap under each key. -/
theorem mergeFrom_apart {cur : Span κ ι} {xs : List (Span κ ι)}
    (h : (cur :: xs).Pairwise Before) : (mergeFrom cur xs).Pairwise Apart := by
  induction xs generalizing cur with
  | nil => simp [mergeFrom]
  | cons x xs ih =>
      rw [mergeFrom]
      split
      next ht => exact ih (sorted_join h)
      next ht =>
        obtain ⟨hcur, htail⟩ := List.pairwise_cons.mp h
        refine List.pairwise_cons.mpr ⟨fun o ho => ?_, ih htail⟩
        obtain ⟨s, hs, hkey, hlo⟩ := mergeFrom_start htail ho
        -- `x` did not touch `cur`, and `s` comes no earlier than `x`
        have hgap : Apart cur x := by
          obtain hlt | ⟨heq, hle⟩ := hcur x (by simp)
          · exact Or.inl hlt
          · refine Or.inr ⟨heq, ?_⟩
            by_contra hno
            exact ht ⟨heq, not_lt.mp hno, hle.trans x.lo_le_hi⟩
        have hxs : x.key < s.key ∨ x.key = s.key ∧ x.lo ≤ s.lo := by
          obtain rfl | hs := List.mem_cons.mp hs
          · exact Or.inr ⟨rfl, le_rfl⟩
          · exact (List.pairwise_cons.mp htail).1 s hs
        obtain hlt | ⟨heq, hlt⟩ := hgap
        · exact Or.inl (by rw [hkey]; exact hxs.elim hlt.trans fun hx => hx.1 ▸ hlt)
        · obtain hx | ⟨hx, hle⟩ := hxs
          · exact Or.inl (by rw [hkey, heq]; exact hx)
          · exact Or.inr ⟨by rw [hkey, heq, hx], by rw [hlo]; exact hlt.trans_le hle⟩

/-- Whatever the hull of two touching spans covers as their union does, the pass neither loses nor
adds to. -/
theorem mergeFrom_cover {α : Type*} {cover : Span κ ι → Set α}
    (hjoin : ∀ s t, Touches s t → cover (join s t) = cover s ∪ cover t) (cur : Span κ ι)
    (xs : List (Span κ ι)) (p : α) :
    (∃ o ∈ mergeFrom cur xs, p ∈ cover o) ↔ ∃ s ∈ cur :: xs, p ∈ cover s := by
  induction xs generalizing cur with
  | nil => simp [mergeFrom]
  | cons x xs ih =>
      rw [mergeFrom]
      split
      next ht => simp [ih, hjoin _ _ ht, or_and_right, exists_or, or_assoc]
      next => simp [ih]

/-- Every input span ends up inside an emitted one. -/
theorem exists_within_mergeFrom {cur : Span κ ι} {xs : List (Span κ ι)} {s : Span κ ι}
    (hs : s ∈ cur :: xs) : ∃ o ∈ mergeFrom cur xs, Within s o := by
  induction xs generalizing cur s with
  | nil => exact ⟨s, by simpa [mergeFrom] using hs, Within.refl s⟩
  | cons x xs ih =>
      rw [mergeFrom]
      split
      next ht =>
        obtain rfl | hs := List.mem_cons.mp hs
        · obtain ⟨o, ho, hw⟩ := ih (List.mem_cons_self : join s x ∈ join s x :: xs)
          exact ⟨o, ho, (within_join_left s x).trans hw⟩
        · obtain rfl | hs := List.mem_cons.mp hs
          · obtain ⟨o, ho, hw⟩ := ih (List.mem_cons_self : join cur s ∈ join cur s :: xs)
            exact ⟨o, ho, (within_join_right ht).trans hw⟩
          · exact ih (List.mem_cons_of_mem _ hs)
      next =>
        obtain rfl | hs := List.mem_cons.mp hs
        · exact ⟨s, by simp, Within.refl s⟩
        · obtain ⟨o, ho, hw⟩ := ih hs
          exact ⟨o, List.mem_cons_of_mem _ ho, hw⟩

/-- An emitted span carries the least tag of the input spans inside it. -/
theorem mergeFrom_tag {cur : Span κ ι} {xs : List (Span κ ι)}
    (h : (cur :: xs).Pairwise Before) {o : Span κ ι} (ho : o ∈ mergeFrom cur xs) :
    IsLeast {i | ∃ s ∈ cur :: xs, Within s o ∧ s.tag = i} o.tag := by
  induction xs generalizing cur with
  | nil =>
      obtain rfl : o = cur := by simpa [mergeFrom] using ho
      exact ⟨⟨o, by simp, Within.refl o, rfl⟩, by rintro i ⟨s, hs, -, rfl⟩; simp_all⟩
  | cons x xs ih =>
      rw [mergeFrom] at ho
      split at ho
      next ht =>
        have hsort := sorted_join h
        obtain ⟨⟨s, hs, hw, htag⟩, hleast⟩ := ih hsort ho
        -- an emitted span holding `cur` or `x` holds the hull of the two
        have hhull : ∀ y : Span κ ι, Within y (join cur x) → Within y o → Within (join cur x) o := by
          intro y hy hyo
          obtain ⟨o', ho', hw'⟩ :=
            exists_within_mergeFrom (List.mem_cons_self : join cur x ∈ join cur x :: xs)
          rwa [within_unique (mergeFrom_apart hsort) ho ho' hyo (hy.trans hw')]
        constructor
        · obtain rfl | hs := List.mem_cons.mp hs
          · obtain hmin | hmin := min_cases x.tag cur.tag
            · exact ⟨x, by simp, (within_join_right ht).trans hw, by rw [← htag, join_tag, hmin.1]⟩
            · exact ⟨cur, by simp, (within_join_left cur x).trans hw, by rw [← htag, join_tag, hmin.1]⟩
          · exact ⟨s, by simp [hs], hw, htag⟩
        · rintro i ⟨y, hy, hyo, rfl⟩
          obtain rfl | hy := List.mem_cons.mp hy
          · have := hleast ⟨join y x, by simp, hhull y (within_join_left y x) hyo, rfl⟩
            exact this.trans (min_le_right _ _)
          · obtain rfl | hy := List.mem_cons.mp hy
            · have := hleast ⟨join cur y, by simp, hhull y (within_join_right ht) hyo, rfl⟩
              exact this.trans (min_le_left _ _)
            · exact hleast ⟨y, List.mem_cons_of_mem _ hy, hyo, rfl⟩
      next ht =>
        have hall : (mergeFrom cur (x :: xs)).Pairwise Apart := mergeFrom_apart h
        rw [mergeFrom, if_neg ht] at hall
        obtain ⟨hcur, hrest⟩ := List.pairwise_cons.mp hall
        obtain rfl | ho' := List.mem_cons.mp ho
        · refine ⟨⟨o, by simp, Within.refl o, rfl⟩, ?_⟩
          rintro i ⟨y, hy, hyo, rfl⟩
          obtain rfl | hy := List.mem_cons.mp hy
          · exact le_rfl
          · obtain ⟨o', ho', hw'⟩ := exists_within_mergeFrom hy
            exact absurd hw' ((hcur o' ho').not_within hyo)
        · obtain ⟨⟨s, hs, hw, htag⟩, hleast⟩ := ih (List.pairwise_cons.mp h).2 ho'
          refine ⟨⟨s, List.mem_cons_of_mem _ hs, hw, htag⟩, ?_⟩
          rintro i ⟨y, hy, hyo, rfl⟩
          obtain rfl | hy := List.mem_cons.mp hy
          · exact absurd hyo ((hcur o ho').not_within (Within.refl y))
          · exact hleast ⟨y, hy, hyo, rfl⟩

/-! ## §4 — the pass over a list -/

section Merge

variable {l : List (Span κ ι)}

theorem merge_apart (h : l.Pairwise Before) : (merge l).Pairwise Apart := by
  cases l with
  | nil => exact List.Pairwise.nil
  | cons x xs => exact mergeFrom_apart h

theorem merge_cover {α : Type*} {cover : Span κ ι → Set α}
    (hjoin : ∀ s t, Touches s t → cover (join s t) = cover s ∪ cover t) (l : List (Span κ ι))
    (p : α) : (∃ o ∈ merge l, p ∈ cover o) ↔ ∃ s ∈ l, p ∈ cover s := by
  cases l with
  | nil => simp [merge]
  | cons x xs => exact mergeFrom_cover hjoin x xs p

/-- Nothing is covered that was not, and nothing is lost. -/
theorem merge_points (l : List (Span κ ι)) (p : κ × ℕ) :
    (∃ o ∈ merge l, p ∈ o.points) ↔ ∃ s ∈ l, p ∈ s.points :=
  merge_cover (fun _ _ => points_join) l p

theorem existsUnique_within_merge (h : l.Pairwise Before) {s : Span κ ι} (hs : s ∈ l) :
    ∃! o, o ∈ merge l ∧ Within s o := by
  cases l with
  | nil => simp at hs
  | cons x xs =>
      obtain ⟨o, ho, hw⟩ := exists_within_mergeFrom hs
      exact ⟨o, ⟨ho, hw⟩, fun o' ⟨ho', hw'⟩ => within_unique (mergeFrom_apart h) ho' ho hw' hw⟩

theorem merge_tag (h : l.Pairwise Before) {o : Span κ ι} (ho : o ∈ merge l) :
    IsLeast {i | ∃ s ∈ l, Within s o ∧ s.tag = i} o.tag := by
  cases l with
  | nil => simp [merge] at ho
  | cons x xs => exact mergeFrom_tag h ho

end Merge

/-! ## §5 — the result depends on the region alone -/

/-- The region of a span in half steps: the point `p` is `2 * p + 1`, and the bounds around it are
`2 * p` and `2 * p + 2`. An empty span has its bound. -/
def Span.region (s : Span κ ι) : Set (κ × ℕ) := {p | p.1 = s.key ∧ 2 * s.lo ≤ p.2 ∧ p.2 ≤ 2 * s.hi}

/-- A span without its tag. -/
def Span.bounds (s : Span κ ι) : κ ×ₗ ℕ ×ₗ ℕ := toLex (s.key, toLex (s.lo, s.hi))

omit [LinearOrder κ] in
theorem region_join {s t : Span κ ι} (h : Touches s t) :
    (join s t).region = s.region ∪ t.region := by
  obtain ⟨hkey, htl, hsl⟩ := h
  ext ⟨k, p⟩
  simp only [Span.region, Set.mem_ofPred_eq, Set.mem_union, join_key, join_lo, join_hi, ← hkey]
  have := s.lo_le_hi
  have := t.lo_le_hi
  constructor
  · rintro ⟨rfl, hlo, hhi⟩
    by_cases hp : 2 * s.lo ≤ p ∧ p ≤ 2 * s.hi
    · exact Or.inl ⟨rfl, hp⟩
    · exact Or.inr ⟨rfl, by omega, by omega⟩
  · rintro (⟨rfl, hlo, hhi⟩ | ⟨rfl, hlo, hhi⟩)
    · exact ⟨rfl, by omega, by omega⟩
    · exact ⟨rfl, by omega, by omega⟩

omit [LinearOrder ι] in
theorem Apart.bounds_lt {s t : Span κ ι} (h : Apart s t) : s.bounds < t.bounds := by
  have := s.lo_le_hi
  rw [Span.bounds, Span.bounds, Prod.Lex.toLex_lt_toLex]
  obtain hlt | ⟨heq, hgap⟩ := h
  · exact Or.inl hlt
  · refine Or.inr ⟨heq, ?_⟩
    rw [Prod.Lex.toLex_lt_toLex]
    exact Or.inl (by omega)

omit [LinearOrder ι] in
/-- Spans apart from each other that cover a span hold it in one of them. -/
theorem exists_within_of_region {l : List (Span κ ι)} (h : l.Pairwise Apart) {s : Span κ ι}
    (hs : ∀ p ∈ s.region, ∃ o ∈ l, p ∈ o.region) : ∃ o ∈ l, Within s o := by
  have hle := s.lo_le_hi
  obtain ⟨o, ho, hkey, hlo, hhi⟩ := hs (s.key, 2 * s.lo) ⟨rfl, le_rfl, by omega⟩
  dsimp only at hkey hlo hhi
  refine ⟨o, ho, hkey, by omega, ?_⟩
  by_contra hshort
  -- the half step behind `o` is in some other span, which leaves no gap
  obtain ⟨o', ho', hkey', hlo', hhi'⟩ :=
    hs (s.key, 2 * o.hi + 1) ⟨rfl, by dsimp only; omega, by dsimp only; omega⟩
  dsimp only at hkey' hlo' hhi'
  have happart : o = o' ∨ Apart o o' ∨ Apart o' o := eq_or_apart h ho ho'
  have := o.lo_le_hi
  have := o'.lo_le_hi
  obtain rfl | (hlt | ⟨-, hgap⟩) | (hlt | ⟨-, hgap⟩) := happart
  · omega
  · exact hlt.ne (hkey.symm.trans hkey')
  · omega
  · exact hlt.ne (hkey'.symm.trans hkey)
  · omega

omit [LinearOrder ι] in
/-- One half of uniqueness: the bounds of the one list are among those of the other. -/
theorem bounds_mem_of_region {l l' : List (Span κ ι)} (h : l.Pairwise Apart) (h' : l'.Pairwise Apart)
    (hregion : ∀ p, (∃ o ∈ l, p ∈ o.region) ↔ ∃ o ∈ l', p ∈ o.region) {o : Span κ ι} (ho : o ∈ l) :
    o.bounds ∈ l'.map Span.bounds := by
  obtain ⟨o', ho', hw'⟩ := exists_within_of_region h' fun p hp => (hregion p).1 ⟨o, ho, hp⟩
  obtain ⟨o₂, ho₂, hw₂⟩ := exists_within_of_region h fun p hp => (hregion p).2 ⟨o', ho', hp⟩
  obtain rfl := within_unique h ho ho₂ (Within.refl o) (hw'.trans hw₂)
  have hlo : o.lo = o'.lo := le_antisymm hw₂.2.1 hw'.2.1
  have hhi : o.hi = o'.hi := le_antisymm hw'.2.2 hw₂.2.2
  have hbounds : o'.bounds = o.bounds := by
    rw [Span.bounds, Span.bounds, hw'.1, hlo, hhi]
  exact hbounds ▸ List.mem_map_of_mem ho'

omit [LinearOrder ι] in
/-- **Spans apart from each other are determined, up to tags, by the region they cover.** -/
theorem bounds_eq_of_region {l l' : List (Span κ ι)} (h : l.Pairwise Apart) (h' : l'.Pairwise Apart)
    (hregion : ∀ p, (∃ o ∈ l, p ∈ o.region) ↔ ∃ o ∈ l', p ∈ o.region) :
    l.map Span.bounds = l'.map Span.bounds := by
  have hsorted : (l.map Span.bounds).Pairwise (· < ·) :=
    List.pairwise_map.2 (h.imp Apart.bounds_lt)
  have hsorted' : (l'.map Span.bounds).Pairwise (· < ·) :=
    List.pairwise_map.2 (h'.imp Apart.bounds_lt)
  refine hsorted.eq_of_mem_iff hsorted' fun b => ⟨fun hb => ?_, fun hb => ?_⟩
  · obtain ⟨o, ho, rfl⟩ := List.mem_map.1 hb
    exact bounds_mem_of_region h h' hregion ho
  · obtain ⟨o, ho, rfl⟩ := List.mem_map.1 hb
    exact bounds_mem_of_region h' h (fun p => (hregion p).symm) ho

/-- **The pass over sorted lists that cover the same region gives the same spans, up to tags.** -/
theorem merge_bounds_eq {l l' : List (Span κ ι)} (h : l.Pairwise Before) (h' : l'.Pairwise Before)
    (hregion : ∀ p, (∃ s ∈ l, p ∈ s.region) ↔ ∃ s ∈ l', p ∈ s.region) :
    (merge l).map Span.bounds = (merge l').map Span.bounds := by
  refine bounds_eq_of_region (merge_apart h) (merge_apart h') fun p => ?_
  rw [merge_cover (fun _ _ => region_join), merge_cover (fun _ _ => region_join), hregion]

end SpanMerge

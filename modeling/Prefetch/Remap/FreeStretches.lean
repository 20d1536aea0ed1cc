/-
# Prefetch.Remap.FreeStretches — the search of `find_free_blocks` through the bitmap

The search goes on in steps of 8 to a free block and from there to the end of the stretch it begins; the
next one is looked for behind. What it finds depends on the bitmap alone: `stretches` lists it, and
`scan_searched` is that the search finds just these, in order, unless one of them is long enough for all the
data.

The last block of the bitmap is compared with as if it were the end, so that no stretch contains it.
-/
import Mathlib.Algebra.GroupWithZero.Nat
import Mathlib.Data.List.Sort
import Mathlib.Data.Nat.Notation
import Mathlib.Tactic.Common

namespace Prefetch.Remap

/-! ## §1 — the search -/

/-- `fs->block_map`: its first and last block, and which are used. Rounding a block number up to the next
multiple of 8 stays in 32 bits. -/
structure BlockBitmap where
  start : ℕ
  stop : ℕ
  used : ℕ → Bool
  stop_le : stop + 8 ≤ 2 ^ 32

/-- A stretch of free blocks: a `struct free_extent` before its `offset` is set. -/
structure Stretch where
  block : ℕ
  len : ℕ
  deriving DecidableEq, Repr

section Scan

variable (map : BlockBitmap)

/-- `(actblk + 8) & ~7` -/
def nextAligned (actblk : ℕ) : ℕ := (actblk + 8) / 8 * 8

/-- On to a free block, in steps of 8. -/
def skipUsed (actblk : ℕ) : ℕ :=
  if map.used actblk ∧ actblk < map.stop then skipUsed (actblk + 8) else actblk
termination_by map.stop - actblk

/-- On to the end of a stretch. -/
def skipFree (actblk : ℕ) : ℕ :=
  if ¬ map.used actblk ∧ actblk < map.stop then skipFree (actblk + 1) else actblk
termination_by map.stop - actblk

/-- How the search ends: with a stretch for all the data, with the stretches found, or without memory. -/
inductive ScanResult where
  | single (block : ℕ)
  | found (stretches : List Stretch)
  | noMemory
  deriving DecidableEq, Repr

theorem le_skipUsed (actblk : ℕ) : actblk ≤ skipUsed map actblk := by
  fun_induction skipUsed map actblk with
  | case1 actblk h ih => omega
  | case2 actblk h => exact Nat.le_refl _

theorem le_skipFree (actblk : ℕ) : actblk ≤ skipFree map actblk := by
  fun_induction skipFree map actblk with
  | case1 actblk h ih => omega
  | case2 actblk h => exact Nat.le_refl _

theorem lt_nextAligned (actblk : ℕ) : actblk < nextAligned actblk := by
  unfold nextAligned
  omega

/-- The search from `actblk` on, with what was found so far in an array of `allocated` entries, `memory`
saying whether there is room for one of a size. -/
def scan (remapBlocks minFreeExtentSize : ℕ) (memory : ℕ → Bool) (actblk : ℕ) (found : List Stretch)
    (allocated : ℕ) : ScanResult :=
  if actblk < map.stop then
    let first := skipUsed map (nextAligned actblk)
    if map.stop ≤ first then .found found
    else
      let behind := skipFree map first
      let stretch : Stretch := ⟨first, behind - first⟩
      if remapBlocks < stretch.len then .single first
      else if minFreeExtentSize ≤ stretch.len then
        if allocated ≤ found.length + 1 then
          if memory (allocated + 1024) then
            scan remapBlocks minFreeExtentSize memory behind (found ++ [stretch]) (allocated + 1024)
          else .noMemory
        else scan remapBlocks minFreeExtentSize memory behind (found ++ [stretch]) allocated
      else scan remapBlocks minFreeExtentSize memory behind found allocated
  else .found found
termination_by map.stop - actblk
decreasing_by
  all_goals
    have := lt_nextAligned actblk
    have := le_skipUsed map (nextAligned actblk)
    have := le_skipFree map (skipUsed map (nextAligned actblk))
    omega

end Scan

/-! ## §2 — the stretches of a bitmap -/

/-- A stretch the search can find: it begins at a multiple of 8, with a used block or the first one of the
bitmap in the 8 before it, and it ends before a used block or the last one. -/
structure IsStretch (map : BlockBitmap) (s : Stretch) : Prop where
  aligned : s.block % 8 = 0
  start_lt : map.start < s.block
  pos : 0 < s.len
  le_stop : s.block + s.len ≤ map.stop
  free : ∀ b, s.block ≤ b → b < s.block + s.len → map.used b = false
  ends : s.block + s.len < map.stop → map.used (s.block + s.len) = true
  begins : s.block ≤ map.start + 8 ∨ ∃ b, b < s.block ∧ s.block ≤ b + 8 ∧ map.used b = true

variable {map : BlockBitmap}

/-- There is one stretch from a block on. -/
theorem IsStretch.eq_of_block {s t : Stretch} (hs : IsStretch map s) (ht : IsStretch map t)
    (h : s.block = t.block) : s = t := by
  obtain ⟨block, len⟩ := s
  obtain ⟨block', len'⟩ := t
  obtain rfl : block = block' := h
  have hsame : ∀ {m n : ℕ}, IsStretch map ⟨block, m⟩ → IsStretch map ⟨block, n⟩ → ¬ m < n := by
    intro m n hm hn hlt
    have hend := hm.ends (show block + m < map.stop from lt_of_lt_of_le (by simpa using hlt) hn.le_stop)
    have hfree := hn.free (block + m) (Nat.le_add_right _ _) (Nat.add_lt_add_left hlt _)
    rw [show map.used (block + m) = true from hend] at hfree
    cases hfree
  have hlen : len = len' := by
    have := hsame hs ht
    have := hsame ht hs
    omega
  rw [hlen]

/-- One stretch ends, with a used block behind it, before the next one begins. -/
theorem IsStretch.lt_block {s t : Stretch} (hs : IsStretch map s) (ht : IsStretch map t)
    (h : s.block < t.block) : s.block + s.len < t.block := by
  by_contra hle
  have htpos := ht.pos
  have htle := ht.le_stop
  have hsaligned := hs.aligned
  have htaligned := ht.aligned
  rcases Nat.lt_or_ge t.block (s.block + s.len) with hin | hat
  · rcases ht.begins with hbegins | ⟨b, hb, hnear, hused⟩
    · have := hs.start_lt
      omega
    · rw [hs.free b (by omega) (by omega)] at hused
      cases hused
  · have hused := hs.ends (by omega)
    rw [show s.block + s.len = t.block by omega, ht.free _ (Nat.le_refl _) (by omega)] at hused
    cases hused

theorem skipUsed_spec (map : BlockBitmap) {a : ℕ} (ha : a % 8 = 0) :
    skipUsed map a % 8 = 0 ∧
      (∀ p, a ≤ p → p < skipUsed map a → p % 8 = 0 → map.used p = true) ∧
      (skipUsed map a < map.stop → map.used (skipUsed map a) = false) := by
  fun_induction skipUsed map a with
  | case1 a h ih =>
      obtain ⟨haligned, hused, hfree⟩ := ih (by omega)
      refine ⟨haligned, fun p hp hlt hpa => ?_, hfree⟩
      by_cases heq : p = a
      · exact heq ▸ h.1
      · exact hused p (by omega) hlt hpa
  | case2 a h =>
      refine ⟨ha, fun p hp hlt => absurd hp (by omega), fun hlt => ?_⟩
      by_contra hused
      exact h ⟨by simpa using hused, hlt⟩

theorem skipFree_spec (map : BlockBitmap) {a : ℕ} (ha : a ≤ map.stop) :
    skipFree map a ≤ map.stop ∧ (∀ b, a ≤ b → b < skipFree map a → map.used b = false) ∧
      (skipFree map a < map.stop → map.used (skipFree map a) = true) := by
  fun_induction skipFree map a with
  | case1 a h ih =>
      obtain ⟨hle, hfree, hused⟩ := ih (by omega)
      refine ⟨hle, fun b hb hlt => ?_, hused⟩
      by_cases heq : b = a
      · subst heq
        simpa using h.1
      · exact hfree b (by omega) hlt
  | case2 a h =>
      refine ⟨ha, fun b hb hlt => absurd hb (by omega), fun hlt => ?_⟩
      by_contra hfree
      exact h ⟨hfree, hlt⟩

/-- Where the search goes on: at the first block, behind a stretch or at the end. -/
def Edge (map : BlockBitmap) (actblk : ℕ) : Prop :=
  actblk = map.start ∨ map.start < actblk ∧ (map.used actblk = true ∨ map.stop ≤ actblk)

/-- What one turn of the search finds is a stretch, the first one behind the place it is at. -/
theorem turn_spec {actblk first behind : ℕ} (hedge : Edge map actblk)
    (hfirst : skipUsed map (nextAligned actblk) = first) (hmore : first < map.stop)
    (hbehind : skipFree map first = behind) :
    IsStretch map ⟨first, behind - first⟩ ∧ actblk < first ∧ first < behind ∧ Edge map behind ∧
      ∀ t, IsStretch map t → actblk < t.block → t.block = first ∨ behind < t.block := by
  have hnext := lt_nextAligned actblk
  have hle : nextAligned actblk ≤ first := hfirst ▸ le_skipUsed map _
  have hnextAligned : nextAligned actblk % 8 = 0 := Nat.mul_mod_left _ _
  obtain ⟨haligned, hused, hfree⟩ := skipUsed_spec map hnextAligned
  obtain ⟨hstop, hfreeRun, hend⟩ := skipFree_spec map hmore.le
  rw [hfirst] at haligned hused hfree
  have hlt : first < behind := by
    have hstep : skipFree map first = skipFree map (first + 1) := by
      rw [skipFree, if_pos ⟨by rw [hfree hmore]; exact Bool.false_ne_true, hmore⟩]
    have := le_skipFree map (first + 1)
    omega
  rw [hbehind] at hstop hfreeRun hend
  obtain ⟨len, rfl⟩ : ∃ len, behind = first + len := ⟨behind - first, by omega⟩
  rw [Nat.add_sub_cancel_left]
  have hstart : map.start < first := by
    rcases hedge with rfl | ⟨hlt, -⟩ <;> omega
  have hbegins : first ≤ map.start + 8 ∨ ∃ b, b < first ∧ first ≤ b + 8 ∧ map.used b = true := by
    by_cases hat : first = nextAligned actblk
    · -- the place the search is at lies in the 8 blocks before
      have hnear : first ≤ actblk + 8 := by
        rw [hat]
        unfold nextAligned
        omega
      rcases hedge with rfl | ⟨hlt, hact | hact⟩
      · exact .inl hnear
      · exact .inr ⟨actblk, by omega, hnear, hact⟩
      · omega
    · exact .inr ⟨first - 8, by omega, by omega, hused (first - 8) (by omega) (by omega) (by omega)⟩
  have hs : IsStretch map ⟨first, len⟩ :=
    ⟨haligned, hstart, by show 0 < len; omega, hstop, hfreeRun, hend, hbegins⟩
  refine ⟨hs, by omega, hlt, ?_, ?_⟩
  · refine .inr ⟨by omega, ?_⟩
    rcases Nat.lt_or_ge (first + len) map.stop with hlt | hge
    · exact .inl (hend hlt)
    · exact .inr hge
  · intro t ht hact
    have htpos := ht.pos
    have htle := ht.le_stop
    have htaligned := ht.aligned
    have htfree : map.used t.block = false := ht.free t.block (Nat.le_refl _) (by omega)
    have htnext : nextAligned actblk ≤ t.block := by
      unfold nextAligned
      omega
    have hnotBefore : ¬ t.block < first := by
      intro hlt
      rw [hused t.block htnext hlt htaligned] at htfree
      cases htfree
    rcases Nat.lt_trichotomy t.block first with hlt | heq | hgt
    · exact absurd hlt hnotBefore
    · exact .inl heq
    · exact .inr (hs.lt_block ht hgt)

/-- Where nothing is found, there is no stretch any more. -/
theorem turn_none {actblk : ℕ} (hnone : map.stop ≤ skipUsed map (nextAligned actblk)) {t : Stretch}
    (ht : IsStretch map t) : ¬ actblk < t.block := by
  intro hact
  have htpos := ht.pos
  have htle := ht.le_stop
  have htaligned := ht.aligned
  have hnext : nextAligned actblk ≤ t.block := by
    unfold nextAligned
    omega
  have hnextAligned : nextAligned actblk % 8 = 0 := Nat.mul_mod_left _ _
  obtain ⟨-, hused, -⟩ := skipUsed_spec map hnextAligned
  have htused := hused t.block hnext (by omega) htaligned
  rw [ht.free t.block (Nat.le_refl _) (by omega)] at htused
  cases htused

/-! ## §3 — what the search finds -/

/-- In the order of their blocks. -/
def InOrder (stretches : List Stretch) : Prop := stretches.Pairwise fun s t => s.block + s.len < t.block

/-- What the search may come back with, from `actblk` on: a stretch for all the data, if there is one, or
all stretches that are long enough to be kept. -/
inductive Searched (map : BlockBitmap) (remapBlocks minFreeExtentSize actblk : ℕ) (found : List Stretch) :
    ScanResult → Prop
  | single (s : Stretch) (hs : IsStretch map s) (hact : actblk < s.block) (hlen : remapBlocks < s.len) :
      Searched map remapBlocks minFreeExtentSize actblk found (.single s.block)
  | found (more : List Stretch) (horder : InOrder more)
      (hmem : ∀ s, s ∈ more ↔ IsStretch map s ∧ actblk < s.block ∧ minFreeExtentSize ≤ s.len)
      (hlen : ∀ s, IsStretch map s → actblk < s.block → s.len ≤ remapBlocks) :
      Searched map remapBlocks minFreeExtentSize actblk found (.found (found ++ more))
  | noMemory : Searched map remapBlocks minFreeExtentSize actblk found .noMemory

/-- A turn that found a stretch, before what is found behind. -/
theorem Searched.cons {remapBlocks minFreeExtentSize actblk behind : ℕ} {found kept : List Stretch}
    {s : Stretch} {r : ScanResult} (hs : IsStretch map s) (hact : actblk < s.block)
    (hbehind : s.block + s.len = behind)
    (hnext : ∀ t, IsStretch map t → actblk < t.block → t.block = s.block ∨ behind < t.block)
    (hshort : s.len ≤ remapBlocks)
    (hkept : kept = if minFreeExtentSize ≤ s.len then [s] else [])
    (hr : Searched map remapBlocks minFreeExtentSize behind (found ++ kept) r) :
    Searched map remapBlocks minFreeExtentSize actblk found r := by
  have hpos := hs.pos
  cases hr with
  | single t ht hlt hlen => exact .single t ht (by omega) hlen
  | noMemory => exact .noMemory
  | found more horder hmem hlen =>
      rw [List.append_assoc]
      have hkeptMem : ∀ t, t ∈ kept ↔ t = s ∧ minFreeExtentSize ≤ s.len := by
        intro t
        rw [hkept]
        split <;> simp_all
      refine .found (kept ++ more) ?_ ?_ ?_
      · refine List.pairwise_append.2 ⟨?_, horder, ?_⟩
        · rw [hkept]
          split <;> simp
        · intro a ha b hb
          obtain ⟨rfl, -⟩ := (hkeptMem a).1 ha
          have := ((hmem b).1 hb).2.1
          omega
      · intro t
        rw [List.mem_append, hkeptMem, hmem]
        constructor
        · rintro (⟨rfl, hmin⟩ | ⟨ht, hlt, hmin⟩)
          · exact ⟨hs, hact, hmin⟩
          · exact ⟨ht, by omega, hmin⟩
        · rintro ⟨ht, hlt, hmin⟩
          rcases hnext t ht hlt with heq | hfar
          · have hsame := ht.eq_of_block hs heq
            exact .inl ⟨hsame, hsame ▸ hmin⟩
          · exact .inr ⟨ht, hfar, hmin⟩
      · intro t ht hlt
        rcases hnext t ht hlt with heq | hfar
        · rw [ht.eq_of_block hs heq]
          exact hshort
        · exact hlen t ht hfar

/-- **The search finds every stretch.** -/
theorem scan_searched (remapBlocks minFreeExtentSize : ℕ) (memory : ℕ → Bool) {actblk : ℕ}
    (hedge : Edge map actblk) (found : List Stretch) (allocated : ℕ) :
    Searched map remapBlocks minFreeExtentSize actblk found
      (scan map remapBlocks minFreeExtentSize memory actblk found allocated) := by
  have hnothing : ∀ (actblk : ℕ) (found : List Stretch), (∀ s, IsStretch map s → ¬ actblk < s.block) →
      Searched map remapBlocks minFreeExtentSize actblk found (.found found) := by
    intro actblk found hnone
    have hfound : Searched map remapBlocks minFreeExtentSize actblk found (.found (found ++ [])) :=
      .found [] List.Pairwise.nil (fun s => ⟨nofun, fun h => absurd h.2.1 (hnone s h.1)⟩)
        (fun s hs hlt => absurd hlt (hnone s hs))
    rwa [List.append_nil] at hfound
  fun_induction scan map remapBlocks minFreeExtentSize memory actblk found allocated with
  | case1 actblk found allocated hlt first hnone => exact hnothing _ _ fun s hs => turn_none hnone hs
  | case2 actblk found allocated hlt first hmore behind stretch hlong =>
      obtain ⟨hs, hact, -⟩ := turn_spec hedge rfl (Nat.lt_of_not_le hmore) rfl
      exact .single _ hs hact hlong
  | case3 actblk found allocated hlt first hmore behind stretch hshort hmin hfull hmemory ih =>
      obtain ⟨hs, hact, hbehind, hnewEdge, hnext⟩ := turn_spec hedge rfl (Nat.lt_of_not_le hmore) rfl
      exact (ih hnewEdge).cons hs hact (Nat.add_sub_cancel' hbehind.le) hnext (Nat.le_of_not_lt hshort)
        (if_pos hmin).symm
  | case4 => exact .noMemory
  | case5 actblk found allocated hlt first hmore behind stretch hshort hmin hroom ih =>
      obtain ⟨hs, hact, hbehind, hnewEdge, hnext⟩ := turn_spec hedge rfl (Nat.lt_of_not_le hmore) rfl
      exact (ih hnewEdge).cons hs hact (Nat.add_sub_cancel' hbehind.le) hnext (Nat.le_of_not_lt hshort)
        (if_pos hmin).symm
  | case6 actblk found allocated hlt first hmore behind stretch hshort hmin ih =>
      obtain ⟨hs, hact, hbehind, hnewEdge, hnext⟩ := turn_spec hedge rfl (Nat.lt_of_not_le hmore) rfl
      have hskip : Searched map remapBlocks minFreeExtentSize behind (found ++ [])
          (scan map remapBlocks minFreeExtentSize memory behind found allocated) := by
        rw [List.append_nil]
        exact ih hnewEdge
      exact hskip.cons hs hact (Nat.add_sub_cancel' hbehind.le) hnext (Nat.le_of_not_lt hshort)
        (if_neg hmin).symm
  | case7 actblk found allocated hend =>
      apply hnothing
      intro s hs hlt
      have := hs.pos
      have := hs.le_stop
      omega

/-- With memory for everything the search does not fail. -/
theorem scan_ne_noMemory (remapBlocks minFreeExtentSize : ℕ) {memory : ℕ → Bool}
    (hmemory : ∀ n, memory n = true) (actblk : ℕ) (found : List Stretch) (allocated : ℕ) :
    scan map remapBlocks minFreeExtentSize memory actblk found allocated ≠ .noMemory := by
  fun_induction scan map remapBlocks minFreeExtentSize memory actblk found allocated with
  | case1 => nofun
  | case2 => nofun
  | case3 actblk found allocated hlt first hmore behind stretch hshort hmin hfull hmem ih => exact ih
  | case4 actblk found allocated hlt first hmore behind stretch hshort hmin hfull hmem =>
      exact absurd (hmemory _) hmem
  | case5 actblk found allocated hlt first hmore behind stretch hshort hmin hroom ih => exact ih
  | case6 actblk found allocated hlt first hmore behind stretch hshort hmin ih => exact ih
  | case7 => nofun

/-! ## §4 — the list of stretches -/

/-- The free blocks from one on, of the next `n`. -/
def freeRun (used : ℕ → Bool) : ℕ → ℕ → ℕ
  | 0, _ => 0
  | n + 1, p => if used p then 0 else freeRun used n (p + 1) + 1

theorem freeRun_spec (used : ℕ → Bool) (n p : ℕ) :
    freeRun used n p ≤ n ∧ (∀ b, p ≤ b → b < p + freeRun used n p → used b = false) ∧
      (freeRun used n p < n → used (p + freeRun used n p) = true) := by
  induction n generalizing p with
  | zero => exact ⟨Nat.le_refl _, fun b hb hlt => absurd hlt (by simp only [freeRun]; omega), nofun⟩
  | succ n ih =>
      rw [freeRun]
      cases hp : used p with
      | true =>
          rw [if_pos rfl]
          exact ⟨Nat.zero_le _, fun b hb hlt => absurd hlt (by omega), fun _ => hp⟩
      | false =>
          rw [if_neg Bool.false_ne_true]
          obtain ⟨hle, hfree, hused⟩ := ih (p + 1)
          refine ⟨by omega, fun b hb hlt => ?_, fun hlt => ?_⟩
          · by_cases heq : b = p
            · exact heq ▸ hp
            · exact hfree b (by omega) (by omega)
          · rw [show p + (freeRun used n (p + 1) + 1) = p + 1 + freeRun used n (p + 1) by omega]
            exact hused (by omega)

/-- The stretch that begins at a block, if one does. -/
def stretchAt (map : BlockBitmap) (p : ℕ) : Option Stretch :=
  if p % 8 = 0 ∧ map.start < p ∧ p < map.stop ∧ map.used p = false ∧
      (p ≤ map.start + 8 ∨ (List.range' (p - 8) 8).any map.used = true) then
    some ⟨p, freeRun map.used (map.stop - p) p⟩
  else none

/-- The stretches of a bitmap, in order. -/
def stretches (map : BlockBitmap) : List Stretch := (List.range map.stop).filterMap (stretchAt map)

theorem stretchAt_eq_some {p : ℕ} {s : Stretch} :
    stretchAt map p = some s ↔ IsStretch map s ∧ s.block = p := by
  have hrun := freeRun_spec map.used (map.stop - p) p
  unfold stretchAt
  constructor
  · intro h
    split at h
    · next hp =>
      cases h
      obtain ⟨haligned, hstart, hstop, hfree, hbegins⟩ := hp
      obtain ⟨hle, hall, hend⟩ := hrun
      have hpos : 0 < freeRun map.used (map.stop - p) p := by
        by_contra hzero
        have hused := hend (by omega)
        rw [show p + freeRun map.used (map.stop - p) p = p by omega, hfree] at hused
        cases hused
      refine ⟨⟨haligned, hstart, hpos, ?_, hall, ?_, ?_⟩, rfl⟩
      · show p + freeRun map.used (map.stop - p) p ≤ map.stop
        omega
      · intro hlt
        have hlt' : p + freeRun map.used (map.stop - p) p < map.stop := hlt
        exact hend (by omega)
      · rcases hbegins with hnear | hany
        · exact .inl hnear
        · obtain ⟨b, hb, hused⟩ := List.any_eq_true.1 hany
          rw [List.mem_range'_1] at hb
          exact .inr ⟨b, by show b < p; omega, by show p ≤ b + 8; omega, hused⟩
    · cases h
  · rintro ⟨hs, rfl⟩
    have hpos := hs.pos
    have hle := hs.le_stop
    have hcond : s.block % 8 = 0 ∧ map.start < s.block ∧ s.block < map.stop ∧ map.used s.block = false ∧
        (s.block ≤ map.start + 8 ∨ (List.range' (s.block - 8) 8).any map.used = true) := by
      refine ⟨hs.aligned, hs.start_lt, by omega, hs.free _ (Nat.le_refl _) (by omega), ?_⟩
      refine hs.begins.imp_right fun ⟨b, hb, hnear, hused⟩ => ?_
      rw [List.any_eq_true]
      exact ⟨b, by rw [List.mem_range'_1]; omega, hused⟩
    rw [if_pos hcond]
    -- the run ends where the stretch does
    obtain ⟨hrunLe, hall, hend⟩ := hrun
    have hlen : freeRun map.used (map.stop - s.block) s.block = s.len := by
      rcases Nat.lt_trichotomy (freeRun map.used (map.stop - s.block) s.block) s.len with hlt | heq | hgt
      · have hused := hend (by omega)
        rw [hs.free _ (Nat.le_add_right _ _) (by omega)] at hused
        cases hused
      · exact heq
      · have hused := hs.ends (by omega)
        rw [hall _ (Nat.le_add_right _ _) (by omega)] at hused
        cases hused
    rw [hlen]

theorem mem_stretches {s : Stretch} : s ∈ stretches map ↔ IsStretch map s := by
  unfold stretches
  rw [List.mem_filterMap]
  constructor
  · rintro ⟨p, -, h⟩
    exact (stretchAt_eq_some.1 h).1
  · intro hs
    have hpos := hs.pos
    have hle := hs.le_stop
    exact ⟨s.block, List.mem_range.2 (by omega), stretchAt_eq_some.2 ⟨hs, rfl⟩⟩

theorem inOrder_stretches (map : BlockBitmap) : InOrder (stretches map) := by
  unfold stretches InOrder
  rw [List.pairwise_filterMap]
  apply List.pairwise_lt_range.imp
  intro p q hlt s hs t ht
  obtain ⟨hsStretch, rfl⟩ := stretchAt_eq_some.1 hs
  obtain ⟨htStretch, rfl⟩ := stretchAt_eq_some.1 ht
  exact hsStretch.lt_block htStretch hlt

/-- Lists in order with the same stretches are the same. -/
theorem InOrder.eq_of_mem_iff {ss ts : List Stretch} (hs : InOrder ss) (ht : InOrder ts)
    (h : ∀ s, s ∈ ss ↔ s ∈ ts) : ss = ts := by
  have hirrefl : Std.Irrefl fun s t : Stretch => s.block + s.len < t.block := ⟨fun s => by omega⟩
  have hasymm : Std.Asymm fun s t : Stretch => s.block + s.len < t.block := ⟨fun s t => by omega⟩
  exact List.Pairwise.eq_of_mem_iff hs ht h

end Prefetch.Remap

/-
# Prefetch.Remap.FindFreeBlocks — choosing the free extents for the remapped data

What `find_free_blocks` does with the stretches it found: the shortest ones are summed up to see which
length is needed, then those of at least half that length are taken in the order of their blocks, and the
last one is shortened to what is left.

The stretches summed up and the stretches taken are not the same, so those taken may be too few; the last
one is then made longer instead, over blocks that are in use. `freeExtents_right_iff` says when the result
is right: a stretch is long enough for everything, or the stretches of at least half the threshold have
enough blocks, but for one they may take from the end of the bitmap.
-/
import Prefetch.Remap.FreeStretches
import Prefetch.Remap.FreeExtents
import Mathlib.Algebra.BigOperators.Group.List.Basic
import Mathlib.Algebra.Order.BigOperators.Group.List
import Mathlib.Algebra.Order.Group.Nat

namespace Prefetch.Remap

open RunningSums

/-! ## §1 — `find_free_blocks` -/

/-- `cmp_extents_len` and `cmp_extents_start`, as orders to sort by. -/
def byLen (s t : Stretch) : Prop := s.len ≤ t.len
def byStart (s t : Stretch) : Prop := s.block ≤ t.block

instance : DecidableRel byLen := fun s t => inferInstanceAs (Decidable (s.len ≤ t.len))
instance : DecidableRel byStart := fun s t => inferInstanceAs (Decidable (s.block ≤ t.block))

/-- The first pass: how many of the extents are needed, `actblk` being the blocks so far. -/
def countNeeded (remapBlocks : ℕ) : ℕ → List Stretch → ℕ
  | _, [] => 0
  | actblk, s :: ss => if actblk < remapBlocks then countNeeded remapBlocks (actblk + s.len) ss + 1 else 0

/-- The second pass: the extents taken, with their offsets, and the blocks they have. -/
def takeExtents (remapBlocks minExtSize : ℕ) : ℕ → List Stretch → List FreeExtent × ℕ
  | actblk, [] => ([], actblk)
  | actblk, s :: ss =>
      if actblk < remapBlocks then
        if minExtSize ≤ s.len then
          let rest := takeExtents remapBlocks minExtSize (actblk + s.len) ss
          (⟨s.block, s.len, actblk⟩ :: rest.1, rest.2)
        else takeExtents remapBlocks minExtSize actblk ss
      else ([], actblk)

/-- `free_extents[taken_extents-1].len -= actblk - remap_blocks`; the length is an unsigned int, the
difference is not. -/
def shortenLast (excess : ℤ) : List FreeExtent → List FreeExtent
  | [] => []
  | [e] => [{ e with len := ((e.len - excess) % 2 ^ 32).toNat }]
  | e :: es => e :: shortenLast excess es

/-- What may fail: reading the bitmap, and having an array of so many entries. -/
structure FindEnv where
  readError : Bool := false
  memory : ℕ → Bool := fun _ => true

/-- Why `find_free_blocks` exits: `Cannot read block bitmap`, `Not enough memory for free extents map.`,
`Not enough free space for relocating required blocks (or maybe it is too fragmented).` or
`Unable to shrink list of free extents.`; `outside` is a read before the array, with nothing to remap. -/
inductive FindExit where
  | cannotReadBitmap
  | notEnoughMemory
  | notEnoughSpace
  | unableToShrink
  | outside
  deriving DecidableEq, Repr

/-- How `find_free_blocks` ends. -/
inductive FindOutcome where
  | exited (why : FindExit)
  | returned (freeExtents : List FreeExtent)
  deriving DecidableEq, Repr

/-- What is done with the stretches found. In which order `qsort` leaves stretches of one length does not
matter, as only the lengths are looked at. -/
def chooseExtents (remapBlocks : ℕ) (memory : ℕ → Bool) (found : List Stretch) : FindOutcome :=
  let sorted := found.insertionSort byLen
  let actext := countNeeded remapBlocks 0 sorted
  if sorted.length ≤ actext then .exited .notEnoughSpace
  else
    match sorted[actext - 1]? with
    | none => .exited .outside
    | some s =>
        let taken := takeExtents remapBlocks (s.len / 2) 0 (sorted.insertionSort byStart)
        if memory taken.1.length then .returned (shortenLast (taken.2 - remapBlocks) taken.1)
        else .exited .unableToShrink

/-- `find_free_blocks` -/
def findFreeBlocks (map : BlockBitmap) (remapBlocks minFreeExtentSize : ℕ) (env : FindEnv) : FindOutcome :=
  if env.readError then .exited .cannotReadBitmap
  else if ¬ env.memory 1024 then .exited .notEnoughMemory
  else
    match scan map remapBlocks minFreeExtentSize env.memory map.start [] 1024 with
    | .noMemory => .exited .notEnoughMemory
    | .single block => .returned [⟨block, remapBlocks, 0⟩]
    | .found found => chooseExtents remapBlocks env.memory found

/-! ## §2 — the threshold -/

/-- The least length such that the stretches no longer than it have enough blocks. -/
def IsThreshold (ss : List Stretch) (remapBlocks len : ℕ) : Prop :=
  remapBlocks ≤ totalLen Stretch.len (ss.filter fun s => s.len ≤ len) ∧
    ∀ shorter < len, totalLen Stretch.len (ss.filter fun s => s.len ≤ shorter) < remapBlocks

theorem IsThreshold.eq {ss : List Stretch} {remapBlocks m n : ℕ} (hm : IsThreshold ss remapBlocks m)
    (hn : IsThreshold ss remapBlocks n) : m = n := by
  rcases Nat.lt_trichotomy m n with hlt | heq | hgt
  · exact absurd (hn.2 m hlt) (Nat.not_lt_of_le hm.1)
  · exact heq
  · exact absurd (hm.2 n hgt) (Nat.not_lt_of_le hn.1)

/-- What the first pass counts: one fewer are too few, and these are enough unless there are no more. -/
theorem countNeeded_spec (remapBlocks : ℕ) (ss : List Stretch) (actblk : ℕ) :
    let n := countNeeded remapBlocks actblk ss
    (0 < n → actblk + totalLen Stretch.len (ss.take (n - 1)) < remapBlocks) ∧
      (n < ss.length → remapBlocks ≤ actblk + totalLen Stretch.len (ss.take n)) := by
  induction ss generalizing actblk with
  | nil => exact ⟨nofun, nofun⟩
  | cons s ss ih =>
      intro n
      by_cases hmore : actblk < remapBlocks
      · have hn : n = countNeeded remapBlocks (actblk + s.len) ss + 1 := if_pos hmore
        obtain ⟨hfew, henough⟩ := ih (actblk + s.len)
        rw [hn]
        constructor
        · intro _
          rw [Nat.add_sub_cancel]
          cases hcount : countNeeded remapBlocks (actblk + s.len) ss with
          | zero => simpa using hmore
          | succ k =>
              have := hfew (by omega)
              rw [hcount, Nat.add_sub_cancel] at this
              rw [List.take_succ_cons]
              rw [totalLen_cons]
              omega
        · intro hlt
          rw [List.length_cons] at hlt
          have := henough (by omega)
          rw [List.take_succ_cons]
          rw [totalLen_cons]
          omega
      · have hn : n = 0 := if_neg hmore
        rw [hn]
        exact ⟨nofun, fun _ => by simp only [List.take_zero]; omega⟩

/-- In stretches sorted by length, those up to one of them are no longer than it. -/
theorem len_le_of_mem_take {sorted : List Stretch} (hsorted : sorted.Pairwise byLen) {n : ℕ} {s t : Stretch}
    (hs : sorted[n]? = some s) (ht : t ∈ sorted.take (n + 1)) : t.len ≤ s.len := by
  obtain ⟨hn, rfl⟩ := List.getElem?_eq_some_iff.1 hs
  obtain ⟨i, hi, rfl⟩ := List.mem_iff_getElem.1 ht
  rw [List.length_take] at hi
  rw [List.getElem_take]
  rcases Nat.lt_or_ge i n with hlt | hge
  · exact List.pairwise_iff_getElem.1 hsorted i n (by omega) hn hlt
  · have heq : i = n := by omega
    subst heq
    exact Nat.le_refl _

/-- Those from one of them on are at least as long. -/
theorem le_len_of_mem_drop {sorted : List Stretch} (hsorted : sorted.Pairwise byLen) {n : ℕ} {s t : Stretch}
    (hs : sorted[n]? = some s) (ht : t ∈ sorted.drop n) : s.len ≤ t.len := by
  obtain ⟨hn, rfl⟩ := List.getElem?_eq_some_iff.1 hs
  obtain ⟨i, hi, rfl⟩ := List.mem_iff_getElem.1 ht
  rw [List.length_drop] at hi
  rw [List.getElem_drop]
  rcases Nat.eq_zero_or_pos i with rfl | hpos
  · exact Nat.le_refl _
  · exact List.pairwise_iff_getElem.1 hsorted n (n + i) hn (by omega) (by omega)

/-- **The length the first pass ends with is the threshold.** -/
theorem isThreshold_of_countNeeded {ss sorted : List Stretch} (hperm : sorted.Perm ss)
    (hsorted : sorted.Pairwise byLen) {remapBlocks : ℕ} (hremap : 0 < remapBlocks)
    (hlt : countNeeded remapBlocks 0 sorted < sorted.length) {s : Stretch}
    (hs : sorted[countNeeded remapBlocks 0 sorted - 1]? = some s) : IsThreshold ss remapBlocks s.len := by
  obtain ⟨hfew, henough⟩ := countNeeded_spec remapBlocks sorted 0
  have hpos : 0 < countNeeded remapBlocks 0 sorted := by
    cases sorted with
    | nil => cases hlt
    | cons t ts =>
        rw [countNeeded, if_pos hremap]
        omega
  obtain ⟨n, hn⟩ : ∃ n, countNeeded remapBlocks 0 sorted = n + 1 := ⟨_, (Nat.succ_pred_eq_of_pos hpos).symm⟩
  rw [hn] at hfew henough hs hlt
  rw [Nat.add_sub_cancel] at hfew hs
  have hfew := hfew (Nat.succ_pos n)
  have henough := henough hlt
  rw [Nat.zero_add] at hfew henough
  have htotal : ∀ p : Stretch → Bool, totalLen Stretch.len (ss.filter p) = totalLen Stretch.len (sorted.filter p) :=
    fun p => (totalLen_perm (hperm.filter p)).symm
  have hsplit : ∀ k (p : Stretch → Bool),
      totalLen Stretch.len (sorted.filter p)
        = totalLen Stretch.len ((sorted.take k).filter p) + totalLen Stretch.len ((sorted.drop k).filter p) := by
    intro k p
    rw [← totalLen_append, ← List.filter_append, List.take_append_drop]
  constructor
  · have hall : (sorted.take (n + 1)).filter (fun t => t.len ≤ s.len) = sorted.take (n + 1) := by
      rw [List.filter_eq_self]
      exact fun t ht => decide_eq_true (len_le_of_mem_take hsorted hs ht)
    rw [htotal, hsplit (n + 1), hall]
    omega
  · intro shorter hshorter
    have hnone : (sorted.drop n).filter (fun t => t.len ≤ shorter) = [] := by
      rw [List.filter_eq_nil_iff]
      intro t ht
      have hle := le_len_of_mem_drop hsorted hs ht
      rw [decide_eq_true_eq]
      omega
    have hle : totalLen Stretch.len ((sorted.take n).filter fun t => t.len ≤ shorter)
        ≤ totalLen Stretch.len (sorted.take n) := totalLen_sublist List.filter_sublist
    rw [htotal, hsplit n, hnone]
    show _ + 0 < _
    omega

/-! ## §3 — the extents taken -/

/-- An extent as it was found. -/
def FreeExtent.stretch (e : FreeExtent) : Stretch := ⟨e.block, e.len⟩

/-- The stretches that may be taken. -/
def longEnough (minExtSize : ℕ) (ss : List Stretch) : List Stretch :=
  ss.filter fun s => minExtSize ≤ s.len

/-- What the second pass takes: the first of those that may be taken, until there are enough blocks. -/
structure Taken (remapBlocks actblk : ℕ) (kept : List Stretch) (taken : List FreeExtent × ℕ) : Prop where
  isPrefix : taken.1.map FreeExtent.stretch <+: kept
  blocks : taken.2 = actblk + totalLen FreeExtent.len taken.1
  offsets : Running FreeExtent.len FreeExtent.offset actblk taken.1
  offset_lt : ∀ e ∈ taken.1, e.offset < remapBlocks
  all : taken.2 < remapBlocks → taken.1.map FreeExtent.stretch = kept

theorem takeExtents_spec (remapBlocks minExtSize : ℕ) (ss : List Stretch) (actblk : ℕ) :
    Taken remapBlocks actblk (longEnough minExtSize ss) (takeExtents remapBlocks minExtSize actblk ss) := by
  fun_induction takeExtents remapBlocks minExtSize actblk ss with
  | case1 actblk => exact ⟨List.prefix_refl _, rfl, trivial, nofun, fun _ => rfl⟩
  | case2 actblk s ss hmore hlong rest ih =>
      have hkept : longEnough minExtSize (s :: ss) = s :: longEnough minExtSize ss :=
        List.filter_cons_of_pos (decide_eq_true hlong)
      rw [hkept]
      refine ⟨?_, ?_, ⟨rfl, ih.offsets⟩, ?_, fun hfew => ?_⟩
      · exact List.cons_prefix_cons.2 ⟨rfl, ih.isPrefix⟩
      · have hblocks : rest.2 = actblk + s.len + totalLen FreeExtent.len rest.1 := ih.blocks
        rw [totalLen_cons, hblocks, Nat.add_assoc]
      · intro e he
        rcases List.mem_cons.1 he with rfl | he
        · exact hmore
        · exact ih.offset_lt e he
      · rw [List.map_cons, ih.all hfew]
        rfl
  | case3 actblk s ss hmore hshort ih =>
      have hkept : longEnough minExtSize (s :: ss) = longEnough minExtSize ss :=
        List.filter_cons_of_neg (by simpa using hshort)
      rw [hkept]
      exact ih
  | case4 actblk s ss henough =>
      exact ⟨List.nil_prefix, rfl, trivial, nofun, fun hfew => absurd hfew henough⟩

/-- Changing the last of the extents. -/
theorem shortenLast_append (excess : ℤ) (es : List FreeExtent) (e : FreeExtent) :
    shortenLast excess (es ++ [e]) =
      es ++ [{ e with len := ((e.len - excess) % 2 ^ 32).toNat }] := by
  induction es with
  | nil => rfl
  | cons e' es ih =>
      cases es with
      | nil => rfl
      | cons e'' es =>
          rw [List.cons_append, List.cons_append] at *
          rw [List.cons_append, shortenLast, ih]
          · rfl
          · nofun

/-! ## §4 — right results -/

/-- A block of the bitmap that is free in it. -/
def BlockBitmap.IsFree (map : BlockBitmap) (b : ℕ) : Prop :=
  map.start ≤ b ∧ b ≤ map.stop ∧ map.used b = false

/-- What the result should be: free extents that do not overlap, with just enough blocks, their offsets
the running sums of their lengths. -/
structure Right (map : BlockBitmap) (remapBlocks : ℕ) (es : List FreeExtent) : Prop where
  disjoint : es.Pairwise fun e e' => ∀ b, ¬ ((e.block ≤ b ∧ b < e.block + e.len) ∧
    (e'.block ≤ b ∧ b < e'.block + e'.len))
  free : ∀ e ∈ es, ∀ b, e.block ≤ b → b < e.block + e.len → map.IsFree b
  total : totalLen FreeExtent.len es = remapBlocks
  offsets : Running FreeExtent.len FreeExtent.offset 0 es

variable {map : BlockBitmap}

theorem IsStretch.isFree {s : Stretch} (hs : IsStretch map s) {b : ℕ} (hlo : s.block ≤ b)
    (hhi : b < s.block + s.len) : map.IsFree b := by
  have := hs.start_lt
  have := hs.le_stop
  exact ⟨by omega, by omega, hs.free b hlo hhi⟩

/-- Stretches fit before the last block of the bitmap. -/
theorem total_le_stop {ss : List Stretch} (horder : InOrder ss) (hss : ∀ s ∈ ss, IsStretch map s) :
    totalLen Stretch.len ss ≤ map.stop := by
  have hfrom : ∀ (ss : List Stretch) (p : ℕ), InOrder ss → (∀ s ∈ ss, IsStretch map s) →
      (∀ s ∈ ss, p ≤ s.block) → p ≤ map.stop → p + totalLen Stretch.len ss ≤ map.stop := by
    intro ss
    induction ss with
    | nil =>
        intro p _ _ _ hp
        exact hp
    | cons s ss ih =>
        intro p horder hss hp _
        obtain ⟨hbehind, hrest⟩ := List.pairwise_cons.1 horder
        have hs := (hss s List.mem_cons_self).le_stop
        have hps := hp s List.mem_cons_self
        have htail := ih (s.block + s.len) hrest (fun t ht => hss t (List.mem_cons_of_mem s ht))
          (fun t ht => (hbehind t ht).le) hs
        rw [totalLen_cons]
        omega
  have h := hfrom ss 0 horder hss (fun _ _ => Nat.zero_le _) (Nat.zero_le _)
  omega

/-- The extents with another length for the last one are right, if its blocks are free. -/
theorem right_of_free {es : List FreeExtent} {e : FreeExtent} {remapBlocks : ℕ}
    (hss : ∀ e' ∈ es, IsStretch map e'.stretch) (horder : InOrder ((es ++ [e]).map FreeExtent.stretch))
    (hoffsets : Running FreeExtent.len FreeExtent.offset 0 (es ++ [e]))
    (hlt : totalLen FreeExtent.len es < remapBlocks)
    (hfree : ∀ b, e.block ≤ b → b < e.block + (remapBlocks - totalLen FreeExtent.len es) → map.IsFree b) :
    Right map remapBlocks (es ++ [{ e with len := remapBlocks - totalLen FreeExtent.len es }]) := by
  obtain ⟨hoff, hlast, -⟩ := running_append.1 hoffsets
  rw [List.map_append, List.map_singleton] at horder
  obtain ⟨hinit, -, hbefore⟩ := List.pairwise_append.1 horder
  refine ⟨?_, ?_, ?_, running_append.2 ⟨hoff, hlast, trivial⟩⟩
  · refine List.pairwise_append.2 ⟨?_, List.pairwise_singleton _ _, ?_⟩
    · refine (List.pairwise_map.1 hinit).imp fun {a b} hab c hc => ?_
      have hab' : a.block + a.len < b.block := hab
      omega
    · intro a ha b hb c hc
      cases List.mem_singleton.1 hb
      have hab' : a.block + a.len < e.block :=
        hbefore a.stretch (List.mem_map_of_mem ha) e.stretch (List.mem_singleton.2 rfl)
      have hec : e.block ≤ c := hc.2.1
      omega
  · intro a ha b hlo hhi
    rcases List.mem_append.1 ha with ha | ha
    · exact (hss a ha).isFree hlo hhi
    · cases List.mem_singleton.1 ha
      exact hfree b hlo hhi
  · rw [totalLen_append]
    exact Nat.add_sub_cancel' hlt.le

/-- **When making the last extent longer or shorter is right**: it is not made longer, or by the last block
of the bitmap, which is free. -/
theorem right_resize {es : List FreeExtent} {e : FreeExtent} {remapBlocks : ℕ}
    (hss : ∀ e' ∈ es ++ [e], IsStretch map e'.stretch)
    (horder : InOrder ((es ++ [e]).map FreeExtent.stretch))
    (hoffsets : Running FreeExtent.len FreeExtent.offset 0 (es ++ [e]))
    (hlt : totalLen FreeExtent.len es < remapBlocks) :
    Right map remapBlocks (es ++ [{ e with len := remapBlocks - totalLen FreeExtent.len es }]) ↔
      remapBlocks ≤ totalLen FreeExtent.len (es ++ [e]) ∨ totalLen FreeExtent.len (es ++ [e]) + 1 = remapBlocks ∧
        e.block + e.len = map.stop ∧ map.used map.stop = false := by
  have he := hss e (by simp)
  have hestop : e.block + e.len ≤ map.stop := he.le_stop
  have htotal : totalLen FreeExtent.len (es ++ [e]) = totalLen FreeExtent.len es + e.len := by simp
  rw [htotal]
  constructor
  · intro h
    by_contra hnot
    rw [not_or, not_le] at hnot
    obtain ⟨hlong, hnot⟩ := hnot
    -- the block behind the stretch is in the extent
    have hfree := h.free { e with len := remapBlocks - totalLen FreeExtent.len es } (by simp)
    have hend := hfree (e.block + e.len) (Nat.le_add_right _ _)
      (show e.block + e.len < e.block + (remapBlocks - totalLen FreeExtent.len es) by omega)
    rcases Nat.lt_or_ge (e.block + e.len) map.stop with hin | hat
    · have hused : map.used (e.block + e.len) = true := he.ends hin
      rw [hend.2.2] at hused
      cases hused
    · have heq : e.block + e.len = map.stop := by omega
      refine hnot ⟨?_, heq, heq ▸ hend.2.2⟩
      by_contra hmore
      have hnext := hfree (e.block + e.len + 1) (show e.block ≤ e.block + e.len + 1 by omega)
        (show e.block + e.len + 1 < e.block + (remapBlocks - totalLen FreeExtent.len es) by omega)
      have := hnext.2.1
      omega
  · intro hcase
    refine right_of_free (fun e' he' => hss e' (List.mem_append_left _ he')) horder hoffsets hlt ?_
    intro b hlo hhi
    by_cases hin : b < e.block + e.len
    · exact he.isFree hlo hin
    · have hstart : map.start < e.block := he.start_lt
      obtain hle | ⟨hone, hstop, hfree⟩ := hcase
      · omega
      · have hb : b = map.stop := by omega
        exact ⟨by omega, by omega, hb ▸ hfree⟩

/-! ## §5 — when the result is right -/

/-- What the last of the stretches may be made longer by: the last block of the bitmap. -/
def EndsAtStop (map : BlockBitmap) (ss : List Stretch) : Prop :=
  ∃ s, ss.getLast? = some s ∧ s.block + s.len = map.stop ∧ map.used map.stop = false

/-- The stretches that may be taken, at a threshold, have enough blocks. -/
def Enough (map : BlockBitmap) (remapBlocks : ℕ) (kept : List Stretch) : Prop :=
  remapBlocks ≤ totalLen Stretch.len kept ∨ totalLen Stretch.len kept + 1 = remapBlocks ∧ EndsAtStop map kept

theorem totalLen_stretch (es : List FreeExtent) :
    totalLen Stretch.len (es.map FreeExtent.stretch) = totalLen FreeExtent.len es := totalLen_map _ _

/-- Sorting by length and then by start brings stretches back in order. -/
theorem insertionSort_byStart {found : List Stretch} (horder : InOrder found)
    (hfound : ∀ s ∈ found, IsStretch map s) :
    (found.insertionSort byLen).insertionSort byStart = found := by
  have htotal : Std.Total byStart := ⟨fun s t => Nat.le_total s.block t.block⟩
  have htrans : IsTrans Stretch byStart := ⟨fun _ _ _ => Nat.le_trans⟩
  have hperm : ((found.insertionSort byLen).insertionSort byStart).Perm found :=
    (List.perm_insertionSort _ _).trans (List.perm_insertionSort _ _)
  refine hperm.eq_of_pairwise (fun a b ha hb hab hba => ?_) (List.pairwise_insertionSort byStart _)
    (horder.imp fun {s t} h => ?_)
  · exact (hfound a (hperm.mem_iff.1 ha)).eq_of_block (hfound b hb) (Nat.le_antisymm hab hba)
  · show s.block ≤ t.block
    omega

/-- **When what the second pass takes is right.** -/
theorem Taken.right_iff {remapBlocks : ℕ} {kept : List Stretch} {taken : List FreeExtent × ℕ}
    (h : Taken remapBlocks 0 kept taken) (horder : InOrder kept) (hkept : ∀ s ∈ kept, IsStretch map s)
    (hne : kept ≠ []) (hremap : 0 < remapBlocks) (hle : remapBlocks ≤ map.stop) :
    Right map remapBlocks (shortenLast (taken.2 - remapBlocks) taken.1) ↔ Enough map remapBlocks kept := by
  have hstop := map.stop_le
  have hblocks := h.blocks
  have htakenNe : taken.1 ≠ [] := by
    intro hnil
    rw [hnil] at hblocks
    have hall := h.all (by simpa [hblocks] using hremap)
    rw [hnil] at hall
    exact hne hall.symm
  obtain ⟨es, e, hes⟩ : ∃ es e, taken.1 = es ++ [e] := ⟨_, _, (List.dropLast_concat_getLast htakenNe).symm⟩
  have hinit := h.isPrefix
  have hoffsets := h.offsets
  have hlast := h.offset_lt e (by rw [hes]; simp)
  have hall := h.all
  rw [hes] at hblocks hinit hoffsets hall
  obtain ⟨-, hoff, -⟩ := running_append.1 hoffsets
  rw [Nat.zero_add] at hoff hblocks
  rw [hoff] at hlast
  have htotal : totalLen FreeExtent.len (es ++ [e]) = totalLen FreeExtent.len es + e.len := by simp
  have hlen : ((e.len - ((taken.2 : ℤ) - remapBlocks)) % 2 ^ 32).toNat = remapBlocks - totalLen FreeExtent.len es := by
    omega
  rw [hes, shortenLast_append, hlen, right_resize
    (fun e' he' => hkept _ (hinit.subset (List.mem_map_of_mem he')))
    (horder.sublist hinit.sublist) hoffsets hlast]
  rcases Nat.lt_or_ge taken.2 remapBlocks with hfew | hmany
  · -- all that may be taken is taken
    have hkeptEq := hall hfew
    have htotalKept : totalLen Stretch.len kept = totalLen FreeExtent.len (es ++ [e]) := by
      rw [← hkeptEq, totalLen_stretch]
    have hgetLast : kept.getLast? = some e.stretch := by
      rw [← hkeptEq, List.map_append, List.map_singleton, List.getLast?_concat]
    unfold Enough EndsAtStop
    rw [htotalKept, hgetLast]
    simp only [Option.some.injEq, exists_eq_left', FreeExtent.stretch]
  · have hmanyKept : remapBlocks ≤ totalLen Stretch.len kept := by
      obtain ⟨more, hmore⟩ := hinit
      rw [← hmore, totalLen_append, totalLen_stretch]
      omega
    exact ⟨fun _ => .inl hmanyKept, fun _ => .inl (by omega)⟩

/-- What `chooseExtents` returned from stretches in order. -/
theorem chooseExtents_right_iff {remapBlocks : ℕ} {memory : ℕ → Bool} {found : List Stretch}
    {exts : List FreeExtent} (horder : InOrder found) (hfound : ∀ s ∈ found, IsStretch map s)
    (hremap : 0 < remapBlocks) (h : chooseExtents remapBlocks memory found = .returned exts) :
    Right map remapBlocks exts ↔
      ∃ len, IsThreshold found remapBlocks len ∧ Enough map remapBlocks (longEnough (len / 2) found) := by
  have htotal : Std.Total byLen := ⟨fun s t => Nat.le_total s.len t.len⟩
  have htrans : IsTrans Stretch byLen := ⟨fun _ _ _ => Nat.le_trans⟩
  unfold chooseExtents at h
  simp only [insertionSort_byStart horder hfound] at h
  split at h
  · cases h
  · next hcount =>
    split at h
    · cases h
    · next s hs =>
      split at h
      · cases h
        have hthreshold : IsThreshold found remapBlocks s.len :=
          isThreshold_of_countNeeded (List.perm_insertionSort byLen found)
            (List.pairwise_insertionSort byLen found) hremap (Nat.lt_of_not_le hcount) hs
        have hmem : s ∈ found := (List.mem_insertionSort byLen).1 (List.mem_of_getElem? hs)
        have hlong : s ∈ longEnough (s.len / 2) found :=
          List.mem_filter.2 ⟨hmem, decide_eq_true (Nat.div_le_self _ _)⟩
        have hle : remapBlocks ≤ map.stop :=
          (hthreshold.1.trans (totalLen_sublist List.filter_sublist)).trans (total_le_stop horder hfound)
        have hright := (takeExtents_spec remapBlocks (s.len / 2) found 0).right_iff
          (List.Pairwise.sublist List.filter_sublist horder)
          (fun t ht => hfound t (List.mem_filter.1 ht).1) (List.ne_nil_of_mem hlong) hremap hle
        rw [hright]
        constructor
        · exact fun henough => ⟨s.len, hthreshold, henough⟩
        · rintro ⟨len, hlen, henough⟩
          rwa [hlen.eq hthreshold] at henough
      · cases h

/-- What the search found, where no stretch is long enough for everything. -/
theorem Searched.found_eq {remapBlocks minFreeExtentSize : ℕ} {found : List Stretch}
    (h : Searched map remapBlocks minFreeExtentSize map.start [] (.found found)) :
    found = longEnough minFreeExtentSize (stretches map) ∧ ∀ s ∈ stretches map, s.len ≤ remapBlocks := by
  cases h with
  | found more horder hmem hlen =>
      constructor
      · refine InOrder.eq_of_mem_iff horder
          (List.Pairwise.sublist List.filter_sublist (inOrder_stretches map)) fun s => ?_
        rw [List.nil_append, hmem, longEnough, List.mem_filter, mem_stretches, decide_eq_true_eq]
        exact ⟨fun ⟨hs, _, hmin⟩ => ⟨hs, hmin⟩, fun ⟨hs, hmin⟩ => ⟨hs, hs.start_lt, hmin⟩⟩
      · intro s hs
        have hs := mem_stretches.1 hs
        exact hlen s hs hs.start_lt

/-- Where nothing fails and no stretch is long enough for everything, the search finds those that are not too
short. -/
theorem scan_eq_found {remapBlocks minFreeExtentSize : ℕ} (hlen : ∀ s ∈ stretches map, s.len ≤ remapBlocks) :
    scan map remapBlocks minFreeExtentSize (fun _ => true) map.start [] 1024 =
      .found (longEnough minFreeExtentSize (stretches map)) := by
  have hsearched := scan_searched remapBlocks minFreeExtentSize (fun _ => true)
    (.inl rfl : Edge map map.start) [] 1024
  have hmemory : scan map remapBlocks minFreeExtentSize (fun _ => true) map.start [] 1024 ≠ .noMemory :=
    scan_ne_noMemory remapBlocks minFreeExtentSize (fun _ => rfl) map.start [] 1024
  cases hscan : scan map remapBlocks minFreeExtentSize (fun _ => true) map.start [] 1024 with
  | noMemory => exact absurd hscan hmemory
  | single block =>
      rw [hscan] at hsearched
      cases hsearched with
      | single s hs hact hlong =>
          exact absurd (hlen s (mem_stretches.2 hs)) (Nat.not_le_of_lt hlong)
  | found found =>
      rw [hscan] at hsearched
      rw [hsearched.found_eq.1]

/-- The result is chosen from these then. -/
theorem findFreeBlocks_eq {remapBlocks minFreeExtentSize : ℕ}
    (hlen : ∀ s ∈ stretches map, s.len ≤ remapBlocks) :
    findFreeBlocks map remapBlocks minFreeExtentSize {} =
      chooseExtents remapBlocks (fun _ => true) (longEnough minFreeExtentSize (stretches map)) := by
  unfold findFreeBlocks
  rw [if_neg Bool.false_ne_true, if_neg (not_not.2 rfl), scan_eq_found hlen]

/-- **When the result of `find_free_blocks` is right**: a stretch is longer than needed, or those of at
least half the threshold length have enough blocks. -/
theorem freeExtents_right_iff (map : BlockBitmap) (remapBlocks minFreeExtentSize : ℕ) (env : FindEnv)
    (exts : List FreeExtent) (hremap : 0 < remapBlocks)
    (h : findFreeBlocks map remapBlocks minFreeExtentSize env = .returned exts) :
    Right map remapBlocks exts ↔
      (∃ s ∈ stretches map, remapBlocks < s.len) ∨
        ∃ len, IsThreshold (longEnough minFreeExtentSize (stretches map)) remapBlocks len ∧
          Enough map remapBlocks (longEnough (len / 2) (longEnough minFreeExtentSize (stretches map))) := by
  unfold findFreeBlocks at h
  split at h
  · cases h
  · split at h
    · cases h
    · have hsearched := scan_searched remapBlocks minFreeExtentSize env.memory (.inl rfl : Edge map map.start)
        [] 1024
      split at h
      · cases h
      · next block hscan =>
        -- one stretch for everything
        cases h
        rw [hscan] at hsearched
        cases hsearched with
        | single s hs hact hlen =>
            refine ⟨fun _ => .inl ⟨s, mem_stretches.2 hs, hlen⟩, fun _ => ⟨?_, ?_, ?_, ?_⟩⟩
            · exact List.pairwise_singleton _ _
            · intro e he b hlo hhi
              cases List.mem_singleton.1 he
              exact hs.isFree hlo (Nat.lt_trans hhi (Nat.add_lt_add_left hlen _))
            · exact Nat.add_zero _
            · exact ⟨rfl, trivial⟩
      · next found hscan =>
        rw [hscan] at hsearched
        obtain ⟨rfl, hlen⟩ := hsearched.found_eq
        have hnone : ¬ ∃ s ∈ stretches map, remapBlocks < s.len := by
          rintro ⟨s, hs, hlong⟩
          exact absurd (hlen s hs) (Nat.not_le_of_lt hlong)
        rw [or_iff_right hnone]
        exact chooseExtents_right_iff
          (List.Pairwise.sublist List.filter_sublist (inOrder_stretches map))
          (fun s hs => mem_stretches.1 (List.mem_filter.1 hs).1) hremap h

/-- Five stretches of 16 blocks and two of 64, none of them at the end. -/
def patchy : BlockBitmap where
  start := 0
  stop := 320
  used b := decide ¬ ((8 ≤ b ∧ b < 24) ∨ (32 ≤ b ∧ b < 48) ∨ (56 ≤ b ∧ b < 72) ∨ (80 ≤ b ∧ b < 96) ∨
    (104 ≤ b ∧ b < 120) ∨ (128 ≤ b ∧ b < 192) ∨ (200 ≤ b ∧ b < 264))
  stop_le := by decide

theorem findFreeBlocks_patchy :
    findFreeBlocks patchy 140 16 {} = .returned [⟨128, 64, 0⟩, ⟨200, 76, 64⟩] := by
  rw [findFreeBlocks_eq (by decide +kernel)]
  decide +kernel

theorem freeExtents_right_iff_patchy :
    Right patchy 140 [⟨128, 64, 0⟩, ⟨200, 76, 64⟩] ↔
      (∃ s ∈ stretches patchy, 140 < s.len) ∨
        ∃ len, IsThreshold (longEnough 16 (stretches patchy)) 140 len ∧
          Enough patchy 140 (longEnough (len / 2) (longEnough 16 (stretches patchy))) :=
  freeExtents_right_iff patchy 140 16 {} _ (by decide) findFreeBlocks_patchy

/-- The five stretches of 16 blocks count for the threshold of 64 blocks, but are shorter than half of it; the
two stretches left have 128 blocks, and the twelve blocks behind them are in use. -/
theorem not_right_patchy :
    ¬ ∀ (map : BlockBitmap) (remapBlocks minFreeExtentSize : ℕ) (env : FindEnv) (exts : List FreeExtent),
      0 < remapBlocks → 1 ≤ minFreeExtentSize →
        findFreeBlocks map remapBlocks minFreeExtentSize env = .returned exts → Right map remapBlocks exts := by
  intro h
  have hright := h patchy 140 16 {} _ (by decide) (by decide) findFreeBlocks_patchy
  have hfree := hright.free ⟨200, 76, 64⟩ (by decide) 264 (by decide) (by decide)
  exact absurd hfree.2.2 (by decide)

end Prefetch.Remap

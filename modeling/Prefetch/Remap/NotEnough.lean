/-
# Prefetch.Remap.NotEnough — when `find_free_blocks` gives up for want of space

After the first pass `find_free_blocks` looks at how many of the extents it went over, and gives up when
these are all. It cannot tell then whether the extents ran out or the last one was just needed: it gives up
whenever all but the longest have too few blocks (`findFreeBlocks_notEnough_iff`).
-/
import Prefetch.Remap.FindFreeBlocks
import Mathlib.Data.List.MinMax
import Mathlib.Order.Nat

namespace Prefetch.Remap

open RunningSums

/-! ## §1 — all but the longest -/

/-- The length of the longest of some stretches. -/
def longest (ss : List Stretch) : ℕ := (ss.map Stretch.len).foldr max 0

theorem longest_eq {ss : List Stretch} {s : Stretch} (hs : s ∈ ss) (hmax : ∀ t ∈ ss, t.len ≤ s.len) :
    longest ss = s.len := by
  have hle : s.len ≤ (ss.map Stretch.len).foldr max ⊥ := List.le_max_of_le (List.mem_map_of_mem hs) le_rfl
  refine le_antisymm (List.max_le_of_forall_le _ _ fun n hn => ?_) hle
  obtain ⟨t, ht, rfl⟩ := List.mem_map.1 hn
  exact hmax t ht

/-- The first pass goes over all stretches if those before the last have too few blocks. -/
theorem length_le_countNeeded_iff {remapBlocks : ℕ} (hremap : 0 < remapBlocks) (sorted : List Stretch) :
    sorted.length ≤ countNeeded remapBlocks 0 sorted ↔ totalLen Stretch.len sorted.dropLast < remapBlocks := by
  obtain ⟨hfew, henough⟩ := countNeeded_spec remapBlocks sorted 0
  rw [Nat.zero_add] at hfew henough
  rw [List.dropLast_eq_take]
  constructor
  · intro hall
    rcases Nat.eq_zero_or_pos (countNeeded remapBlocks 0 sorted) with hzero | hpos
    · have hnil : sorted = [] := List.eq_nil_of_length_eq_zero (by omega)
      rw [hnil]
      exact hremap
    · have hpred : sorted.length - 1 ≤ countNeeded remapBlocks 0 sorted - 1 := Nat.sub_le_sub_right hall 1
      exact (totalLen_sublist (List.take_sublist_take_left hpred)).trans_lt (hfew hpos)
  · intro hlt
    by_contra hmore
    have hmore' := Nat.lt_of_not_le hmore
    have hle : totalLen Stretch.len (sorted.take (countNeeded remapBlocks 0 sorted))
        ≤ totalLen Stretch.len (sorted.take (sorted.length - 1)) :=
      totalLen_sublist (List.take_sublist_take_left (Nat.le_sub_one_of_lt hmore'))
    have hge := henough hmore'
    omega

/-- The stretches in the order of their lengths without the last one have all blocks but those of the
longest. -/
theorem total_dropLast_byLen (ss : List Stretch) :
    totalLen Stretch.len (ss.insertionSort byLen).dropLast + longest ss = totalLen Stretch.len ss := by
  have htotal : Std.Total byLen := ⟨fun s t => Nat.le_total s.len t.len⟩
  have htrans : IsTrans Stretch byLen := ⟨fun _ _ _ => Nat.le_trans⟩
  have hperm := List.perm_insertionSort byLen ss
  have hsorted := List.pairwise_insertionSort byLen ss
  rcases List.eq_nil_or_concat (ss.insertionSort byLen) with hnil | ⟨init, s, hconcat⟩
  · rw [hnil] at hperm
    rw [hnil, hperm.symm.eq_nil]
    rfl
  · rw [List.concat_eq_append] at hconcat
    rw [hconcat] at hperm hsorted
    have hmax : ∀ t ∈ ss, t.len ≤ s.len := fun t ht => by
      rcases List.mem_append.1 (hperm.mem_iff.2 ht) with ht | ht
      · exact (List.pairwise_append.1 hsorted).2.2 t ht s List.mem_cons_self
      · rw [List.mem_singleton.1 ht]
    have hs : s ∈ ss := hperm.mem_iff.1 (List.mem_append_right _ List.mem_cons_self)
    rw [hconcat, List.dropLast_concat, longest_eq hs hmax, ← totalLen_perm hperm, totalLen_append]
    rfl

/-! ## §2 — giving up -/

variable {map : BlockBitmap} {remapBlocks minFreeExtentSize : ℕ}

/-- The stretches the search records. -/
def recorded (map : BlockBitmap) (minFreeExtentSize : ℕ) : List Stretch :=
  longEnough minFreeExtentSize (stretches map)

theorem chooseExtents_notEnough_iff (hremap : 0 < remapBlocks) (memory : ℕ → Bool) (found : List Stretch) :
    chooseExtents remapBlocks memory found = .exited .notEnoughSpace
      ↔ totalLen Stretch.len found < remapBlocks + longest found := by
  have hsum := total_dropLast_byLen found
  have hall := length_le_countNeeded_iff hremap (found.insertionSort byLen)
  have hiff : totalLen Stretch.len found < remapBlocks + longest found
      ↔ (found.insertionSort byLen).length ≤ countNeeded remapBlocks 0 (found.insertionSort byLen) := by
    rw [hall]
    omega
  rw [hiff]
  unfold chooseExtents
  dsimp only
  split_ifs with hle
  · exact iff_of_true rfl hle
  · refine iff_of_false ?_ hle
    cases (found.insertionSort byLen)[countNeeded remapBlocks 0 (found.insertionSort byLen) - 1]? with
    | none => nofun
    | some s =>
        dsimp only
        split_ifs <;> nofun

/-- A search that is not broken off has recorded its stretches, and none is longer than needed. -/
theorem findFreeBlocks_notEnough {env : FindEnv} (hremap : 0 < remapBlocks)
    (h : findFreeBlocks map remapBlocks minFreeExtentSize env = .exited .notEnoughSpace) :
    (∀ s ∈ stretches map, s.len ≤ remapBlocks)
      ∧ totalLen Stretch.len (recorded map minFreeExtentSize)
        < remapBlocks + longest (recorded map minFreeExtentSize) := by
  have hsearched := scan_searched remapBlocks minFreeExtentSize env.memory (.inl rfl : Edge map map.start)
    [] 1024
  unfold findFreeBlocks at h
  split_ifs at h with hread hmemory
  · cases h
  · split at h
    · cases h
    · cases h
    · next found hscan =>
      rw [hscan] at hsearched
      obtain ⟨rfl, hlen⟩ := hsearched.found_eq
      exact ⟨hlen, (chooseExtents_notEnough_iff hremap _ _).1 h⟩
  · cases h

/-- **When `find_free_blocks` gives up** with nothing failing: no stretch is longer than needed, and all
recorded ones but the longest have too few blocks. -/
theorem findFreeBlocks_notEnough_iff (hremap : 0 < remapBlocks) :
    findFreeBlocks map remapBlocks minFreeExtentSize {} = .exited .notEnoughSpace
      ↔ (∀ s ∈ stretches map, s.len ≤ remapBlocks)
        ∧ totalLen Stretch.len (recorded map minFreeExtentSize)
          < remapBlocks + longest (recorded map minFreeExtentSize) := by
  refine ⟨findFreeBlocks_notEnough hremap, fun ⟨hlen, hfew⟩ => ?_⟩
  unfold findFreeBlocks
  rw [if_neg Bool.false_ne_true, if_neg (not_not.2 rfl), scan_eq_found hlen]
  exact (chooseExtents_notEnough_iff hremap _ _).2 hfew

/-- **When giving up is right.** For every bitmap, everything to remap and every least size, the remapper
gives up only where the recorded stretches have too few blocks if and only if they do, or a stretch is
longer than needed, or the recorded ones have enough blocks without the longest. -/
theorem givesUp_right_iff (map : BlockBitmap) (remapBlocks minFreeExtentSize : ℕ) (hremap : 0 < remapBlocks) :
    (∀ env, findFreeBlocks map remapBlocks minFreeExtentSize env = .exited .notEnoughSpace →
        totalLen Stretch.len (recorded map minFreeExtentSize) < remapBlocks)
      ↔ totalLen Stretch.len (recorded map minFreeExtentSize) < remapBlocks
        ∨ (∃ s ∈ stretches map, remapBlocks < s.len)
        ∨ remapBlocks + longest (recorded map minFreeExtentSize)
          ≤ totalLen Stretch.len (recorded map minFreeExtentSize) := by
  constructor
  · intro h
    by_contra hnot
    rw [not_or, not_or, not_lt, not_le] at hnot
    obtain ⟨henough, hnone, hlongest⟩ := hnot
    have hgivesUp : findFreeBlocks map remapBlocks minFreeExtentSize {} = .exited .notEnoughSpace :=
      (findFreeBlocks_notEnough_iff hremap).2
        ⟨fun s hs => Nat.le_of_not_lt fun hlong => hnone ⟨s, hs, hlong⟩, hlongest⟩
    exact absurd (h {} hgivesUp) (Nat.not_lt.2 henough)
  · intro h env hgivesUp
    obtain ⟨hlen, hfew⟩ := findFreeBlocks_notEnough hremap hgivesUp
    rcases h with hfewer | ⟨s, hs, hlong⟩ | henough
    · exact hfewer
    · exact absurd (hlen s hs) (Nat.not_le.2 hlong)
    · exact absurd hfew (Nat.not_lt.2 henough)

/-- Two stretches of 16 blocks. -/
def twoRuns : BlockBitmap where
  start := 0
  stop := 63
  used b := !(decide (8 ≤ b ∧ b < 24) || decide (32 ≤ b ∧ b < 48))
  stop_le := by decide

/-- Of 40 blocks there are too few. -/
theorem givesUp_right_twoRuns :
    0 < 40
      ∧ ∀ env, findFreeBlocks twoRuns 40 16 env = .exited .notEnoughSpace →
        totalLen Stretch.len (recorded twoRuns 16) < 40 :=
  ⟨by decide, (givesUp_right_iff twoRuns 40 16 (by decide)).2 (Or.inl (by decide +kernel))⟩

/-- Both together have 32 blocks, but it gives up for these, too. -/
theorem givesUp_needing_all :
    findFreeBlocks twoRuns 32 16 {} = .exited .notEnoughSpace ∧ totalLen Stretch.len (recorded twoRuns 16) = 32 :=
  ⟨(findFreeBlocks_notEnough_iff (by decide)).2 ⟨by decide +kernel, by decide +kernel⟩, by decide +kernel⟩

end Prefetch.Remap

/-
# Prefetch.Lib.LinkedSegments — linked lists whose nodes are appended to one array

`link a` is what node `a` leads to, another node or the end of its list; it is `none` when `a` cannot be
read. A `Segment` goes from one link over its nodes to another link, and a list is a segment to the end.
Segments are put together and taken apart at any node (`segment_append`), depend on the links of their
own nodes only (`Segment.congr`), and a list is longer by a node when its last node leads there
(`Segment.concat`).

Several owners append to one array in turn. `positions` are the indices of what one of them appended:
appending one more changes its positions alone, by the last one.
-/
import Mathlib.Data.List.Basic
import Mathlib.Data.List.Nodup
import Mathlib.Tactic.Common

namespace LinkedSegments

/-! ## §1 — segments -/

section Segments

variable {α : Type*} {link link' : α → Option (Option α)} {p q : Option α} {as bs : List α} {a b : α}

/-- From `p` one comes over the nodes `as` to `q`. -/
def Segment (link : α → Option (Option α)) : Option α → List α → Option α → Prop
  | p, [], q => p = q
  | p, a :: as, q => p = some a ∧ ∃ p', link a = some p' ∧ Segment link p' as q

theorem segment_append :
    Segment link p (as ++ bs) q ↔ ∃ m, Segment link p as m ∧ Segment link m bs q := by
  induction as generalizing p with
  | nil =>
      constructor
      · exact fun h => ⟨p, rfl, h⟩
      · rintro ⟨m, rfl, h⟩
        exact h
  | cons a as ih =>
      constructor
      · rintro ⟨hp, p', hlink, h⟩
        obtain ⟨m, has, hbs⟩ := ih.1 h
        exact ⟨m, ⟨hp, p', hlink, has⟩, hbs⟩
      · rintro ⟨m, ⟨hp, p', hlink, has⟩, hbs⟩
        exact ⟨hp, p', hlink, ih.2 ⟨m, has, hbs⟩⟩

theorem segment_singleton : Segment link p [a] q ↔ p = some a ∧ link a = some q := by
  constructor
  · rintro ⟨hp, p', hlink, rfl⟩
    exact ⟨hp, hlink⟩
  · rintro ⟨hp, hlink⟩
    exact ⟨hp, q, hlink, rfl⟩

/-- Only the links of its nodes matter to a segment. -/
theorem Segment.congr (h : Segment link p as q) (hlink : ∀ a ∈ as, link' a = link a) :
    Segment link' p as q := by
  induction as generalizing p with
  | nil => exact h
  | cons a as ih =>
      obtain ⟨hp, p', ha, has⟩ := h
      refine ⟨hp, p', (hlink a List.mem_cons_self).trans ha, ih has ?_⟩
      exact fun b hb => hlink b (List.mem_cons_of_mem _ hb)

/-- A node of a list leads to a node of it, or to the end. -/
theorem Segment.link_mem (h : Segment link p as none) (ha : a ∈ as) (hlink : link a = some (some b)) :
    b ∈ as := by
  obtain ⟨before, behind, rfl⟩ := List.append_of_mem ha
  obtain ⟨m, -, -, p', hp', hbehind⟩ := segment_append.1 h
  obtain rfl : p' = some b := Option.some.inj (hp'.symm.trans hlink)
  cases behind with
  | nil => exact absurd hbehind nofun
  | cons c behind =>
      obtain rfl : b = c := Option.some.inj hbehind.1
      simp

/-- A list begins with its first node. -/
theorem Segment.head_mem (h : Segment link (some a) as none) : a ∈ as := by
  cases as with
  | nil => exact absurd h nofun
  | cons b as =>
      obtain rfl : a = b := Option.some.inj h.1
      exact List.mem_cons_self

/-- Another node is linked to the last one of a list. -/
theorem Segment.concat (h : Segment link p (as ++ [a]) none) (has : ∀ c ∈ as, link' c = link c)
    (ha : link' a = some (some b)) (hb : link' b = some none) :
    Segment link' p (as ++ [a] ++ [b]) none := by
  obtain ⟨m, hfront, hlast⟩ := segment_append.1 h
  obtain ⟨rfl, -⟩ := segment_singleton.1 hlast
  have hfront' : Segment link' p (as ++ [a]) (some b) :=
    segment_append.2 ⟨some a, hfront.congr has, segment_singleton.2 ⟨rfl, ha⟩⟩
  exact segment_append.2 ⟨some b, hfront', segment_singleton.2 ⟨rfl, hb⟩⟩

end Segments

/-! ## §2 — positions -/

section Positions

variable {ι : Type*} [DecidableEq ι] {owners : List ι} {i j : ι} {k : ℕ}

/-- Where the list has `i`. -/
def positions (owners : List ι) (i : ι) : List ℕ :=
  (List.range owners.length).filter fun k => owners[k]? = some i

theorem mem_positions : k ∈ positions owners i ↔ owners[k]? = some i := by
  rw [positions, List.mem_filter, List.mem_range, decide_eq_true_iff]
  exact and_iff_right_of_imp fun h => (List.getElem?_eq_some_iff.1 h).1

theorem lt_of_mem_positions (h : k ∈ positions owners i) : k < owners.length :=
  (List.getElem?_eq_some_iff.1 (mem_positions.1 h)).1

/-- Every position is one of some owner. -/
theorem exists_mem_positions (h : k < owners.length) : ∃ i, k ∈ positions owners i :=
  ⟨owners[k], mem_positions.2 (List.getElem?_eq_getElem h)⟩

/-- A position has one owner. -/
theorem owner_unique (hi : k ∈ positions owners i) (hj : k ∈ positions owners j) : i = j :=
  Option.some.inj ((mem_positions.1 hi).symm.trans (mem_positions.1 hj))

theorem positions_nodup : (positions owners i).Nodup := List.nodup_range.filter _

theorem length_positions_le : (positions owners i).length ≤ owners.length := by
  calc (positions owners i).length ≤ (List.range owners.length).length := List.length_filter_le _ _
    _ = owners.length := List.length_range

@[simp] theorem positions_nil : positions [] i = [] := rfl

/-- One more owner is met behind all positions before. -/
theorem positions_concat :
    positions (owners ++ [i]) j = positions owners j ++ if i = j then [owners.length] else [] := by
  have hbefore : (List.range owners.length).filter (fun k => (owners ++ [i])[k]? = some j)
      = positions owners j := by
    refine List.filter_congr fun k hk => ?_
    rw [List.getElem?_append_left (List.mem_range.1 hk)]
  unfold positions at hbefore ⊢
  rw [List.length_append, List.length_singleton, List.range_succ, List.filter_append, hbefore,
    List.filter_singleton, List.getElem?_concat_length]
  by_cases hij : i = j
  · subst hij
    simp
  · simp [hij]

theorem positions_concat_self :
    positions (owners ++ [i]) i = positions owners i ++ [owners.length] := by
  rw [positions_concat, if_pos rfl]

theorem positions_concat_of_ne (h : j ≠ i) : positions (owners ++ [i]) j = positions owners j := by
  rw [positions_concat, if_neg h.symm, List.append_nil]

end Positions

end LinkedSegments

/-
# Prefetch.Lib.FirstVisit — consecutive addresses on first visit

Nodes carry addresses, `0` meaning that the node is absent. A walk visits nodes in some order, with
repetitions; a node that is present and does not yet lie in the area `[lo, hi)` is given the next
address of the area, any other visit does nothing. The module says what one visit changes, that a whole
walk uses one address for each distinct node it has to place, so that a walk fits in the area as soon
as its distinct nodes do, and in which order the nodes come to lie when the walk is made of groups.
-/
import Mathlib.Data.Finset.Card
import Mathlib.Data.Finset.Filter
import Mathlib.Data.Finset.Dedup
import Mathlib.Data.List.Chain
import Mathlib.Tactic.Common

namespace FirstVisit

variable {P : Type*} [DecidableEq P]

/-- The addresses of all nodes and the next free address of the area. -/
structure State (P : Type*) where
  addr : P → ℕ
  next : ℕ

/-- A node that a visit has to place. -/
def Unsettled (lo hi : ℕ) (addr : P → ℕ) (p : P) : Prop :=
  addr p ≠ 0 ∧ ¬ (lo ≤ addr p ∧ addr p < hi)

instance (lo hi : ℕ) (addr : P → ℕ) : DecidablePred (Unsettled lo hi addr) := fun p => by
  unfold Unsettled; infer_instance

/-- One visit. -/
def visit (lo hi : ℕ) (s : State P) (p : P) : State P :=
  if Unsettled lo hi s.addr p then
    { addr := Function.update s.addr p s.next, next := s.next + 1 }
  else s

/-- A walk. -/
def visitAll (lo hi : ℕ) (s : State P) (l : List P) : State P := l.foldl (visit lo hi) s

section Visit

variable {lo hi : ℕ} {s : State P} {p q : P} {l : List P}

theorem visit_settled (h : ¬ Unsettled lo hi s.addr p) : visit lo hi s p = s := if_neg h

theorem visit_unsettled (h : Unsettled lo hi s.addr p) :
    visit lo hi s p = { addr := Function.update s.addr p s.next, next := s.next + 1 } := if_pos h

@[simp] theorem visitAll_nil : visitAll lo hi s [] = s := rfl

@[simp] theorem visitAll_cons :
    visitAll lo hi s (p :: l) = visitAll lo hi (visit lo hi s p) l := rfl

theorem visitAll_append (l' : List P) :
    visitAll lo hi s (l ++ l') = visitAll lo hi (visitAll lo hi s l) l' := List.foldl_append

theorem next_le_visit : s.next ≤ (visit lo hi s p).next := by
  unfold visit
  split
  · exact Nat.le_succ _
  · exact le_rfl

theorem next_le_visitAll : s.next ≤ (visitAll lo hi s l).next := by
  induction l generalizing s with
  | nil => exact le_rfl
  | cons p l ih => exact next_le_visit.trans ih

/-- A visit leaves settled nodes where they are. -/
theorem visit_addr_of_settled (h : ¬ Unsettled lo hi s.addr q) :
    (visit lo hi s p).addr q = s.addr q := by
  unfold visit
  split
  next hp =>
    apply Function.update_of_ne
    rintro rfl
    exact h hp
  next => rfl

theorem visitAll_addr_of_settled (h : ¬ Unsettled lo hi s.addr q) :
    (visitAll lo hi s l).addr q = s.addr q := by
  induction l generalizing s with
  | nil => rfl
  | cons p l ih =>
      have hkeep := visit_addr_of_settled (p := p) h
      rw [visitAll_cons, ih ?_, hkeep]
      rwa [Unsettled, hkeep]

/-- A visit leaves absent nodes absent and the others untouched. -/
theorem visit_addr_of_ne (h : q ≠ p) : (visit lo hi s p).addr q = s.addr q := by
  unfold visit
  split
  · exact Function.update_of_ne h _ _
  · rfl

/-- While the area has room, a visited node ends up settled. -/
theorem not_unsettled_visit (hlo : lo ≤ s.next) (hnext : (visit lo hi s p).next ≤ hi) :
    ¬ Unsettled lo hi (visit lo hi s p).addr p := by
  by_cases h : Unsettled lo hi s.addr p
  · rw [visit_unsettled h] at hnext ⊢
    have hlt : s.next < hi := hnext
    simp [Unsettled, hlo, hlt]
  · rwa [visit_settled h]

theorem not_unsettled_visitAll_of_not (h : ¬ Unsettled lo hi s.addr q) :
    ¬ Unsettled lo hi (visitAll lo hi s l).addr q := by
  rwa [Unsettled, visitAll_addr_of_settled h]

/-- While the area has room, every node of a walk ends up settled. -/
theorem not_unsettled_visitAll (hlo : lo ≤ s.next) (hnext : (visitAll lo hi s l).next ≤ hi)
    (hp : p ∈ l) : ¬ Unsettled lo hi (visitAll lo hi s l).addr p := by
  induction l generalizing s with
  | nil => simp at hp
  | cons q l ih =>
      rw [visitAll_cons] at hnext ⊢
      -- a node once settled stays so for the rest of the walk
      rcases List.mem_cons.mp hp with rfl | hp
      · exact not_unsettled_visitAll_of_not (not_unsettled_visit hlo (next_le_visitAll.trans hnext))
      · exact ih (hlo.trans next_le_visit) hnext hp

/-- A walk over settled nodes changes nothing. -/
theorem visitAll_of_settled (h : ∀ q ∈ l, ¬ Unsettled lo hi s.addr q) : visitAll lo hi s l = s := by
  induction l with
  | nil => rfl
  | cons p l ih =>
      rw [visitAll_cons, visit_settled (h p (by simp))]
      exact ih fun q hq => h q (List.mem_cons_of_mem _ hq)

/-- A walk keeps absent nodes absent and present nodes present, as long as `0` is not in the area. -/
theorem visitAll_addr_eq_zero_iff (hlo : lo ≤ s.next) (h0 : 0 < lo) :
    (visitAll lo hi s l).addr q = 0 ↔ s.addr q = 0 := by
  induction l generalizing s with
  | nil => rfl
  | cons p l ih =>
      rw [visitAll_cons, ih (hlo.trans next_le_visit)]
      unfold visit
      split
      next hp =>
        -- the node placed gets an address of the area, which is not 0
        by_cases hq : q = p
        · subst hq
          have hnext : s.next ≠ 0 := by omega
          simp [hp.1, hnext]
        · simp [Function.update_of_ne hq]
      next => rfl

/-- A walk with room for it leaves every present node of the walk in the area. -/
theorem visitAll_addr_in_area (hlo : lo ≤ s.next) (h0 : 0 < lo)
    (hnext : (visitAll lo hi s l).next ≤ hi) (hp : p ∈ l) (hne : s.addr p ≠ 0) :
    lo ≤ (visitAll lo hi s l).addr p ∧ (visitAll lo hi s l).addr p < hi := by
  by_contra hout
  have hpresent : (visitAll lo hi s l).addr p ≠ 0 := fun hzero =>
    hne ((visitAll_addr_eq_zero_iff hlo h0).mp hzero)
  exact not_unsettled_visitAll hlo hnext hp ⟨hpresent, hout⟩

/-! ## The room a walk needs -/

/-- The distinct nodes of a walk that it has to place. -/
def toPlace (lo hi : ℕ) (addr : P → ℕ) (l : List P) : Finset P :=
  l.toFinset.filter (Unsettled lo hi addr)

/-- If the area has room for the distinct nodes to place, the walk uses exactly one address each. -/
theorem visitAll_next (hlo : lo ≤ s.next) (hroom : s.next + (toPlace lo hi s.addr l).card ≤ hi) :
    (visitAll lo hi s l).next = s.next + (toPlace lo hi s.addr l).card := by
  induction l generalizing s with
  | nil => simp [toPlace]
  | cons p l ih =>
      rw [visitAll_cons]
      by_cases hp : Unsettled lo hi s.addr p
      · -- placing `p` takes it out of the nodes still to place
        have hmem : p ∈ toPlace lo hi s.addr (p :: l) := by simp [toPlace, hp]
        have hroom' : s.next < hi := by
          have := Finset.card_pos.mpr ⟨p, hmem⟩
          omega
        have hset : toPlace lo hi (visit lo hi s p).addr l
            = (toPlace lo hi s.addr (p :: l)).erase p := by
          ext q
          simp only [toPlace, Finset.mem_filter, List.mem_toFinset, Finset.mem_erase, List.mem_cons]
          by_cases hq : q = p
          · subst hq
            simp [visit_unsettled hp, Unsettled, hlo, hroom']
          · simp [Unsettled, visit_addr_of_ne hq, hq]
        have hcard := Finset.card_erase_add_one hmem
        have hnext : (visit lo hi s p).next = s.next + 1 := by rw [visit_unsettled hp]
        rw [ih (by omega) (by rw [hset, hnext]; omega), hset, hnext]
        omega
      · have hset : toPlace lo hi s.addr (p :: l) = toPlace lo hi s.addr l := by
          ext q
          simp only [toPlace, Finset.mem_filter, List.mem_toFinset, List.mem_cons]
          constructor
          · rintro ⟨rfl | hq, hu⟩
            · exact absurd hu hp
            · exact ⟨hq, hu⟩
          · rintro ⟨hq, hu⟩
            exact ⟨Or.inr hq, hu⟩
        rw [visit_settled hp, hset, ih hlo (by rwa [hset] at hroom)]

end Visit

/-! ## The order of the nodes -/

section Order

variable {lo hi : ℕ} {s : State P} {p q : P} {l : List P}

theorem visitAll_addr_of_not_mem (h : q ∉ l) : (visitAll lo hi s l).addr q = s.addr q := by
  induction l generalizing s with
  | nil => rfl
  | cons p l ih =>
      rw [List.mem_cons, not_or] at h
      rw [visitAll_cons, ih h.2, visit_addr_of_ne h.1]

theorem visitAll_next_le : (visitAll lo hi s l).next ≤ s.next + l.length := by
  induction l generalizing s with
  | nil => exact le_rfl
  | cons p l ih =>
      have hvisit : (visit lo hi s p).next ≤ s.next + 1 := by
        unfold visit
        split
        · exact le_rfl
        · exact Nat.le_succ _
      have hrest := ih (s := visit lo hi s p)
      rw [visitAll_cons, List.length_cons]
      omega

/-- The addresses a walk uses up are those of nodes it has visited. -/
theorem exists_addr_eq (hlo : lo ≤ s.next) (hroom : (visitAll lo hi s l).next ≤ hi) {b : ℕ}
    (hb : s.next ≤ b) (hb' : b < (visitAll lo hi s l).next) :
    ∃ p ∈ l, (visitAll lo hi s l).addr p = b := by
  induction l generalizing s with
  | nil => exact absurd hb' (Nat.not_lt.mpr hb)
  | cons p l ih =>
      rw [visitAll_cons] at hroom hb' ⊢
      rcases Nat.lt_or_ge b (visit lo hi s p).next with hlt | hge
      · -- `p` was given the address, and keeps it
        have hp : Unsettled lo hi s.addr p := by
          by_contra hp
          rw [visit_settled hp] at hlt
          omega
        have hnext : (visit lo hi s p).next = s.next + 1 := by rw [visit_unsettled hp]
        have hset := not_unsettled_visit hlo (next_le_visitAll.trans hroom) (p := p)
        refine ⟨p, List.mem_cons_self, ?_⟩
        rw [visitAll_addr_of_settled hset, visit_unsettled hp]
        show Function.update s.addr p s.next p = b
        rw [Function.update_self]
        omega
      · rcases ih (hlo.trans next_le_visit) hroom hge hb' with ⟨p', hp', haddr⟩
        exact ⟨p', List.mem_cons_of_mem _ hp', haddr⟩

/-- A node placed at the end of a walk has the last address used. -/
theorem addr_last (hp : p ∉ l) (hu : Unsettled lo hi s.addr p) :
    (visitAll lo hi s (l ++ [p])).addr p + 1 = (visitAll lo hi s (l ++ [p])).next
      ∧ s.next < (visitAll lo hi s (l ++ [p])).next := by
  have hu' : Unsettled lo hi (visitAll lo hi s l).addr p := by
    rwa [Unsettled, visitAll_addr_of_not_mem hp]
  have hstep : visitAll lo hi s (l ++ [p])
      = ⟨Function.update (visitAll lo hi s l).addr p (visitAll lo hi s l).next,
          (visitAll lo hi s l).next + 1⟩ := by
    rw [visitAll_append, visitAll_cons, visitAll_nil, visit_unsettled hu']
  have hmono : s.next ≤ (visitAll lo hi s l).next := next_le_visitAll
  rw [hstep]
  refine ⟨?_, Nat.lt_succ_of_le hmono⟩
  show Function.update (visitAll lo hi s l).addr p (visitAll lo hi s l).next p + 1 = _
  rw [Function.update_self]

end Order

/-! ## Walks made of groups -/

section Groups

variable {Q : Type*} {lo hi : ℕ} {inner : Q → List P} {data : Q → P} {s : State P}

/-- The walk over groups, each an inner walk and then a node of its own. -/
def groupWalk (inner : Q → List P) (data : Q → P) (qs : List Q) : List P :=
  qs.flatMap fun q => inner q ++ [data q]

/-- The last nodes of the groups differ, and belong to no inner walk. -/
structure Grouped (inner : Q → List P) (data : Q → P) (qs : List Q) : Prop where
  inj : ∀ q ∈ qs, ∀ q' ∈ qs, data q = data q' → q = q'
  sep : ∀ q ∈ qs, ∀ q' ∈ qs, data q ∉ inner q'

/-- The last node of `q'` lies after that of `q`, and only inner nodes of `q'` lie between them. -/
structure Follows (inner : Q → List P) (data : Q → P) (addr : P → ℕ) (q q' : Q) : Prop where
  lt : addr (data q) < addr (data q')
  le : addr (data q') ≤ addr (data q) + (inner q').length + 1
  between : ∀ b, addr (data q) < b → b < addr (data q') → ∃ p ∈ inner q', addr p = b

omit [DecidableEq P] in
/-- It is about the addresses of the last nodes and of the inner nodes of `q'` only. -/
theorem Follows.congr {addr addr' : P → ℕ} {a b : Q} (h : Follows inner data addr a b)
    (ha : addr' (data a) = addr (data a)) (hb : addr' (data b) = addr (data b))
    (hinner : ∀ p ∈ inner b, addr' p = addr p) : Follows inner data addr' a b where
  lt := by
    rw [ha, hb]
    exact h.lt
  le := by
    rw [ha, hb]
    exact h.le
  between c hc hc' := by
    rw [ha] at hc
    rw [hb] at hc'
    rcases h.between c hc hc' with ⟨p, hp, haddr⟩
    exact ⟨p, hp, (hinner p hp).trans haddr⟩

/-- A new group begins at the cursor, right after the one placed last. -/
theorem follows_of_placed {a q : Q} (hlo : lo ≤ s.next)
    (hroom : (visitAll lo hi s (inner q ++ [data q])).next ≤ hi) (hsep : data q ∉ inner q)
    (hu : Unsettled lo hi s.addr (data q))
    (hprev : (visitAll lo hi s (inner q ++ [data q])).addr (data a) + 1 = s.next) :
    Follows inner data (visitAll lo hi s (inner q ++ [data q])).addr a q := by
  rcases addr_last hsep hu with ⟨hlast, hnext⟩
  have hlen : (visitAll lo hi s (inner q ++ [data q])).next ≤ s.next + (inner q ++ [data q]).length :=
    visitAll_next_le
  rw [List.length_append, List.length_singleton] at hlen
  refine ⟨by omega, by omega, fun c hc hc' => ?_⟩
  rcases exists_addr_eq hlo hroom (by omega : s.next ≤ c) (by omega) with ⟨p, hp, haddr⟩
  refine ⟨p, ?_, haddr⟩
  rcases List.mem_append.mp hp with hp | hp
  · exact hp
  · rw [List.mem_singleton.mp hp] at haddr
    omega

omit [DecidableEq P] in
/-- The last node of a new group has not been visited. -/
theorem Grouped.data_not_mem {qs : List Q} {q : Q} (h : Grouped inner data (qs ++ [q])) (hq : q ∉ qs) :
    data q ∉ groupWalk inner data qs := by
  have hmem : ∀ a ∈ qs, a ∈ qs ++ [q] := fun a ha => List.mem_append_left _ ha
  have hlast : q ∈ qs ++ [q] := List.mem_append_right _ (List.mem_singleton_self _)
  intro hp
  rcases List.mem_flatMap.mp hp with ⟨a, ha, hp⟩
  rcases List.mem_append.mp hp with hp | hp
  · exact h.sep q hlast a (hmem a ha) hp
  · exact hq (h.inj q hlast a (hmem a ha) (List.mem_singleton.mp hp) ▸ ha)

/-- **Groups lie in the order of their first visits.** -/
theorem isChain_follows [BEq Q] [LawfulBEq Q] {qs : List Q} (hgroup : Grouped inner data qs)
    (hdata : ∀ q ∈ qs, Unsettled lo hi s.addr (data q)) (hlo : lo ≤ s.next)
    (hroom : (visitAll lo hi s (groupWalk inner data qs)).next ≤ hi) :
    qs.eraseDups.IsChain (Follows inner data (visitAll lo hi s (groupWalk inner data qs)).addr)
      ∧ ∀ q ∈ qs.eraseDups.getLast?,
        (visitAll lo hi s (groupWalk inner data qs)).addr (data q) + 1
          = (visitAll lo hi s (groupWalk inner data qs)).next := by
  -- by the groups visited before, so that the last one is placed at the cursor
  induction qs using List.reverseRecOn with
  | nil => exact ⟨List.isChain_nil, fun q hq => absurd hq (by simp)⟩
  | append_singleton qs q ih =>
      have hwalk : groupWalk inner data (qs ++ [q])
          = groupWalk inner data qs ++ (inner q ++ [data q]) := by
        simp [groupWalk]
      rw [hwalk, visitAll_append] at hroom ⊢
      have hroom' := next_le_visitAll.trans hroom
      have hmem : ∀ q' ∈ qs, q' ∈ qs ++ [q] := fun q' hq' => List.mem_append_left _ hq'
      have hq : q ∈ qs ++ [q] := List.mem_append_right _ (List.mem_singleton_self _)
      have hgroup' : Grouped inner data qs :=
        ⟨fun a ha b hb => hgroup.inj a (hmem a ha) b (hmem b hb),
          fun a ha b hb => hgroup.sep a (hmem a ha) b (hmem b hb)⟩
      have hih := ih hgroup' (fun a ha => hdata a (hmem a ha)) hroom'
      have hset : ∀ p ∈ groupWalk inner data qs,
          ¬ Unsettled lo hi (visitAll lo hi s (groupWalk inner data qs)).addr p :=
        fun p hp => not_unsettled_visitAll hlo hroom' hp
      have hlo' : lo ≤ (visitAll lo hi s (groupWalk inner data qs)).next := hlo.trans next_le_visitAll
      generalize ht : visitAll lo hi s (groupWalk inner data qs) = t at *
      rw [List.eraseDups_append]
      by_cases hold : q ∈ qs
      · -- a group seen before is not placed again
        have hkeep : visitAll lo hi t (inner q ++ [data q]) = t := by
          refine visitAll_of_settled fun p hp => hset p ?_
          exact List.mem_flatMap.mpr ⟨q, hold, hp⟩
        have hnone : [q].removeAll qs = [] := by simp [List.removeAll, hold]
        rw [hkeep, hnone, List.eraseDups_nil, List.append_nil]
        exact hih
      · have hu : Unsettled lo hi t.addr (data q) := by
          rw [← ht, Unsettled, visitAll_addr_of_not_mem (hgroup.data_not_mem hold)]
          exact hdata q hq
        have hsep := hgroup.sep q hq q hq
        have hkeep : ∀ p ∈ groupWalk inner data qs,
            (visitAll lo hi t (inner q ++ [data q])).addr p = t.addr p :=
          fun p hp => visitAll_addr_of_settled (hset p hp)
        have hdata' : ∀ a ∈ qs, data a ∈ groupWalk inner data qs := fun a ha =>
          List.mem_flatMap.mpr ⟨a, ha, by simp⟩
        have hinner' : ∀ a ∈ qs, ∀ p ∈ inner a, p ∈ groupWalk inner data qs := fun a ha p hp =>
          List.mem_flatMap.mpr ⟨a, ha, List.mem_append_left _ hp⟩
        have hone : [q].removeAll qs = [q] := by simp [List.removeAll, hold]
        have hsingle : [q].eraseDups = [q] := by simp [List.eraseDups_cons]
        rw [hone, hsingle]
        refine ⟨List.IsChain.append ?_ (List.isChain_singleton q) ?_, ?_⟩
        · -- the groups placed before keep their addresses
          refine hih.1.imp_of_mem_imp fun a b ha hb hab => ?_
          rw [List.mem_eraseDups] at ha hb
          exact hab.congr (hkeep _ (hdata' a ha)) (hkeep _ (hdata' b hb)) fun p hp =>
            hkeep p (hinner' b hb p hp)
        · intro a ha b hb
          cases hb
          have ha' : a ∈ qs := List.mem_eraseDups.mp (List.mem_of_getLast? ha)
          refine follows_of_placed hlo' hroom hsep hu ?_
          rw [hkeep _ (hdata' a ha')]
          exact hih.2 a ha
        · intro a ha
          rw [List.getLast?_concat] at ha
          cases ha
          exact (addr_last hsep hu).1

end Groups

end FirstVisit

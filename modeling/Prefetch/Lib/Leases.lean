/-
# Prefetch.Lib.Leases — a shared resource, who holds it and how often it was taken

Users take a resource and give it back; the resource keeps no more than a count. `holding u` follows one
user through the log of what was done and fails where it takes what it has or gives back what it has
not. `Balanced` relates the three views: the log, the set of holders and the count. Each of its rules is
about one call, so a system that shows which rule each of its steps is keeps count, holders and log
together over whole runs. `Ledger` is for resources that are named afresh each time one is acquired, where
a user stands for one acquisition.
-/
import Mathlib.Data.Set.Card
import Mathlib.Tactic.Common

namespace Leases

variable {υ : Type*} [DecidableEq υ]

/-! ## §1 — one user in the log -/

/-- Something done: a user took the resource, or gave it back. -/
inductive Entry (υ : Type*) where
  | take (u : υ)
  | give (u : υ)
  deriving DecidableEq, Repr

/-- Whether `u` holds the resource after an entry, `none` once it took it twice or gave it back twice. -/
def turn (u : υ) : Option Bool → Entry υ → Option Bool
  | some false, .take v => if v = u then some true else some false
  | some true, .take v => if v = u then none else some true
  | some false, .give v => if v = u then none else some false
  | some true, .give v => if v = u then some false else some true
  | none, _ => none

/-- Whether `u` holds the resource after a whole log. -/
def holding (u : υ) (log : List (Entry υ)) : Option Bool := log.foldl (turn u) (some false)

theorem holding_append (u : υ) (log : List (Entry υ)) (e : Entry υ) :
    holding u (log ++ [e]) = turn u (holding u log) e := by
  unfold holding
  rw [List.foldl_append]
  rfl

/-- **A user whose turns alternate gave back as often as it took**, but for what it holds. -/
theorem count_of_holding {u : υ} {log : List (Entry υ)} {b : Bool} (h : holding u log = some b) :
    log.count (.take u) = log.count (.give u) + if b then 1 else 0 := by
  induction log using List.reverseRecOn generalizing b with
  | nil =>
      cases h
      rfl
  | append_singleton log e ih =>
      rw [holding_append] at h
      simp only [List.count_append, List.count_singleton]
      cases hbefore : holding u log with
      | none =>
          rw [hbefore] at h
          cases e <;> cases h
      | some held =>
          have hcount := ih hbefore
          rw [hbefore] at h
          cases e with
          | take v => cases held <;> by_cases hv : v = u <;> simp_all [turn]
          | give v => cases held <;> by_cases hv : v = u <;> simp_all [turn]

/-! ## §2 — holders, count and log -/

/-- The holders are finitely many, `count` is their number, and each user's turns in the log alternate
and end with whether it is one of them. -/
structure Balanced (holds : υ → Prop) (count : ℤ) (log : List (Entry υ)) : Prop where
  finite : {u | holds u}.Finite
  count_eq : count = ({u | holds u}.ncard : ℕ)
  turns : ∀ u, ∃ b, holding u log = some b ∧ (b = true ↔ holds u)

variable {holds holds' : υ → Prop} {count : ℤ} {log : List (Entry υ)} {u : υ}

theorem balanced_init (hnone : ∀ u, ¬ holds u) : Balanced holds 0 [] := by
  have hempty : {u | holds u} = ∅ := Set.eq_empty_iff_forall_notMem.2 hnone
  refine ⟨?_, ?_, ?_⟩
  · rw [hempty]
    exact Set.finite_empty
  · rw [hempty, Set.ncard_empty]
    rfl
  · intro u
    exact ⟨false, rfl, by simp [hnone u]⟩

namespace Balanced

theorem congr (h : Balanced holds count log) (hholds : ∀ u, holds' u ↔ holds u) :
    Balanced holds' count log := by
  have heq : holds' = holds := funext fun u => propext (hholds u)
  rw [heq]
  exact h

/-- Somebody who does not hold the resource takes it. -/
theorem take (h : Balanced holds count log) (hfree : ¬ holds u)
    (hholds : ∀ v, holds' v ↔ v = u ∨ holds v) : Balanced holds' (count + 1) (log ++ [.take u]) := by
  have hset : {v | holds' v} = insert u {v | holds v} := Set.ext hholds
  refine ⟨?_, ?_, ?_⟩
  · rw [hset]
    exact h.finite.insert u
  · have hcard : (insert u {v | holds v}).ncard = {v | holds v}.ncard + 1 :=
      Set.ncard_insert_of_notMem hfree h.finite
    rw [hset, hcard, h.count_eq]
    exact (Nat.cast_succ _).symm
  · intro v
    obtain ⟨b, hb, hiff⟩ := h.turns v
    rw [holding_append, hb, hholds v]
    by_cases hv : u = v
    · subst hv
      have hfalse : b = false := by simpa [hfree] using hiff
      subst hfalse
      exact ⟨true, by simp [turn], by simp⟩
    · refine ⟨b, by cases b <;> simp [turn, hv], ?_⟩
      rw [hiff]
      simp [Ne.symm hv]

/-- A holder gives the resource back. -/
theorem give (h : Balanced holds count log) (hheld : holds u)
    (hholds : ∀ v, holds' v ↔ holds v ∧ v ≠ u) :
    Balanced holds' (count - 1) (log ++ [.give u]) := by
  have hset : {v | holds' v} = {v | holds v} \ {u} := Set.ext hholds
  refine ⟨?_, ?_, ?_⟩
  · rw [hset]
    exact h.finite.sdiff
  · have hcard := Set.ncard_sdiff_singleton_add_one (show u ∈ {v | holds v} from hheld) h.finite
    rw [hset, h.count_eq]
    omega
  · intro v
    obtain ⟨b, hb, hiff⟩ := h.turns v
    rw [holding_append, hb, hholds v]
    by_cases hv : u = v
    · subst hv
      have htrue : b = true := hiff.2 hheld
      subst htrue
      exact ⟨false, by simp [turn], by simp⟩
    · refine ⟨b, by cases b <;> simp [turn, hv], ?_⟩
      rw [hiff]
      simp [Ne.symm hv]

/-- A holder took the resource. -/
theorem take_mem (h : Balanced holds count log) (hheld : holds u) : .take u ∈ log := by
  obtain ⟨b, hb, hiff⟩ := h.turns u
  have htrue : b = true := hiff.2 hheld
  subst htrue
  have hcount := count_of_holding hb
  rw [if_pos rfl] at hcount
  exact List.count_pos_iff.1 (by omega)

theorem count_nonneg (h : Balanced holds count log) : 0 ≤ count := by
  rw [h.count_eq]
  exact Int.natCast_nonneg _

/-- **The count is one exactly when the holder is the only one.** -/
theorem count_eq_one_iff (h : Balanced holds count log) (hheld : holds u) :
    count = 1 ↔ ∀ v, holds v ↔ v = u := by
  rw [h.count_eq]
  constructor
  · intro hone
    obtain ⟨w, hw⟩ := Set.ncard_eq_one.1 (Nat.cast_eq_one.1 hone)
    have hmem : ∀ v, holds v ↔ v = w := fun v => Set.ext_iff.1 hw v
    intro v
    rw [hmem v, (hmem u).1 hheld]
  · intro honly
    have hset : {v | holds v} = {u} := Set.ext honly
    rw [hset, Set.ncard_singleton]
    rfl

end Balanced

/-! ## §3 — resources named when they are acquired -/

/-- `serial` numbers the resources by when they are acquired, the next one being `next`: none is taken
twice, and `holds` are those not given back. -/
structure Ledger (serial : υ → ℕ) (holds : υ → Prop) (next : ℕ) (log : List (Entry υ)) : Prop where
  balanced : ∃ count, Balanced holds count log
  fresh : ∀ u, .take u ∈ log → serial u < next
  once : ∀ u, log.count (.take u) ≤ 1

variable {serial : υ → ℕ} {next : ℕ}

theorem ledger_init (hnone : ∀ u, ¬ holds u) : Ledger serial holds next [] := by
  refine ⟨⟨0, balanced_init hnone⟩, ?_, ?_⟩
  · intro u hu
    cases hu
  · intro u
    exact Nat.zero_le _

namespace Ledger

theorem congr (h : Ledger serial holds next log) (hholds : ∀ u, holds' u ↔ holds u) :
    Ledger serial holds' next log :=
  ⟨h.balanced.imp fun _ hbal => hbal.congr hholds, h.fresh, h.once⟩

/-- A call that acquires nothing. -/
theorem skip (h : Ledger serial holds next log) : Ledger serial holds (next + 1) log :=
  ⟨h.balanced, fun u hu => Nat.lt_succ_of_lt (h.fresh u hu), h.once⟩

/-- The resource just acquired is held from now on. -/
theorem take (h : Ledger serial holds next log) (hserial : serial u = next) :
    Ledger serial (fun v => v = u ∨ holds v) (next + 1) (log ++ [.take u]) := by
  obtain ⟨count, hbal⟩ := h.balanced
  have hnew : .take u ∉ log := fun hmem => (h.fresh u hmem).ne hserial
  have hfree : ¬ holds u := fun hheld => hnew (hbal.take_mem hheld)
  refine ⟨⟨count + 1, hbal.take hfree fun _ => Iff.rfl⟩, ?_, ?_⟩
  · intro v hv
    rcases List.mem_append.1 hv with hv | hv
    · exact Nat.lt_succ_of_lt (h.fresh v hv)
    · cases List.mem_singleton.1 hv
      omega
  · intro v
    rw [List.count_append, List.count_singleton]
    by_cases hv : v = u
    · subst hv
      simp [List.count_eq_zero_of_not_mem hnew]
    · simpa [Ne.symm hv] using h.once v

/-- A resource held is given back. -/
theorem give (h : Ledger serial holds next log) (hheld : holds u) :
    Ledger serial (fun v => holds v ∧ v ≠ u) next (log ++ [.give u]) := by
  obtain ⟨count, hbal⟩ := h.balanced
  refine ⟨⟨count - 1, hbal.give hheld fun _ => Iff.rfl⟩, ?_, ?_⟩
  · intro v hv
    rcases List.mem_append.1 hv with hv | hv
    · exact h.fresh v hv
    · cases List.mem_singleton.1 hv
  · intro v
    rw [List.count_append, List.count_singleton]
    simpa using h.once v

/-- What there is of a resource is given back. -/
theorem release (h : Ledger serial holds next log) {old : Option υ} (hheld : ∀ u ∈ old, holds u) :
    Ledger serial (fun v => holds v ∧ v ∉ old) next (log ++ old.toList.map .give) := by
  cases old with
  | none =>
      rw [Option.toList_none, List.map_nil, List.append_nil]
      exact h.congr fun v => by simp
  | some u => exact (h.give (hheld u rfl)).congr fun v => by simp [eq_comm]

/-- **One resource is replaced**: the old one, if any, is given back, and the call that follows may
acquire a new one. -/
theorem replace (h : Ledger serial holds next log) {old new : Option υ} (hheld : ∀ u ∈ old, holds u)
    (hserial : ∀ u ∈ new, serial u = next) (hholds : ∀ v, holds' v ↔ v ∈ new ∨ holds v ∧ v ∉ old) :
    Ledger serial holds' (next + 1) (log ++ old.toList.map .give ++ new.toList.map .take) := by
  have hgiven := h.release hheld
  cases new with
  | none =>
      rw [Option.toList_none, List.map_nil, List.append_nil]
      exact hgiven.skip.congr fun v => by simp [hholds v]
  | some u => exact (hgiven.take (hserial u rfl)).congr fun v => by simp [hholds v, eq_comm]

/-- **Where nothing is held, everything acquired was given back once.** -/
theorem released (h : Ledger serial holds next log) (hnone : ∀ u, ¬ holds u) (u : υ) :
    holding u log = some false ∧ log.count (.give u) = log.count (.take u) ∧ log.count (.take u) ≤ 1 := by
  obtain ⟨count, hbal⟩ := h.balanced
  obtain ⟨b, hb, hiff⟩ := hbal.turns u
  have hfalse : b = false := by simpa [hnone u] using hiff
  subst hfalse
  exact ⟨hb, (count_of_holding hb).symm, h.once u⟩

end Ledger

end Leases

/-
# Prefetch.Lib.RunningSums — things laid one behind the other

Each thing of a list has a length and an offset. They lie one behind the other (`Running`) when each offset is
where the thing before it ends. Then they are in the order of their offsets, and every position up to the end of
the last is in one of them (`Running.exists_mem`).
-/
import Mathlib.Data.List.Pairwise
import Mathlib.Data.Nat.Basic
import Mathlib.Tactic.Common

namespace RunningSums

variable {α : Type*} (len offset : α → ℕ)

/-- The lengths, added up. -/
def totalLen : List α → ℕ
  | [] => 0
  | a :: as => len a + totalLen as

/-- The offsets are the running sums of the lengths, from `sum` on. -/
def Running : ℕ → List α → Prop
  | _, [] => True
  | sum, a :: as => offset a = sum ∧ Running (sum + len a) as

/-! ## §1 — the sum -/

section Total

variable {len} {as bs : List α}

@[simp] theorem totalLen_nil : totalLen len [] = 0 := rfl

@[simp] theorem totalLen_cons (a : α) (as : List α) : totalLen len (a :: as) = len a + totalLen len as := rfl

@[simp] theorem totalLen_append (as bs : List α) : totalLen len (as ++ bs) = totalLen len as + totalLen len bs := by
  induction as with
  | nil => exact (Nat.zero_add _).symm
  | cons a as ih => rw [List.cons_append, totalLen_cons, ih, totalLen_cons, Nat.add_assoc]

theorem totalLen_map {β : Type*} (f : β → α) (bs : List β) : totalLen len (bs.map f) = totalLen (len ∘ f) bs := by
  induction bs with
  | nil => rfl
  | cons b bs ih =>
      rw [List.map_cons, totalLen_cons, ih]
      rfl

theorem totalLen_perm (h : as.Perm bs) : totalLen len as = totalLen len bs := by
  induction h with
  | nil => rfl
  | cons a _ ih => rw [totalLen_cons, totalLen_cons, ih]
  | swap a b as => simp only [totalLen_cons, Nat.add_left_comm]
  | trans _ _ ih ih' => exact ih.trans ih'

theorem totalLen_sublist (h : as.Sublist bs) : totalLen len as ≤ totalLen len bs := by
  induction h with
  | slnil => exact Nat.le_refl _
  | cons b _ ih => exact Nat.le_trans ih (Nat.le_add_left _ _)
  | cons_cons a _ ih => exact Nat.add_le_add_left ih _

end Total

/-! ## §2 — running sums -/

section Running

variable {len offset} {sum pos : ℕ} {as bs : List α} {a : α}

theorem running_append :
    Running len offset sum (as ++ bs) ↔
      Running len offset sum as ∧ Running len offset (sum + totalLen len as) bs := by
  induction as generalizing sum with
  | nil => exact ⟨fun h => ⟨trivial, h⟩, And.right⟩
  | cons a as ih =>
      rw [List.cons_append, Running, Running, ih, and_assoc, totalLen_cons, Nat.add_assoc]

namespace Running

theorem ordered (h : Running len offset sum as) :
    (∀ a ∈ as, sum ≤ offset a) ∧ as.Pairwise fun a a' => offset a + len a ≤ offset a' := by
  induction as generalizing sum with
  | nil => exact ⟨fun a ha => absurd ha List.not_mem_nil, List.Pairwise.nil⟩
  | cons a as ih =>
      rcases h with ⟨rfl, hrest⟩
      have hih := ih hrest
      constructor
      · intro a' ha'
        rcases List.mem_cons.mp ha' with rfl | ha'
        · exact Nat.le_refl _
        · exact Nat.le_trans (Nat.le_add_right _ _) (hih.1 a' ha')
      · exact List.pairwise_cons.mpr ⟨hih.1, hih.2⟩

/-- **Every position is in one of them.** -/
theorem exists_mem (h : Running len offset sum as) (hlo : sum ≤ pos) (hhi : pos < sum + totalLen len as) :
    ∃ a ∈ as, offset a ≤ pos ∧ pos < offset a + len a := by
  induction as generalizing sum with
  | nil => exact absurd hhi (Nat.not_lt.mpr hlo)
  | cons a as ih =>
      rcases h with ⟨rfl, hrest⟩
      rw [totalLen_cons] at hhi
      rcases Nat.lt_or_ge pos (offset a + len a) with hlt | hge
      · exact ⟨a, List.mem_cons_self, hlo, hlt⟩
      · rcases ih hrest hge (by omega) with ⟨a', ha', hin⟩
        exact ⟨a', List.mem_cons_of_mem _ ha', hin⟩

theorem le_end (h : Running len offset sum as) (ha : a ∈ as) : offset a + len a ≤ sum + totalLen len as := by
  induction as generalizing sum with
  | nil => cases ha
  | cons a' as ih =>
      rcases h with ⟨rfl, hrest⟩
      rw [totalLen_cons]
      rcases List.mem_cons.mp ha with rfl | ha
      · omega
      · have hend := ih hrest ha
        omega

end Running

end Running

end RunningSums

/-
# Prefetch.Lib.Ownership — cells with exactly one owner

Places hold references to cells, `0` being the null reference. The cells in use are the reserved ones
and the referenced ones, and a referenced cell is referenced from exactly one place. Moving what a
place refers to into a free cell keeps this, and changes the number of free cells of a region by what
entered and what left it.
-/
import Mathlib.Data.Finset.Card
import Mathlib.Data.Finset.Filter
import Mathlib.Tactic.Common

namespace Ownership

/-! ## Marks and free cells -/

section Marks

variable {β : Type*} [DecidableEq β]

/-- Mark `t` used and `s` free. -/
def remark (used : β → Bool) (s t : β) : β → Bool :=
  Function.update (Function.update used t true) s false

theorem remark_apply {used : β → Bool} {s t : β} (b : β) :
    remark used s t b = if b = s then false else if b = t then true else used b := by
  simp only [remark, Function.update_apply]

/-- The free cells of a region. -/
def freeIn (used : β → Bool) (region : Finset β) : Finset β := region.filter fun b => used b = false

/-- What a move does to the free cells of a region, counted without subtraction. -/
theorem card_freeIn_remark {used : β → Bool} {s t : β} (hs : used s = true) (ht : used t = false)
    (region : Finset β) :
    (freeIn (remark used s t) region).card + (if t ∈ region then 1 else 0)
      = (freeIn used region).card + (if s ∈ region then 1 else 0) := by
  have hst : s ≠ t := by
    rintro rfl
    rw [hs] at ht
    exact absurd ht (by simp)
  -- the free cells other than `s` and `t` are the same before and after
  have hafter : freeIn (remark used s t) region
      = (region.filter fun b => b = s) ∪ (region.filter fun b => b ≠ t ∧ used b = false) := by
    ext b
    simp only [freeIn, Finset.mem_filter, Finset.mem_union, remark_apply]
    split_ifs with h1 h2 <;> grind
  have hbefore : freeIn used region
      = (region.filter fun b => b = t) ∪ (region.filter fun b => b ≠ t ∧ used b = false) := by
    ext b
    simp only [freeIn, Finset.mem_filter, Finset.mem_union]
    grind
  have hdisj : ∀ c, (c = s ∨ c = t) → Disjoint (region.filter fun b => b = c)
      (region.filter fun b => b ≠ t ∧ used b = false) := by
    intro c hc
    refine Finset.disjoint_filter.mpr fun b _ hb => ?_
    rcases hc with rfl | rfl
    · subst hb
      simp [hs]
    · subst hb
      simp
  have hsingle : ∀ c, (region.filter fun b => b = c).card = if c ∈ region then 1 else 0 := by
    intro c
    rw [Finset.filter_eq']
    split <;> simp
  rw [hafter, hbefore, Finset.card_union_of_disjoint (hdisj s (Or.inl rfl)),
    Finset.card_union_of_disjoint (hdisj t (Or.inr rfl)), hsingle, hsingle]
  omega

end Marks

/-! ## Single owners -/

variable {P β : Type*} [Zero β]

/-- The cells in use are the reserved and the referenced ones, and each referenced cell has exactly
one place that refers to it. -/
structure SingleOwner (ref : P → β) (used : β → Bool) (reserved : Set β) : Prop where
  used_iff : ∀ b, used b = true ↔ b ∈ reserved ∨ b ≠ 0 ∧ ∃ p, ref p = b
  not_reserved : ∀ p, ref p ≠ 0 → ref p ∉ reserved
  existsUnique : ∀ b, used b = true → b ∉ reserved → ∃! p, ref p = b

namespace SingleOwner

variable {ref : P → β} {used : β → Bool} {reserved : Set β}

theorem used_ref (h : SingleOwner ref used reserved) {p : P} (hp : ref p ≠ 0) :
    used (ref p) = true :=
  (h.used_iff _).mpr (Or.inr ⟨hp, p, rfl⟩)

theorem eq_of_ref_eq (h : SingleOwner ref used reserved) {p q : P} (hp : ref p ≠ 0)
    (hpq : ref p = ref q) : p = q :=
  (h.existsUnique _ (h.used_ref hp) (h.not_reserved p hp)).unique rfl hpq.symm

theorem ref_ne_of_free (h : SingleOwner ref used reserved) {t : β} (ht : used t = false) (ht0 : t ≠ 0)
    (p : P) : ref p ≠ t := by
  rintro rfl
  rw [h.used_ref ht0] at ht
  exact absurd ht (by simp)

end SingleOwner

omit [Zero β] in
/-- References to the other cells stay. -/
theorem update_eq_iff [DecidableEq P] {ref : P → β} {p : P} {t b : β} (hbs : b ≠ ref p) (hbt : b ≠ t)
    (q : P) : Function.update ref p t q = b ↔ ref q = b := by
  by_cases hqp : q = p
  · subst hqp
    rw [Function.update_self]
    exact iff_of_false hbt.symm hbs.symm
  · rw [Function.update_of_ne hqp]

/-- Moving the cell `p` refers to into the free cell `t` keeps every owner single. -/
theorem SingleOwner.move [DecidableEq P] [DecidableEq β] {ref : P → β} {used : β → Bool} {reserved : Set β}
    (h : SingleOwner ref used reserved) {p : P} {t : β} (hp : ref p ≠ 0) (ht : used t = false)
    (ht0 : t ≠ 0) :
    SingleOwner (Function.update ref p t) (remark used (ref p) t) reserved := by
  have hfresh := h.ref_ne_of_free ht ht0
  have htres : t ∉ reserved := fun hr => by
    rw [(h.used_iff t).mpr (Or.inl hr)] at ht
    exact absurd ht (by simp)
  refine ⟨fun b => ?_, fun q hq => ?_, fun b hb hres => ?_⟩
  · rw [remark_apply]
    by_cases hbs : b = ref p
    · -- the old cell has lost its only reference
      subst hbs
      simp only [if_true, Bool.false_eq_true, false_iff, not_or, not_and, not_exists]
      refine ⟨h.not_reserved p hp, fun _ q hq => ?_⟩
      by_cases hqp : q = p
      · subst hqp
        rw [Function.update_self] at hq
        exact hfresh q hq.symm
      · rw [Function.update_of_ne hqp] at hq
        exact hqp (h.eq_of_ref_eq hp hq.symm).symm
    · by_cases hbt : b = t
      · subst hbt
        simp only [hbs, if_false, if_true, true_iff]
        exact Or.inr ⟨ht0, p, Function.update_self ..⟩
      · simp only [hbs, hbt, if_false]
        rw [h.used_iff b]
        exact or_congr_right (and_congr_right fun _ =>
          exists_congr fun q => (update_eq_iff hbs hbt q).symm)
  · by_cases hqp : q = p
    · subst hqp
      rwa [Function.update_self]
    · rw [Function.update_of_ne hqp] at hq ⊢
      exact h.not_reserved q hq
  · rw [remark_apply] at hb
    by_cases hbt : b = t
    · subst hbt
      refine ⟨p, Function.update_self .., fun q hq => ?_⟩
      by_contra hqp
      simp only [Function.update_of_ne hqp] at hq
      exact hfresh q hq
    · have hbs : b ≠ ref p := by
        rintro rfl
        simp at hb
      rw [if_neg hbs, if_neg hbt] at hb
      exact (existsUnique_congr fun q => update_eq_iff hbs hbt q).mpr (h.existsUnique b hb hres)

/-- Renaming all cells at once, different ones differently, keeps every owner single. -/
theorem SingleOwner.rename {ref ref' : P → β} {used used' : β → Bool} {reserved : Set β}
    (h : SingleOwner ref used reserved) (hzero : ∀ p, ref' p ≠ 0 → ref p ≠ 0)
    (hinj : ∀ p q, ref p ≠ 0 → ref q ≠ 0 → ref' p = ref' q → ref p = ref q)
    (hres : ∀ p, ref' p ≠ 0 → ref' p ∉ reserved)
    (hused : ∀ b, used' b = true ↔ b ∈ reserved ∨ b ≠ 0 ∧ ∃ p, ref' p = b) : SingleOwner ref' used' reserved := by
  refine ⟨hused, hres, fun b hb hnot => ?_⟩
  rcases (hused b).mp hb with hmem | ⟨hne, p, rfl⟩
  · exact absurd hmem hnot
  · refine ⟨p, rfl, fun q hq => ?_⟩
    have hqne : ref' q ≠ 0 := by
      rw [hq]
      exact hne
    exact h.eq_of_ref_eq (hzero q hqne) (hinj q p (hzero q hqne) (hzero p hne) hq)

end Ownership

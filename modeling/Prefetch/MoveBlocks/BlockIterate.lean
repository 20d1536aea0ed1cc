/-
# Prefetch.MoveBlocks.BlockIterate — a traversal as `ext2fs_block_iterate2` is documented

The blocks of pointers are read while pointers above them have been changed, and written while others below
them have been. If the function renames blocks, and the blocks renamed have been copied before, then all
this comes to renaming every pointer of the file, and nothing else (`blockIterate_renames`). If it only looks,
it sees the blocks of the file in pre-order (`blockIterate_looks`). So what the tools rely on can be had.
-/
import Prefetch.MoveBlocks.BlockCalls

namespace Prefetch.MoveBlocks

open Function

variable {g : Geometry} {τ : Type}

/-! ## §1 — the traversal -/

/-- The pointers of a block or an inode, and whether one was changed. -/
structure Words (ι : Type) where
  word : ι → ℕ
  changed : Bool

/-- The blocks of the device, and the function on its way. -/
structure Traversal (g : Geometry) (τ : Type) where
  blocks : ℕ → Block g
  going : Going τ

/-- The loop over the pointers of a block or an inode. -/
def iterateWords {ι : Type} [DecidableEq ι] (step : ι → ℕ → Traversal g τ → Option (NewPointer × Traversal g τ)) :
    List ι → Words ι → Traversal g τ → Option (Words ι × Traversal g τ)
  | [], words, w => some (words, w)
  | i :: is, words, w =>
      if w.going.hasGivenUp then some (words, w)
      else if words.word i = 0 then iterateWords step is words w
      else
        match step i (words.word i) w with
        | none => none
        | some (p, w) =>
            iterateWords step is ⟨update words.word i p.block, words.changed || p.changed⟩ w

/-- The call for an indirect block, which `BLOCK_FLAG_DATA_ONLY` leaves out. -/
def callIndirect (dataOnly : Bool) (f : Callback τ) (s : Going τ) (c : Call) : Option (NewPointer × Going τ) :=
  if dataOnly then some (⟨c.blocknr, false⟩, s) else callAt f s c

/-- A block so many levels above the data, and what is below: `block_iterate_ind`, `block_iterate_dind` and
`block_iterate_tind`. A block of pointers must lie in the filesystem; it is written back at the end. -/
def iteratePointer (dataOnly : Bool) (f : Callback τ) :
    (n : ℕ) → (block first refBlk refOffset : ℕ) → Traversal g τ → Option (NewPointer × Traversal g τ)
  | 0, block, first, refBlk, refOffset, w =>
      (callAt f w.going ⟨block, first, refBlk, refOffset⟩).map fun r => (r.1, { w with going := r.2 })
  | n + 1, block, first, refBlk, refOffset, w =>
      match callIndirect dataOnly f w.going ⟨block, -((n + 1 : ℕ) : ℤ), refBlk, refOffset⟩ with
      | none => none
      | some (p, going) =>
          if going.hasGivenUp = true ∨ p.block = 0 then some (p, { w with going := going })
          else if inBlockMap g p.block = false then some (p, { w with going := .gaveUp going.data false })
          else
            match iterateWords
                (fun (i : Fin g.addrPerBlock) block =>
                  iteratePointer dataOnly f n block (first + i * g.addrPerBlock ^ n) p.block (4 * i))
                (List.finRange g.addrPerBlock) ⟨w.blocks p.block, false⟩ { w with going := going } with
            | none => none
            | some (words, w) =>
                some (p, if words.changed then { w with blocks := update w.blocks p.block words.word } else w)

/-- The traversal of an inode. -/
def blockIterate (dataOnly : Bool) (f : Callback τ) (v : View g) (inodeNumber : ℕ) (data : τ) :
    Option (Iterated g τ) :=
  match v.inodes inodeNumber with
  | none => some ⟨v, data, false⟩
  | some inode =>
      match iterateWords
          (fun (slot : Fin 15) block => iteratePointer dataOnly f (slotDepth slot) block (slotFirst g slot) 0 slot)
          (List.finRange 15) ⟨inode.iBlock, false⟩ ⟨v.blocks, .calling data⟩ with
      | none => none
      | some (words, w) => some
          { view :=
              { inodes := if words.changed then update v.inodes inodeNumber (some { inode with iBlock := words.word })
                  else v.inodes
                blocks := w.blocks }
            data := w.going.data
            ok := w.going.ok }

/-- The library that goes over inodes so. -/
def documentedExt2fs (g : Geometry) : Ext2fs g where
  blockIterate flags := blockIterate flags.dataOnly

/-! ## §2 — the calls -/

section Calls

variable {f : Callback τ} {s s' : Going τ} {c : Call} {p : NewPointer}

theorem callAt_unchanged (h : callAt f s c = some (p, s')) (hp : p.changed = false) : p.block = c.blocknr := by
  unfold callAt at h
  split at h
  · cases h
    rfl
  · split at h
    · cases h
      rfl
    · cases h
      cases hp
    · cases h
      rfl
    · cases h

/-- Only the library ends a traversal without success. -/
theorem callAt_ok (h : callAt f s c = some (p, s')) : s'.ok = s.ok := by
  unfold callAt at h
  split at h
  · cases h
    rfl
  · split at h
    · cases h
      rfl
    · cases h
      rfl
    · cases h
      rfl
    · cases h

variable {σ : ℕ → ℕ} {calls calls' : List Call}

theorem renames_append :
    Renames f σ s (calls ++ calls') s' ↔ ∃ s₁, Renames f σ s calls s₁ ∧ Renames f σ s₁ calls' s' := by
  induction calls generalizing s with
  | nil =>
      constructor
      · intro h
        exact ⟨s, rfl, h⟩
      · rintro ⟨s₁, rfl, h⟩
        exact h
  | cons c calls ih =>
      constructor
      · rintro ⟨p, s₁, hcall, hblock, hrest⟩
        obtain ⟨s₂, hcalls, hcalls'⟩ := ih.mp hrest
        exact ⟨s₂, ⟨p, s₁, hcall, hblock, hcalls⟩, hcalls'⟩
      · rintro ⟨s₂, ⟨p, s₁, hcall, hblock, hcalls⟩, hcalls'⟩
        exact ⟨p, s₁, hcall, hblock, ih.mpr ⟨s₂, hcalls, hcalls'⟩⟩

theorem Renames.ok (h : Renames f σ s calls s') : s'.ok = s.ok := by
  induction calls generalizing s with
  | nil => exact congrArg Going.ok (h : s = s').symm
  | cons c calls ih =>
      obtain ⟨p, s₁, hcall, -, hrest⟩ := h
      exact (ih hrest).trans (callAt_ok hcall)

/-- A function that has given up is not called: the blocks keep their numbers. -/
theorem renames_gaveUp (hgaveUp : s.hasGivenUp = true) (h : Renames f σ s calls s') :
    s' = s ∧ ∀ c ∈ calls, σ c.blocknr = c.blocknr := by
  cases s with
  | calling data => cases hgaveUp
  | gaveUp data ok =>
      induction calls with
      | nil => exact ⟨(h : _ = s').symm, fun c hc => absurd hc List.not_mem_nil⟩
      | cons c calls ih =>
          obtain ⟨p, s₁, hcall, hblock, hrest⟩ := h
          cases hcall
          obtain ⟨hsame, hcalls⟩ := ih hrest
          refine ⟨hsame, fun c' hc' => ?_⟩
          rcases List.mem_cons.mp hc' with rfl | hc'
          · exact hblock.symm
          · exact hcalls c' hc'

end Calls

/-! ## §3 — renamed pointers -/

section Rewritten

variable {v : View g} {σ : ℕ → ℕ} {inodeNumber : ℕ} {places places' : List (Place g)}
  {blocks blocks' blocks'' : ℕ → Block g} {p : Place g}

/-- The words of a block whose places keep their blocks. -/
theorem word_fixed (hzero : σ 0 = 0) (hp : PointsToIndirect v p)
    (hfixed : ∀ i h, v.ref (p.child i h) ≠ 0 → σ (v.ref (p.child i h)) = v.ref (p.child i h)) (i) :
    σ (v.blocks (v.ref p) i) = v.blocks (v.ref p) i := by
  have hword := ref_child_of_ne hp.2 i (level_ne_zero_iff.mp hp.1)
  rw [← hword]
  by_cases hchild : v.ref (p.child i (level_ne_zero_iff.mp hp.1)) = 0
  · rw [hchild, hzero]
  · exact hfixed i _ hchild

/-- Where no place below has another block, the copies are right as they are. -/
theorem Rewritten.of_fixed (hzero : σ 0 = 0) (hcopied : Copied v σ places blocks)
    (hfixed : ∀ p ∈ places, ∀ i h, v.ref (p.child i h) ≠ 0 → σ (v.ref (p.child i h)) = v.ref (p.child i h)) :
    Rewritten v σ places blocks blocks where
  inside p hp hind i := by
    rw [hcopied p hp hind, word_fixed hzero hind (hfixed p hp)]
  outside _ _ := rfl

/-- Blocks at other places stay copied. -/
theorem Rewritten.copied (hσ : Renaming v σ inodeNumber) (h : Rewritten v σ places blocks blocks')
    (hplaces : ∀ p ∈ places, p.inodeNumber = inodeNumber) (hplaces' : ∀ p ∈ places', p.inodeNumber = inodeNumber)
    (hdisjoint : ∀ p ∈ places, p ∉ places') (hcopied : Copied v σ places' blocks) :
    Copied v σ places' blocks' := by
  intro q hq hind
  rw [h.outside, hcopied q hq hind]
  intro p hp hind' heq
  have hsame := hσ.inj p q (hplaces p hp) (hplaces' q hq) hind'.2 hind.2 heq
  exact hdisjoint p hp (hsame ▸ hq)

/-- First the pointers at some places, then those at others. -/
theorem Rewritten.append (hσ : Renaming v σ inodeNumber) (h : Rewritten v σ places blocks blocks')
    (h' : Rewritten v σ places' blocks' blocks'') (hplaces : ∀ p ∈ places, p.inodeNumber = inodeNumber)
    (hplaces' : ∀ p ∈ places', p.inodeNumber = inodeNumber) (hdisjoint : ∀ p ∈ places, p ∉ places') :
    Rewritten v σ (places ++ places') blocks blocks'' where
  inside p hp hind i := by
    rcases List.mem_append.mp hp with hp | hp
    · rw [h'.outside, h.inside p hp hind]
      intro q hq hind' heq
      have hsame := hσ.inj q p (hplaces' q hq) (hplaces p hp) hind'.2 hind.2 heq
      exact hdisjoint p hp (hsame ▸ hq)
    · exact h'.inside p hp hind i
  outside b hb := by
    rw [h'.outside b fun p hp => hb p (List.mem_append_right _ hp),
      h.outside b fun p hp => hb p (List.mem_append_left _ hp)]

end Rewritten

/-! ## §4 — the loop over pointers -/

section Loop

variable {v : View g} {σ : ℕ → ℕ} {f : Callback τ}

/-- What a step of the loop does with one pointer, and with the blocks at these places below it. -/
structure Step (v : View g) (σ : ℕ → ℕ) (p : Place g) (places : List (Place g)) (w : Traversal g τ) (s' : Going τ)
    (ptr : NewPointer) (w' : Traversal g τ) : Prop where
  block : ptr.block = σ (v.ref p)
  unchanged : ptr.changed = false → σ (v.ref p) = v.ref p
  going : w'.going = s'
  rewritten : Rewritten v σ places w.blocks w'.blocks

variable {ι : Type} [DecidableEq ι] {step : ι → ℕ → Traversal g τ → Option (NewPointer × Traversal g τ)}
  {place : ι → Place g}
  {below : ι → List (Place g)} {inodeNumber : ℕ}

/-- What the whole loop does with the pointers. -/
structure Loop (v : View g) (σ : ℕ → ℕ) (place : ι → Place g) (below : ι → List (Place g)) (is : List ι)
    (words : Words ι) (w : Traversal g τ) (s' : Going τ) (words' : Words ι) (w' : Traversal g τ) : Prop where
  word : ∀ i ∈ is, words'.word i = σ (v.ref (place i))
  other : ∀ i, i ∉ is → words'.word i = words.word i
  unchanged : words'.changed = false → words.changed = false ∧ ∀ i ∈ is, σ (v.ref (place i)) = v.ref (place i)
  going : w'.going = s'
  rewritten : Rewritten v σ (is.flatMap below) w.blocks w'.blocks

/-- The places below the pointers of a block or an inode: those below different pointers differ, and below a hole
there are only holes. -/
structure Subtrees (v : View g) (inodeNumber : ℕ) (place : ι → Place g) (below : ι → List (Place g)) : Prop where
  self : ∀ i, place i ∈ below i
  inode : ∀ i, ∀ p ∈ below i, p.inodeNumber = inodeNumber
  child : ∀ i, ∀ p ∈ below i, ∀ j h, p.child j h ∈ below i
  hole : ∀ i, v.ref (place i) = 0 → ∀ p ∈ below i, v.ref p = 0
  disjoint : ∀ i j, i ≠ j → ∀ p ∈ below i, p ∉ below j

variable {i : ι} {is : List ι} {words words' : Words ι} {w w₁ w' : Traversal g τ} {s₁ s' : Going τ} {ptr : NewPointer}

namespace Subtrees

variable (ht : Subtrees v inodeNumber place below)

include ht

omit [DecidableEq ι] in
theorem child_mem {p : Place g} (hp : p ∈ is.flatMap below) (j h) : p.child j h ∈ is.flatMap below := by
  obtain ⟨i, hi, hp⟩ := List.mem_flatMap.mp hp
  exact List.mem_flatMap.mpr ⟨i, hi, ht.child i p hp j h⟩

omit [DecidableEq ι] in
theorem inode_flatMap : ∀ p ∈ is.flatMap below, p.inodeNumber = inodeNumber := by
  intro p hp
  obtain ⟨i, -, hp⟩ := List.mem_flatMap.mp hp
  exact ht.inode i p hp

omit [DecidableEq ι] in
theorem disjoint_flatMap (hi : i ∉ is) : ∀ p ∈ below i, p ∉ is.flatMap below := by
  intro p hp hp'
  obtain ⟨j, hj, hp'⟩ := List.mem_flatMap.mp hp'
  refine ht.disjoint i j ?_ p hp hp'
  rintro rfl
  exact hi hj

omit [DecidableEq ι] in
/-- Where all blocks keep their numbers there is nothing to do. -/
theorem loop_of_fixed (hzero : σ 0 = 0) (hwords : ∀ i ∈ is, words.word i = v.ref (place i))
    (hcopied : Copied v σ (is.flatMap below) w.blocks)
    (hfixed : ∀ p ∈ is.flatMap below, v.ref p ≠ 0 → σ (v.ref p) = v.ref p) :
    Loop v σ place below is words w w.going words w := by
  have hkeep : ∀ i ∈ is, σ (v.ref (place i)) = v.ref (place i) := by
    intro i hi
    by_cases hhole : v.ref (place i) = 0
    · rw [hhole, hzero]
    · exact hfixed _ (List.mem_flatMap.mpr ⟨i, hi, ht.self i⟩) hhole
  exact ⟨fun i hi => (hwords i hi).trans (hkeep i hi).symm, fun _ _ => rfl, fun h => ⟨h, hkeep⟩, rfl,
    Rewritten.of_fixed hzero hcopied fun p hp j h => hfixed _ (ht.child_mem hp j h)⟩

end Subtrees

omit [DecidableEq ι] in
/-- A hole before the pointers of a loop is passed over. -/
theorem Loop.cons_hole (h : Loop v σ place below is words w s' words' w') (hzero : σ 0 = 0) (hi : i ∉ is)
    (hword : words.word i = v.ref (place i)) (hhole : v.ref (place i) = 0) (hbelow : ∀ p ∈ below i, v.ref p = 0) :
    Loop v σ place below (i :: is) words w s' words' w' where
  word j hj := by
    rcases List.mem_cons.mp hj with rfl | hj
    · rw [h.other j hi, hword, hhole, hzero]
    · exact h.word j hj
  other j hj := h.other j fun hmem => hj (List.mem_cons_of_mem i hmem)
  unchanged hunchanged := by
    obtain ⟨hbefore, hfixed⟩ := h.unchanged hunchanged
    refine ⟨hbefore, fun j hj => ?_⟩
    rcases List.mem_cons.mp hj with rfl | hj
    · rw [hhole, hzero]
    · exact hfixed j hj
  going := h.going
  rewritten := by
    rw [List.flatMap_cons]
    refine ⟨fun p hp hind => ?_, fun b hb => ?_⟩
    · rcases List.mem_append.mp hp with hp | hp
      · exact absurd (hbelow p hp) hind.2
      · exact h.rewritten.inside p hp hind
    · exact h.rewritten.outside b fun p hp => hb p (List.mem_append_right _ hp)

/-- A step before a loop over the other pointers. -/
theorem Loop.cons
    (h : Loop v σ place below is ⟨update words.word i ptr.block, words.changed || ptr.changed⟩ w₁ s' words' w')
    (hσ : Renaming v σ inodeNumber) (ht : Subtrees v inodeNumber place below) (hi : i ∉ is)
    (hptr : Step v σ (place i) (below i) w s₁ ptr w₁) : Loop v σ place below (i :: is) words w s' words' w' where
  word j hj := by
    rcases List.mem_cons.mp hj with rfl | hj
    · refine (h.other j hi).trans ?_
      show update words.word j ptr.block j = _
      rw [update_self, hptr.block]
    · exact h.word j hj
  other j hj := by
    have hne : j ≠ i := fun heq => hj (heq ▸ List.mem_cons_self)
    refine (h.other j fun hmem => hj (List.mem_cons_of_mem i hmem)).trans ?_
    exact update_of_ne hne _ _
  unchanged hunchanged := by
    obtain ⟨hbefore, hfixed⟩ := h.unchanged hunchanged
    obtain ⟨hold, hsame⟩ := Bool.or_eq_false_iff.mp hbefore
    refine ⟨hold, fun j hj => ?_⟩
    rcases List.mem_cons.mp hj with rfl | hj
    · exact hptr.unchanged hsame
    · exact hfixed j hj
  going := h.going
  rewritten := by
    rw [List.flatMap_cons]
    exact hptr.rewritten.append hσ h.rewritten (ht.inode i) ht.inode_flatMap (ht.disjoint_flatMap hi)

variable (step) in
/-- **The loop over pointers**, if a step does what it should with each of them. -/
theorem iterateWords_spec (hσ : Renaming v σ inodeNumber) (ht : Subtrees v inodeNumber place below)
    (hstep : ∀ i w s', v.ref (place i) ≠ 0 → Copied v σ (below i) w.blocks →
      Renames f σ w.going (callsAt v false (below i)) s' →
      ∃ ptr w', step i (v.ref (place i)) w = some (ptr, w') ∧ Step v σ (place i) (below i) w s' ptr w')
    (hnodup : is.Nodup) (hwords : ∀ i ∈ is, words.word i = v.ref (place i))
    (hcopied : Copied v σ (is.flatMap below) w.blocks)
    (hrun : Renames f σ w.going (callsAt v false (is.flatMap below)) s') :
    ∃ words' w', iterateWords step is words w = some (words', w') ∧
      Loop v σ place below is words w s' words' w' := by
  induction is generalizing words w with
  | nil =>
      cases (hrun : w.going = s')
      exact ⟨words, w, rfl, ht.loop_of_fixed hσ.zero hwords hcopied fun p hp => absurd hp List.not_mem_nil⟩
  | cons i is ih =>
      obtain ⟨hi, hnodup'⟩ := List.nodup_cons.mp hnodup
      rw [iterateWords]
      by_cases hgaveUp : w.going.hasGivenUp = true
      · -- the function has given up: no block is visited any more, and all have kept their numbers
        obtain ⟨rfl, hfixed⟩ := renames_gaveUp hgaveUp hrun
        exact ⟨words, w, if_pos hgaveUp,
          ht.loop_of_fixed hσ.zero hwords hcopied fun p hp hne => hfixed _ (mem_callsAt hp hne)⟩
      · have hword := hwords i List.mem_cons_self
        have hwordsTail : ∀ j ∈ is, words.word j = v.ref (place j) :=
          fun j hj => hwords j (List.mem_cons_of_mem i hj)
        rw [List.flatMap_cons] at hcopied hrun
        rw [callsAt_append] at hrun
        have hcopiedTail : Copied v σ (is.flatMap below) w.blocks :=
          fun p hp => hcopied p (List.mem_append_right _ hp)
        obtain ⟨s₁, hrunHead, hrunTail⟩ := renames_append.mp hrun
        rw [if_neg hgaveUp, hword]
        by_cases hhole : v.ref (place i) = 0
        · have hbelow := ht.hole i hhole
          rw [callsAt_of_hole hbelow] at hrunHead
          cases (hrunHead : w.going = s₁)
          obtain ⟨words', w', hloop, hspec⟩ := ih hnodup' hwordsTail hcopiedTail hrunTail
          exact ⟨words', w', (if_pos hhole).trans hloop, hspec.cons_hole hσ.zero hi hword hhole hbelow⟩
        · obtain ⟨ptr, w₁, hone, hptr⟩ := hstep i w s₁ hhole
            (fun p hp => hcopied p (List.mem_append_left _ hp)) hrunHead
          rw [← hptr.going] at hrunTail
          have hcopied₁ : Copied v σ (is.flatMap below) w₁.blocks :=
            hptr.rewritten.copied hσ (ht.inode i) ht.inode_flatMap (ht.disjoint_flatMap hi) hcopiedTail
          have hwords₁ : ∀ j ∈ is, (⟨update words.word i ptr.block, words.changed || ptr.changed⟩ :
              Words ι).word j = v.ref (place j) := by
            intro j hj
            have hne : j ≠ i := by
              rintro rfl
              exact hi hj
            exact (update_of_ne hne _ _).trans (hwordsTail j hj)
          obtain ⟨words', w', hloop, hspec⟩ := ih hnodup' hwords₁ hcopied₁ hrunTail
          rw [if_neg hhole, hone]
          exact ⟨words', w', hloop, hspec.cons hσ ht hi hptr⟩

end Loop

/-! ## §5 — a pointer and what is below -/

section Pointers

variable {v : View g} {σ : ℕ → ℕ} {f : Callback τ} {inodeNumber : ℕ}

/-- The places below a place, without itself. -/
theorem child_mem_below {n : ℕ} {p q : Place g} {h : p.path.length + n = slotDepth p.slot} (hq : q ∈ p.below n h)
    (i) (hi) : q.child i hi ∈ p.below n h := by
  obtain ⟨hinode, hslot, hpath⟩ := Place.mem_below.mp hq
  exact Place.mem_below.mpr ⟨hinode, hslot, hpath.trans (List.prefix_append _ _)⟩

theorem self_mem_below {n : ℕ} {p : Place g} {h : p.path.length + n = slotDepth p.slot} : p ∈ p.below n h :=
  Place.mem_below.mpr ⟨rfl, rfl, List.prefix_refl _⟩

/-- Different words of a block have different places below them. -/
theorem below_child_disjoint {n : ℕ} {p : Place g} {i j : Fin g.addrPerBlock} (hij : i ≠ j) {hi hj} {hi' hj'} :
    ∀ q ∈ (p.child i hi).below n hi', q ∉ (p.child j hj).below n hj' := by
  intro q hq hq'
  obtain ⟨-, -, hpath⟩ := Place.mem_below.mp hq
  obtain ⟨-, -, hpath'⟩ := Place.mem_below.mp hq'
  have hlen : (p.child i hi).path.length = (p.child j hj).path.length := by
    show (p.path ++ [i]).length = (p.path ++ [j]).length
    rw [List.length_append, List.length_append]
    rfl
  have heq : p.path ++ [i] = p.path ++ [j] :=
    (List.prefix_of_prefix_length_le hpath hpath' hlen.le).eq_of_length hlen
  exact hij (List.singleton_inj.mp (List.append_cancel_left heq))

theorem child_path_length {n : ℕ} {p : Place g} (h : p.path.length + (n + 1) = slotDepth p.slot) (i hlt) :
    (p.child i hlt).path.length + n = slotDepth (p.child i hlt).slot := by
  show (p.path ++ [i]).length + n = slotDepth p.slot
  rw [List.length_append, List.length_singleton]
  omega

/-- No place below a place has it as a child. -/
theorem child_ne_of_mem_below {n : ℕ} {p q : Place g} {h : p.path.length + n = slotDepth p.slot}
    (hq : q ∈ p.below n h) {i hi} : q.child i hi ≠ p := by
  rintro rfl
  have hlen := (Place.mem_below.mp hq).2.2.length_le
  have hchild : (q.child i hi).path.length = q.path.length + 1 := List.length_append
  omega

/-- The pointers of a block of pointers. -/
theorem subtrees_child {n : ℕ} {p : Place g} (hp : p.inodeNumber = inodeNumber)
    (h : p.path.length + (n + 1) = slotDepth p.slot) (hlt) :
    Subtrees v inodeNumber (fun i => p.child i hlt)
      fun i => (p.child i hlt).below n (child_path_length h i hlt) where
  self _ := self_mem_below
  inode _ _ hq := (Place.mem_below.mp hq).1.trans hp
  child _ _ hq j hj := child_mem_below hq j hj
  hole _ hzero _ hq := ref_below_hole hzero hq
  disjoint _ _ hij := below_child_disjoint hij

/-- What has been renamed below a block of pointers is left to be written into it. -/
theorem Loop.write {n : ℕ} {p : Place g} (hσ : Renaming v σ inodeNumber) (hp : p.inodeNumber = inodeNumber)
    (hself : PointsToIndirect v p) {h : p.path.length + (n + 1) = slotDepth p.slot} {hlt}
    {words words' : Words (Fin g.addrPerBlock)} {w w' : Traversal g τ} {s' : Going τ}
    (hloop : Loop v σ (fun i => p.child i hlt) (fun i => (p.child i hlt).below n (child_path_length h i hlt))
      (List.finRange g.addrPerBlock) words w s' words' w')
    (hcopied : w.blocks (σ (v.ref p)) = v.blocks (v.ref p)) :
    Rewritten v σ (p.below (n + 1) h) w.blocks
      (if words'.changed then { w' with blocks := update w'.blocks (σ (v.ref p)) words'.word } else w').blocks := by
  have hrewritten := hloop.rewritten
  -- the block itself is not among those below it
  have hout : ∀ q ∈ (List.finRange g.addrPerBlock).flatMap fun i =>
      (p.child i hlt).below n (child_path_length h i hlt), PointsToIndirect v q → σ (v.ref q) ≠ σ (v.ref p) := by
    intro q hq hind heq
    have hsame := hσ.inj q p ((subtrees_child (v := v) hp h hlt).inode_flatMap q hq) hp hind.2 hself.2 heq
    obtain ⟨i, -, hq⟩ := List.mem_flatMap.mp hq
    have hlen := (Place.mem_below.mp hq).2.2.length_le
    have hchild : (p.child i hlt).path.length = p.path.length + 1 := List.length_append
    rw [hsame] at hlen
    omega
  rw [Place.below]
  cases hchanged : words'.changed with
  | false =>
      obtain ⟨-, hfixed⟩ := hloop.unchanged hchanged
      rw [if_neg Bool.false_ne_true]
      refine ⟨fun q hq hind i => ?_, fun b hb => ?_⟩
      · rcases List.mem_cons.mp hq with rfl | hq
        · rw [hrewritten.outside _ hout, hcopied, ← ref_child_of_ne hself.2 i hlt, hfixed i (List.mem_finRange i)]
        · exact hrewritten.inside q hq hind i
      · exact hrewritten.outside b fun q hq => hb q (List.mem_cons_of_mem p hq)
  | true =>
      rw [if_pos rfl]
      refine ⟨fun q hq hind i => ?_, fun b hb => ?_⟩
      · show update w'.blocks (σ (v.ref p)) words'.word (σ (v.ref q)) i = _
        rcases List.mem_cons.mp hq with rfl | hq
        · rw [update_self, hloop.word i (List.mem_finRange i), ref_child_of_ne hself.2]
        · rw [update_of_ne (hout q hq hind)]
          exact hrewritten.inside q hq hind i
      · show update w'.blocks (σ (v.ref p)) words'.word b = _
        rw [update_of_ne (hb p List.mem_cons_self hself).symm]
        exact hrewritten.outside b fun q hq => hb q (List.mem_cons_of_mem p hq)

/-- **A pointer**: it is renamed, and so are the pointers below it. -/
theorem iteratePointer_spec (hσ : Renaming v σ inodeNumber) (n : ℕ) (p : Place g)
    (hp : p.inodeNumber = inodeNumber) (h : p.path.length + n = slotDepth p.slot) (hne : v.ref p ≠ 0)
    {w : Traversal g τ} {s' : Going τ} (hcopied : Copied v σ (p.below n h) w.blocks)
    (hrun : Renames f σ w.going (callsAt v false (p.below n h)) s') :
    ∃ ptr w', iteratePointer false f n (v.ref p) p.first (σ (p.refBlk v)) p.parentOffset w = some (ptr, w') ∧
      Step v σ p (p.below n h) w s' ptr w' := by
  have hlevel := Place.level_eq h
  induction n generalizing p w s' with
  | zero =>
      rw [Place.below, callsAt_cons_of_called hne (.inl rfl)] at hrun
      obtain ⟨ptr, s₁, hcall, hblock, hgoing⟩ := hrun
      have hcnt : (p.call v).blockcnt = p.first := Place.blockcnt_of_data hlevel
      refine ⟨ptr, { w with going := s₁ }, ?_, hblock, fun hunchanged => ?_, hgoing, ?_⟩
      · rw [iteratePointer, ← hcnt]
        show (callAt f w.going ((p.call v).rename σ)).map _ = _
        rw [hcall]
        rfl
      · exact hblock.symm.trans (callAt_unchanged hcall hunchanged)
      · refine ⟨fun q hq hind => ?_, fun _ _ => rfl⟩
        rw [Place.below, List.mem_singleton] at hq
        subst hq
        exact absurd hlevel hind.1
  | succ n ih =>
      have hlt : p.path.length < slotDepth p.slot := by omega
      have hself : PointsToIndirect v p := ⟨by omega, hne⟩
      rw [Place.below, callsAt_cons_of_called hne (.inl rfl)] at hrun
      obtain ⟨ptr, s₁, hcall, hblock, hrest⟩ := hrun
      have hcnt : (p.call v).blockcnt = -((n + 1 : ℕ) : ℤ) := by
        rw [Place.blockcnt_of_indirect hself.1, hlevel]
      have hcall' : callIndirect false f w.going ⟨v.ref p, -((n + 1 : ℕ) : ℤ), σ (p.refBlk v), p.parentOffset⟩
          = some (ptr, s₁) := by
        rw [← hcnt]
        exact hcall
      have hblock' : ptr.block = σ (v.ref p) := hblock
      have hptr : ptr.changed = false → σ (v.ref p) = v.ref p :=
        fun hunchanged => hblock'.symm.trans (callAt_unchanged hcall hunchanged)
      have hwords : w.blocks (σ (v.ref p)) = v.blocks (v.ref p) := hcopied p self_mem_below hself
      rw [iteratePointer, hcall']
      dsimp only
      by_cases hgaveUp : s₁.hasGivenUp = true
      · -- given up: nothing below is renamed
        obtain ⟨rfl, hfixed⟩ := renames_gaveUp hgaveUp hrest
        refine ⟨ptr, { w with going := s' }, if_pos (.inl hgaveUp), hblock', hptr, rfl, ?_⟩
        refine Rewritten.of_fixed hσ.zero hcopied fun q hq i hi hchild => ?_
        have hmem := child_mem_below hq i hi
        rw [Place.below] at hmem
        exact hfixed _ (mem_callsAt (List.mem_of_ne_of_mem (child_ne_of_mem_below hq) hmem) hchild)
      · have hstep : ∀ (i : Fin g.addrPerBlock) (w : Traversal g τ) (s' : Going τ), v.ref (p.child i hlt) ≠ 0 →
            Copied v σ ((p.child i hlt).below n (child_path_length h i hlt)) w.blocks →
            Renames f σ w.going (callsAt v false ((p.child i hlt).below n (child_path_length h i hlt))) s' →
            ∃ ptr' w', iteratePointer false f n (v.ref (p.child i hlt)) (p.first + i * g.addrPerBlock ^ n) ptr.block
                (4 * i) w = some (ptr', w')
              ∧ Step v σ (p.child i hlt) ((p.child i hlt).below n (child_path_length h i hlt)) w s' ptr' w' := by
          intro i w s' hchild hcopiedChild hrunChild
          have hpath := child_path_length h i hlt
          have hone := ih (p.child i hlt) hp hpath hchild hcopiedChild hrunChild (Place.level_eq hpath)
          rwa [Place.first_child i hlt hlevel, Place.parentOffset_child, Place.refBlk_child, ← hblock'] at hone
        have hwordsChild : ∀ i ∈ List.finRange g.addrPerBlock,
            (⟨w.blocks (σ (v.ref p)), false⟩ : Words (Fin g.addrPerBlock)).word i = v.ref (p.child i hlt) := by
          intro i _
          show w.blocks (σ (v.ref p)) i = _
          rw [hwords, ref_child_of_ne hne]
        obtain ⟨words', w', hloop, hspec⟩ := iterateWords_spec
          (fun (i : Fin g.addrPerBlock) block =>
            iteratePointer false f n block (p.first + i * g.addrPerBlock ^ n) ptr.block (4 * i)) hσ
          (subtrees_child hp h hlt) hstep (List.nodup_finRange _) hwordsChild
          (show Copied v σ _ ({ w with going := s₁ } : Traversal g τ).blocks from
            fun q hq => hcopied q (List.mem_cons_of_mem p hq)) hrest
        have hne' : ptr.block ≠ 0 := by
          rw [hblock']
          exact hσ.ne_zero p hp hne
        rw [if_neg (not_or.mpr ⟨hgaveUp, hne'⟩), if_neg (by
          rw [hblock', hσ.inMap p hp hne]
          exact Bool.noConfusion)]
        rw [hblock'] at hloop ⊢
        rw [hloop]
        refine ⟨ptr, _, rfl, hblock', hptr, ?_, hspec.write hσ hp hself hwords⟩
        rw [← hspec.going]
        split_ifs <;> rfl

/-! ## §6 — a file -/

/-- The places of an inode, slot by slot. -/
def slotPlaces (inodeNumber : ℕ) (slot : Fin 15) : List (Place g) :=
  (Place.top inodeNumber slot).below (slotDepth slot) (Nat.zero_add _)

theorem slotPlaces_direct (inodeNumber : ℕ) (i : Fin 12) :
    slotPlaces inodeNumber (directSlot i) = [(Place.top inodeNumber (directSlot i) : Place g)] := by
  have hdepth : slotDepth (directSlot i) = 0 := by
    show (i : ℕ) - 11 = 0
    omega
  unfold slotPlaces
  generalize_proofs h
  revert h
  rw [hdepth]
  exact fun _ => rfl

theorem filePlaces_eq (inodeNumber : ℕ) :
    filePlaces g inodeNumber = (List.finRange 15).flatMap (slotPlaces inodeNumber) := by
  have hslots : List.finRange 15 = (List.finRange 12).map directSlot ++ [12] ++ [13] ++ [14] := by
    decide
  rw [hslots, List.flatMap_append, List.flatMap_append, List.flatMap_append, List.flatMap_singleton,
    List.flatMap_singleton, List.flatMap_singleton, List.flatMap_map]
  have hdirect : (List.finRange 12).flatMap (fun i => slotPlaces inodeNumber (directSlot i))
      = (List.finRange 12).map fun i => (Place.top inodeNumber (directSlot i) : Place g) := by
    rw [List.map_eq_flatMap]
    exact List.flatMap_congr fun i _ => slotPlaces_direct inodeNumber i
  rw [hdirect]
  rfl

/-- The pointers of an inode. -/
theorem subtrees_slots (inodeNumber : ℕ) :
    Subtrees v inodeNumber (Place.top inodeNumber) (slotPlaces inodeNumber) where
  self _ := self_mem_below
  inode _ _ hp := (Place.mem_below.mp hp).1
  child _ _ hp j hj := child_mem_below hp j hj
  hole _ hzero _ hp := ref_below_hole hzero hp
  disjoint _ _ hne _ hp hp' := hne ((Place.mem_below.mp hp).2.1.symm.trans (Place.mem_below.mp hp').2.1)

/-- The slots of an inode with valid blocks are its places. -/
theorem iBlock_eq {inode : Ext2Inode} (hinode : v.inodes inodeNumber = some inode)
    (hvalid : inode.hasValidBlocks = true) (slot : Fin 15) :
    inode.iBlock slot = v.ref (Place.top inodeNumber slot) := by
  rw [View.ref_top, View.topWord, hinode]
  exact (if_pos hvalid).symm

/-- **A function that renames** renames every pointer of the file, and nothing else changes. -/
theorem blockIterate_renames {blocks : ℕ → Block g} {data : τ} {s' : Going τ} (hσ : Renaming v σ inodeNumber)
    (hvalid : HasValidBlocks v inodeNumber)
    (hcopied : Copied v σ (filePlaces g inodeNumber) blocks)
    (hrun : Renames f σ (.calling data) (fileCalls v inodeNumber false) s') :
    ∃ v', blockIterate false f ⟨v.inodes, blocks⟩ inodeNumber data = some ⟨v', s'.data, true⟩
      ∧ RenamedFile v σ inodeNumber blocks v' := by
  obtain ⟨inode, hinode, hvalid⟩ := hvalid
  have htop := iBlock_eq hinode hvalid
  have hstep : ∀ (slot : Fin 15) (w : Traversal g τ) (s' : Going τ), v.ref (Place.top inodeNumber slot) ≠ 0 →
      Copied v σ (slotPlaces inodeNumber slot) w.blocks →
      Renames f σ w.going (callsAt v false (slotPlaces inodeNumber slot)) s' →
      ∃ ptr w', iteratePointer false f (slotDepth slot) (v.ref (Place.top inodeNumber slot)) (slotFirst g slot) 0 slot w
          = some (ptr, w')
        ∧ Step v σ (Place.top inodeNumber slot) (slotPlaces inodeNumber slot) w s' ptr w' := by
    intro slot w s' hne hcopied hrun
    have hone := iteratePointer_spec hσ (slotDepth slot) (Place.top inodeNumber slot) rfl (Nat.zero_add _) hne
      hcopied hrun
    rwa [Place.first_top, Place.refBlk_top, hσ.zero] at hone
  rw [fileCalls, filePlaces_eq] at hrun
  rw [filePlaces_eq] at hcopied
  have hwords : ∀ slot ∈ List.finRange 15,
      (⟨inode.iBlock, false⟩ : Words (Fin 15)).word slot = v.ref (Place.top inodeNumber slot) :=
    fun slot _ => htop slot
  obtain ⟨w, hw⟩ : ∃ w : Traversal g τ, w = ⟨blocks, .calling data⟩ := ⟨_, rfl⟩
  have hblocks : w.blocks = blocks := by rw [hw]
  have hgoing : w.going = .calling data := by rw [hw]
  rw [← hblocks] at hcopied
  rw [← hgoing] at hrun
  obtain ⟨words', w', hloop, hspec⟩ := iterateWords_spec
    (fun (slot : Fin 15) block => iteratePointer false f (slotDepth slot) block (slotFirst g slot) 0 slot) hσ
    (subtrees_slots inodeNumber) hstep (List.nodup_finRange _) hwords hcopied hrun
  have hok := hrun.ok
  rw [hgoing] at hok
  rw [hw] at hloop
  have hrewritten := hspec.rewritten
  rw [hblocks, ← filePlaces_eq] at hrewritten
  unfold blockIterate
  rw [hinode]
  dsimp only
  rw [hloop]
  dsimp only
  rw [hspec.going, hok]
  refine ⟨_, rfl, ⟨fun m hm => ?_, fun slot => ?_, hrewritten⟩⟩
  · dsimp only
    split_ifs
    · rw [update_of_ne hm]
    · rfl
  · have hword := hspec.word slot (List.mem_finRange slot)
    cases hchanged : words'.changed with
    | false =>
        obtain ⟨-, hfixed⟩ := hspec.unchanged hchanged
        have hkeep := hfixed slot (List.mem_finRange slot)
        rw [View.ref_top] at hkeep
        rw [hkeep]
        rfl
    | true =>
        rw [View.ref_top] at hword
        rw [← hword, View.topWord]
        dsimp only
        rw [if_pos rfl, update_self]
        exact if_pos hvalid

end Pointers

/-! ## §7 — a function that only looks -/

/-- `Callback.look`, the function going on where it has not given up; `none` is the end of the program. -/
def lookOn (f : Callback τ) : Going τ → List Call → Option (Going τ)
  | s, [] => some s
  | s, c :: calls =>
      match callAt f s c with
      | none => none
      | some (_, s') => lookOn f s' calls

section Looks

variable {v : View g} {f : Callback τ} {dataOnly : Bool} {inodeNumber : ℕ}

theorem lookOn_append (s : Going τ) (calls calls' : List Call) :
    lookOn f s (calls ++ calls') = (lookOn f s calls).bind (lookOn f · calls') := by
  induction calls generalizing s with
  | nil => rfl
  | cons c calls ih =>
      rw [List.cons_append, lookOn, lookOn]
      cases callAt f s c with
      | none => rfl
      | some r => exact ih r.2

theorem lookOn_gaveUp {s : Going τ} (hgaveUp : s.hasGivenUp = true) (calls : List Call) :
    lookOn f s calls = some s := by
  cases s with
  | calling data => cases hgaveUp
  | gaveUp data ok =>
      induction calls with
      | nil => rfl
      | cons c calls ih => exact ih

/-- A function that only looks is called until it gives up. -/
theorem lookOn_calling (hlooks : f.LooksOnly) (data : τ) (calls : List Call) :
    (lookOn f (.calling data) calls).map (fun s => (s.data, s.ok)) = (f.look data calls).map (·, true) := by
  induction calls generalizing data with
  | nil => rfl
  | cons c calls ih =>
      rw [lookOn, callAt, Callback.look]
      cases hanswer : f data c with
      | unchanged data' => exact ih data'
      | changed block data' => exact absurd hanswer (hlooks data c block data')
      | abort data' =>
          dsimp only
          rw [lookOn_gaveUp rfl]
          rfl
      | exited => rfl

/-- A call that only looks leaves the number. -/
theorem callAt_looks (hlooks : f.LooksOnly) (s : Going τ) (c : Call) :
    callAt f s c = (lookOn f s [c]).map fun s' => (⟨c.blocknr, false⟩, s') := by
  cases s with
  | gaveUp data ok => rfl
  | calling data =>
      cases hanswer : f data c with
      | unchanged data' => simp only [lookOn, callAt, hanswer, Option.map_some]
      | changed block data' => exact absurd hanswer (hlooks data c block data')
      | abort data' => simp only [lookOn, callAt, hanswer, Option.map_some]
      | exited => simp only [lookOn, callAt, hanswer, Option.map_none]

variable {ι : Type} [DecidableEq ι] {step : ι → ℕ → Traversal g τ → Option (NewPointer × Traversal g τ)}
  {place : ι → Place g}
  {below : ι → List (Place g)}

variable (step) in
/-- **The loop over pointers**, if a step looks at what is below each of them. -/
theorem iterateWords_looks (hstep : ∀ i s, v.ref (place i) ≠ 0 →
      step i (v.ref (place i)) ⟨v.blocks, s⟩
        = (lookOn f s (callsAt v dataOnly (below i))).map fun s' => (⟨v.ref (place i), false⟩, ⟨v.blocks, s'⟩))
    (hhole : ∀ i, v.ref (place i) = 0 → ∀ p ∈ below i, v.ref p = 0) (is : List ι) {words : Words ι} {s : Going τ}
    (hwords : ∀ i, words.word i = v.ref (place i)) :
    iterateWords step is words ⟨v.blocks, s⟩
      = (lookOn f s (callsAt v dataOnly (is.flatMap below))).map fun s' => (words, ⟨v.blocks, s'⟩) := by
  induction is generalizing s with
  | nil => rfl
  | cons i is ih =>
      rw [iterateWords, List.flatMap_cons, callsAt_append, lookOn_append]
      by_cases hgaveUp : s.hasGivenUp = true
      · rw [if_pos hgaveUp, lookOn_gaveUp hgaveUp, Option.bind_some, lookOn_gaveUp hgaveUp]
        rfl
      · rw [if_neg hgaveUp, hwords i]
        by_cases hzero : v.ref (place i) = 0
        · rw [if_pos hzero, callsAt_of_hole (hhole i hzero), lookOn, Option.bind_some, ih]
        · rw [if_neg hzero, hstep i s hzero]
          cases lookOn f s (callsAt v dataOnly (below i)) with
          | none => rfl
          | some s' =>
              dsimp only [Option.map_some, Option.bind_some]
              -- no pointer is changed
              have hsame : (⟨update words.word i (v.ref (place i)), words.changed || false⟩ : Words ι) = words := by
                rw [← hwords i, update_eq_self, Bool.or_false]
              rw [hsame, ih]

/-- **A pointer**: what is below it is looked at in pre-order. -/
theorem iteratePointer_looks (hlooks : f.LooksOnly)
    (hmap : ∀ p : Place g, p.inodeNumber = inodeNumber → PointsToIndirect v p → inBlockMap g (v.ref p) = true)
    (n : ℕ) (p : Place g) (hp : p.inodeNumber = inodeNumber) (h : p.path.length + n = slotDepth p.slot)
    (hne : v.ref p ≠ 0) (s : Going τ) :
    iteratePointer dataOnly f n (v.ref p) p.first (p.refBlk v) p.parentOffset ⟨v.blocks, s⟩
      = (lookOn f s (callsAt v dataOnly (p.below n h))).map fun s' => (⟨v.ref p, false⟩, ⟨v.blocks, s'⟩) := by
  have hlevel := Place.level_eq h
  induction n generalizing p s with
  | zero =>
      have hcnt : (p.call v).blockcnt = p.first := Place.blockcnt_of_data hlevel
      rw [Place.below, callsAt_cons_of_called hne (.inr hlevel), iteratePointer, ← hcnt]
      show (callAt f s (p.call v)).map _ = _
      rw [callAt_looks hlooks]
      show ((lookOn f s [p.call v]).map _).map _ = (lookOn f s [p.call v]).map _
      rw [Option.map_map]
      rfl
  | succ n ih =>
      have hlt : p.path.length < slotDepth p.slot := by omega
      have hind : p.level ≠ 0 := by omega
      have hcnt : (p.call v).blockcnt = -((n + 1 : ℕ) : ℤ) := by
        rw [Place.blockcnt_of_indirect hind, hlevel]
      generalize hchildren : ((List.finRange g.addrPerBlock).flatMap fun i =>
        (p.child i hlt).below n (child_path_length h i hlt)) = children
      have hbelow : p.below (n + 1) h = p :: children := by
        rw [← hchildren]
        rfl
      -- the call for the block itself
      obtain ⟨calls, hcalls, hcall⟩ : ∃ calls, callsAt v dataOnly (p :: children)
            = calls ++ callsAt v dataOnly children
          ∧ callIndirect dataOnly f s ⟨v.ref p, -((n + 1 : ℕ) : ℤ), p.refBlk v, p.parentOffset⟩
            = (lookOn f s calls).map fun s' => (⟨v.ref p, false⟩, s') := by
        rw [← hcnt]
        cases hflag : dataOnly with
        | true => exact ⟨[], callsAt_cons_of_passed hne rfl hind, rfl⟩
        | false => exact ⟨[p.call v], callsAt_cons_of_called hne (.inl rfl), callAt_looks hlooks s (p.call v)⟩
      rw [iteratePointer, hbelow, hcalls, lookOn_append, hcall]
      cases hlook : lookOn f s calls with
      | none => rfl
      | some s₁ =>
          dsimp only [Option.map_some, Option.bind_some]
          by_cases hgaveUp : s₁.hasGivenUp = true
          · rw [if_pos (.inl hgaveUp), lookOn_gaveUp hgaveUp]
            rfl
          · have hstep : ∀ (i : Fin g.addrPerBlock) (s : Going τ), v.ref (p.child i hlt) ≠ 0 →
                iteratePointer dataOnly f n (v.ref (p.child i hlt)) (p.first + i * g.addrPerBlock ^ n) (v.ref p) (4 * i)
                    ⟨v.blocks, s⟩
                  = (lookOn f s (callsAt v dataOnly ((p.child i hlt).below n (child_path_length h i hlt)))).map
                      fun s' => (⟨v.ref (p.child i hlt), false⟩, ⟨v.blocks, s'⟩) := by
              intro i s hchild
              have hpath := child_path_length h i hlt
              have hone := ih (p.child i hlt) hp hpath hchild s (Place.level_eq hpath)
              rwa [Place.first_child i hlt hlevel, Place.parentOffset_child, Place.refBlk_child] at hone
            have hwords : ∀ i, (⟨v.blocks (v.ref p), false⟩ : Words (Fin g.addrPerBlock)).word i
                = v.ref (p.child i hlt) := fun i => (ref_child_of_ne hne i hlt).symm
            have hloop := iterateWords_looks
              (fun (i : Fin g.addrPerBlock) block =>
                iteratePointer dataOnly f n block (p.first + i * g.addrPerBlock ^ n) (v.ref p) (4 * i)) hstep
              (fun i hzero q hq => ref_below_hole hzero hq) (List.finRange g.addrPerBlock) (s := s₁) hwords
            rw [if_neg (not_or.mpr ⟨hgaveUp, hne⟩), if_neg (by
              rw [hmap p hp ⟨hind, hne⟩]
              exact Bool.noConfusion), hloop, hchildren]
            cases lookOn f s₁ (callsAt v dataOnly children) with
            | none => rfl
            | some s' => rfl

/-- **A function that only looks** sees the blocks of the file in pre-order, until it gives up. -/
theorem blockIterate_looks (hfile : Traversable v inodeNumber) (hlooks : f.LooksOnly) (data : τ) :
    blockIterate dataOnly f v inodeNumber data
      = (f.look data (fileCalls v inodeNumber dataOnly)).map (⟨v, ·, true⟩) := by
  obtain ⟨inode, hinode, hvalid⟩ := hfile.valid
  have htop := iBlock_eq hinode hvalid
  have hstep : ∀ (slot : Fin 15) (s : Going τ), v.ref (Place.top inodeNumber slot) ≠ 0 →
      iteratePointer dataOnly f (slotDepth slot) (v.ref (Place.top inodeNumber slot)) (slotFirst g slot) 0 slot
          ⟨v.blocks, s⟩
        = (lookOn f s (callsAt v dataOnly (slotPlaces inodeNumber slot))).map
            fun s' => (⟨v.ref (Place.top inodeNumber slot), false⟩, ⟨v.blocks, s'⟩) := by
    intro slot s hne
    refine Eq.trans ?_ (iteratePointer_looks hlooks hfile.inMap (slotDepth slot) (Place.top inodeNumber slot) rfl
      (Nat.zero_add _) hne s)
    rw [Place.first_top, Place.refBlk_top]
    rfl
  have hwords : ∀ slot, (⟨inode.iBlock, false⟩ : Words (Fin 15)).word slot = v.ref (Place.top inodeNumber slot) := htop
  have hloop := iterateWords_looks
    (fun (slot : Fin 15) block => iteratePointer dataOnly f (slotDepth slot) block (slotFirst g slot) 0 slot) hstep
    (fun slot hzero p hp => ref_below_hole hzero hp) (List.finRange 15) (s := .calling data) hwords
  have hlook := lookOn_calling hlooks data (fileCalls v inodeNumber dataOnly)
  unfold blockIterate
  rw [hinode]
  dsimp only
  rw [hloop, ← filePlaces_eq, ← fileCalls]
  cases hon : lookOn f (.calling data) (fileCalls v inodeNumber dataOnly) with
  | none =>
      rw [hon] at hlook
      rw [Option.map_eq_none_iff.mp hlook.symm]
      rfl
  | some s' =>
      rw [hon] at hlook
      obtain ⟨data', hdata, heq⟩ := Option.map_eq_some_iff.mp hlook.symm
      obtain ⟨rfl, hok⟩ := Prod.mk.inj heq
      rw [hdata]
      dsimp only [Option.map_some]
      rw [← hok]
      rfl

end Looks

/-- **It does what the tools rely on.** -/
theorem documentedExt2fs_documented : (documentedExt2fs g).Documented where
  looks hfile hlooks := blockIterate_looks hfile hlooks _
  renames hσ hvalid hcopied hrun := blockIterate_renames hσ hvalid hcopied hrun

end Prefetch.MoveBlocks

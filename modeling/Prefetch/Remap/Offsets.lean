/-
# Prefetch.Remap.Offsets — where the tools take an indirect block to belong

`e2block2file` and `e2remapblocks` follow a traversal with two indices and a depth, and compute from them
the offset of each indirect block. `tree_ind[0]`, the index below the double-indirect block, is set when
a single-indirect block is met and reset only where a new depth begins: at a double-indirect block below
the triple-indirect one it still is that of the last single-indirect block before. The sums are unsigned
ints.

`offsets_encoded_iff`: both tools compute the right offset for every indirect block of a file if and
only if neither matters.
-/
import Prefetch.Remap.FileTree

namespace Prefetch.Remap

/-! ## §1 — the offsets computed in a traversal -/

variable {a : ℕ}

/-- The offsets `store_block` computes, one for each call. -/
def storeOffsets (a : ℕ) (findBlock : ℕ → Bool) : TraverseData → List Visit → Option (List ℤ)
  | _, [] => some []
  | tdata, v :: vs =>
      match storeOffset a tdata v.offset v.parentOffset,
          storeBlock a findBlock tdata v.blocknr v.offset v.parentOffset with
      | some (_, offset), some tdata => (storeOffsets a findBlock tdata vs).map (offset :: ·)
      | _, _ => none

/-- The traversal goes on, unless `remap_block` ends it or the program. -/
def RemapOutcome.next : RemapOutcome → Option BlockTraverseData
  | .unchanged tdata => some tdata
  | .changed _ tdata => some tdata
  | _ => none

/-- The offsets `remap_block` computes, as far as the traversal gets. -/
def remapOffsets (a sBlocksCount : ℕ) (freeExtents : List FreeExtent) :
    BlockTraverseData → List Visit → List ℤ
  | _, [] => []
  | tdata, v :: vs =>
      match traverseOffset a tdata v.offset v.parentOffset with
      | none => []
      | some (_, offset) => offset ::
          match (remapBlock a sBlocksCount freeExtents tdata v.blocknr v.offset
              v.parentOffset).next with
          | some tdata => remapOffsets a sBlocksCount freeExtents tdata vs
          | none => []

/-- What both have in common: where the traversal stands after the calls, and the offsets. -/
def runOffsets (a : ℕ) : BlockTraverseData → List Visit → Option (BlockTraverseData × List ℤ)
  | s, [] => some (s, [])
  | s, v :: vs =>
      match traverseOffset a s v.offset v.parentOffset with
      | none => none
      | some (s, offset) => (runOffsets a s vs).map (fun r => (r.1, offset :: r.2))

/-- Both tools compute for each block of the file the offset by which extents know it, and these
offsets are strictly increasing. -/
structure OffsetsEncoded (file : FileTree a) : Prop where
  store : ∀ findBlock, storeOffsets a findBlock {} file.visits = some (file.visits.map Visit.code)
  remap : ∀ sBlocksCount freeExtents extents,
    remapOffsets a sBlocksCount freeExtents ⟨0, 0, -1, extents⟩ file.visits <+:
      file.visits.map Visit.code
  increasing : (file.visits.map Visit.code).Pairwise (fun ao bo => cmpExtOffsetPtrCore ao bo < 0)

/-- Every indirect block's first data block has an offset below `2 ^ 32`. -/
def FirstsFit (file : FileTree a) : Prop := ∀ v ∈ file.visits, 0 < v.level → v.first < 2 ^ 32

/-- Below the triple-indirect block, a double-indirect block that is not the last one has no
single-indirect block but its first. -/
def IndicesSettled (file : FileTree a) : Prop :=
  ∀ block dinds, file.tind.node = some (block, dinds) → ∀ j j', j < j' → (dinds j').node.isSome →
    ∀ block' inds, (dinds j).node = some (block', inds) → ∀ i, (inds i).node.isSome → (i : ℕ) = 0

/-- The extents play no part in where the traversal stands. -/
theorem traverseOffset_actext (s : BlockTraverseData) (actext : List RemapExtent) (offset : ℤ)
    (parentOffset : ℕ) : traverseOffset a { s with actext := actext } offset parentOffset =
      (traverseOffset a s offset parentOffset).map (fun r => ({ r.1 with actext := actext }, r.2)) := by
  unfold traverseOffset
  dsimp only
  split_ifs <;> rfl

theorem actext_of_traverseOffset {s : BlockTraverseData} {offset : ℤ} {parentOffset : ℕ}
    {r : BlockTraverseData × ℤ} (h : traverseOffset a s offset parentOffset = some r) :
    r.1.actext = s.actext := by
  have hsame := traverseOffset_actext (a := a) s s.actext offset parentOffset
  rw [h, Option.map_some, Option.some.injEq] at hsame
  exact congrArg (fun r => r.1.actext) hsame

/-- `store_block` computes the offsets of the traversal, whatever it stores. -/
theorem storeOffsets_eq (findBlock : ℕ → Bool) (tdata : TraverseData) (vs : List Visit) :
    storeOffsets a findBlock tdata vs =
      (runOffsets a ⟨tdata.treeInd0, tdata.treeInd1, tdata.depth, []⟩ vs).map Prod.snd := by
  induction vs generalizing tdata with
  | nil => rfl
  | cons v vs ih =>
      unfold storeOffsets runOffsets storeBlock storeOffset
      cases hr : traverseOffset a ⟨tdata.treeInd0, tdata.treeInd1, tdata.depth, []⟩ v.offset
          v.parentOffset with
      | none => rfl
      | some r =>
          have hactext : r.1.actext = [] := actext_of_traverseOffset hr
          have hposition : ∀ blocks : List BlockMap, storeOffsets a findBlock
              ⟨r.1.treeInd0, r.1.treeInd1, r.1.depth, blocks⟩ vs = (runOffsets a r.1 vs).map
                Prod.snd := by
            intro blocks
            rw [ih, ← hactext]
          simp only [Option.map_some]
          split <;> rw [hposition, Option.map_map, Option.map_map] <;> rfl

theorem remapAt_next {sBlocksCount blocknr : ℕ} {freeExtents : List FreeExtent}
    {tdata tdata' : BlockTraverseData} {actext : RemapExtent} {offset : ℤ}
    (h : (remapAt sBlocksCount freeExtents tdata actext blocknr offset).next = some tdata') :
    tdata' = tdata := by
  unfold remapAt at h
  split at h
  · split at h
    · cases h
    split at h
    · cases h
    split at h <;> cases h
    rfl
  · cases h
    rfl

/-- Wherever `remap_block` goes on, the traversal stands where its first part left it. -/
theorem remapBlock_next {sBlocksCount blocknr parentOffset : ℕ} {freeExtents : List FreeExtent}
    {tdata tdata' : BlockTraverseData} {offset : ℤ} {r : BlockTraverseData × ℤ}
    (hr : traverseOffset a tdata offset parentOffset = some r)
    (h : (remapBlock a sBlocksCount freeExtents tdata blocknr offset parentOffset).next =
      some tdata') : ∃ actext, tdata' = { r.1 with actext := actext } := by
  unfold remapBlock at h
  rw [hr] at h
  dsimp only at h
  split at h
  · cases h
  split at h
  · cases h
  split at h
  · split at h
    · cases h
    · exact ⟨_, remapAt_next h⟩
  · exact ⟨r.1.actext, remapAt_next h⟩

/-- `remap_block` computes the offsets of the traversal as long as it goes on. -/
theorem remapOffsets_prefix {sBlocksCount : ℕ} {freeExtents : List FreeExtent}
    {s s' : BlockTraverseData} {vs : List Visit} {offsets : List ℤ} (actext : List RemapExtent)
    (h : runOffsets a s vs = some (s', offsets)) :
    remapOffsets a sBlocksCount freeExtents { s with actext := actext } vs <+: offsets := by
  induction vs generalizing s offsets actext with
  | nil =>
      cases h
      exact List.prefix_rfl
  | cons v vs ih =>
      unfold runOffsets at h
      split at h
      · cases h
      next t offset ht =>
      obtain ⟨⟨u, rest⟩, hrest, heq⟩ := Option.map_eq_some_iff.1 h
      cases heq
      have htraverse := traverseOffset_actext (a := a) s actext v.offset v.parentOffset
      rw [ht, Option.map_some] at htraverse
      unfold remapOffsets
      rw [htraverse]
      dsimp only
      rw [List.cons_prefix_cons]
      refine ⟨rfl, ?_⟩
      split
      · next tdata hnext =>
        obtain ⟨actext', rfl⟩ := remapBlock_next htraverse hnext
        exact ih (s := t) actext' hrest
      · exact List.nil_prefix

/-! ## §2 — following a traversal -/

/-- From `s` to `s'` the visits are followed, and every offset is right exactly under a condition. -/
def Follows (a : ℕ) (s : BlockTraverseData) (vs : List Visit) (s' : BlockTraverseData)
    (right : Prop) : Prop :=
  ∃ offsets, runOffsets a s vs = some (s', offsets) ∧ offsets.length = vs.length ∧
    (offsets = vs.map Visit.code ↔ right)

section Follows

variable {s s' s'' : BlockTraverseData} {vs ws : List Visit} {v : Visit} {p q : Prop}

theorem follows_nil (s : BlockTraverseData) : Follows a s [] s True :=
  ⟨[], rfl, rfl, iff_of_true rfl trivial⟩

theorem Follows.congr (h : Follows a s vs s' p) (hpq : p ↔ q) : Follows a s vs s' q := by
  obtain ⟨offsets, hrun, hlength, hright⟩ := h
  exact ⟨offsets, hrun, hlength, hright.trans hpq⟩

theorem runOffsets_cons (s : BlockTraverseData) (v : Visit) (vs : List Visit) :
    runOffsets a s (v :: vs) = (traverseOffset a s v.offset v.parentOffset).bind (fun t =>
      (runOffsets a t.1 vs).map (fun r => (r.1, t.2 :: r.2))) := by
  rw [runOffsets]
  cases traverseOffset a s v.offset v.parentOffset <;> rfl

theorem runOffsets_append (s : BlockTraverseData) (vs ws : List Visit) :
    runOffsets a s (vs ++ ws) = (runOffsets a s vs).bind (fun r =>
      (runOffsets a r.1 ws).map (fun r' => (r'.1, r.2 ++ r'.2))) := by
  induction vs generalizing s with
  | nil =>
      show runOffsets a s ws = (runOffsets a s ws).map (fun r' => (r'.1, r'.2))
      cases runOffsets a s ws <;> rfl
  | cons v vs ih =>
      rw [List.cons_append, runOffsets_cons, runOffsets_cons]
      cases traverseOffset a s v.offset v.parentOffset with
      | none => rfl
      | some t =>
          rw [Option.bind_some, Option.bind_some, ih]
          cases runOffsets a t.1 vs with
          | none => rfl
          | some r =>
              show ((runOffsets a r.1 ws).map _).map _ = (runOffsets a r.1 ws).map _
              rw [Option.map_map]
              rfl

/-- One visit, then others. -/
theorem follows_cons {offset : ℤ}
    (hv : traverseOffset a s v.offset v.parentOffset = some (s', offset))
    (h : Follows a s' vs s'' p) : Follows a s (v :: vs) s'' (offset = v.code ∧ p) := by
  obtain ⟨offsets, hrun, hlength, hright⟩ := h
  refine ⟨offset :: offsets, ?_, by simp [hlength], ?_⟩
  · rw [runOffsets_cons, hv, Option.bind_some, hrun]
    rfl
  · rw [List.map_cons, List.cons_eq_cons, hright]

/-- Two stretches of visits, one after the other. -/
theorem Follows.append (h : Follows a s vs s' p) (h' : Follows a s' ws s'' q) :
    Follows a s (vs ++ ws) s'' (p ∧ q) := by
  obtain ⟨offsets, hrun, hlength, hright⟩ := h
  obtain ⟨offsets', hrun', hlength', hright'⟩ := h'
  refine ⟨offsets ++ offsets', ?_, by simp [hlength, hlength'], ?_⟩
  · rw [runOffsets_append, hrun, Option.bind_some, hrun']
    rfl
  · rw [List.map_append, ← hright, ← hright']
    constructor
    · intro heq
      exact List.append_inj heq (by simp [hlength])
    · rintro ⟨heq, heq'⟩
      rw [heq, heq']

/-- Data blocks do not move the traversal. -/
theorem follows_data (s : BlockTraverseData) (t : Subtree a 0) (first parentOffset : ℕ) :
    Follows a s (visits a 0 t first parentOffset) s True := by
  cases t with
  | none => exact follows_nil s
  | some block =>
      have hdata : traverseOffset a s ((first : ℕ) : ℤ) parentOffset = some (s, (first : ℤ)) := by
        unfold traverseOffset
        rw [if_neg (by omega)]
      exact (follows_cons (v := ⟨block, 0, first, parentOffset⟩) hdata (follows_nil s)).congr
        (iff_of_true ⟨rfl, trivial⟩ trivial)

/-- `tree_ind` and the depth. -/
def position (depth : ℤ) (treeInd0 treeInd1 : ℕ) : BlockTraverseData :=
  ⟨treeInd0, treeInd1, depth, []⟩

theorem indirectToOff_inj {m n level : ℕ} : indirectToOff m level = indirectToOff n level ↔ m = n := by
  unfold indirectToOff
  omega

theorem traverseOffset_ind {depth : ℤ} (hdepth : 0 ≤ depth) (x₀ x₁ i : ℕ) :
    traverseOffset a (position depth x₀ x₁) blockCountInd (4 * i) =
      some (position depth i x₁, indirectToOff (indexToOffset a depth i x₁) 0) := by
  unfold traverseOffset position
  dsimp only
  rw [if_pos (by decide), if_pos rfl, if_neg (by omega), Nat.mul_div_cancel_left i (by decide)]

theorem traverseOffset_dind {depth : ℤ} (hdepth : 1 ≤ depth) (x₀ x₁ j : ℕ) :
    traverseOffset a (position depth x₀ x₁) blockCountDind (4 * j) =
      some (position depth x₀ j, indirectToOff (indexToOffset a depth x₀ j) 1) := by
  unfold traverseOffset position
  dsimp only
  rw [if_pos (by decide), if_neg (by decide), if_pos rfl, if_neg (by omega),
    Nat.mul_div_cancel_left j (by decide)]

/-- The first block of a new depth. -/
theorem traverseOffset_first_ind (x₀ x₁ parentOffset : ℕ) :
    traverseOffset a (position (-1) x₀ x₁) blockCountInd parentOffset =
      some (position 0 x₀ x₁, indirectToOff 12 0) := rfl

theorem traverseOffset_first_dind {depth : ℤ} (hdepth : depth < 1) (x₀ x₁ parentOffset : ℕ) :
    traverseOffset a (position depth x₀ x₁) blockCountDind parentOffset =
      some (position 1 0 x₁, indirectToOff (indexToOffset a 1 0 x₁) 1) := by
  unfold traverseOffset position
  dsimp only
  rw [if_pos (by decide), if_neg (by decide), if_pos rfl, if_pos hdepth]

theorem traverseOffset_first_tind {depth : ℤ} (hdepth : depth < 2) (x₀ x₁ parentOffset : ℕ) :
    traverseOffset a (position depth x₀ x₁) blockCountTind parentOffset =
      some (position 2 0 0, indirectToOff (indexToOffset a 2 0 0) 2) := by
  unfold traverseOffset position
  dsimp only
  rw [if_pos (by decide), if_neg (by decide), if_neg (by decide), if_pos rfl, if_pos hdepth]

/-! ## §3 — below a double-indirect block -/

/-- What `tree_ind[0]` is after the single-indirect blocks below a block of pointers: the index of the
last one. -/
def lastIndex (inds : Fin a → Subtree a 1) (is : List (Fin a)) (x₀ : ℕ) : ℕ :=
  is.foldl (fun x i => if (inds i).node.isSome then (i : ℕ) else x) x₀

/-- The data of a single-indirect block. -/
theorem follows_children (s : BlockTraverseData) (children : Fin a → Subtree a 0) (first : ℕ)
    (is : List (Fin a)) : Follows a s
      (is.flatMap (fun i => visits a 0 (children i) (first + i * a ^ 0) (4 * i))) s True := by
  induction is with
  | nil => exact follows_nil s
  | cons i is ih =>
      rw [List.flatMap_cons]
      exact ((follows_data s (children i) _ _).append ih).congr (by simp)

/-- A single-indirect block, with its data. -/
theorem follows_ind {depth : ℤ} (hdepth : 0 ≤ depth) (x₀ x₁ i first : ℕ) (t : Subtree a 1) :
    Follows a (position depth x₀ x₁) (visits a 1 t first (4 * i))
      (position depth (if t.node.isSome then i else x₀) x₁)
      (t.node.isSome → indexToOffset a depth i x₁ = first) := by
  cases t with
  | none => exact (follows_nil _).congr (by simp [Subtree.node])
  | some node =>
      obtain ⟨block, children⟩ := node
      refine (follows_cons (v := ⟨block, 1, first, 4 * i⟩) (traverseOffset_ind hdepth x₀ x₁ i)
        (follows_children _ children first (List.finRange a))).congr ?_
      show indirectToOff _ 0 = indirectToOff first 0 ∧ True ↔ _
      rw [indirectToOff_inj]
      simp [Subtree.node]

/-- The single-indirect blocks below a block of pointers. -/
theorem follows_inds {depth : ℤ} (hdepth : 0 ≤ depth) (x₀ x₁ first : ℕ) (inds : Fin a → Subtree a 1)
    (is : List (Fin a)) :
    Follows a (position depth x₀ x₁)
      (is.flatMap (fun i => visits a 1 (inds i) (first + i * a ^ 1) (4 * i)))
      (position depth (lastIndex inds is x₀) x₁)
      (∀ i ∈ is, (inds i).node.isSome → indexToOffset a depth i x₁ = first + i * a) := by
  induction is generalizing x₀ with
  | nil => exact (follows_nil _).congr (by simp)
  | cons i is ih =>
      rw [List.flatMap_cons]
      refine ((follows_ind hdepth x₀ x₁ i _ (inds i)).append (ih _)).congr ?_
      simp only [List.forall_mem_cons, pow_one]

/-! ## §4 — below the triple-indirect block -/

/-- `tree_ind[0]` after a double-indirect block: unchanged where there is none. -/
def afterDind (t : Subtree a 2) (x₀ : ℕ) : ℕ :=
  match t.node with
  | none => x₀
  | some (_, inds) => lastIndex inds (List.finRange a) x₀

/-- The offsets computed for a double-indirect block at index `j`, and below it, are right. -/
def DindRight (a : ℕ) (depth : ℤ) (t : Subtree a 2) (x₀ j first : ℕ) : Prop :=
  ∀ block inds, t.node = some (block, inds) → indexToOffset a depth x₀ j = first ∧
    ∀ i, (inds i).node.isSome → indexToOffset a depth i j = first + i * a

/-- A double-indirect block below the triple-indirect one. -/
theorem follows_dind {depth : ℤ} (hdepth : 1 ≤ depth) (x₀ x₁ j first : ℕ) (t : Subtree a 2) :
    Follows a (position depth x₀ x₁) (visits a 2 t first (4 * j))
      (position depth (afterDind t x₀) (if t.node.isSome then j else x₁))
      (DindRight a depth t x₀ j first) := by
  cases t with
  | none => exact (follows_nil _).congr (by simp [DindRight, Subtree.node])
  | some node =>
      obtain ⟨block, inds⟩ := node
      -- `tree_ind[0]` is not reset when `tree_ind[1]` moves on
      refine (follows_cons (v := ⟨block, 2, first, 4 * j⟩) (traverseOffset_dind hdepth x₀ x₁ j)
        (follows_inds (by omega) x₀ j first inds (List.finRange a))).congr ?_
      show indirectToOff _ 1 = indirectToOff first 1 ∧ _ ↔ _
      rw [indirectToOff_inj]
      simp [DindRight, Subtree.node]

/-- `tree_ind[1]` after some double-indirect blocks. -/
def lastDind (dinds : Fin a → Subtree a 2) (js : List (Fin a)) (x₁ : ℕ) : ℕ :=
  js.foldl (fun x j => if (dinds j).node.isSome then (j : ℕ) else x) x₁

/-- The offsets below the triple-indirect block are right, `tree_ind[0]` going along. -/
def DindsRight (dinds : Fin a → Subtree a 2) (first : ℕ) : ℕ → List (Fin a) → Prop
  | _, [] => True
  | x₀, j :: js => DindRight a 2 (dinds j) x₀ j (first + j * a ^ 2) ∧
      DindsRight dinds first (afterDind (dinds j) x₀) js

/-- The double-indirect blocks below the triple-indirect one. -/
theorem follows_dinds (x₀ x₁ first : ℕ) (dinds : Fin a → Subtree a 2) (js : List (Fin a)) :
    Follows a (position 2 x₀ x₁)
      (js.flatMap (fun j => visits a 2 (dinds j) (first + j * a ^ 2) (4 * j)))
      (position 2 (js.foldl (fun x j => afterDind (dinds j) x) x₀) (lastDind dinds js x₁))
      (DindsRight dinds first x₀ js) := by
  induction js generalizing x₀ x₁ with
  | nil => exact follows_nil _
  | cons j js ih =>
      rw [List.flatMap_cons]
      exact (follows_dind (by decide) x₀ x₁ j _ (dinds j)).append (ih _ _)

/-! ## §5 — a whole file -/

theorem follows_direct (s : BlockTraverseData) (direct : Fin 12 → Subtree a 0)
    (is : List (Fin 12)) :
    Follows a s (is.flatMap (fun i => visits a 0 (direct i) i i)) s True := by
  induction is with
  | nil => exact follows_nil s
  | cons i is ih =>
      rw [List.flatMap_cons]
      exact ((follows_data s (direct i) i i).append ih).congr (by simp)

/-- The single-indirect block of the inode; it begins the first depth. -/
theorem follows_inode_ind (t : Subtree a 1) : ∃ depth ≤ 0, Follows a (position (-1) 0 0)
    (visits a 1 t 12 12) (position depth 0 0) True := by
  cases t with
  | none => exact ⟨-1, by decide, follows_nil _⟩
  | some node =>
      obtain ⟨block, children⟩ := node
      refine ⟨0, le_rfl, (follows_cons (v := ⟨block, 1, 12, 12⟩) (traverseOffset_first_ind 0 0 12)
        (follows_children _ children 12 (List.finRange a))).congr ?_⟩
      exact iff_of_true ⟨rfl, trivial⟩ trivial

/-- The double-indirect block of the inode; it begins a new depth. -/
theorem follows_inode_dind {depth : ℤ} (hdepth : depth ≤ 0) (t : Subtree a 2) :
    ∃ depth' ≤ 1, ∃ x₀, Follows a (position depth 0 0) (visits a 2 t (12 + a) 13)
      (position depth' x₀ 0) (DindRight a 1 t 0 0 (12 + a)) := by
  cases t with
  | none =>
      exact ⟨depth, by omega, 0, (follows_nil _).congr (by simp [DindRight, Subtree.node])⟩
  | some node =>
      obtain ⟨block, inds⟩ := node
      refine ⟨1, le_rfl, _, (follows_cons (v := ⟨block, 2, 12 + a, 13⟩)
        (traverseOffset_first_dind (by omega) 0 0 13)
        (follows_inds (by decide) 0 0 (12 + a) inds (List.finRange a))).congr ?_⟩
      show indirectToOff _ 1 = indirectToOff (12 + a) 1 ∧ _ ↔ _
      rw [indirectToOff_inj]
      simp [DindRight, Subtree.node]

/-- The triple-indirect block of the inode; it begins the last depth. -/
theorem follows_inode_tind {depth : ℤ} (hdepth : depth ≤ 1) (x₀ : ℕ) (t : Subtree a 3) :
    ∃ s', Follows a (position depth x₀ 0) (visits a 3 t (12 + a + a * a) 14) s'
      (∀ block dinds, t.node = some (block, dinds) → indexToOffset a 2 0 0 = 12 + a + a * a ∧
        DindsRight dinds (12 + a + a * a) 0 (List.finRange a)) := by
  cases t with
  | none => exact ⟨_, (follows_nil _).congr (by simp [Subtree.node])⟩
  | some node =>
      obtain ⟨block, dinds⟩ := node
      refine ⟨_, (follows_cons (v := ⟨block, 3, 12 + a + a * a, 14⟩)
        (traverseOffset_first_tind (by omega) x₀ 0 14)
        (follows_dinds 0 0 (12 + a + a * a) dinds (List.finRange a))).congr ?_⟩
      show indirectToOff _ 2 = indirectToOff (12 + a + a * a) 2 ∧ _ ↔ _
      rw [indirectToOff_inj]
      simp [Subtree.node]

/-- The offsets computed for the indirect blocks of a file are right. -/
def FileRight (file : FileTree a) : Prop :=
  DindRight a 1 file.dind 0 0 (12 + a) ∧
    ∀ block dinds, file.tind.node = some (block, dinds) →
      indexToOffset a 2 0 0 = 12 + a + a * a ∧
        DindsRight dinds (12 + a + a * a) 0 (List.finRange a)

/-- **The traversal of a file, call by call.** -/
theorem follows_file (file : FileTree a) :
    ∃ s', Follows a (position (-1) 0 0) file.visits s' (FileRight file) := by
  obtain ⟨depth, hdepth, hind⟩ := follows_inode_ind file.ind
  obtain ⟨depth', hdepth', x₀, hdind⟩ := follows_inode_dind hdepth file.dind
  obtain ⟨s', htind⟩ := follows_inode_tind hdepth' x₀ file.tind
  refine ⟨s', ((((follows_direct _ file.direct (List.finRange 12)).append hind).append
    hdind).append htind).congr ?_⟩
  unfold FileRight
  simp only [true_and]

end Follows

/-! ## §6 — when the offsets are right -/

section Right

theorem indexToOffset_dind (i x₁ : ℕ) :
    indexToOffset a 1 i x₁ = (12 + a + i * a) % 2 ^ 32 := rfl

theorem indexToOffset_tind (i j : ℕ) :
    indexToOffset a 2 i j = (12 + a + a * a + i * a + j * a * a) % 2 ^ 32 := rfl

/-- A number that is not too large survives the unsigned int, and only such a one. -/
theorem mod_eq_self_iff {n : ℕ} : n % 2 ^ 32 = n ↔ n < 2 ^ 32 := by
  constructor
  · intro heq
    rw [← heq]
    exact Nat.mod_lt _ (by decide)
  · exact Nat.mod_eq_of_lt

/-- A wrong summand that fits in an unsigned int does not go unnoticed. -/
theorem mod_add_eq_iff {m k : ℕ} (hk : k < 2 ^ 32) : (m + k) % 2 ^ 32 = m ↔ m < 2 ^ 32 ∧ k = 0 := by
  omega

/-- The index of the last single-indirect block is 0 if no other comes behind the first. -/
theorem lastIndex_eq_zero {inds : Fin a → Subtree a 1} {is : List (Fin a)} {x₀ : ℕ}
    (hsorted : is.Pairwise (· < ·)) (hle : ∀ i ∈ is, x₀ ≤ i) :
    lastIndex inds is x₀ = 0 ↔ x₀ = 0 ∧ ∀ i ∈ is, (inds i).node.isSome → (i : ℕ) = 0 := by
  induction is generalizing x₀ with
  | nil => simp [lastIndex]
  | cons i is ih =>
      obtain ⟨hlt, hsorted⟩ := List.pairwise_cons.1 hsorted
      have hfirst := hle i List.mem_cons_self
      rw [List.forall_mem_cons]
      unfold lastIndex
      rw [List.foldl_cons]
      by_cases hpresent : (inds i).node.isSome = true
      -- the index becomes `i`, and those behind it are larger
      · rw [if_pos hpresent]
        refine (ih hsorted (fun k hk => (hlt k hk).le)).trans ?_
        constructor
        · rintro ⟨hzero, hrest⟩
          exact ⟨by omega, fun _ => hzero, hrest⟩
        · rintro ⟨-, hzero, hrest⟩
          exact ⟨hzero hpresent, hrest⟩
      · rw [if_neg hpresent]
        refine (ih hsorted (fun k hk => hle k (List.mem_cons_of_mem i hk))).trans ?_
        simp [hpresent]

theorem lastIndex_cases (inds : Fin a → Subtree a 1) (is : List (Fin a)) (x₀ : ℕ) :
    lastIndex inds is x₀ = x₀ ∨ ∃ i ∈ is, (inds i).node.isSome ∧ lastIndex inds is x₀ = i := by
  induction is generalizing x₀ with
  | nil => exact .inl rfl
  | cons i is ih =>
      unfold lastIndex
      rw [List.foldl_cons]
      by_cases hpresent : (inds i).node.isSome = true
      -- `i` is the last one unless another follows
      · rw [if_pos hpresent]
        rcases ih i with heq | ⟨k, hk, hkpresent, heq⟩
        · exact .inr ⟨i, List.mem_cons_self, hpresent, heq⟩
        · exact .inr ⟨k, List.mem_cons_of_mem i hk, hkpresent, heq⟩
      · rw [if_neg hpresent]
        rcases ih x₀ with heq | ⟨k, hk, hkpresent, heq⟩
        · exact .inl heq
        · exact .inr ⟨k, List.mem_cons_of_mem i hk, hkpresent, heq⟩

/-- The first data blocks of a double-indirect block and of those below it have offsets below
`2 ^ 32`. -/
def DindFits (t : Subtree a 2) (first : ℕ) : Prop :=
  ∀ block inds, t.node = some (block, inds) →
    first < 2 ^ 32 ∧ ∀ i, (inds i).node.isSome → first + i * a < 2 ^ 32

/-- There is only one block a pointer leads to. -/
theorem forall_node_iff {n block : ℕ} {t : Subtree a (n + 1)} {children : Fin a → Subtree a n}
    (hnode : t.node = some (block, children)) {p : ℕ → (Fin a → Subtree a n) → Prop} :
    (∀ block children, t.node = some (block, children) → p block children) ↔ p block children := by
  constructor
  · intro h
    exact h _ _ hnode
  · intro h block' children' hnode'
    rw [hnode] at hnode'
    cases hnode'
    exact h

/-- An index left by blocks that fit is small. -/
theorem DindFits.afterDind {t : Subtree a 2} {first x₀ : ℕ} (h : DindFits t first)
    (hx₀ : x₀ * a < 2 ^ 32) : afterDind t x₀ * a < 2 ^ 32 := by
  unfold Remap.afterDind
  split
  · exact hx₀
  · next block inds hnode =>
    rcases lastIndex_cases inds (List.finRange a) x₀ with heq | ⟨i, -, hpresent, heq⟩
    · rw [heq]
      exact hx₀
    · rw [heq]
      have hfits := (h block inds hnode).2 i hpresent
      omega

theorem dindRight_one_iff (t : Subtree a 2) :
    DindRight a 1 t 0 0 (12 + a) ↔ DindFits t (12 + a) := by
  unfold DindRight DindFits
  refine forall_congr' fun block => forall_congr' fun inds => imp_congr_right fun _ =>
    and_congr ?_ (forall_congr' fun i => imp_congr_right fun _ => ?_)
  · rw [indexToOffset_dind, Nat.zero_mul, Nat.add_zero]
    exact mod_eq_self_iff
  · rw [indexToOffset_dind]
    exact mod_eq_self_iff

/-- **A double-indirect block below the triple-indirect one**: what `tree_ind[0]` still is must be 0. -/
theorem dindRight_two_iff (ha : 0 < a) {t : Subtree a 2} {x₀ : ℕ} (j : ℕ) (hx₀ : x₀ * a < 2 ^ 32) :
    DindRight a 2 t x₀ j (12 + a + a * a + j * a ^ 2) ↔
      DindFits t (12 + a + a * a + j * a ^ 2) ∧ (t.node.isSome → x₀ = 0) := by
  -- the block's own offset is computed from the stale index, those below it from their own
  have hindex : ∀ i, indexToOffset a 2 i j = (12 + a + a * a + j * a ^ 2 + i * a) % 2 ^ 32 := by
    intro i
    rw [indexToOffset_tind]
    congr 1
    ring
  have hzero : x₀ * a = 0 ↔ x₀ = 0 := by
    rw [Nat.mul_eq_zero]
    omega
  cases hnode : t.node with
  | none => simp [DindRight, DindFits, hnode]
  | some node =>
      obtain ⟨block, inds⟩ := node
      have hright : DindRight a 2 t x₀ j (12 + a + a * a + j * a ^ 2) ↔ _ := forall_node_iff hnode
      have hfits : DindFits t (12 + a + a * a + j * a ^ 2) ↔ _ := forall_node_iff hnode
      rw [hright, hfits]
      simp only [hindex, mod_eq_self_iff, mod_add_eq_iff hx₀, hzero, Option.isSome_some, forall_const]
      tauto

/-- `tree_ind[0]` is 0 at each double-indirect block. -/
def Settled (dinds : Fin a → Subtree a 2) : ℕ → List (Fin a) → Prop
  | _, [] => True
  | x₀, j :: js => ((dinds j).node.isSome → x₀ = 0) ∧ Settled dinds (afterDind (dinds j) x₀) js

theorem dindsRight_iff (ha : 0 < a) (dinds : Fin a → Subtree a 2) {x₀ : ℕ} (hx₀ : x₀ * a < 2 ^ 32)
    (js : List (Fin a)) :
    DindsRight dinds (12 + a + a * a) x₀ js ↔
      (∀ j ∈ js, DindFits (dinds j) (12 + a + a * a + j * a ^ 2)) ∧ Settled dinds x₀ js := by
  induction js generalizing x₀ with
  | nil => simp [DindsRight, Settled]
  | cons j js ih =>
      unfold DindsRight Settled
      rw [dindRight_two_iff ha j hx₀, List.forall_mem_cons]
      by_cases hfits : DindFits (dinds j) (12 + a + a * a + j * a ^ 2)
      -- the bound on the index goes along
      · rw [ih (hfits.afterDind hx₀)]
        tauto
      · tauto

/-- A single-indirect block below `j` has no index but 0, if a double-indirect block follows at `j'`. -/
def Follow (dinds : Fin a → Subtree a 2) (j j' : Fin a) : Prop :=
  (dinds j').node.isSome → ∀ block inds, (dinds j).node = some (block, inds) →
    ∀ i, (inds i).node.isSome → (i : ℕ) = 0

/-- **What it takes for `tree_ind[0]` to be 0 at each double-indirect block.** -/
theorem settled_iff (dinds : Fin a → Subtree a 2) (x₀ : ℕ) (js : List (Fin a)) :
    Settled dinds x₀ js ↔
      ((∃ j ∈ js, (dinds j).node.isSome) → x₀ = 0) ∧ js.Pairwise (Follow dinds) := by
  induction js generalizing x₀ with
  | nil => simp [Settled]
  | cons j js ih =>
      unfold Settled
      rw [ih, List.pairwise_cons]
      cases hnode : (dinds j).node with
      | none =>
          -- a hole leaves the index alone
          have hafter : afterDind (dinds j) x₀ = x₀ := by
            unfold afterDind
            rw [hnode]
          have hfollow : ∀ j', Follow dinds j j' := by
            intro j' _ block inds hsome
            rw [hnode] at hsome
            cases hsome
          rw [hafter]
          simp [hnode, hfollow]
      | some node =>
          obtain ⟨block, inds⟩ := node
          -- a block leaves the last index below it
          have hafter : afterDind (dinds j) x₀ = lastIndex inds (List.finRange a) x₀ := by
            unfold afterDind
            rw [hnode]
          have hfollow : ∀ j', Follow dinds j j' ↔ ((dinds j').node.isSome →
              ∀ i, (inds i).node.isSome → (i : ℕ) = 0) := by
            intro j'
            unfold Follow
            simp [hnode]
          have hlast : x₀ = 0 → (lastIndex inds (List.finRange a) x₀ = 0 ↔
              ∀ i, (inds i).node.isSome → (i : ℕ) = 0) := by
            rintro rfl
            rw [lastIndex_eq_zero (List.pairwise_lt_finRange a) (fun i _ => Nat.zero_le i)]
            simp
          rw [hafter]
          simp only [hnode, hfollow, Option.isSome_some, forall_const, List.exists_mem_cons_iff, true_or]
          constructor
          · rintro ⟨hzero, hlater, hpairwise⟩
            refine ⟨hzero, ?_, hpairwise⟩
            intro j' hj' hpresent
            exact (hlast hzero).1 (hlater ⟨j', hj', hpresent⟩)
          · rintro ⟨hzero, hfirst, hpairwise⟩
            refine ⟨hzero, ?_, hpairwise⟩
            rintro ⟨j', hj', hpresent⟩
            exact (hlast hzero).2 (hfirst j' hj' hpresent)

/-- An indirect block's first data block has an offset below `2 ^ 32`. -/
def Visit.Fits (v : Visit) : Prop := 0 < v.level → v.first < 2 ^ 32

theorem forall_visits_succ {n block first parentOffset : ℕ} {children : Fin a → Subtree a n}
    {p : Visit → Prop} :
    (∀ v ∈ visits a (n + 1) (some (block, children)) first parentOffset, p v) ↔
      p ⟨block, n + 1, first, parentOffset⟩ ∧
        ∀ i : Fin a, ∀ v ∈ visits a n (children i) (first + i * a ^ n) (4 * i), p v := by
  constructor
  · intro h
    refine ⟨h _ (mem_visits_succ.2 (.inl rfl)), ?_⟩
    intro i v hv
    exact h v (mem_visits_succ.2 (.inr ⟨i, hv⟩))
  · rintro ⟨hblock, hchildren⟩ v hv
    rcases mem_visits_succ.1 hv with rfl | ⟨i, hi⟩
    · exact hblock
    · exact hchildren i v hi

theorem data_fits (t : Subtree a 0) (first parentOffset : ℕ) :
    ∀ v ∈ visits a 0 t first parentOffset, v.Fits := by
  intro v hv hlevel
  cases t with
  | none => simp [visits] at hv
  | some block =>
      rw [visits, List.mem_singleton] at hv
      subst hv
      exact absurd hlevel (lt_irrefl 0)

theorem ind_fits_iff (t : Subtree a 1) (first parentOffset : ℕ) :
    (∀ v ∈ visits a 1 t first parentOffset, v.Fits) ↔ (t.node.isSome → first < 2 ^ 32) := by
  cases t with
  | none => simp [visits, Subtree.node]
  | some node =>
      obtain ⟨block, children⟩ := node
      rw [forall_visits_succ]
      constructor
      · rintro ⟨hblock, -⟩ -
        exact hblock Nat.one_pos
      · intro h
        exact ⟨fun _ => h rfl, fun i => data_fits _ _ _⟩

theorem dind_fits_iff (t : Subtree a 2) (first parentOffset : ℕ) :
    (∀ v ∈ visits a 2 t first parentOffset, v.Fits) ↔ DindFits t first := by
  cases t with
  | none => simp [visits, DindFits, Subtree.node]
  | some node =>
      obtain ⟨block, inds⟩ := node
      have hfits : DindFits (some (block, inds) : Subtree a 2) first ↔ _ := forall_node_iff rfl
      rw [forall_visits_succ, hfits]
      simp only [ind_fits_iff, pow_one]
      exact and_congr_left fun _ => ⟨fun h => h Nat.two_pos, fun h _ => h⟩

theorem tind_fits_iff (t : Subtree a 3) (first parentOffset : ℕ) :
    (∀ v ∈ visits a 3 t first parentOffset, v.Fits) ↔
      ∀ block dinds, t.node = some (block, dinds) →
        first < 2 ^ 32 ∧ ∀ j, DindFits (dinds j) (first + j * a ^ 2) := by
  cases t with
  | none => simp [visits, Subtree.node]
  | some node =>
      obtain ⟨block, dinds⟩ := node
      have hnode : (∀ block' dinds', Subtree.node (n := 2) (some (block, dinds)) =
          some (block', dinds') → first < 2 ^ 32 ∧ ∀ j, DindFits (dinds' j) (first + j * a ^ 2)) ↔
          first < 2 ^ 32 ∧ ∀ j, DindFits (dinds j) (first + j * a ^ 2) := forall_node_iff rfl
      rw [forall_visits_succ, hnode]
      simp only [dind_fits_iff]
      exact and_congr_left fun _ => ⟨fun h => h (Nat.succ_pos 2), fun h _ => h⟩

/-- The first data blocks of a file's indirect blocks, level by level. -/
theorem firstsFit_iff (file : FileTree a) :
    FirstsFit file ↔ DindFits file.dind (12 + a) ∧
      ∀ block dinds, file.tind.node = some (block, dinds) → 12 + a + a * a < 2 ^ 32 ∧
        ∀ j, DindFits (dinds j) (12 + a + a * a + j * a ^ 2) := by
  rw [← dind_fits_iff file.dind (12 + a) 13, ← tind_fits_iff file.tind (12 + a + a * a) 14]
  have hdirect : ∀ v ∈ (List.finRange 12).flatMap (fun i => visits a 0 (file.direct i) i i),
      v.Fits := by
    intro v hv
    obtain ⟨i, -, hi⟩ := List.mem_flatMap.1 hv
    exact data_fits _ _ _ v hi
  have hind : ∀ v ∈ visits a 1 file.ind 12 12, v.Fits := (ind_fits_iff _ _ _).2 (fun _ => by decide)
  constructor
  · intro h
    have hmem : ∀ v ∈ file.visits, v.Fits := h
    unfold FileTree.visits at hmem
    exact ⟨fun v hv => hmem v (by simp [hv]), fun v hv => hmem v (by simp [hv])⟩
  · rintro ⟨hdind, htind⟩ v hv
    unfold FileTree.visits at hv
    rw [List.mem_append, List.mem_append, List.mem_append] at hv
    rcases hv with ((hv | hv) | hv) | hv
    · exact hdirect v hv
    · exact hind v hv
    · exact hdind v hv
    · exact htind v hv

/-- **The offsets of a file are right exactly if they fit and the indices are settled.** -/
theorem fileRight_iff (ha : 0 < a) (file : FileTree a) :
    FileRight file ↔ FirstsFit file ∧ IndicesSettled file := by
  unfold FileRight
  rw [firstsFit_iff, dindRight_one_iff, and_assoc]
  refine and_congr_right fun _ => ?_
  cases hnode : file.tind.node with
  | none => simp [IndicesSettled, hnode]
  | some node =>
      obtain ⟨block, dinds⟩ := node
      have hsettled : IndicesSettled file ↔ ∀ j j', j < j' → Follow dinds j j' :=
        forall_node_iff hnode
      have hpairwise : (List.finRange a).Pairwise (Follow dinds) ↔
          ∀ j j', j < j' → Follow dinds j j' := by
        rw [← List.ofFn_id, List.pairwise_ofFn]
        rfl
      have hzero : indexToOffset a 2 0 0 = 12 + a + a * a ↔ 12 + a + a * a < 2 ^ 32 := by
        rw [indexToOffset_tind, Nat.zero_mul, Nat.zero_mul, Nat.add_zero]
        exact mod_eq_self_iff
      rw [← hnode, forall_node_iff hnode, forall_node_iff hnode, hsettled, ← hpairwise, hzero,
        dindsRight_iff ha dinds (by simp) (List.finRange a), settled_iff]
      simp [and_assoc]

/-- One direction and the other, for the tools. -/
theorem offsetsEncoded_iff (ha : 0 < a) (file : FileTree a) :
    OffsetsEncoded file ↔ FileRight file := by
  obtain ⟨s', offsets, hrun, -, hright⟩ := follows_file file
  -- what `find_block` answers does not matter for the offsets
  have hstore : ∀ findBlock, storeOffsets a findBlock {} file.visits = some offsets := by
    intro findBlock
    rw [storeOffsets_eq]
    show (runOffsets a (position (-1) 0 0) file.visits).map Prod.snd = _
    rw [hrun]
    rfl
  rw [← hright]
  constructor
  · intro h
    exact Option.some.inj ((hstore (fun _ => true)).symm.trans (h.store _))
  · intro heq
    refine ⟨?_, ?_, codes_increasing ha file⟩
    · intro findBlock
      rw [hstore, heq]
    · intro sBlocksCount freeExtents extents
      rw [← heq]
      exact remapOffsets_prefix extents hrun

end Right

/-- Nothing there. -/
def Subtree.hole : (n : ℕ) → Subtree a n
  | 0 => none
  | _ + 1 => none

/-- A block of pointers with one pointer in it. -/
def single {n : ℕ} (block : ℕ) (i : Fin 1024) (t : Subtree 1024 n) : Subtree 1024 (n + 1) :=
  some (block, fun k => if k = i then t else Subtree.hole n)

end Prefetch.Remap

/-
# Prefetch.Remap.FileTree — the block tree of a file, and e2block2file's way through it

`ext2fs_block_iterate2` visits the blocks of a file in pre-order and calls the tool for each of them,
with the logical offset of a data block and a negative number for the level of an indirect one. Holes
are not visited. `e2block2file` and `e2remapblocks` both have to find out from these calls alone where in
the file an indirect block belongs; they share the code that does (`traverseOffset` here).

`visits_ordered`: the visits come in the order the tools expect of the offsets they compute.
-/
import Prefetch.Remap.Remapper
import Mathlib.Data.List.FinRange
import Mathlib.Tactic.Ring

namespace Prefetch.Remap

/-! ## §1 — the tree and its visits -/

/-- What a block pointer leads to, `n` levels above the data, with `a` addresses per block: nothing, or
a block, which holds pointers unless it is data. -/
def Subtree (a : ℕ) : ℕ → Type
  | 0 => Option ℕ
  | n + 1 => Option (ℕ × (Fin a → Subtree a n))

/-- The block of pointers a pointer to an indirect block leads to. -/
def Subtree.node {a n : ℕ} (t : Subtree a (n + 1)) : Option (ℕ × (Fin a → Subtree a n)) := t

/-- The pointers of an inode. -/
structure FileTree (a : ℕ) where
  direct : Fin 12 → Subtree a 0
  ind : Subtree a 1
  dind : Subtree a 2
  tind : Subtree a 3

/-- A block met: its number, how many levels it is above the data, the logical offset of the first
data block addressable in its subtree, and the offset of its pointer in its parent. -/
structure Visit where
  blocknr : ℕ
  level : ℕ
  first : ℕ
  parentOffset : ℕ
  deriving DecidableEq, Repr

/-- The blocks of a subtree in pre-order; a pointer has 4 bytes. -/
def visits (a : ℕ) : (n : ℕ) → Subtree a n → (first parentOffset : ℕ) → List Visit
  | 0, none, _, _ => []
  | 0, some block, first, parentOffset => [⟨block, 0, first, parentOffset⟩]
  | _ + 1, none, _, _ => []
  | n + 1, some (block, children), first, parentOffset =>
      ⟨block, n + 1, first, parentOffset⟩ ::
        (List.finRange a).flatMap (fun i => visits a n (children i) (first + i * a ^ n) (4 * i))

/-- The blocks of a file; the pointers of an inode are numbered. -/
def FileTree.visits {a : ℕ} (file : FileTree a) : List Visit :=
  (List.finRange 12).flatMap (fun i => Remap.visits a 0 (file.direct i) i i) ++
    Remap.visits a 1 file.ind 12 12 ++ Remap.visits a 2 file.dind (12 + a) 13 ++
    Remap.visits a 3 file.tind (12 + a + a * a) 14

/-- The offset a tool is called with. -/
def Visit.offset (v : Visit) : ℤ := if v.level = 0 then v.first else -v.level

/-- The offset by which extents know the block, as the README defines it: the level is encoded in the
lowest two bits, the first data block in the rest. -/
def Visit.code (v : Visit) : ℤ := if v.level = 0 then v.first else indirectToOff v.first (v.level - 1)

/-! ## §2 — the order of visits -/

/-- Offsets grow, and of two blocks with the same first data block the higher one comes first. -/
def Visit.Before (v w : Visit) : Prop := v.first < w.first ∨ v.first = w.first ∧ w.level < v.level

section Order

variable {a n : ℕ} {t : Subtree a n} {first parentOffset : ℕ} {v w : Visit}

/-- The visits below a pointer: the block, then its children one after the other. -/
theorem mem_visits_succ {block : ℕ} {children : Fin a → Subtree a n} :
    v ∈ visits a (n + 1) (some (block, children)) first parentOffset ↔
      v = ⟨block, n + 1, first, parentOffset⟩ ∨
        ∃ i : Fin a, v ∈ visits a n (children i) (first + i * a ^ n) (4 * i) := by
  rw [visits, List.mem_cons, List.mem_flatMap]
  simp

/-- Where the visits of a subtree lie. -/
theorem mem_visits (ha : 0 < a) (h : v ∈ visits a n t first parentOffset) :
    first ≤ v.first ∧ v.first < first + a ^ n ∧ v.level ≤ n := by
  induction n generalizing first parentOffset with
  | zero =>
      cases t with
      | none => simp [visits] at h
      | some block =>
          rw [visits, List.mem_singleton] at h
          subst h
          simp
  | succ n ih =>
      cases t with
      | none => simp [visits] at h
      | some node =>
          rcases mem_visits_succ.1 h with rfl | ⟨i, hi⟩
          · exact ⟨le_rfl, Nat.lt_add_of_pos_right (Nat.pow_pos ha), le_rfl⟩
          · obtain ⟨hle, hlt, hlevel⟩ := ih hi
            -- child `i` ends where child `i + 1` would begin
            have hend : i * a ^ n + a ^ n ≤ a ^ (n + 1) :=
              calc i * a ^ n + a ^ n = (i + 1) * a ^ n := by ring
                _ ≤ a * a ^ n := Nat.mul_le_mul_right _ i.isLt
                _ = a ^ (n + 1) := by ring
            omega

/-- **The visits of a subtree are in order.** -/
theorem visits_ordered (ha : 0 < a) : (visits a n t first parentOffset).Pairwise Visit.Before := by
  induction n generalizing first parentOffset with
  | zero => cases t <;> simp [visits]
  | succ n ih =>
      cases t with
      | none => simp [visits]
      | some node =>
          rw [visits, List.pairwise_cons, List.pairwise_flatMap]
          refine ⟨?_, fun i _ => ih, ?_⟩
          · intro w hw
            obtain ⟨i, -, hi⟩ := List.mem_flatMap.1 hw
            obtain ⟨hle, -, hlevel⟩ := mem_visits ha hi
            rcases Nat.eq_zero_or_pos (i * a ^ n) with hzero | hpos
            · rcases (show first ≤ w.first by omega).eq_or_lt with heq | hlt
              · exact .inr ⟨heq, Nat.lt_succ_of_le hlevel⟩
              · exact .inl hlt
            · exact .inl (show first < w.first by omega)
          · apply (List.pairwise_lt_finRange a).imp
            intro i j hij v hv w hw
            obtain ⟨-, hlt, -⟩ := mem_visits ha hv
            obtain ⟨hle, -, -⟩ := mem_visits ha hw
            have hend : i * a ^ n + a ^ n ≤ j * a ^ n :=
              calc i * a ^ n + a ^ n = (i + 1) * a ^ n := by ring
                _ ≤ j * a ^ n := Nat.mul_le_mul_right _ hij
            exact .inl (by omega)

end Order

/-- **The visits of a file are in order.** -/
theorem file_visits_ordered {a : ℕ} (ha : 0 < a) (file : FileTree a) :
    file.visits.Pairwise Visit.Before := by
  have hdirect : ∀ v ∈ (List.finRange 12).flatMap (fun i => visits a 0 (file.direct i) i i),
      v.first < 12 := by
    intro v hv
    obtain ⟨i, -, hi⟩ := List.mem_flatMap.1 hv
    obtain ⟨-, hlt, -⟩ := mem_visits ha hi
    rw [pow_zero] at hlt
    have := i.isLt
    omega
  have hordered : ((List.finRange 12).flatMap (fun i => visits a 0 (file.direct i) i i)).Pairwise
      Visit.Before := by
    rw [List.pairwise_flatMap]
    refine ⟨fun i _ => visits_ordered ha, ?_⟩
    apply (List.pairwise_lt_finRange 12).imp
    intro i j hij v hv w hw
    obtain ⟨-, hlt, -⟩ := mem_visits ha hv
    obtain ⟨hle, -, -⟩ := mem_visits ha hw
    have hij' : (i : ℕ) < j := hij
    rw [pow_zero] at hlt
    exact .inl (by omega)
  unfold FileTree.visits
  rw [List.pairwise_append, List.pairwise_append, List.pairwise_append]
  refine ⟨⟨⟨hordered, visits_ordered ha, ?_⟩, visits_ordered ha, ?_⟩, visits_ordered ha, ?_⟩
  · intro v hv w hw
    obtain ⟨hle, -, -⟩ := mem_visits ha hw
    exact .inl ((hdirect v hv).trans_le hle)
  · intro v hv w hw
    obtain ⟨hle, -, -⟩ := mem_visits ha hw
    rcases List.mem_append.1 hv with hv | hv
    · have := hdirect v hv
      exact .inl (by omega)
    · obtain ⟨-, hlt, -⟩ := mem_visits ha hv
      rw [pow_one] at hlt
      exact .inl (by omega)
  · intro v hv w hw
    obtain ⟨hle, -, -⟩ := mem_visits ha hw
    rcases List.mem_append.1 hv with hv | hv
    · rcases List.mem_append.1 hv with hv | hv
      · have := hdirect v hv
        exact .inl (by omega)
      · obtain ⟨-, hlt, -⟩ := mem_visits ha hv
        rw [pow_one] at hlt
        exact .inl (by omega)
    · obtain ⟨-, hlt, -⟩ := mem_visits ha hv
      rw [Nat.pow_two] at hlt
      exact .inl (by omega)

/-- No indirect block stands at offset 0, and its level fits in two bits. -/
def Visit.Coded (v : Visit) : Prop := v.level ≤ 4 ∧ (0 < v.level → 0 < v.first)

/-- What `cmp_ext_offset_ptr_core` takes out of a code. -/
theorem code_parts {v : Visit} (h : v.Coded) :
    (if v.code < 0 then offToDepth v.code else -1) = (v.level : ℤ) - 1 ∧
      (if v.code < 0 then offToDataoff v.code else v.code) = v.first := by
  obtain ⟨hle, hpos⟩ := h
  rcases Nat.eq_zero_or_pos v.level with hzero | hlevel
  · have hcode : v.code = v.first := if_pos hzero
    rw [hcode, if_neg (by omega), if_neg (by omega), hzero]
    exact ⟨rfl, rfl⟩
  · have hcode : v.code = -((v.first * 4 + (v.level - 1) : ℕ) : ℤ) := if_neg (by omega)
    have hfirst := hpos hlevel
    rw [hcode, if_pos (by omega), if_pos (by omega)]
    unfold offToDepth offToDataoff
    omega

/-- **`cmp_ext_offset_ptr_core` orders the codes as the visits.** -/
theorem cmp_code {v w : Visit} (h : v.Before w) (hv : v.Coded) (hw : w.Coded) :
    cmpExtOffsetPtrCore v.code w.code < 0 := by
  obtain ⟨hvlevel, hvfirst⟩ := code_parts hv
  obtain ⟨hwlevel, hwfirst⟩ := code_parts hw
  unfold cmpExtOffsetPtrCore
  dsimp only
  rw [hvlevel, hvfirst, hwlevel, hwfirst]
  rcases h with hlt | ⟨heq, hlt⟩
  · rw [if_pos (by omega)]
    decide
  · rw [if_neg (by omega), if_neg (by omega)]
    omega

theorem file_visits_coded {a : ℕ} (ha : 0 < a) {file : FileTree a} {v : Visit}
    (h : v ∈ file.visits) : v.Coded := by
  unfold FileTree.visits at h
  rw [List.mem_append, List.mem_append, List.mem_append, List.mem_flatMap] at h
  rcases h with ((⟨i, -, h⟩ | h) | h) | h <;> obtain ⟨hle, -, hlevel⟩ := mem_visits ha h
  · exact ⟨by omega, by omega⟩
  · exact ⟨by omega, by omega⟩
  · exact ⟨by omega, by omega⟩
  · exact ⟨by omega, by omega⟩

/-- The codes of a file's blocks, in the order of the traversal, are strictly increasing. -/
theorem codes_increasing {a : ℕ} (ha : 0 < a) (file : FileTree a) :
    (file.visits.map Visit.code).Pairwise (fun ao bo => cmpExtOffsetPtrCore ao bo < 0) := by
  rw [List.pairwise_map]
  apply (file_visits_ordered ha file).imp_of_mem
  intro v w hv hw hbefore
  exact cmp_code hbefore (file_visits_coded ha hv) (file_visits_coded ha hw)

/-! ## §3 — e2block2file -/

/-- `struct block_map`. -/
structure BlockMap where
  block : ℕ
  len : ℕ
  offset : ℤ
  deriving DecidableEq, Repr

/-- `struct traverse_data`, with the list of its inode; `last_block` is the last of the list. -/
structure TraverseData where
  treeInd0 : ℕ := 0
  treeInd1 : ℕ := 0
  depth : ℤ := -1
  blocks : List BlockMap := []
  deriving DecidableEq, Repr

/-- `insert_new_block` -/
def insertNewBlock (blocks : List BlockMap) (offset : ℤ) (block : ℕ) : List BlockMap :=
  match blocks.getLast? with
  | some last =>
      if 0 ≤ offset ∧ last.block + last.len = block ∧ last.offset + last.len = offset then
        blocks.dropLast ++ [{ last with len := last.len + 1 }]
      else blocks ++ [⟨block, 1, offset⟩]
  | none => blocks ++ [⟨block, 1, offset⟩]

/-- The first part of `store_block`, which is that of `remap_block`, with the offset it would hand to
`insert_new_block`. -/
def storeOffset (a : ℕ) (tdata : TraverseData) (offset : ℤ) (parentOffset : ℕ) :
    Option (TraverseData × ℤ) :=
  (traverseOffset a ⟨tdata.treeInd0, tdata.treeInd1, tdata.depth, []⟩ offset parentOffset).map
    (fun r => ({ tdata with
      treeInd0 := r.1.treeInd0, treeInd1 := r.1.treeInd1, depth := r.1.depth }, r.2))

/-- `store_block`; `findBlock` says whether the input asks for a block, `none` is the exit on an unknown
offset. -/
def storeBlock (a : ℕ) (findBlock : ℕ → Bool) (tdata : TraverseData) (blocknr : ℕ) (offset : ℤ)
    (parentOffset : ℕ) : Option TraverseData :=
  (storeOffset a tdata offset parentOffset).map (fun r =>
    if findBlock blocknr then { r.1 with blocks := insertNewBlock r.1.blocks r.2 blocknr } else r.1)

end Prefetch.Remap

/-
# Prefetch.MoveBlocks.OptimizeFs — moving the blocks of a layout, and verifying it

`optimize_fs` of `tests.sh` runs `e2moveblocks` on a layout and, if that found room, `verifyfslayout.py` on
the result. It passes: on a device without errors the relocation loop does not exit, afterwards the blocks of
the layout lie in its order, and this is what the script looks for.
-/
import Prefetch.MoveBlocks.VerifyLayout

namespace Prefetch.MoveBlocks

open ExitProg FirstVisit
open SplitTrace (LayoutLine layoutText)

variable {g : Geometry}

/-! ## §1 — a device without errors -/

/-- No access fails, and these inodes have valid blocks. -/
structure Dependable (valid : ℕ → Prop) (s : RunState g) : Prop where
  faults : ∀ n, s.faults n = false
  inodes : ∀ n, valid n → HasValidBlocks s.view n

/-- On such a device the program does not exit because of a failed access, the device stays so, and the value
returned is one of these. -/
def Steady {α : Type} (valid : ℕ → Prop) (m : Prog g α) (result : α → Prop) : Prop :=
  ∀ s, Dependable valid s → wp m (fun a s' => result a ∧ Dependable valid s') (fun e _ => e.isFault = false) s

/-- Any value. -/
def anyResult {α : Type} (_ : α) : Prop := True

section Steady

variable {α β : Type} {valid : ℕ → Prop} {result : α → Prop}

theorem steady_pure {a : α} (h : result a) : Steady (g := g) valid (pure a) result := fun _ hs => ⟨h, hs⟩

theorem steady_get : Steady (g := g) valid get anyResult := fun _ hs => ⟨trivial, hs⟩

theorem steady_throw {why : ExitReason} (h : why.isFault = false) :
    Steady (g := g) valid (throw why : Prog g α) result := fun _ _ => h

theorem steady_modify {f : RunState g → RunState g} (h : ∀ s, Dependable valid s → Dependable valid (f s)) :
    Steady valid (modify f) anyResult := fun s hs => ⟨trivial, h s hs⟩

theorem Steady.bind {result' : β → Prop} {m : Prog g α} {k : α → Prog g β} (hm : Steady valid m result)
    (hk : ∀ a, result a → Steady valid (k a) result') : Steady valid (m >>= k) result' := by
  intro s hs
  rw [wp_bind]
  exact wp_mono (hm s hs) (fun a s' hs' => hk a hs'.1 s' hs'.2) fun _ _ he => he

theorem steady_ite {c : Prop} [Decidable c] {m m' : Prog g α} (hm : Steady valid m result)
    (hm' : Steady valid m' result) : Steady valid (if c then m else m') result := by
  split_ifs
  · exact hm
  · exact hm'

theorem steady_dite {c : Prop} [Decidable c] {m : c → Prog g α} {m' : ¬ c → Prog g α}
    (hm : ∀ h, Steady valid (m h) result) (hm' : ∀ h, Steady valid (m' h) result) :
    Steady valid (if h : c then m h else m' h) result := by
  split_ifs with h
  · exact hm h
  · exact hm' h

theorem steady_access (why : ExitReason) : Steady (g := g) valid (access why) anyResult := by
  intro s hs
  unfold access
  simp only [wp_bind, wp_get, wp_modify, hs.faults, Bool.false_eq_true, if_false, wp_pure]
  exact ⟨trivial, hs.faults, hs.inodes⟩

theorem steady_copyBlock (sourceBlock targetBlock : ℕ) :
    Steady (g := g) valid (modify fun s => s.copyBlock sourceBlock targetBlock) anyResult :=
  steady_modify fun _ hs => ⟨hs.faults, hs.inodes⟩

theorem steady_remarkBlocks (sourceBlock targetBlock : ℕ) :
    Steady (g := g) valid (modify fun s => s.remarkBlocks sourceBlock targetBlock) anyResult :=
  steady_modify fun _ hs => ⟨hs.faults, hs.inodes⟩

theorem steady_advance : Steady (g := g) valid (modify RunState.advance) anyResult :=
  steady_modify fun _ hs => ⟨hs.faults, hs.inodes⟩

theorem steady_writeIndBlock (block : ℕ) (words : Block g) :
    Steady (g := g) valid (modify fun s => s.writeIndBlock block words) anyResult :=
  steady_modify fun _ hs => ⟨hs.faults, hs.inodes⟩

theorem steady_writeInode (n : ℕ) {inode : Ext2Inode} (h : inode.hasValidBlocks = true) :
    Steady (g := g) valid (modify fun s => s.writeInode n inode) anyResult := by
  refine steady_modify fun s hs => ⟨hs.faults, fun m hm => ?_⟩
  by_cases hmn : m = n
  · subst hmn
    exact ⟨inode, Function.update_self .., h⟩
  · obtain ⟨inode', hinode', hvalid⟩ := hs.inodes m hm
    exact ⟨inode', (Function.update_of_ne hmn ..).trans hinode', hvalid⟩

theorem steady_relocateRawBlock (sourceBlock targetBlock : ℕ) :
    Steady (g := g) valid (relocateRawBlock sourceBlock targetBlock) anyResult := by
  refine steady_get.bind fun s _ => steady_ite (steady_throw rfl) (steady_ite (steady_throw rfl) ?_)
  refine (steady_access _).bind fun _ _ => (steady_access _).bind fun _ _ => (steady_access _).bind fun _ _ => ?_
  exact (steady_copyBlock _ _).bind fun _ _ => steady_remarkBlocks _ _

theorem steady_relocateBlockInInode {inode : Ext2Inode} (h : inode.hasValidBlocks = true) (index : Fin 15)
    (area : BlockRange) :
    Steady (g := g) valid (relocateBlockInInode inode index area) (·.hasValidBlocks = true) := by
  refine steady_ite (steady_pure h) (steady_ite (steady_pure h) ?_)
  refine steady_get.bind fun s _ => (steady_relocateRawBlock _ _).bind fun _ _ => ?_
  exact steady_advance.bind fun _ _ => steady_pure h

theorem steady_relocateBlockInIndirectBlock (block index : ℕ) (area : BlockRange) :
    Steady (g := g) valid (relocateBlockInIndirectBlock block index area) anyResult := by
  refine steady_dite (fun _ => steady_ite (steady_throw rfl) ?_) fun _ => steady_throw rfl
  refine (steady_access _).bind fun _ _ => steady_get.bind fun s _ => ?_
  refine steady_ite (steady_pure trivial) (steady_ite (steady_pure trivial) ?_)
  refine steady_get.bind fun _ _ => (steady_relocateRawBlock _ _).bind fun _ _ => steady_advance.bind fun _ _ => ?_
  refine (steady_access _).bind fun _ _ => ?_
  exact (steady_writeIndBlock _ _).bind fun _ _ => steady_pure trivial

theorem steady_relocateBlockInRegion {inode : Ext2Inode} (h : inode.hasValidBlocks = true) (offset : ℕ)
    (area : BlockRange) :
    Steady (g := g) valid (relocateBlockInRegion inode offset area) (·.hasValidBlocks = true) := by
  refine steady_dite (fun _ => steady_relocateBlockInInode h _ _) fun _ => ?_
  refine steady_ite ?_ (steady_ite ?_ (steady_pure h))
  · refine (steady_relocateBlockInInode h _ _).bind fun inode h => steady_ite (steady_pure h) ?_
    exact (steady_relocateBlockInIndirectBlock _ _ _).bind fun _ _ => steady_pure h
  · refine (steady_relocateBlockInInode h _ _).bind fun inode h => steady_ite (steady_pure h) ?_
    refine (steady_relocateBlockInIndirectBlock _ _ _).bind fun next _ => steady_ite (steady_pure h) ?_
    exact (steady_relocateBlockInIndirectBlock _ _ _).bind fun _ _ => steady_pure h

/-- `relocate_block` on an inode with valid blocks. -/
theorem steady_relocateBlock (area : BlockRange) {n : ℕ} (hn : valid n) (offset : ℕ) :
    Steady (g := g) valid (relocateBlock area n offset) anyResult := by
  refine (steady_access _).bind fun _ _ => ?_
  intro s hs
  rw [wp_bind, wp_get]
  obtain ⟨inode, hinode, hvalid⟩ := hs.inodes n hn
  have hread : s.disk.inodes n = some inode := hinode
  rw [hread]
  exact steady_ite (steady_pure trivial) ((steady_access _).bind fun _ _ =>
    (steady_relocateBlockInRegion hvalid _ _).bind fun inode' hvalid' => (steady_access _).bind fun _ _ =>
      steady_writeInode n hvalid') s hs

/-- The loop, when all its inodes have valid blocks. -/
theorem steady_relocatePairs (area : BlockRange) {pairs : List (ℕ × ℕ)} (h : ∀ q ∈ pairs, valid q.1) :
    Steady (g := g) valid (relocatePairs area pairs) anyResult := by
  induction pairs with
  | nil => exact steady_pure trivial
  | cons q pairs ih =>
      exact (steady_relocateBlock area (h q List.mem_cons_self) q.2).bind fun _ _ =>
        ih fun q' hq' => h q' (List.mem_cons_of_mem q hq')

end Steady

/-! ## §2 — the run -/

/-- Two blocks one after the other, with room for the indirect blocks of the second between. -/
def NextTo (v : View g) (q q' : ℕ × ℕ) : Prop :=
  dataBlock v q < dataBlock v q' ∧ dataBlock v q' ≤ dataBlock v q + 3

/-- **The run on a device without errors.** It ends because there is no room, or it returns with the blocks
of the layout in its order, every file reading as before and no inode lost. -/
theorem main_on_dependable {reserved : Set ℕ} {s : RunState g} {relocations : List Relocation} {size : ℕ}
    {valid : ℕ → Prop} (hself : testEstimateBlocksForRange g = true) (hopen : s.Opened)
    (hwf : WellFormed reserved s.view s.blockMap) (hacc : Accepted g relocations size)
    (hbelow : ∀ q ∈ layoutPairs relocations, BelowTriple g q)
    (hholes : ∀ q ∈ layoutPairs relocations, dataBlock s.view q ≠ 0) (hdep : Dependable valid s)
    (hvalid : ∀ q ∈ layoutPairs relocations, valid q.1) :
    wp (main relocations)
      (fun _ s' => (layoutPairs relocations).eraseDups.IsChain (NextTo s'.view)
        ∧ (∀ n b, s'.view.readBlock n b = s.view.readBlock n b)
        ∧ (∀ n, valid n → HasValidBlocks s'.view n) ∧ WellFormed reserved s'.view s'.blockMap)
      (fun e _ => e = .noFreeSpace) s := by
  rw [main_of_testPassed hself]
  cases hfind : findContiguousFreeSpace s (size % 2 ^ 32) with
  | none =>
      rw [wp, moveLayout_of_noFreeSpace hacc.estimate_eq hfind]
  | some lo =>
      obtain ⟨area, hrange, hlo, -, hsound, hroom⟩ :=
        loop_start hopen hwf (hacc.fitsArea s) hacc.estimate_eq hfind
      have hspec := relocatePairs_spec hsound hroom
      have hsteady := steady_relocatePairs area.range hvalid (s.startAt lo) ⟨hdep.faults, hdep.inodes⟩
      rw [wp, moveLayout_of_found hacc.estimate_eq hfind, ← hrange]
      unfold wp at hspec hsteady
      split at hspec
      next s' hrun =>
        rw [hrun] at hsteady ⊢
        have htrack := hspec.2
        unfold Room at hroom
        rw [walkPlaces_eq_groupWalk hbelow] at htrack hroom
        have hdata : ∀ q ∈ layoutPairs relocations, Unsettled area.lo area.hi
            (track (s.startAt lo).view (s.startAt lo)).addr (dataPlace g q) := by
          intro q hq
          have hne := hholes q hq
          rw [dataBlock_eq (hbelow q hq)] at hne
          exact ⟨hne, hsound.ref_outside hlo.symm hne⟩
        have hchain := (isChain_follows (grouped_places hbelow) hdata hsound.lo_le hroom).1
        rw [← htrack] at hchain
        refine ⟨hchain.imp_of_mem_imp fun q q' hq hq' hf => ?_, hspec.1.reads, hsteady.2.inodes, hspec.1.wf⟩
        have hbq := hbelow q (List.mem_eraseDups.mp hq)
        have hbq' := hbelow q' (List.mem_eraseDups.mp hq')
        have hlen := length_indirectPlaces_le (g := g) q'
        have hle : s'.view.ref (dataPlace g q')
            ≤ s'.view.ref (dataPlace g q) + (indirectPlaces g q').length + 1 := hf.le
        show dataBlock s'.view q < dataBlock s'.view q' ∧ dataBlock s'.view q' ≤ dataBlock s'.view q + 3
        rw [dataBlock_eq hbq, dataBlock_eq hbq']
        exact ⟨hf.lt, by omega⟩
      next e s' hrun =>
        -- the loop only exits from a failed access
        rw [hrun] at hsteady
        obtain ⟨_, _, _, _, _, _, _, hexit⟩ := hspec
        exact Bool.noConfusion (hexit.fault.symm.trans hsteady)

/-! ## §3 — the pairs of the script and those of the relocations -/

/-- The reader of the layout and the filesystem agree: an inode that cannot be read has no blocks, and no
file has blocks behind its end. -/
structure SizesMatch (env : LayoutEnv) (v : View g) : Prop where
  unread : ∀ n, env.readInode n = none → ∀ offset, dataBlock v (n, offset) = 0
  size_lt : ∀ n inode, env.readInode n = some inode → fileBlocks g inode < 2 ^ 32
  tail : ∀ n inode, env.readInode n = some inode → ∀ offset, fileBlocks g inode ≤ offset →
    dataBlock v (n, offset) = 0

section Pairs

variable {env : LayoutEnv} {v : View g}

/-- A hole or a block, before and after. -/
theorem dataBlock_eq_zero_iff {v' : View g} (h : ∀ n b, v'.readBlock n b = v.readBlock n b) (q : ℕ × ℕ) :
    dataBlock v' q = 0 ↔ dataBlock v q = 0 := by
  have hnone : ∀ v : View g, dataBlock v q = 0 ↔ v.readBlock q.1 q.2 = none := by
    intro v
    unfold dataBlock View.readBlock
    cases (offsetPlace q.1 q.2 : Option (Place g)) with
    | none => exact ⟨fun _ => rfl, fun _ => rfl⟩
    | some p =>
        rw [Option.bind_some]
        by_cases hp : v.ref p = 0
        · rw [if_pos hp]
          exact ⟨fun _ => rfl, fun _ => hp⟩
        · rw [if_neg hp]
          exact ⟨fun h0 => absurd h0 hp, fun h0 => absurd h0 (Option.some_ne_none _)⟩
  rw [hnone, hnone, h]

/-- A filter that keeps an initial part of a range. -/
theorem filter_map_range {α : Type*} {count m : ℕ} (f : ℕ → α) (keep : α → Bool) (hm : m ≤ count)
    (hbelow : ∀ i, i < m → keep (f i) = true) (habove : ∀ i, m ≤ i → keep (f i) = false) :
    ((List.range count).map f).filter keep = (List.range m).map f := by
  obtain ⟨k, rfl⟩ := Nat.exists_eq_add_of_le hm
  rw [List.range_add, List.map_append, List.filter_append, List.filter_eq_self.mpr, List.filter_eq_nil_iff.mpr,
    List.append_nil]
  · intro a ha
    obtain ⟨i, hi, rfl⟩ := List.mem_map.mp ha
    obtain ⟨j, -, rfl⟩ := List.mem_map.mp hi
    rw [habove _ (Nat.le_add_right m j)]
    exact Bool.false_ne_true
  · intro a ha
    obtain ⟨i, hi, rfl⟩ := List.mem_map.mp ha
    exact hbelow i (List.mem_range.mp hi)

/-- Of the pairs of a line, those that have blocks are those of its relocation. -/
theorem linePairs_filter (hsizes : SizesMatch env v) {n start length : ℕ}
    (hrange : InRange32 (pageToBlocksFactor g env) ⟨n, start, length⟩)
    (hholes : ∀ r, lineRelocation g env n start length = some r → ∀ q ∈ relocationPairs r, dataBlock v q ≠ 0) :
    (linePairs g env n start length).filter (dataBlock v · ≠ 0)
      = (lineRelocation g env n start length).toList.flatMap relocationPairs := by
  have hwrap := hrange.bounds.2
  unfold linePairs
  unfold lineRelocation at hholes ⊢
  generalize pageToBlocksFactor g env = factor at hwrap hholes ⊢
  rw [Nat.add_mul] at hwrap
  by_cases hreserved : n < env.firstIno
  · rw [if_pos hreserved, if_pos hreserved]
    rfl
  rw [if_neg hreserved] at hholes ⊢
  rw [if_neg hreserved]
  have hnil : (∀ i, dataBlock v (n, start * factor + i) = 0) →
      ((List.range (length * factor)).map fun i => (n, start * factor + i)).filter (dataBlock v · ≠ 0)
        = [] := by
    intro hzero
    exact filter_map_range _ _ (Nat.zero_le _) (fun i hi => absurd hi (Nat.not_lt_zero i)) fun i _ => by
      simp [hzero i]
  cases hinode : env.readInode n with
  | none =>
      rw [hnil fun i => hsizes.unread n hinode _]
      rfl
  | some inode =>
      rw [hinode] at hholes
      dsimp only at hholes ⊢
      have hsize : fileSizeInBlocks g inode = fileBlocks g inode :=
        Nat.mod_eq_of_lt (hsizes.size_lt n inode hinode)
      by_cases hend : fileSizeInBlocks g inode ≤ start * factor
      · rw [if_pos hend, hnil fun i => hsizes.tail n inode hinode _ (by omega)]
        rfl
      · rw [if_neg hend] at hholes ⊢
        have hr := hholes _ rfl
        have hpairs : relocationPairs ⟨n, start * factor,
              min (length * factor) (fileSizeInBlocks g inode - start * factor)⟩
            = (List.range (min (length * factor) (fileSizeInBlocks g inode - start * factor))).map
                fun i => (n, start * factor + i) := by
          unfold relocationPairs
          refine List.map_congr_left fun i hi => ?_
          have hlt := List.mem_range.mp hi
          dsimp only at hlt ⊢
          rw [Nat.mod_eq_of_lt (by omega)]
        rw [hpairs] at hr
        rw [Option.toList_some, List.flatMap_singleton, hpairs]
        by_cases hcut : length * factor ≤ fileSizeInBlocks g inode - start * factor
        · -- the range ends in the file
          rw [Nat.min_eq_left hcut] at hr ⊢
          rw [List.filter_eq_self]
          intro q hq
          exact decide_eq_true (hr q hq)
        · rw [Nat.min_eq_right (by omega)] at hr ⊢
          refine filter_map_range _ _ (by omega) (fun i hi => ?_) fun i hi => ?_
          · exact decide_eq_true (hr _ (List.mem_map_of_mem (List.mem_range.mpr hi)))
          · have hzero := hsizes.tail n inode hinode (start * factor + i) (by omega)
            exact decide_eq_false (not_not.mpr hzero)

/-- **The pairs that have blocks** are those of the relocations. -/
theorem chunkPairs_filter (hsizes : SizesMatch env v) {chunk : List LayoutLine}
    (hchunk : ∀ e ∈ chunk, InRange32 (pageToBlocksFactor g env) e)
    (hholes : ∀ q ∈ layoutPairs (chunkRelocations g env chunk), dataBlock v q ≠ 0) :
    (chunkPairs g env chunk).filter (dataBlock v · ≠ 0) = layoutPairs (chunkRelocations g env chunk) := by
  induction chunk with
  | nil => rfl
  | cons e chunk ih =>
      have hpairs : layoutPairs (chunkRelocations g env (e :: chunk))
          = (lineRelocation g env e.inode.toNat e.start.toNat e.length.toNat).toList.flatMap relocationPairs
            ++ layoutPairs (chunkRelocations g env chunk) := by
        unfold chunkRelocations layoutPairs
        rw [List.filterMap_cons]
        cases lineRelocation g env e.inode.toNat e.start.toNat e.length.toNat with
        | none => rfl
        | some r => rw [Option.toList_some, List.flatMap_singleton, List.flatMap_cons]
      rw [hpairs] at hholes ⊢
      have hrest := ih (fun e he => hchunk e (List.mem_cons_of_mem _ he))
        fun q hq => hholes q (List.mem_append_right _ hq)
      obtain ⟨n, start, length, rfl⟩ := (hchunk e List.mem_cons_self).exists_nat
      have hline := linePairs_filter hsizes (hchunk _ List.mem_cons_self) fun r hr q hq =>
        hholes q (List.mem_append_left _ (by
          show q ∈ (lineRelocation g env n start length).toList.flatMap relocationPairs
          rw [hr]
          simpa using hq))
      rw [chunkPairs, List.flatMap_cons, List.filter_append]
      exact congrArg₂ (· ++ ·) hline hrest

end Pairs

/-! ## §4 — `optimize_fs` -/

/-- The status `main` exits with, as the shell sees it; `permanent_assert` aborts. -/
def exitStatus : ExitReason → ℕ
  | .failedAssertion => 134
  | .noFreeSpace => 4
  | _ => 10

/-- `e2moveblocks` on a layout file and an opened filesystem: the status and what it leaves behind. The
self-test comes before the layout file is read. -/
def e2moveblocks (env : LayoutEnv) (memory : Bool) (layoutFile : Option (List Char)) (s : RunState g) :
    ℕ × RunState g :=
  if testEstimateBlocksForRange g = false then (exitStatus .failedAssertion, s)
  else
    match processLayoutList g env memory layoutFile with
    | .failedAssertion => (exitStatus .failedAssertion, s)
    | .returned value layout =>
        if value = 0 then (5, s)
        else
          match moveLayout layout.relocations s with
          | .ok _ s' => (0, s')
          | .error e s' => (exitStatus e, s')

/-- `optimize_fs`; false is `failure`. -/
def optimizeFs (lib : Ext2fs g) (env : LayoutEnv) (layoutFile : List Char) (s : RunState g) : Bool :=
  let moved := e2moveblocks env true (some layoutFile) s
  if moved.1 = 4 then true
  else if moved.1 ≠ 0 then false
  else verifyLayout (verifyEnv lib moved.2.view env) layoutFile = .verified

/-- A layout `split-prefetch-trace.py` has written that the tool can follow: its self-test passes, page and
block sizes are compatible, no range wraps, but for the reserved ones its inodes have valid blocks, there is
memory for all relocations, and their blocks are there, below the triple-indirect region and few enough. -/
structure Followable (env : LayoutEnv) (v : View g) (chunk : List LayoutLine) : Prop where
  selfTest : testEstimateBlocksForRange g = true
  read : LinesRead g env true
  factor_pos : 0 < pageToBlocksFactor g env
  ranges : ∀ e ∈ chunk, InRange32 (pageToBlocksFactor g env) e
  inodes : ∀ e ∈ chunk, env.firstIno ≤ e.inode.toNat → HasValidBlocks v e.inode.toNat
  memory : (chunkRelocations g env chunk).length ≤ memoryForRelocations
  size : ∀ size, estimatedBlockSize g (chunkRelocations g env chunk) = some size → size < 2 ^ 32
  below : ∀ q ∈ layoutPairs (chunkRelocations g env chunk), BelowTriple g q
  holes : ∀ q ∈ layoutPairs (chunkRelocations g env chunk), dataBlock v q ≠ 0

section OptimizeFs

variable {lib : Ext2fs g} {env : LayoutEnv} {v : View g} {chunk : List LayoutLine}

theorem lineRelocation_noWrap {n start length : ℕ} {r : Relocation}
    (hrange : InRange32 (pageToBlocksFactor g env) ⟨n, start, length⟩)
    (h : lineRelocation g env n start length = some r) : r.blockOffset + r.blocksCount < 2 ^ 32 := by
  have hwrap := hrange.bounds.2
  rw [Nat.add_mul] at hwrap
  unfold lineRelocation at h
  split_ifs at h
  split at h
  · cases h
  · split_ifs at h
    cases h
    show start * pageToBlocksFactor g env + min (length * pageToBlocksFactor g env) _ < 2 ^ 32
    omega

/-- What `process_layout_list` makes of the layout. -/
theorem Followable.processed (h : Followable env v chunk) : ∃ size,
    processLayoutList g env true (some (layoutText chunk)) = .returned 1 ⟨chunkRelocations g env chunk, size⟩
      ∧ Accepted g (chunkRelocations g env chunk) size := by
  have hnoWrap : ∀ r ∈ chunkRelocations g env chunk, r.blockOffset + r.blocksCount < 2 ^ 32 := by
    intro r hr
    obtain ⟨e, he, hline⟩ := List.mem_filterMap.mp hr
    obtain ⟨n, start, length, rfl⟩ := (h.ranges e he).exists_nat
    exact lineRelocation_noWrap (h.ranges _ he) hline
  obtain ⟨size, hsize⟩ := Option.isSome_iff_exists.mp (estimatedBlockSize_isSome (g := g) hnoWrap)
  refine ⟨size, ?_, hnoWrap, hsize, h.size size hsize⟩
  have hrequests := requests_layoutText h.factor_pos h.ranges
  have hmemory : (requests g env (layoutLines (layoutText chunk))).length ≤ memoryForRelocations := by
    rw [← List.length_map (f := Request.cutDown), hrequests]
    exact h.memory
  rw [processLayoutList, if_neg (by decide), if_neg (not_not.mpr h.read.2), layoutLoop_eq, List.length_nil,
    Nat.sub_zero, List.take_of_length_le hmemory, hrequests]
  unfold recordAll
  rw [hsize]
  show LayoutOutcome.returned 1 ⟨[] ++ _, 0 + size⟩ = _
  rw [List.nil_append, Nat.zero_add]

theorem e2moveblocks_of_layout {memory : Bool} {layoutFile : Option (List Char)} {s : RunState g} {value : ℕ}
    {layout : Layout} (hvalue : value ≠ 0)
    (hlayout : processLayoutList g env memory layoutFile = .returned value layout) :
    e2moveblocks env memory layoutFile s
      = match main layout.relocations s with
        | .ok _ s' => (0, s')
        | .error e s' => (exitStatus e, s') := by
  unfold e2moveblocks
  cases hself : testEstimateBlocksForRange g with
  | false =>
      rw [main_of_testFailed hself]
      exact if_pos rfl
  | true =>
      rw [main_of_testPassed hself, if_neg (by decide), hlayout]
      exact if_neg hvalue

/-- Only inodes with valid blocks have blocks. -/
theorem hasValidBlocks_of_dataBlock {q : ℕ × ℕ} (h : dataBlock v q ≠ 0) : HasValidBlocks v q.1 := by
  obtain ⟨p, -, hn, -, href⟩ := exists_place_of_dataBlock h
  have htop : ∀ path : List (Fin g.addrPerBlock), path.foldl v.deref 0 = 0 := by
    intro path
    induction path with
    | nil => rfl
    | cons i path ih => exact ih
  have hword : v.topWord p.inodeNumber p.slot ≠ 0 := fun hzero => h (by
    rw [← href, View.ref, hzero]
    exact htop p.path)
  unfold View.topWord at hword
  rw [hn] at hword
  split at hword
  next => exact absurd rfl hword
  next inode hinode =>
    split_ifs at hword with hvalid
    · exact ⟨inode, hinode, hvalid⟩
    · exact absurd rfl hword

/-- **`optimize_fs` passes.** On a well-formed filesystem whose device makes no errors, and a layout that can
be followed, `e2moveblocks` finds no room or succeeds, and then `verifyfslayout.py` verifies the layout. -/
theorem optimizeFs_passes (hlib : lib.Documented) {reserved : Set ℕ} {s : RunState g} (hopen : s.Opened)
    (hwf : WellFormed reserved s.view s.blockMap) (hfaults : ∀ n, s.faults n = false)
    (hsizes : SizesMatch env s.view) (hlayout : Followable env s.view chunk) :
    optimizeFs lib env (layoutText chunk) s = true := by
  obtain ⟨size, hprocess, hacc⟩ := hlayout.processed
  have hvalid : ∀ q ∈ layoutPairs (chunkRelocations g env chunk), HasValidBlocks s.view q.1 :=
    fun q hq => hasValidBlocks_of_dataBlock (hlayout.holes q hq)
  have hdep : Dependable (HasValidBlocks s.view) s := ⟨hfaults, fun _ h => h⟩
  have hrun := main_on_dependable hlayout.selfTest hopen hwf hacc hlayout.below hlayout.holes hdep hvalid
  unfold optimizeFs
  rw [e2moveblocks_of_layout Nat.one_ne_zero hprocess]
  unfold wp at hrun
  split at hrun
  next s' hmain =>
    obtain ⟨hchain, hreads, hkept, hwf'⟩ := hrun
    rw [hmain]
    dsimp only
    have hfiles : LinesTraversable s'.view env chunk := fun e he hfirst =>
      hwf'.traversable (hkept _ (hlayout.inodes e he hfirst))
    obtain ⟨t, hstate, heq⟩ := verifyLayout_eq hlib hlayout.ranges hfiles
    rw [if_neg (by decide), if_neg (by decide), decide_eq_true_iff, heq]
    refine if_pos (hstate.compareBlocks_iff.mpr ?_)
    have hzero := dataBlock_eq_zero_iff hreads
    have hkeep : (fun q => decide (dataBlock s'.view q ≠ 0)) = fun q => decide (dataBlock s.view q ≠ 0) := by
      funext q
      exact decide_eq_decide.mpr (not_congr (hzero q))
    rw [hkeep, Distinct.filter_eraseDups, chunkPairs_filter hsizes hlayout.ranges hlayout.holes]
    refine hchain.imp fun q q' hnext => ?_
    obtain ⟨hlt, hle⟩ := hnext
    exact ⟨hlt.le, by omega⟩
  next e s' hmain =>
    subst hrun
    rw [hmain]
    exact if_pos rfl

/-! ### The small filesystem -/

theorem sampleDisk_dataBlock {q : ℕ × ℕ} (h : dataBlock sampleDisk.view q ≠ 0) :
    q ∈ layoutPairs sampleLayout := by
  obtain ⟨p, hdata, hinode, hfirst, href⟩ := exists_place_of_dataBlock h
  have hq : q = (p.inodeNumber, p.first) := Prod.ext hinode.symm hfirst.symm
  rw [← href, sample_ref] at h
  split_ifs at h with h0 h1 h2 h3 h12 hword
  · rw [hq, h0]
    decide
  · rw [hq, h1]
    decide
  · rw [hq, h2]
    decide
  · rw [hq, h3]
    decide
  · subst h12
    exact absurd hdata (by unfold Place.IsData; decide)
  · rw [hq, hword]
    decide
  · exact absurd rfl h

/-- These are blocks of inode 11, below offset 13. -/
theorem sampleLayout_pairs : ∀ q ∈ layoutPairs sampleLayout, q.1 = 11 ∧ q.2 < 13 := by decide

theorem sampleEnv_sizes : SizesMatch sampleEnv sampleDisk.view where
  unread n hn offset := by
    by_contra h
    obtain ⟨rfl, -⟩ := sampleLayout_pairs _ (sampleDisk_dataBlock h)
    cases hn
  size_lt n inode hinode := by
    have h : (if n = 11 then some ⟨true, 13312, 0⟩ else none) = some inode := hinode
    split_ifs at h
    cases h
    decide
  tail n inode hinode offset hoffset := by
    have h : (if n = 11 then some ⟨true, 13312, 0⟩ else none) = some inode := hinode
    split_ifs at h
    cases h
    have hsize : 13 ≤ offset := hoffset
    by_contra hne
    have hlt : offset < 13 := (sampleLayout_pairs _ (sampleDisk_dataBlock hne)).2
    omega

theorem sampleChunk_relocations : chunkRelocations sampleGeometry sampleEnv sampleChunk = sampleLayout := by
  decide

theorem sampleChunk_followable : Followable sampleEnv sampleDisk.view sampleChunk where
  selfTest := sample_testPassed
  read := ⟨rfl, by decide⟩
  factor_pos := by decide
  ranges := sampleChunk_ranges
  inodes e he hfirst := (sampleChunk_traversable e he hfirst).valid
  memory := by decide
  size size hsize := by
    rw [sampleChunk_relocations, sample_accepted.estimate_eq] at hsize
    cases hsize
    decide
  below := by unfold BelowTriple; decide
  holes := by decide

theorem optimizeFs_passes_sample :
    optimizeFs (documentedExt2fs sampleGeometry) sampleEnv (layoutText sampleChunk) (sampleState fun _ => false)
      = true :=
  optimizeFs_passes documentedExt2fs_documented (sampleState_opened _) (sample_wellFormed _) (fun _ => rfl)
    sampleEnv_sizes sampleChunk_followable

end OptimizeFs

end Prefetch.MoveBlocks

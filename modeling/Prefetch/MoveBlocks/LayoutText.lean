/-
# Prefetch.MoveBlocks.LayoutText — a layout of split-prefetch-trace.py, read by e2moveblocks

`process_layout_list` reads the lines `split-prefetch-trace.py` writes for a device: what it asks for is
the range of each line, in blocks, of an inode that is not reserved and that can be read.
-/
import Prefetch.MoveBlocks.LayoutList
import Prefetch.Trace.NumberText

namespace Prefetch.MoveBlocks

open Fields (IsWord)
open SplitTrace (str LayoutLine OneLine layoutText)

variable {g : Geometry}

/-! ## §1 — numbers as C reads them -/

/-- `atol` reads back the text of a number. -/
theorem atol_str {z : ℤ} (h : -2 ^ 63 ≤ z) (h' : z < 2 ^ 63) : atol (str z) = z := by
  unfold atol str
  rw [Scan.number_printInt_end]
  dsimp only
  omega

/-! ## §2 — the lines of a layout -/

/-- A line with an inode number and a range that fit, so many blocks being a page. -/
structure InRange32 (factor : ℕ) (e : LayoutLine) : Prop where
  inode_nonneg : 0 ≤ e.inode
  inode_lt : e.inode < 2 ^ 31
  start_nonneg : 0 ≤ e.start
  length_nonneg : 0 ≤ e.length
  noWrap : (e.start + e.length) * factor < 2 ^ 32

namespace InRange32

variable {factor : ℕ} {e : LayoutLine}

theorem exists_nat (h : InRange32 factor e) : ∃ n start length : ℕ, e = ⟨n, start, length⟩ := by
  refine ⟨e.inode.toNat, e.start.toNat, e.length.toNat, ?_⟩
  rw [Int.toNat_of_nonneg h.inode_nonneg, Int.toNat_of_nonneg h.start_nonneg,
    Int.toNat_of_nonneg h.length_nonneg]

end InRange32

theorem length_str_le {n k : ℕ} (hk : 0 < k) (h : n < 10 ^ k) : (str n).length ≤ k :=
  (Nat.length_toDigits_le_iff (by decide) hk).mpr h

section Line

variable {n start length factor : ℕ}

theorem InRange32.bounds (h : InRange32 factor ⟨n, start, length⟩) :
    n < 2 ^ 31 ∧ (start + length) * factor < 2 ^ 32 := by
  have hn : (n : ℤ) < 2 ^ 31 := h.inode_lt
  have hwrap : ((start : ℤ) + length) * factor < 2 ^ 32 := h.noWrap
  exact ⟨by omega, by exact_mod_cast hwrap⟩

/-- A line is shorter than the buffer. -/
theorem InRange32.length_body_lt (h : InRange32 factor ⟨n, start, length⟩) (hfactor : 0 < factor) :
    (LayoutLine.body ⟨n, start, length⟩).length + 1 < bufSize := by
  obtain ⟨hn, hwrap⟩ := h.bounds
  have hsum : start + length < 2 ^ 32 := (Nat.le_mul_of_pos_right _ hfactor).trans_lt hwrap
  have hlen₁ := length_str_le (n := n) (k := 10) (by decide) (by omega)
  have hlen₂ := length_str_le (n := start) (k := 10) (by decide) (by omega)
  have hlen₃ := length_str_le (n := length) (k := 10) (by decide) (by omega)
  show (str n ++ ' ' :: (str start ++ ' ' :: str length)).length + 1 < 1024
  rw [List.length_append, List.length_cons, List.length_append, List.length_cons]
  omega

theorem nul_not_mem_str (z : ℤ) : '\x00' ∉ str z := by
  have hword : IsWord (fun c => c = '\x00') (str z) := Scan.isWord_printInt (fun c hc => by
    rw [decide_eq_false_iff_not]
    rintro rfl
    exact absurd hc (by decide)) rfl z
  exact fun hmem => Bool.noConfusion ((hword.noSep _ hmem).symm.trans (decide_eq_true rfl))

/-- `strtok` cuts a line into its numbers. -/
theorem lineFields_format (e : LayoutLine) : lineFields e.format = [str e.inode, str e.start, str e.length] := by
  have hword : ∀ z : ℤ, IsWord (fun c => c = ' ' || c = '\t' || c = '\n') (str z) := fun z => by
    refine Scan.isWord_printInt (fun c hc => ?_) rfl z
    have hspace := Scan.isSpace_of_isDigit hc
    by_contra hsep
    simp only [Bool.not_eq_false, Bool.or_eq_true, decide_eq_true_eq] at hsep
    rcases hsep with (rfl | rfl) | rfl <;> exact absurd hspace (by decide)
  have hnul : e.format.takeWhile (· ≠ '\x00') = e.format := by
    rw [List.takeWhile_eq_self_iff]
    intro c hc
    rw [decide_eq_true_iff]
    rintro rfl
    rw [e.format_eq, LayoutLine.body] at hc
    simp only [List.mem_append, List.mem_cons, List.not_mem_nil, or_false] at hc
    rcases hc with (hc | hc | hc | hc | hc) | hc
    · exact nul_not_mem_str _ hc
    · exact absurd hc (by decide)
    · exact nul_not_mem_str _ hc
    · exact absurd hc (by decide)
    · exact nul_not_mem_str _ hc
    · exact absurd hc (by decide)
  unfold lineFields
  rw [hnul, e.format_eq, LayoutLine.body, List.append_assoc, List.cons_append, List.append_assoc,
    List.cons_append, (hword _).fields_append (by decide), (hword _).fields_append (by decide),
    (hword _).fields_append (by decide), Fields.fields_nil]

theorem toUnsigned_eq (h : n < 2 ^ 32) : toUnsigned n = n := by
  unfold toUnsigned
  omega

/-- The inode a number stands for. -/
theorem fieldInode_str (env : LayoutEnv) (h : n < 2 ^ 32) : fieldInode env (str n) = some n := by
  have hatol := atol_str (z := n) (by omega) (by omega)
  obtain ⟨c, ds, hn, hc⟩ := Fields.exists_toDigits_eq_cons n
  have hstr : str n = c :: ds := hn
  have hslash : c ≠ '/' := by
    rintro rfl
    exact absurd hc (by decide)
  rw [hstr] at hatol ⊢
  rw [fieldInode, if_neg hslash, if_pos hc, hatol, toUnsigned_eq h]

/-- The entry of a line. -/
theorem lineEntry_format (env : LayoutEnv) (h : n < 2 ^ 32) :
    lineEntry env (LayoutLine.format ⟨n, start, length⟩)
      = if n < env.firstIno then none else some ⟨n, some (str start), some (str length)⟩ := by
  have hhead : ∀ c : Char, c.isDigit = false →
      (LayoutLine.format ⟨n, start, length⟩).head? ≠ some c := by
    intro c hc heq
    obtain ⟨c', ds, hn, hc'⟩ := Fields.exists_toDigits_eq_cons n
    have hstr : str n = c' :: ds := hn
    rw [LayoutLine.format_eq, LayoutLine.body] at heq
    simp only [hstr, List.cons_append, List.head?_cons, Option.some.injEq] at heq
    rw [heq, hc] at hc'
    cases hc'
  unfold lineEntry
  rw [if_neg (by
    simp only [Bool.or_eq_true, decide_eq_true_eq, not_or]
    exact ⟨⟨hhead '#' rfl, hhead '\n' rfl⟩, hhead '\x00' rfl⟩), lineFields_format]
  dsimp only
  rw [fieldInode_str env h]
  rfl

theorem pagesToBlocks_str (env : LayoutEnv) (h : start * pageToBlocksFactor g env < 2 ^ 32)
    (hstart : start < 2 ^ 63) :
    pagesToBlocks g env (str start) = start * pageToBlocksFactor g env := by
  rw [pagesToBlocks, atol_str (by omega) (by omega)]
  exact toUnsigned_eq (by exact_mod_cast h)

end Line

variable (g) in
/-- The relocation a line of a layout asks for: of an inode that is not reserved and can be read, from an
offset below its end up to its end at most. -/
def lineRelocation (env : LayoutEnv) (n start length : ℕ) : Option Relocation :=
  if n < env.firstIno then none
  else
    match env.readInode n with
    | none => none
    | some inode =>
        if fileSizeInBlocks g inode ≤ start * pageToBlocksFactor g env then none
        else some ⟨n, start * pageToBlocksFactor g env, min (length * pageToBlocksFactor g env)
          (fileSizeInBlocks g inode - start * pageToBlocksFactor g env)⟩

/-- **The relocation of a line** is that of its range, cut down to the file. -/
theorem lineRequest_format {env : LayoutEnv} {n start length : ℕ}
    (h : InRange32 (pageToBlocksFactor g env) ⟨n, start, length⟩) (hfactor : 0 < pageToBlocksFactor g env) :
    (lineRequest g env (LayoutLine.format ⟨n, start, length⟩)).map Request.cutDown
      = lineRelocation g env n start length := by
  obtain ⟨hn, hwrap⟩ := h.bounds
  generalize hf : pageToBlocksFactor g env = factor at hwrap hfactor
  rw [Nat.add_mul] at hwrap
  have hstart : start * factor < 2 ^ 32 := by omega
  have hlength : length * factor < 2 ^ 32 := by omega
  have hstart' : start < 2 ^ 63 := (Nat.le_mul_of_pos_right _ hfactor).trans_lt (hstart.trans (by decide))
  have hlength' : length < 2 ^ 63 :=
    (Nat.le_mul_of_pos_right _ hfactor).trans_lt (hlength.trans (by decide))
  unfold lineRequest lineRelocation
  rw [lineEntry_format env (hn.trans (by decide)), hf]
  by_cases hreserved : n < env.firstIno
  · rw [if_pos hreserved, if_pos hreserved]
    rfl
  rw [if_neg hreserved, if_neg hreserved, Option.bind_some]
  unfold entryRequest
  dsimp only
  cases env.readInode n with
  | none => rfl
  | some inode =>
      dsimp only
      rw [pagesToBlocks_str env (hf.symm ▸ hstart) hstart', pagesToBlocks_str env (hf.symm ▸ hlength) hlength', hf]
      by_cases hend : fileSizeInBlocks g inode ≤ start * factor
      · rw [if_pos hend, if_pos hend]
        rfl
      · rw [if_neg hend, if_neg hend, Option.map_some]
        congr 1
        unfold Request.cutDown
        dsimp only
        rw [Nat.mod_eq_of_lt hwrap]
        split_ifs with hcut
        · rw [Nat.min_eq_right (by omega)]
        · rw [Nat.min_eq_left (by omega)]

/-- The lines of a layout are read one by one. -/
theorem layoutLines_layoutText {chunk : List LayoutLine} {factor : ℕ} (hfactor : 0 < factor)
    (h : ∀ e ∈ chunk, InRange32 factor e) : layoutLines (layoutText chunk) = chunk.map LayoutLine.format := by
  have htext : layoutText chunk = chunk.flatMap fun e => e.body ++ ['\n'] :=
    List.flatMap_congr fun e _ => e.format_eq
  have hlines : ∀ e ∈ chunk, '\n' ∉ e.body ∧ e.body.length + 1 < bufSize := by
    intro e he
    obtain ⟨n, start, length, rfl⟩ := (h e he).exists_nat
    exact ⟨LayoutLine.oneLine_body _, (h _ he).length_body_lt hfactor⟩
  unfold layoutLines
  rw [htext, Scan.linebufs_flatMap hlines (Scan.length_le_flatMap_lines _ _)]
  exact List.map_congr_left fun e _ => e.format_eq.symm

variable (g) in
/-- The relocations a layout asks for. -/
def chunkRelocations (env : LayoutEnv) (chunk : List LayoutLine) : List Relocation :=
  chunk.filterMap fun e => lineRelocation g env e.inode.toNat e.start.toNat e.length.toNat

/-- **The relocations of a layout** are those of its lines, in order. -/
theorem requests_layoutText {env : LayoutEnv} {chunk : List LayoutLine}
    (hfactor : 0 < pageToBlocksFactor g env) (h : ∀ e ∈ chunk, InRange32 (pageToBlocksFactor g env) e) :
    (requests g env (layoutLines (layoutText chunk))).map Request.cutDown = chunkRelocations g env chunk := by
  rw [layoutLines_layoutText hfactor h, requests, List.map_filterMap, List.filterMap_map]
  refine List.filterMap_congr fun e he => ?_
  obtain ⟨n, start, length, rfl⟩ := (h e he).exists_nat
  exact lineRequest_format (h _ he) hfactor

end Prefetch.MoveBlocks

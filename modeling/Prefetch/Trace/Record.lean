/-
# Prefetch.Trace.Record — the trace record shared by the kernel and the user-space tools

`prefetch_types.h` and `prefetch_core.h` declare the same record ("please keep in sync"). `unsigned
long` and `pgoff_t` are as wide as the machine word, so the record takes the width `w` as a parameter
and arithmetic on its fields wraps at `2 ^ w`, as it does in C. The comparison of records is the one
of `trace_cmp`, which both sides define alike.
-/
import Mathlib.Algebra.GroupWithZero.Nat
import Mathlib.Data.Prod.Lex
import Mathlib.Order.Defs.LinearOrder
import Mathlib.Tactic.Common

namespace Prefetch

/-- `prefetch_trace_record`: one range of pages of an inode put into the trace. -/
structure PrefetchTraceRecord (w : ℕ) where
  device : BitVec 32
  inodeNo : BitVec w
  rangeStart : BitVec w
  rangeLength : BitVec w
  deriving DecidableEq, Repr

variable {w : ℕ}

/-- `trace_cmp`: lexicographic on device, inode, start and length, the last one descending. -/
def traceCmp (r1 r2 : PrefetchTraceRecord w) : ℤ :=
  if r1.device < r2.device then -1
  else if r1.device > r2.device then 1
  else if r1.inodeNo < r2.inodeNo then -1
  else if r1.inodeNo > r2.inodeNo then 1
  else if r1.rangeStart < r2.rangeStart then -1
  else if r1.rangeStart > r2.rangeStart then 1
  -- longer range_length is preferred as we want to fetch large fragments first
  else if r1.rangeLength < r2.rangeLength then 1
  else if r1.rangeLength > r2.rangeLength then -1
  else 0

namespace PrefetchTraceRecord

/-- The file a record is about: device, then inode. -/
def file (r : PrefetchTraceRecord w) : ℕ ×ₗ ℕ := toLex (r.device.toNat, r.inodeNo.toNat)

/-- The pages of its file a record covers. -/
def pages (r : PrefetchTraceRecord w) : Set ℕ :=
  {p | r.rangeStart.toNat ≤ p ∧ p < r.rangeStart.toNat + r.rangeLength.toNat}

/-- `range_start + range_length` fits in an `unsigned long`. -/
def NoWrap (r : PrefetchTraceRecord w) : Prop := r.rangeStart.toNat + r.rangeLength.toNat < 2 ^ w

instance (r : PrefetchTraceRecord w) : Decidable r.NoWrap := by unfold NoWrap; infer_instance

theorem file_eq_iff {r s : PrefetchTraceRecord w} :
    r.file = s.file ↔ r.device = s.device ∧ r.inodeNo = s.inodeNo := by
  simp [file, ← BitVec.toNat_inj]

/-- A record not sorted after another has its file and start in order. -/
theorem file_start_of_not_traceCmp {r s : PrefetchTraceRecord w} (h : ¬ traceCmp s r < 0) :
    r.file < s.file ∨ r.file = s.file ∧ r.rangeStart.toNat ≤ s.rangeStart.toNat := by
  have hfile : r.file < s.file ↔ r.device.toNat < s.device.toNat ∨
      r.device.toNat = s.device.toNat ∧ r.inodeNo.toNat < s.inodeNo.toNat := by
    simp [file, Prod.Lex.toLex_lt_toLex]
  rw [hfile, file_eq_iff, ← BitVec.toNat_inj, ← BitVec.toNat_inj]
  simp only [traceCmp, BitVec.lt_def, gt_iff_lt] at h
  split_ifs at h <;> omega

end PrefetchTraceRecord

end Prefetch

/-
# Prefetch.Lib.Codec — fixed-width binary layouts

A `Codec α` writes a value into a fixed number of bytes and reads it back; both laws are fields, so a
layout that does not read back what it wrote cannot be built. Layouts are put together from raw bytes and
words of either byte order (§2), one after the other and carried over to the structure they lay out (§3),
and repeated through a byte string (§4).
-/
import Mathlib.Data.Nat.Digits.Defs
import Mathlib.Tactic.Common

/-- A layout of `α` in `width` bytes. -/
structure Codec (α : Type*) where
  width : ℕ
  encode : α → List UInt8
  decode : List UInt8 → α
  length_encode : ∀ a, (encode a).length = width
  decode_encode : ∀ a, decode (encode a) = a

namespace Codec

variable {α β : Type*}

attribute [simp] length_encode decode_encode

/-! ## §1 — numbers as bytes -/

/-- The last `k` digits of a number in base 256, lowest first. -/
def toBytes : ℕ → ℕ → List UInt8
  | 0, _ => []
  | k + 1, n => UInt8.ofNat n :: toBytes k (n / 256)

/-- The number with these digits in base 256, lowest first. -/
def ofBytes (bs : List UInt8) : ℕ := Nat.ofDigits 256 (bs.map UInt8.toNat)

@[simp] theorem length_toBytes (k n : ℕ) : (toBytes k n).length = k := by
  induction k generalizing n with
  | zero => rfl
  | succ k ih => simp [toBytes, ih]

theorem ofBytes_toBytes (k n : ℕ) : ofBytes (toBytes k n) = n % 256 ^ k := by
  induction k generalizing n with
  | zero => simp [ofBytes, toBytes, Nat.mod_one]
  | succ k ih =>
      have htail : Nat.ofDigits 256 ((toBytes k (n / 256)).map UInt8.toNat) = n / 256 % 256 ^ k :=
        ih (n / 256)
      have hbyte : (UInt8.ofNat n).toNat = n % 256 := by simp
      show Nat.ofDigits 256 ((UInt8.ofNat n :: toBytes k (n / 256)).map UInt8.toNat) = _
      rw [List.map_cons, Nat.ofDigits_cons, htail, hbyte, Nat.pow_succ', Nat.mod_mul]

/-! ## §2 — raw bytes and words -/

/-- `k` raw bytes. -/
def bytes (k : ℕ) : Codec (Fin k → UInt8) where
  width := k
  encode := List.ofFn
  decode bs := fun i => bs.getD i 0
  length_encode _ := List.length_ofFn
  decode_encode a := by
    funext i
    simp

/-- The order in which the bytes of a word stand in memory. -/
inductive Endian where
  | little
  | big
  deriving DecidableEq, Repr

/-- The bytes of a word, lowest first, brought into the order of memory, and back. -/
def Endian.arrange : Endian → List UInt8 → List UInt8
  | .little, bs => bs
  | .big, bs => bs.reverse

@[simp] theorem Endian.length_arrange (e : Endian) (bs : List UInt8) :
    (e.arrange bs).length = bs.length := by
  cases e
  · rfl
  · exact List.length_reverse

@[simp] theorem Endian.arrange_arrange (e : Endian) (bs : List UInt8) :
    e.arrange (e.arrange bs) = bs := by
  cases e
  · rfl
  · exact List.reverse_reverse bs

/-- A word of `k` bytes. -/
def word (e : Endian) (k : ℕ) : Codec (BitVec (8 * k)) where
  width := k
  encode v := e.arrange (toBytes k v.toNat)
  decode bs := BitVec.ofNat (8 * k) (ofBytes (e.arrange bs))
  length_encode _ := by simp
  decode_encode v := by
    have hpow : (256 : ℕ) ^ k = 2 ^ (8 * k) := by
      rw [pow_mul]
      norm_num
    apply BitVec.eq_of_toNat_eq
    rw [Endian.arrange_arrange, ofBytes_toBytes, BitVec.toNat_ofNat, hpow, Nat.mod_mod,
      Nat.mod_eq_of_lt v.isLt]

/-! ## §3 — fields one after the other -/

/-- One field and then the other. -/
def pair (c : Codec α) (d : Codec β) : Codec (α × β) where
  width := c.width + d.width
  encode a := c.encode a.1 ++ d.encode a.2
  decode bs := (c.decode (bs.take c.width), d.decode ((bs.drop c.width).take d.width))
  length_encode a := by simp
  decode_encode a := by
    have htake : (c.encode a.1 ++ d.encode a.2).take c.width = c.encode a.1 :=
      List.take_left' (c.length_encode a.1)
    have hdrop : (c.encode a.1 ++ d.encode a.2).drop c.width = d.encode a.2 :=
      List.drop_left' (c.length_encode a.1)
    have hall : (d.encode a.2).take d.width = d.encode a.2 :=
      List.take_of_length_le (d.length_encode a.2).le
    rw [htake, hdrop, hall, decode_encode, decode_encode]

/-- The layout of a structure that has the fields of `α`. -/
def ofEquiv (c : Codec α) (f : α ≃ β) : Codec β where
  width := c.width
  encode b := c.encode (f.symm b)
  decode bs := f (c.decode bs)
  length_encode _ := c.length_encode _
  decode_encode b := by simp

/-! ## §4 — values one after the other -/

/-- All values, one after the other. -/
def encodeAll (c : Codec α) (as : List α) : List UInt8 := as.flatMap c.encode

/-- The first `n` values of a byte string. -/
def decodeMany (c : Codec α) : ℕ → List UInt8 → List α
  | 0, _ => []
  | n + 1, bs => c.decode (bs.take c.width) :: c.decodeMany n (bs.drop c.width)

/-- A byte string as an array of values; what does not fill a last one is left out. -/
def decodeAll (c : Codec α) (bs : List UInt8) : List α := c.decodeMany (bs.length / c.width) bs

@[simp] theorem length_encodeAll (c : Codec α) (as : List α) :
    (c.encodeAll as).length = as.length * c.width := by
  induction as with
  | nil => simp [encodeAll]
  | cons a as ih =>
      show (c.encode a ++ c.encodeAll as).length = (as.length + 1) * c.width
      rw [List.length_append, c.length_encode, ih, Nat.succ_mul, Nat.add_comm]

theorem decodeMany_encodeAll (c : Codec α) (as : List α) :
    c.decodeMany as.length (c.encodeAll as) = as := by
  induction as with
  | nil => rfl
  | cons a as ih =>
      have hall : c.encodeAll (a :: as) = c.encode a ++ c.encodeAll as := rfl
      show c.decode (List.take _ _) :: c.decodeMany as.length (List.drop _ _) = _
      rw [hall, List.take_left' (c.length_encode a), List.drop_left' (c.length_encode a), ih,
        c.decode_encode]

/-- **Values written one after the other are read back as they were.** -/
theorem decodeAll_encodeAll (c : Codec α) (hw : 0 < c.width) (as : List α) :
    c.decodeAll (c.encodeAll as) = as := by
  unfold decodeAll
  rw [length_encodeAll, Nat.mul_div_cancel _ hw, decodeMany_encodeAll]

/-- A byte string of whole values holds as many as fit. -/
theorem decodeAll_of_length (c : Codec α) (hw : 0 < c.width) {bs : List UInt8} {n : ℕ}
    (h : bs.length = n * c.width) : c.decodeAll bs = c.decodeMany n bs := by
  unfold decodeAll
  rw [h, Nat.mul_div_cancel _ hw]

end Codec

import Mathlib.Algebra.Group.Nat.Defs
import Mathlib.Algebra.GroupWithZero.Nat
import Mathlib.Tactic.Common

/-! # Bit fields

The fields of a word lie next to each other, the first of them in the lowest bits. A reader
takes them off the word one after the other, by their widths.
-/

namespace NNPIHost.BitFields

/-- A value with the width of its field. -/
abbrev Field := (w : ℕ) × BitVec w

def bits {w : ℕ} (v : BitVec w) : Field := ⟨w, v⟩

/-- A field of one bit. -/
def flag (b : Bool) : Field := ⟨1, .ofBool b⟩

/-- The number whose bits are those of the fields. -/
def pack : List Field → ℕ
  | [] => 0
  | ⟨w, v⟩ :: fs => v.toNat + 2 ^ w * pack fs

/-- The lowest field, and the bits above it. -/
def take (w n : ℕ) : BitVec w × ℕ := (BitVec.ofNat w n, n / 2 ^ w)

def takeFlag (n : ℕ) : Bool × ℕ := ((take 1 n).1 == 1#1, (take 1 n).2)

def width (fs : List Field) : ℕ := (fs.map Sigma.fst).sum

/-- The word of 64 bits. -/
def word (fs : List Field) : UInt64 := .ofNat (pack fs)

@[simp] theorem width_nil : width [] = 0 := rfl

@[simp] theorem width_bits {w : ℕ} (v : BitVec w) (fs : List Field) :
    width (bits v :: fs) = w + width fs := rfl

@[simp] theorem width_flag (b : Bool) (fs : List Field) : width (flag b :: fs) = 1 + width fs := rfl

@[simp] theorem take_pack {w : ℕ} (v : BitVec w) (fs : List Field) :
    take w (pack (bits v :: fs)) = (v, pack fs) := by
  have hdiv : (v.toNat + 2 ^ w * pack fs) / 2 ^ w = pack fs := by
    rw [Nat.add_mul_div_left _ _ (Nat.two_pow_pos w), Nat.div_eq_of_lt v.isLt, Nat.zero_add]
  rw [take, bits, pack, hdiv, Prod.mk.injEq]
  constructor
  · apply BitVec.eq_of_toNat_eq
    rw [BitVec.toNat_ofNat, Nat.add_mul_mod_self_left, Nat.mod_eq_of_lt v.isLt]
  · rfl

@[simp] theorem takeFlag_pack (b : Bool) (fs : List Field) :
    takeFlag (pack (flag b :: fs)) = (b, pack fs) := by
  have htake : take 1 (pack (flag b :: fs)) = (.ofBool b, pack fs) := take_pack _ fs
  rw [takeFlag, htake]
  cases b <;> rfl

theorem pack_lt (fs : List Field) : pack fs < 2 ^ width fs := by
  induction fs with
  | nil => exact Nat.one_pos
  | cons f fs ih =>
    obtain ⟨w, v⟩ := f
    have hv := v.isLt
    have hle : 2 ^ w * (pack fs + 1) ≤ 2 ^ w * 2 ^ width fs := Nat.mul_le_mul_left _ ih
    rw [Nat.mul_succ] at hle
    simp only [pack, width, List.map_cons, List.sum_cons, Nat.pow_add] at hle ⊢
    omega

@[simp] theorem toNat_word {fs : List Field} (h : width fs ≤ 64) : (word fs).toNat = pack fs :=
  UInt64.toNat_ofNat_of_lt' (Nat.lt_of_lt_of_le (pack_lt fs) (Nat.pow_le_pow_right (by decide) h))

end NNPIHost.BitFields

import Mathlib.Algebra.Group.Nat.Defs
import Mathlib.Data.List.Basic
import Mathlib.Tactic.Common

/-! # Sequential codecs

A codec writes a value as bytes and reads it back from the front of a longer input. Words
are little-endian. A stream is a sequence of encoded values up to the end of the input.
-/

namespace NNPIHost

variable {α β : Type*}

/-- A writer and a reader of values, with the values that fit the format. -/
structure Codec (α : Type*) where
  encode : α → List UInt8
  decode : List UInt8 → Option (α × List UInt8)
  Fits : α → Prop
  decode_encode : ∀ {a}, Fits a → ∀ rest, decode (encode a ++ rest) = some (a, rest)

namespace Codec

/-- The bytes of a number, least significant first. -/
def le : ℕ → ℕ → List UInt8
  | 0, _ => []
  | w + 1, v => UInt8.ofNat v :: le w (v / 256)

def readLe : ℕ → List UInt8 → Option (ℕ × List UInt8)
  | 0, bs => some (0, bs)
  | _ + 1, [] => none
  | w + 1, b :: bs => (readLe w bs).map fun (v, rest) => (b.toNat + 256 * v, rest)

@[simp] theorem length_le (w v : ℕ) : (le w v).length = w := by
  induction w generalizing v with
  | zero => rfl
  | succ w ih => simp [le, ih]

theorem readLe_le {w v : ℕ} (h : v < 256 ^ w) (rest : List UInt8) :
    readLe w (le w v ++ rest) = some (v, rest) := by
  induction w generalizing v with
  | zero =>
    obtain rfl : v = 0 := by omega
    rfl
  | succ w ih =>
    have hdiv : v / 256 < 256 ^ w := by rw [Nat.pow_succ] at h; omega
    simp only [le, List.cons_append, readLe, ih hdiv, Option.map_some, UInt8.toNat_ofNat']
    rw [Nat.mod_add_div]

/-- A word of `w` bytes, for a type that embeds in the numbers below `256 ^ w`. -/
def word (w : ℕ) (toNat : α → ℕ) (ofNat : ℕ → α) (hlt : ∀ a, toNat a < 256 ^ w)
    (hinv : ∀ a, ofNat (toNat a) = a) : Codec α where
  encode a := le w (toNat a)
  decode bs := (readLe w bs).map fun (v, rest) => (ofNat v, rest)
  Fits _ := True
  decode_encode _ rest := by simp [readLe_le (hlt _), hinv]

def u8 : Codec UInt8 :=
  word 1 UInt8.toNat UInt8.ofNat (fun a => a.toNat_lt) fun _ => UInt8.ofNat_toNat

def u16 : Codec UInt16 :=
  word 2 UInt16.toNat UInt16.ofNat (fun a => a.toNat_lt) fun _ => UInt16.ofNat_toNat

def u32 : Codec UInt32 :=
  word 4 UInt32.toNat UInt32.ofNat (fun a => a.toNat_lt) fun _ => UInt32.ofNat_toNat

def u64 : Codec UInt64 :=
  word 8 UInt64.toNat UInt64.ofNat (fun a => a.toNat_lt) fun _ => UInt64.ofNat_toNat

/-- A byte that is zero or one. -/
def bool : Codec Bool :=
  word 1 Bool.toNat (· != 0) (fun b => by cases b <;> decide) fun b => by cases b <;> rfl

@[simp] theorem length_u8 (a : UInt8) : (u8.encode a).length = 1 := length_le _ _
@[simp] theorem length_u16 (a : UInt16) : (u16.encode a).length = 2 := length_le _ _
@[simp] theorem length_u32 (a : UInt32) : (u32.encode a).length = 4 := length_le _ _
@[simp] theorem length_u64 (a : UInt64) : (u64.encode a).length = 8 := length_le _ _
@[simp] theorem length_bool (b : Bool) : (bool.encode b).length = 1 := length_le _ _

@[simp] theorem decode_u8 (a : UInt8) (rest : List UInt8) :
    u8.decode (u8.encode a ++ rest) = some (a, rest) := u8.decode_encode trivial rest

@[simp] theorem decode_u16 (a : UInt16) (rest : List UInt8) :
    u16.decode (u16.encode a ++ rest) = some (a, rest) := u16.decode_encode trivial rest

@[simp] theorem decode_u32 (a : UInt32) (rest : List UInt8) :
    u32.decode (u32.encode a ++ rest) = some (a, rest) := u32.decode_encode trivial rest

@[simp] theorem decode_u64 (a : UInt64) (rest : List UInt8) :
    u64.decode (u64.encode a ++ rest) = some (a, rest) := u64.decode_encode trivial rest

@[simp] theorem decode_bool (b : Bool) (rest : List UInt8) :
    bool.decode (bool.encode b ++ rest) = some (b, rest) := bool.decode_encode trivial rest

/-- Read a given number of values. -/
def decodeN (c : Codec α) : ℕ → List UInt8 → Option (List α × List UInt8)
  | 0, bs => some ([], bs)
  | n + 1, bs => do
      let (a, bs) ← c.decode bs
      let (as, bs) ← decodeN c n bs
      return (a :: as, bs)

/-- Read values up to the end of the input; the number bounds how many there can be. -/
def decodeAll (c : Codec α) : ℕ → List UInt8 → Option (List α)
  | _, [] => some []
  | 0, _ :: _ => none
  | n + 1, b :: bs => do
      let (a, rest) ← c.decode (b :: bs)
      let as ← decodeAll c n rest
      return a :: as

variable {c : Codec α} {as : List α}

theorem decodeN_flatMap (h : ∀ a ∈ as, c.Fits a) (rest : List UInt8) :
    c.decodeN as.length (as.flatMap c.encode ++ rest) = some (as, rest) := by
  induction as with
  | nil => rfl
  | cons a as ih =>
    obtain ⟨ha, has⟩ := List.forall_mem_cons.mp h
    simp [decodeN, c.decode_encode ha, ih has]

theorem decodeAll_flatMap (hne : ∀ a ∈ as, c.encode a ≠ []) (h : ∀ a ∈ as, c.Fits a) {n : ℕ}
    (hn : (as.flatMap c.encode).length ≤ n) : c.decodeAll n (as.flatMap c.encode) = some as := by
  induction as generalizing n with
  | nil => cases n <;> rfl
  | cons a as ih =>
    obtain ⟨hnea, hne⟩ := List.forall_mem_cons.mp hne
    obtain ⟨ha, has⟩ := List.forall_mem_cons.mp h
    rw [List.flatMap_cons, List.length_append] at hn
    cases hbs : c.encode a with
    | nil => exact absurd hbs hnea
    | cons b bs =>
      rw [hbs, List.length_cons] at hn
      obtain ⟨m, rfl⟩ : ∃ m, n = m + 1 := ⟨n - 1, by omega⟩
      have hdec := c.decode_encode ha (as.flatMap c.encode)
      rw [hbs, List.cons_append] at hdec
      simp only [List.flatMap_cons, hbs, List.cons_append, decodeAll, hdec,
        Option.bind_eq_bind, Option.bind_some, ih hne has (n := m) (by omega), Option.pure_def]

end Codec

end NNPIHost

import Mathlib.Algebra.Group.Nat.Defs
import Mathlib.Algebra.GroupWithZero.Nat
import Mathlib.Algebra.Order.Monoid.Unbundled.Pow
import Mathlib.Data.Nat.Basic
import Mathlib.Tactic.Common
import NNPIHost.Codec.BitFields

/-! # Rows of bit fields

A schema gives for each opcode the widths of the fields of a message, the opcode being the first
of them. The fields lie next to each other over whole words, the first in the lowest bits, and a
value loses the bits that its field has no room for. Messages stand one after the other in a
stream, and a reader finds their ends by their opcodes.
-/

namespace NNPIHost.Schema

/-- Store values in fields of the widths. -/
def pack : List ℕ → List ℕ → ℕ
  | w :: ws, v :: vs => v % 2 ^ w + 2 ^ w * pack ws vs
  | _, _ => 0

/-- The values of the fields. -/
def unpack : List ℕ → ℕ → List ℕ
  | [], _ => []
  | w :: ws, n => n % 2 ^ w :: unpack ws (n / 2 ^ w)

/-- What is left of the values in fields of the widths. -/
def stored (ws vs : List ℕ) : List ℕ := List.zipWith (fun w v => v % 2 ^ w) ws vs

/-- The lowest words of a number, the lowest first. -/
def toWords : ℕ → ℕ → List UInt64
  | 0, _ => []
  | k + 1, n => .ofNat n :: toWords k (n / 2 ^ 64)

def ofWords : List UInt64 → ℕ
  | [] => 0
  | w :: ws => w.toNat + 2 ^ 64 * ofWords ws

variable {ws vs : List ℕ} {n k : ℕ}

theorem unpack_pack (h : vs.length = ws.length) : unpack ws (pack ws vs) = stored ws vs := by
  induction ws generalizing vs with
  | nil => rfl
  | cons w ws ih =>
    cases vs with
    | nil => cases h
    | cons v vs =>
      have hlt : v % 2 ^ w < 2 ^ w := Nat.mod_lt _ (Nat.two_pow_pos w)
      rw [pack, unpack, Nat.add_mul_mod_self_left, Nat.mod_eq_of_lt hlt,
        Nat.add_mul_div_left _ _ (Nat.two_pow_pos w), Nat.div_eq_of_lt hlt, Nat.zero_add,
        ih (Nat.succ.inj h)]
      rfl

theorem pack_lt (ws vs : List ℕ) : pack ws vs < 2 ^ ws.sum := by
  induction ws generalizing vs with
  | nil => exact Nat.two_pow_pos _
  | cons w ws ih =>
    cases vs with
    | nil => exact Nat.two_pow_pos _
    | cons v vs =>
      have hlt : v % 2 ^ w < 2 ^ w := Nat.mod_lt _ (Nat.two_pow_pos w)
      have hle : 2 ^ w * (pack ws vs + 1) ≤ 2 ^ w * 2 ^ ws.sum := Nat.mul_le_mul_left _ (ih vs)
      rw [pack, List.sum_cons, Nat.pow_add]
      rw [Nat.mul_succ] at hle
      omega

theorem pack_fields (fs : List BitFields.Field) :
    pack (fs.map Sigma.fst) (fs.map fun f => f.2.toNat) = BitFields.pack fs := by
  induction fs with
  | nil => rfl
  | cons f fs ih =>
    obtain ⟨w, v⟩ := f
    rw [List.map_cons, List.map_cons, pack, ih, Nat.mod_eq_of_lt v.isLt]
    rfl

theorem pack_append {ws vs : List ℕ} (ws' vs' : List ℕ) (h : vs.length = ws.length) :
    pack (ws ++ ws') (vs ++ vs') = pack ws vs + 2 ^ ws.sum * pack ws' vs' := by
  induction ws generalizing vs with
  | nil =>
    rw [List.length_eq_zero_iff.mp h]
    simp [pack]
  | cons w ws ih =>
    cases vs with
    | nil => cases h
    | cons v vs =>
      rw [List.cons_append, List.cons_append, pack, pack, ih (Nat.succ.inj h), List.sum_cons,
        Nat.pow_add, Nat.mul_add, Nat.mul_assoc, Nat.add_assoc]

theorem toWords_append (ws vs : List ℕ) (k : ℕ) (ws' vs' : List ℕ) (h : vs.length = ws.length)
    (hsum : ws.sum = 64) : toWords (k + 1) (pack (ws ++ ws') (vs ++ vs')) =
      .ofNat (pack ws vs) :: toWords k (pack ws' vs') := by
  have hlt := pack_lt ws vs
  rw [hsum] at hlt
  have hword : UInt64.ofNat (pack ws vs + 2 ^ 64 * pack ws' vs') = .ofNat (pack ws vs) := by
    apply UInt64.toNat_inj.mp
    rw [UInt64.toNat_ofNat', UInt64.toNat_ofNat', Nat.add_mul_mod_self_left]
  rw [pack_append ws' vs' h, hsum, toWords, hword, Nat.add_mul_div_left _ _ (Nat.two_pow_pos 64),
    Nat.div_eq_of_lt hlt, Nat.zero_add]

theorem toWords_one (x : UInt64) : toWords 1 (pack [64] [x.toNat]) = [x] := by
  have hlt := x.toNat_lt
  simp [toWords, pack, Nat.mod_eq_of_lt hlt]

theorem length_toWords (k n : ℕ) : (toWords k n).length = k := by
  induction k generalizing n with
  | zero => rfl
  | succ k ih => rw [toWords, List.length_cons, ih]

theorem ofWords_toWords (h : n < 2 ^ (64 * k)) : ofWords (toWords k n) = n := by
  induction k generalizing n with
  | zero => exact (Nat.lt_one_iff.mp h).symm
  | succ k ih =>
    have hdiv : n / 2 ^ 64 < 2 ^ (64 * k) := by
      apply Nat.div_lt_of_lt_mul
      rw [← Nat.pow_add, show 64 + 64 * k = 64 * (k + 1) by omega]
      exact h
    have hword : (UInt64.ofNat n).toNat = n % 2 ^ 64 := rfl
    rw [toWords, ofWords, ih hdiv, hword]
    exact Nat.mod_add_div n (2 ^ 64)

theorem first_toWords {w v : ℕ} (hw : w ≤ 64) :
    (UInt64.ofNat (pack (w :: ws) (v :: vs))).toNat % 2 ^ w = v % 2 ^ w := by
  have hword : (UInt64.ofNat (pack (w :: ws) (v :: vs))).toNat =
      pack (w :: ws) (v :: vs) % 2 ^ 64 := rfl
  rw [hword, Nat.mod_mod_of_dvd _ (Nat.pow_dvd_pow 2 hw), pack, Nat.add_mul_mod_self_left,
    Nat.mod_mod]

end Schema

/-- The messages of a protocol. -/
structure Schema where
  /-- The width of the opcode. -/
  bits : ℕ
  /-- The widths of the other fields of the messages with an opcode. -/
  layout : ℕ → Option (List ℕ)
  bits_le : bits ≤ 64
  opcode_lt : ∀ {op ws}, layout op = some ws → op < 2 ^ bits
  /-- A message takes whole words. -/
  whole : ∀ {op ws}, layout op = some ws → ∃ k, bits + ws.sum = 64 * (k + 1)

namespace Schema

variable (S : Schema)

/-- The words of a message; there are none without a layout. -/
def encode (op : ℕ) (vs : List ℕ) : List UInt64 :=
  match S.layout op with
  | none => []
  | some ws => toWords ((S.bits + ws.sum) / 64) (pack (S.bits :: ws) (op :: vs))

/-- The messages of a stream, opcode and values; the fuel bounds their number. -/
def read : ℕ → List UInt64 → Option (List (ℕ × List ℕ))
  | _, [] => some []
  | 0, _ :: _ => none
  | fuel + 1, w :: words =>
      match S.layout (w.toNat % 2 ^ S.bits) with
      | none => none
      | some ws =>
          let k := (S.bits + ws.sum) / 64
          if (w :: words).length < k then none
          else (read fuel ((w :: words).drop k)).map fun rest =>
            (w.toNat % 2 ^ S.bits,
              (unpack (S.bits :: ws) (ofWords ((w :: words).take k))).tail) :: rest

def readAll (words : List UInt64) : Option (List (ℕ × List ℕ)) := S.read words.length words

variable {S} {op : ℕ} {ws vs : List ℕ}

theorem read_encode (h : S.layout op = some ws) (hlen : vs.length = ws.length) (fuel : ℕ)
    (words : List UInt64) :
    S.read (fuel + 1) (S.encode op vs ++ words) =
      (S.read fuel words).map fun rest => (op, stored ws vs) :: rest := by
  obtain ⟨k, hk⟩ := S.whole h
  have hop : op % 2 ^ S.bits = op := Nat.mod_eq_of_lt (S.opcode_lt h)
  have hdiv : (S.bits + ws.sum) / 64 = k + 1 := by
    rw [hk]
    exact Nat.mul_div_cancel_left _ (by decide)
  have henc : S.encode op vs = toWords (k + 1) (pack (S.bits :: ws) (op :: vs)) := by
    rw [encode, h]
    exact congrArg (toWords · _) hdiv
  have hlt : pack (S.bits :: ws) (op :: vs) < 2 ^ (64 * (k + 1)) := by
    rw [← hk]
    exact pack_lt (S.bits :: ws) (op :: vs)
  have hlength := length_toWords (k + 1) (pack (S.bits :: ws) (op :: vs))
  have hfirst : (UInt64.ofNat (pack (S.bits :: ws) (op :: vs))).toNat % 2 ^ S.bits = op :=
    (first_toWords S.bits_le).trans hop
  have hrow : unpack (S.bits :: ws) (ofWords (toWords (k + 1) (pack (S.bits :: ws) (op :: vs)))) =
      op :: stored ws vs := by
    rw [ofWords_toWords hlt, unpack_pack (by rw [List.length_cons, List.length_cons, hlen]),
      stored, List.zipWith_cons_cons, hop]
    rfl
  have htake : (S.encode op vs ++ words).take (k + 1) = S.encode op vs :=
    List.take_left' (henc ▸ hlength)
  have hdrop : (S.encode op vs ++ words).drop (k + 1) = words :=
    List.drop_left' (henc ▸ hlength)
  have hnot : ¬ (S.encode op vs ++ words).length < k + 1 := by
    rw [List.length_append, henc, hlength]
    omega
  rw [henc] at htake hdrop hnot ⊢
  rw [toWords] at hrow htake hdrop hnot ⊢
  rw [List.cons_append] at htake hdrop hnot ⊢
  rw [read, hfirst, h]
  simp only [hdiv]
  rw [if_neg hnot, htake, hdrop, hrow]
  rfl

theorem read_of_length_le {fuel fuel' : ℕ} {words : List UInt64} (h : words.length ≤ fuel)
    (h' : words.length ≤ fuel') : S.read fuel words = S.read fuel' words := by
  induction fuel generalizing fuel' words with
  | zero =>
    obtain rfl := List.length_eq_zero_iff.mp (Nat.le_zero.mp h)
    cases fuel' <;> rfl
  | succ fuel ih =>
    cases words with
    | nil => cases fuel' <;> rfl
    | cons w words =>
      cases fuel' with
      | zero => cases h'
      | succ fuel' =>
        rw [read, read]
        cases hl : S.layout (w.toNat % 2 ^ S.bits) with
        | none => rfl
        | some ws =>
          obtain ⟨k, hk⟩ := S.whole hl
          have hdiv : (S.bits + ws.sum) / 64 = k + 1 := by
            rw [hk]
            exact Nat.mul_div_cancel_left _ (by decide)
          simp only [hdiv]
          rw [List.length_cons] at h h'
          have hle : ((w :: words).drop (k + 1)).length ≤ words.length := by
            rw [List.length_drop, List.length_cons]
            omega
          rw [ih (by omega) (by omega : _ ≤ fuel')]

theorem readAll_encode (h : S.layout op = some ws) (hlen : vs.length = ws.length)
    (words : List UInt64) :
    S.readAll (S.encode op vs ++ words) =
      (S.readAll words).map fun rest => (op, stored ws vs) :: rest := by
  obtain ⟨k, hk⟩ := S.whole h
  have hpos : 1 ≤ (S.encode op vs).length := by
    rw [encode, h]
    simp only [length_toWords, hk]
    omega
  have hlength : (S.encode op vs ++ words).length =
      ((S.encode op vs).length - 1 + words.length) + 1 := by
    rw [List.length_append]
    omega
  rw [readAll, hlength, read_encode h hlen]
  congr 1
  exact read_of_length_le (Nat.le_add_left _ _) (Nat.le_refl _)

end NNPIHost.Schema

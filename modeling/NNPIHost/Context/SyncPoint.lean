import Mathlib.Data.Nat.Bitwise
import NNPIHost.Serial.Compare

/-! # Sync points

A sync point is a 16-bit sequence number with one more bit, which is toggled each time the
sequence number wraps. Together they are a serial number of 17 bits.
-/

namespace NNPIHost

/-- The fields of `SyncPoint`. -/
structure SyncPoint where
  val : UInt16
  wrap : Bool
  deriving DecidableEq

namespace SyncPoint

def zero : SyncPoint := ⟨0, false⟩

def ofMarker (marker : UInt32) : SyncPoint :=
  ⟨(marker &&& 0xffff).toUInt16, marker &&& 0x10000 != 0⟩

def getMarker (p : SyncPoint) : UInt32 :=
  if p.wrap then p.val.toUInt32 ||| 0x10000 else p.val.toUInt32

def inc (p : SyncPoint) : SyncPoint :=
  let val := p.val + 1
  ⟨val, if val = 0 then !p.wrap else p.wrap⟩

def set (p : SyncPoint) (val : UInt16) : SyncPoint :=
  ⟨val, if val < p.val then !p.wrap else p.wrap⟩

def lt (p q : SyncPoint) : Bool :=
  if p.wrap = q.wrap then p.val < q.val else q.val < p.val

def ge (p q : SyncPoint) : Bool := !p.lt q

/-- The sync point as a number of 17 bits. -/
def pos (p : SyncPoint) : ℕ := p.val.toNat + if p.wrap then 2 ^ 16 else 0

variable {p q : SyncPoint}

theorem toNat_val (p : SyncPoint) : p.val.toNat = p.pos % 2 ^ 16 := by
  have hlt := p.val.toNat_lt
  unfold pos
  split <;> omega

theorem pos_inc (p : SyncPoint) : p.inc.pos = (p.pos + 1) % (2 * 2 ^ 16) := by
  have hlt := p.val.toNat_lt
  have hadd : (p.val + 1).toNat = (p.val.toNat + 1) % 2 ^ 16 := UInt16.toNat_add ..
  have hzero : p.val + 1 = 0 ↔ p.val.toNat = 2 ^ 16 - 1 := by
    rw [← UInt16.toNat_inj, hadd]
    simp only [UInt16.toNat_zero]
    omega
  simp only [pos, inc, hzero, hadd]
  cases p.wrap <;> split <;> simp <;> omega

/-- The sequence number of a sync point a little later, without its other bit, is enough to
move there. -/
theorem pos_set {v : UInt16} {d : ℕ} (hd : d < 2 ^ 16)
    (hv : v.toNat = (p.pos + d) % 2 ^ 16) : (p.set v).pos = (p.pos + d) % (2 * 2 ^ 16) := by
  obtain ⟨val, wrap⟩ := p
  have hlt := val.toNat_lt
  simp only [pos, set, UInt16.lt_iff_toNat_lt] at hv ⊢
  cases wrap <;> split <;> simp at hv ⊢ <;> omega

theorem ge_iff : p.ge q = true ↔ Serial.Reached (2 ^ 16) p.pos q.pos := by
  have hp := p.val.toNat_lt
  have hq := q.val.toNat_lt
  simp only [ge, lt, Serial.Reached, Serial.dist, pos, UInt16.lt_iff_toNat_lt]
  cases p.wrap <;> cases q.wrap <;> simp <;> omega

theorem toNat_getMarker (p : SyncPoint) : p.getMarker.toNat = p.pos := by
  obtain ⟨val, wrap⟩ := p
  cases wrap
  · simp [getMarker, pos]
  · have hbit : (0x10000 : UInt32).toNat = 2 ^ 16 * 1 := rfl
    have hor := Nat.two_pow_add_eq_or_of_lt val.toNat_lt 1
    simp only [getMarker, pos, if_true, UInt32.toNat_or, UInt16.toNat_toUInt32]
    rw [Nat.or_comm, hbit, ← hor]
    omega

theorem toNat_val_ofMarker (m : UInt32) : (ofMarker m).val.toNat = m.toNat % 2 ^ 16 := by
  have hmask : (0xffff : UInt32).toNat = 2 ^ 16 - 1 := rfl
  simp only [ofMarker, UInt32.toNat_toUInt16, UInt32.toNat_and, hmask,
    Nat.and_two_pow_sub_one_eq_mod, Nat.mod_mod]

theorem wrap_ofMarker (m : UInt32) : (ofMarker m).wrap = m.toNat.testBit 16 := by
  have hbit : (0x10000 : UInt32).toNat = 2 ^ 16 := rfl
  rw [Bool.eq_iff_iff]
  simp only [ofMarker, bne_iff_ne, ne_eq, ← UInt32.toNat_inj, UInt32.toNat_and, hbit,
    UInt32.toNat_zero, Nat.and_two_pow]
  cases m.toNat.testBit 16 <;> simp

theorem ofMarker_getMarker (p : SyncPoint) : ofMarker p.getMarker = p := by
  obtain ⟨val, wrap⟩ := p
  have hlt := val.toNat_lt
  have hval : (ofMarker (getMarker ⟨val, wrap⟩)).val = val := by
    rw [← UInt16.toNat_inj, toNat_val_ofMarker, toNat_getMarker]
    cases wrap <;> simp [pos]
  have hwrap : (ofMarker (getMarker ⟨val, wrap⟩)).wrap = wrap := by
    rw [wrap_ofMarker, toNat_getMarker, Nat.testBit_eq_decide_div_mod_eq]
    cases wrap <;> simp [pos] <;> omega
  exact congrArg₂ SyncPoint.mk hval hwrap

end SyncPoint

end NNPIHost

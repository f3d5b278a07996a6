import Mathlib.Data.Int.Notation
import Mathlib.Tactic.Common
import NNPIHost.Ipc.Events

/-! # Object ids of replies

The replies of the card are kept by the type and the ids of the object they are about. An id
that is not given is `-1` and stands for any, so two ids are told apart only where both are
given.
-/

namespace NNPIHost

inductive InfContextObjType where
  | context
  | devres
  | copy
  | devnet
  | infreq
  | cmd
  | p2p
  deriving DecidableEq, Repr

def InfContextObjType.val : InfContextObjType → ℕ
  | .context => 0
  | .devres => 1
  | .copy => 2
  | .devnet => 3
  | .infreq => 4
  | .cmd => 5
  | .p2p => 6

structure InfContextObjID where
  type : InfContextObjType
  id : ℤ
  id2 : ℤ
  deriving DecidableEq, Repr

namespace InfContextObjID

/-- The order of the keys of `m_create_reply`. -/
def lt (a b : InfContextObjID) : Bool :=
  if a.type ≠ b.type then a.type.val < b.type.val
  else if a.id ≠ -1 ∧ b.id ≠ -1 ∧ a.id ≠ b.id then a.id < b.id
  else if a.id2 ≠ -1 ∧ b.id2 ≠ -1 then a.id2 < b.id2
  else false

/-- What the map takes for the same key. -/
def equiv (a b : InfContextObjID) : Bool := !a.lt b && !b.lt a

/-- The key of an answer to a request: an id that the request leaves out may be given. -/
def Answers (a r : InfContextObjID) : Prop :=
  a.type = r.type ∧ a.id = r.id ∧ (r.id2 = -1 ∨ a.id2 = r.id2)

instance (a r : InfContextObjID) : Decidable (a.Answers r) := inferInstanceAs (Decidable (_ ∧ _))

variable {a b r r' : InfContextObjID}

theorem lt_of_type_ne (h : a.type ≠ b.type) : a.lt b = true ∨ b.lt a = true := by
  have hval : a.type.val < b.type.val ∨ b.type.val < a.type.val := by
    apply Nat.lt_or_gt_of_ne
    intro hval
    apply h
    cases ha : a.type <;> cases hb : b.type <;> simp_all [InfContextObjType.val]
  simpa [lt, h, h.symm] using hval

theorem equiv_iff : a.equiv b = true ↔
    a.type = b.type ∧ (a.id = -1 ∨ b.id = -1 ∨ a.id = b.id) ∧
      (a.id2 = -1 ∨ b.id2 = -1 ∨ a.id2 = b.id2) := by
  by_cases ht : a.type = b.type
  · simp only [equiv, lt, ht]
    grind
  · have hlt := lt_of_type_ne ht
    simp only [equiv, ht]
    grind

theorem equiv_comm : a.equiv b = b.equiv a := Bool.and_comm _ _

theorem Answers.not_equiv (ha : a.Answers r) (hb : b.Answers r') (h : ¬ r.equiv r' = true) :
    ¬ a.equiv b = true := by
  obtain ⟨ht, hid, hid2⟩ := ha
  obtain ⟨ht', hid', hid2'⟩ := hb
  rw [equiv_iff] at h ⊢
  grind

end InfContextObjID

/-- The key under which `process_create_reply` keeps an event, if it is a reply. -/
def EventReport.replyKey (ev : EventReport) : Option InfContextObjID :=
  let key (t : InfContextObjType) : InfContextObjID :=
    ⟨t, if ev.objValid then ev.objId.toNat else -1, if ev.objValid2 then ev.objId2.toNat else -1⟩
  match ev.eventCode.toNat with
  | 4 | 52 | 15 | 64 => some (key .context)
  | 5 | 53 => some (key .devres)
  | 6 | 54 => some (key .copy)
  | 11 | 60 | 17 | 67 | 19 | 20 | 68 | 69 | 31 | 77 => some (key .devnet)
  | 13 | 62 => some (key .infreq)
  | 28 | 73 => some (key .cmd)
  | 33 | 34 | 35 => some (key .p2p)
  | _ => none

end NNPIHost

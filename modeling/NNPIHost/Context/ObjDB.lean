import Mathlib.Data.Nat.Basic
import Mathlib.Data.Prod.Lex
import NNPIHost.Exec.Run
import NNPIHost.Store.Ordered

/-! # The object database of a context

`nnpiContextObjDB` maps protocol ids to the objects of a context. A look-up goes through the
subscript operator of the map, which stores a null pointer for an id that it does not have.
-/

namespace NNPIHost

open Store

/-- Objects by their keys; `none` is a null pointer. -/
abbrev ObjMap (κ α : Type*) [LinearOrder κ] := OrderedMap κ (Option α)

namespace ObjMap

variable {κ α : Type*} [LinearOrder κ]

def insertObj (m : ObjMap κ α) (k : κ) (obj : α) : ObjMap κ α := m.insert k (some obj)

def removeObj (m : ObjMap κ α) (k : κ) : ObjMap κ α := m.erase k

/-- The pointer found, and the map after the subscript. -/
def getObj (m : ObjMap κ α) (k : κ) : Option α × ObjMap κ α :=
  match m.find? k with
  | some obj => (obj, m)
  | none => (none, m.insert k none)

/-- Every entry is an object. -/
def NonNull (m : ObjMap κ α) : Prop := ∀ e ∈ m, e.2 ≠ none

variable {m : ObjMap κ α} {k : κ}

theorem NonNull.insertObj (h : m.NonNull) (obj : α) : (m.insertObj k obj).NonNull := by
  intro e he
  rcases OrderedMap.mem_insert.mp he with rfl | ⟨he, _⟩
  · exact Option.some_ne_none obj
  · exact h e he

theorem NonNull.removeObj (h : m.NonNull) : (m.removeObj k).NonNull :=
  fun e he => h e (OrderedMap.mem_erase.mp he).1

theorem getObj_of_mem (hk : k ∈ m.keys) : (m.getObj k).2 = m := by
  cases hf : m.find? k with
  | none => exact absurd hk (OrderedMap.find?_eq_none.mp hf)
  | some obj => simp [getObj, hf]

theorem getObj_of_not_mem (hk : k ∉ m.keys) : (m.getObj k).2 = m.insert k none := by
  simp [getObj, OrderedMap.find?_eq_none.mpr hk]

/-- A look-up keeps the map free of null pointers exactly if it finds an object. -/
theorem NonNull.getObj_iff (h : m.NonNull) : (m.getObj k).2.NonNull ↔ k ∈ m.keys := by
  by_cases hk : k ∈ m.keys
  · simp only [getObj_of_mem hk, hk, iff_true]
    exact h
  · simp only [getObj_of_not_mem hk, hk, iff_false]
    exact fun hn => hn (k, none) (OrderedMap.mem_insert.mpr (.inl rfl)) rfl

/-- And exactly then it keeps the set of keys. -/
theorem keys_getObj_iff : (m.getObj k).2.keys = m.keys ↔ k ∈ m.keys := by
  by_cases hk : k ∈ m.keys
  · simp only [getObj_of_mem hk, hk]
  · simp only [getObj_of_not_mem hk, hk, iff_false]
    intro heq
    exact hk (heq ▸ OrderedMap.mem_keys.mpr ⟨none, OrderedMap.mem_insert.mpr (.inl rfl)⟩)

end ObjMap

/-- `nnpiContextObjDB`, for any types of copies, networks, infer requests and command lists. -/
structure ContextObjDB (C N R L : Type*) where
  copies : ObjMap ℕ C
  networks : ObjMap ℕ N
  infreqs : ObjMap (ℕ ×ₗ ℕ) R
  cmdlists : ObjMap ℕ L

namespace ContextObjDB

variable {C N R L : Type*}

def create : ContextObjDB C N R L := ⟨.empty, .empty, .empty, .empty⟩

variable (db : ContextObjDB C N R L)

def insertCopy (id : ℕ) (copy : C) : ContextObjDB C N R L :=
  { db with copies := db.copies.insertObj id copy }

def removeCopy (id : ℕ) : ContextObjDB C N R L := { db with copies := db.copies.removeObj id }

def getCopy (id : ℕ) : Option C × ContextObjDB C N R L :=
  ((db.copies.getObj id).1, { db with copies := (db.copies.getObj id).2 })

def insertDevNet (id : ℕ) (devnet : N) : ContextObjDB C N R L :=
  { db with networks := db.networks.insertObj id devnet }

def removeDevNet (id : ℕ) : ContextObjDB C N R L :=
  { db with networks := db.networks.removeObj id }

def getDevNet (id : ℕ) : Option N × ContextObjDB C N R L :=
  ((db.networks.getObj id).1, { db with networks := (db.networks.getObj id).2 })

/-- An infer request is stored under the id of its network and its own. -/
def insertInfReq (networkId : R → ℕ) (id : ℕ) (infreq : R) : ContextObjDB C N R L :=
  { db with infreqs := db.infreqs.insertObj (toLex (networkId infreq, id)) infreq }

def removeInfReq (netId id : ℕ) : ContextObjDB C N R L :=
  { db with infreqs := db.infreqs.removeObj (toLex (netId, id)) }

def getInfReq (netId id : ℕ) : Option R × ContextObjDB C N R L :=
  ((db.infreqs.getObj (toLex (netId, id))).1,
    { db with infreqs := (db.infreqs.getObj (toLex (netId, id))).2 })

def insertCommandList (id : ℕ) (cmdlist : L) : ContextObjDB C N R L :=
  { db with cmdlists := db.cmdlists.insertObj id cmdlist }

def removeCommandList (id : ℕ) : ContextObjDB C N R L :=
  { db with cmdlists := db.cmdlists.removeObj id }

def getCommandList (id : ℕ) : Option L × ContextObjDB C N R L :=
  ((db.cmdlists.getObj id).1, { db with cmdlists := (db.cmdlists.getObj id).2 })

def clearAll (_ : ContextObjDB C N R L) : ContextObjDB C N R L :=
  ⟨.empty, .empty, .empty, .empty⟩

/-- The pointers that `for_each_copy` calls its function with. -/
def forEachCopy : List (Option C) := db.copies.entries.map Prod.snd

def forEachCmdlist : List (Option L) := db.cmdlists.entries.map Prod.snd

end ContextObjDB

inductive ObjDBOp (C N R L : Type*) where
  | insertCopy (id : ℕ) (copy : C)
  | removeCopy (id : ℕ)
  | getCopy (id : ℕ)
  | insertDevNet (id : ℕ) (devnet : N)
  | removeDevNet (id : ℕ)
  | getDevNet (id : ℕ)
  | insertInfReq (id : ℕ) (infreq : R)
  | removeInfReq (netId id : ℕ)
  | getInfReq (netId id : ℕ)
  | insertCommandList (id : ℕ) (cmdlist : L)
  | removeCommandList (id : ℕ)
  | getCommandList (id : ℕ)
  | clearAll

namespace ContextObjDB

variable {C N R L : Type*} (networkId : R → ℕ)

def step (db : ContextObjDB C N R L) : ObjDBOp C N R L → Option (ContextObjDB C N R L)
  | .insertCopy id copy => some (db.insertCopy id copy)
  | .removeCopy id => some (db.removeCopy id)
  | .getCopy id => some (db.getCopy id).2
  | .insertDevNet id devnet => some (db.insertDevNet id devnet)
  | .removeDevNet id => some (db.removeDevNet id)
  | .getDevNet id => some (db.getDevNet id).2
  | .insertInfReq id infreq => some (db.insertInfReq networkId id infreq)
  | .removeInfReq netId id => some (db.removeInfReq netId id)
  | .getInfReq netId id => some (db.getInfReq netId id).2
  | .insertCommandList id cmdlist => some (db.insertCommandList id cmdlist)
  | .removeCommandList id => some (db.removeCommandList id)
  | .getCommandList id => some (db.getCommandList id).2
  | .clearAll => some db.clearAll

/-- All stored entries are objects, so no call for each of them goes through a null pointer. -/
structure NonNull (db : ContextObjDB C N R L) : Prop where
  copies : db.copies.NonNull
  networks : db.networks.NonNull
  infreqs : db.infreqs.NonNull
  cmdlists : db.cmdlists.NonNull

/-- The stored ids of each kind. -/
def ids (db : ContextObjDB C N R L) : List ℕ × List ℕ × List (ℕ ×ₗ ℕ) × List ℕ :=
  (db.copies.keys, db.networks.keys, db.infreqs.keys, db.cmdlists.keys)

def IsLookup : ObjDBOp C N R L → Prop
  | .getCopy _ | .getDevNet _ | .getInfReq _ _ | .getCommandList _ => True
  | _ => False

/-- A look-up leaves the stored ids as they were. -/
def KeepsIds (db : ContextObjDB C N R L) (op : ObjDBOp C N R L) : Prop :=
  IsLookup op → ∀ db', db.step networkId op = some db' → db'.ids = db.ids

/-- Look-ups are for stored ids. -/
def Known (db : ContextObjDB C N R L) : ObjDBOp C N R L → Prop
  | .getCopy id => id ∈ db.copies.keys
  | .getDevNet id => id ∈ db.networks.keys
  | .getInfReq netId id => toLex (netId, id) ∈ db.infreqs.keys
  | .getCommandList id => id ∈ db.cmdlists.keys
  | _ => True

variable {networkId} {db db' : ContextObjDB C N R L} {op : ObjDBOp C N R L}

theorem create_nonNull : (create : ContextObjDB C N R L).NonNull := ⟨nofun, nofun, nofun, nofun⟩

theorem nonNull_step (h : db.NonNull) (hs : db.step networkId op = some db') :
    db'.NonNull ↔ db.Known op := by
  obtain ⟨hcopies, hnets, hreqs, hlists⟩ := h
  cases op with
  | getCopy id =>
    obtain rfl := Option.some.inj hs
    exact ⟨fun h => hcopies.getObj_iff.mp h.copies,
      fun h => ⟨hcopies.getObj_iff.mpr h, hnets, hreqs, hlists⟩⟩
  | getDevNet id =>
    obtain rfl := Option.some.inj hs
    exact ⟨fun h => hnets.getObj_iff.mp h.networks,
      fun h => ⟨hcopies, hnets.getObj_iff.mpr h, hreqs, hlists⟩⟩
  | getInfReq netId id =>
    obtain rfl := Option.some.inj hs
    exact ⟨fun h => hreqs.getObj_iff.mp h.infreqs,
      fun h => ⟨hcopies, hnets, hreqs.getObj_iff.mpr h, hlists⟩⟩
  | getCommandList id =>
    obtain rfl := Option.some.inj hs
    exact ⟨fun h => hlists.getObj_iff.mp h.cmdlists,
      fun h => ⟨hcopies, hnets, hreqs, hlists.getObj_iff.mpr h⟩⟩
  | insertCopy id copy =>
    obtain rfl := Option.some.inj hs
    exact iff_of_true ⟨hcopies.insertObj copy, hnets, hreqs, hlists⟩ trivial
  | removeCopy id =>
    obtain rfl := Option.some.inj hs
    exact iff_of_true ⟨hcopies.removeObj, hnets, hreqs, hlists⟩ trivial
  | insertDevNet id devnet =>
    obtain rfl := Option.some.inj hs
    exact iff_of_true ⟨hcopies, hnets.insertObj devnet, hreqs, hlists⟩ trivial
  | removeDevNet id =>
    obtain rfl := Option.some.inj hs
    exact iff_of_true ⟨hcopies, hnets.removeObj, hreqs, hlists⟩ trivial
  | insertInfReq id infreq =>
    obtain rfl := Option.some.inj hs
    exact iff_of_true ⟨hcopies, hnets, hreqs.insertObj infreq, hlists⟩ trivial
  | removeInfReq netId id =>
    obtain rfl := Option.some.inj hs
    exact iff_of_true ⟨hcopies, hnets, hreqs.removeObj, hlists⟩ trivial
  | insertCommandList id cmdlist =>
    obtain rfl := Option.some.inj hs
    exact iff_of_true ⟨hcopies, hnets, hreqs, hlists.insertObj cmdlist⟩ trivial
  | removeCommandList id =>
    obtain rfl := Option.some.inj hs
    exact iff_of_true ⟨hcopies, hnets, hreqs, hlists.removeObj⟩ trivial
  | clearAll =>
    obtain rfl := Option.some.inj hs
    exact iff_of_true create_nonNull trivial

theorem keepsIds_iff : db.KeepsIds networkId op ↔ db.Known op := by
  cases op with
  | getCopy id => simp [KeepsIds, IsLookup, step, getCopy, ids, Known, ObjMap.keys_getObj_iff]
  | getDevNet id => simp [KeepsIds, IsLookup, step, getDevNet, ids, Known, ObjMap.keys_getObj_iff]
  | getInfReq netId id =>
    simp [KeepsIds, IsLookup, step, getInfReq, ids, Known, ObjMap.keys_getObj_iff]
  | getCommandList id =>
    simp [KeepsIds, IsLookup, step, getCommandList, ids, Known, ObjMap.keys_getObj_iff]
  | _ => exact iff_of_true nofun trivial

theorem step_ne_none : db.step networkId op ≠ none := by
  cases op <;> exact Option.some_ne_none _

/-- Every look-up keeps the stored ids and no null pointer is ever stored, exactly when every
look-up is for a stored id. -/
theorem lookups_pure (ops : List (ObjDBOp C N R L)) :
    (Exec.Always (step networkId) NonNull create ops ∧
      Exec.Meets (step networkId) (KeepsIds networkId) create ops) ↔
      Exec.Meets (step networkId) Known create ops := by
  have hkeeps : KeepsIds networkId = Known (C := C) (N := N) (R := R) (L := L) :=
    funext₂ fun _ _ => propext keepsIds_iff
  rw [hkeeps, Exec.always_iff_meets (I := fun _ => True) create_nonNull trivial
    (fun _ _ _ _ h hs => ⟨trivial, nonNull_step h hs⟩)
    (fun _ _ _ _ hs => absurd hs step_ne_none), and_self]

/-- A completion for an unknown copy leaves a null pointer for the next fatal event. -/
theorem unknown_copy_stores_null :
    ¬ Exec.Always (step id) NonNull (create : ContextObjDB Unit Unit ℕ Unit) [.getCopy 7] := by
  intro h
  exact (h.2 _ rfl).copies (7, none) (OrderedMap.mem_insert.mpr (.inl rfl)) rfl

end ContextObjDB

end NNPIHost

import Mathlib.Logic.Function.Basic
import NNPIHost.Context.CriticalError
import NNPIHost.Context.ObjDB
import NNPIHost.Ida.Allocator

/-! # Ids of the objects of a context

A context has an allocator of 16-bit ids for each kind of object. The id of an object is given
back when its creation fails, or when the response thread handles the event that reports it
destroyed; the event's id is freed even where there is no such object.
-/

namespace NNPIHost

open Store

/-- The allocators of a context. -/
inductive IdKind where
  | devres
  | copy
  | devnet
  | cmdlist
  deriving DecidableEq, Repr

namespace EventReport

def executeCopySuccess : BitVec 7 := 7

def devresDestroyed : BitVec 7 := 8

def copyDestroyed : BitVec 7 := 9

def devnetDestroyed : BitVec 7 := 12

def infreqDestroyed : BitVec 7 := 14

def cmdDestroyed : BitVec 7 := 29

def executeCmdComplete : BitVec 7 := 30

def executeCpylstSuccess : BitVec 7 := 32

def executeCopySubresSuccess : BitVec 7 := 36

def executeCopyFailed : BitVec 7 := 79

def executeCpylstFailed : BitVec 7 := 81

def executeCopySubresFailed : BitVec 7 := 82

def ecFailedToReleaseCredit : BitVec 7 := 83

variable (ev : EventReport)

/-- The context is broken by the event, or aborted. -/
def isFatal : Bool :=
  ev.isCardFatalEvent || ev.isContextFatalEvent || ev.eventCode = abortRequest

def isExecuteCopy : Bool :=
  ev.eventCode = executeCopySuccess || ev.eventCode = executeCopyFailed ||
    ev.eventCode = executeCopySubresSuccess || ev.eventCode = executeCopySubresFailed

def isExecuteCpylst : Bool :=
  ev.eventCode = executeCpylstSuccess || ev.eventCode = executeCpylstFailed

/-- The allocator that the id of the event is freed in. -/
def destroyedKind : Option IdKind :=
  if ev.isFatal then none
  else if ev.eventCode = devresDestroyed then some .devres
  else if ev.eventCode = devnetDestroyed then some .devnet
  else if ev.eventCode = copyDestroyed then some .copy
  else if ev.eventCode = cmdDestroyed then some .cmdlist
  else none

end EventReport

namespace ContextObjDB

open EventReport

variable {C N R L : Type*} (db : ContextObjDB C N R L)

/-- The look-ups and removals of `response_handler`. -/
def handleEvent (ev : EventReport) : ContextObjDB C N R L :=
  let id := ev.objId.toNat
  let id2 := ev.objId2.toNat
  if ev.isCardFatalDrvEvent then db.clearAll
  else if ev.isFatal then db
  else if ev.isExecuteCopy then
    match db.getCopy id with
    | (none, db) => db
    | (some _, db) => if ev.objValid2 then (db.getCommandList id2).2 else db
  else if ev.isExecuteCpylst ∨ ev.eventCode = executeCmdComplete then (db.getCommandList id).2
  else if ev.eventCode = devnetDestroyed then
    match db.getDevNet id with
    | (none, db) => db
    | (some _, db) => db.removeDevNet id
  else if ev.eventCode = infreqDestroyed then
    match db.getDevNet id2 with
    | (none, db) => db
    | (some _, db) => db.removeInfReq id2 id
  else if ev.eventCode = copyDestroyed then
    match db.getCopy id with
    | (none, db) => db
    | (some _, db) => db.removeCopy id
  else if ev.eventCode = cmdDestroyed then
    match db.getCommandList id with
    | (none, db) => db
    | (some _, db) => db.removeCommandList id
  else if ev.eventCode = ecFailedToReleaseCredit ∧ ev.objValid then (db.getCommandList id).2
  else db

end ContextObjDB

/-- What an id is in use for. -/
inductive IdPhase where
  | unused
  /-- A thread waits for the card to create the object. -/
  | creating
  | live
  /-- There is no object any more, but the id has not been given back. -/
  | gone
  deriving DecidableEq

structure ContextIds where
  objdb : ContextObjDB Unit Unit ℕ Unit
  ida : IdKind → IDA
  /-- Whether the response thread has exited. -/
  exited : Bool
  /-- What the ids handed out are in use for. -/
  phase : IdKind × ℕ → IdPhase

inductive IdOp where
  | create (kind : IdKind)
  | createEnd (kind : IdKind) (id : ℕ) (ok : Bool)
  /-- A command list that was not finalized is removed at once. -/
  | destroy (kind : IdKind) (id : ℕ) (finalized : Bool)
  | event (ev : EventReport)
  /-- The channel is killed. -/
  | kill

namespace ContextIds

/-- The greatest 16-bit id. -/
def maxId : ℕ := 65535

def create : ContextIds := ⟨.create, fun _ => .create maxId, false, fun _ => .unused⟩

variable (s : ContextIds)

def allocId (kind : IdKind) : Option (ℕ × ContextIds) :=
  (s.ida kind).alloc.map fun (id, ida) => (id, { s with ida := Function.update s.ida kind ida })

def freeId (kind : IdKind) (id : ℕ) : ContextIds :=
  { s with ida := Function.update s.ida kind ((s.ida kind).free id) }

def setPhase (kind : IdKind) (id : ℕ) (p : IdPhase) : ContextIds :=
  { s with phase := Function.update s.phase (kind, id) p }

/-- The objects that are put into the database when they have been created. -/
def insert (kind : IdKind) (id : ℕ) : ContextIds :=
  match kind with
  | .devres => s
  | .copy => { s with objdb := s.objdb.insertCopy id () }
  | .devnet => { s with objdb := s.objdb.insertDevNet id () }
  | .cmdlist => { s with objdb := s.objdb.insertCommandList id () }

/-- `response_handler`, for the database and the allocators. -/
def responseHandler (ev : EventReport) : ContextIds :=
  let s := { s with
    objdb := s.objdb.handleEvent ev
    exited := ev.isCardFatalDrvEvent || ev.eventCode = EventReport.contextDestroyed }
  match ev.destroyedKind with
  | none => s
  | some kind => s.freeId kind ev.objId.toNat

/-- The event is the report that the card owes for an id without an object. -/
def settle (ev : EventReport) : ContextIds :=
  match ev.destroyedKind with
  | none => s
  | some kind =>
      if s.phase (kind, ev.objId.toNat) = .gone then s.setPhase kind ev.objId.toNat .unused
      else s

def step : IdOp → Option ContextIds
  | .create kind =>
      match s.allocId kind with
      | none => some s
      | some (id, t) =>
          -- a command list is created on the host only
          if kind = .cmdlist then some ((t.setPhase kind id .live).insert kind id)
          else some (t.setPhase kind id .creating)
  | .createEnd kind id ok =>
      if s.phase (kind, id) = .creating then
        if ok then some ((s.setPhase kind id .live).insert kind id)
        else if kind = .devnet then some (s.setPhase kind id .gone)
        else some ((s.freeId kind id).setPhase kind id .unused)
      else none
  | .destroy kind id finalized =>
      if s.phase (kind, id) = .live then
        let s := s.setPhase kind id .gone
        if kind = .cmdlist ∧ ¬ finalized then
          some { s with objdb := s.objdb.removeCommandList id }
        else some s
      else none
  | .event ev => if s.exited then none else some ((s.responseHandler ev).settle ev)
  | .kill => if s.exited then none else some { s with objdb := s.objdb.clearAll, exited := true }

/-- No allocator hands out an id that is in use, and every id is free or in use. -/
structure NoIdLost (s : ContextIds) : Prop where
  distinct : ∀ kind id ida, (s.ida kind).alloc = some (id, ida) → s.phase (kind, id) = .unused
  whole : ∀ kind n, n ≤ maxId ↔ (s.ida kind).freeRanges.Covers n ∨ s.phase (kind, n) ≠ .unused

/-- An object is reported destroyed when it is gone and its id has not been given back. -/
def Owed (s : ContextIds) : IdOp → Prop
  | .event ev => ∀ kind, ev.destroyedKind = some kind → s.phase (kind, ev.objId.toNat) = .gone
  | _ => True

instance (s : ContextIds) : DecidablePred s.Owed := fun op => by
  unfold Owed
  split <;> infer_instance

/-- The free ids are those that are not in use. -/
structure Inv (s : ContextIds) : Prop where
  ranges : ∀ kind, (s.ida kind).freeRanges.Separated maxId
  free : ∀ kind n, (s.ida kind).freeRanges.Covers n ↔ n ≤ maxId ∧ s.phase (kind, n) = .unused
  within : ∀ kind n, s.phase (kind, n) ≠ .unused → n ≤ maxId

variable {s} {t : ContextIds} {kind : IdKind} {id : ℕ} {p : IdPhase} {op : IdOp}

theorem create_inv : create.Inv where
  ranges _ := .singleton
  free _ _ := OrderedMap.covers_singleton.trans (by simp [create])
  within := by simp [create]

theorem Inv.noIdLost (h : s.Inv) : s.NoIdLost where
  distinct kind id ida ha := ((h.free kind id).mp (IDA.alloc_spec (h.ranges kind) ha).1.1).2
  whole kind n := by
    rw [h.free]
    constructor
    · intro hle
      by_cases hp : s.phase (kind, n) = .unused
      · exact .inl ⟨hle, hp⟩
      · exact .inr hp
    · rintro (⟨hle, _⟩ | hp)
      · exact hle
      · exact h.within kind n hp

theorem Inv.congr (h : s.Inv) (hida : t.ida = s.ida) (hphase : t.phase = s.phase) : t.Inv := by
  constructor
  · exact hida ▸ h.ranges
  · exact hida ▸ hphase ▸ h.free
  · exact hphase ▸ h.within

theorem Inv.insert (h : s.Inv) : (s.insert kind id).Inv := by
  cases kind <;> exact h.congr rfl rfl

theorem Inv.setId (h : s.Inv) {ida : IDA} (hle : id ≤ maxId)
    (hsep : ida.freeRanges.Separated maxId) (hid : ida.freeRanges.Covers id ↔ p = .unused)
    (hother : ∀ n, n ≠ id → (ida.freeRanges.Covers n ↔ (s.ida kind).freeRanges.Covers n)) :
    ({ s with ida := Function.update s.ida kind ida }.setPhase kind id p).Inv := by
  constructor
  · intro k
    by_cases hk : k = kind
    · subst hk
      simpa [setPhase] using hsep
    · simpa [setPhase, hk] using h.ranges k
  · intro k n
    by_cases hk : k = kind
    · subst hk
      by_cases hn : n = id
      · simp [setPhase, hn, hid, hle]
      · simp [setPhase, hn, hother n hn, h.free]
    · simp [setPhase, hk, h.free]
  · intro k n hn
    by_cases hk : (k, n) = (kind, id)
    · obtain ⟨rfl, rfl⟩ := Prod.mk.inj hk
      exact hle
    · exact h.within k n (by simpa [setPhase, Function.update_of_ne hk] using hn)

theorem Inv.not_free (h : s.Inv) (hin : s.phase (kind, id) ≠ .unused) :
    ¬ (s.ida kind).freeRanges.Covers id := fun hc => hin ((h.free kind id).mp hc).2

theorem Inv.setPhase (h : s.Inv) (hin : s.phase (kind, id) ≠ .unused) (hp : p ≠ .unused) :
    (s.setPhase kind id p).Inv := by
  have hset := h.setId (h.within kind id hin) (h.ranges kind)
    (iff_of_false (h.not_free hin) hp) fun _ _ => Iff.rfl
  rwa [Function.update_eq_self] at hset

theorem Inv.allocId (h : s.Inv) (ha : s.allocId kind = some (id, t)) (hp : p ≠ .unused) :
    (t.setPhase kind id p).Inv := by
  obtain ⟨⟨id', ida⟩, hida, heq⟩ := Option.map_eq_some_iff.mp ha
  obtain ⟨rfl, rfl⟩ := Prod.mk.inj heq
  obtain ⟨hleast, hsep, hcov, _⟩ := IDA.alloc_spec (h.ranges kind) hida
  refine h.setId ((h.free kind id').mp hleast.1).1 hsep ?_ fun n hn => ?_
  · exact iff_of_false (fun hc => ((hcov id').mp hc).2 rfl) hp
  · exact (hcov n).trans (and_iff_left hn)

theorem Inv.freeId (h : s.Inv) (hin : s.phase (kind, id) ≠ .unused) :
    ((s.freeId kind id).setPhase kind id .unused).Inv := by
  have hle := h.within kind id hin
  obtain ⟨hsep, hcov, _⟩ := IDA.free_spec (h.ranges kind) (by decide) hle (h.not_free hin)
  refine h.setId hle hsep ?_ fun n hn => ?_
  · exact iff_of_true ((hcov id).mpr (.inl rfl)) rfl
  · exact (hcov n).trans (or_iff_right hn)

theorem Inv.event (h : s.Inv) {ev : EventReport} (hok : s.Owed (.event ev)) :
    ((s.responseHandler ev).settle ev).Inv := by
  cases hk : ev.destroyedKind with
  | none =>
    simp only [responseHandler, settle, hk]
    exact h.congr rfl rfl
  | some kind =>
    have hgone : s.phase (kind, ev.objId.toNat) = .gone := hok kind hk
    simp only [responseHandler, settle, hk]
    split
    next => exact (h.freeId (hgone ▸ nofun)).congr rfl rfl
    next hne => exact absurd hgone hne

theorem Inv.step (h : s.Inv) (hok : s.Owed op) (hs : s.step op = some t) : t.Inv := by
  cases op with
  | create kind =>
    simp only [ContextIds.step] at hs
    split at hs
    next => exact Option.some.inj hs ▸ h
    next id u ha =>
      split at hs
      all_goals obtain rfl := Option.some.inj hs
      · exact (h.allocId ha (by decide)).insert
      · exact h.allocId ha (by decide)
  | createEnd kind id ok =>
    simp only [ContextIds.step, Option.ite_none_right_eq_some] at hs
    obtain ⟨hphase, hs⟩ := hs
    have hin : s.phase (kind, id) ≠ .unused := hphase ▸ nofun
    split_ifs at hs
    all_goals obtain rfl := Option.some.inj hs
    · exact (h.setPhase hin (by decide)).insert
    · exact h.setPhase hin (by decide)
    · exact h.freeId hin
  | destroy kind id finalized =>
    simp only [ContextIds.step, Option.ite_none_right_eq_some] at hs
    obtain ⟨hphase, hs⟩ := hs
    have hgone : (s.setPhase kind id .gone).Inv := h.setPhase (hphase ▸ nofun) (by decide)
    split_ifs at hs
    all_goals obtain rfl := Option.some.inj hs
    · exact hgone.congr rfl rfl
    · exact hgone
  | event ev =>
    simp only [ContextIds.step, Option.ite_none_left_eq_some] at hs
    exact Option.some.inj hs.2 ▸ h.event hok
  | kill =>
    simp only [ContextIds.step, Option.ite_none_left_eq_some] at hs
    exact Option.some.inj hs.2 ▸ h.congr rfl rfl

/-- When objects are reported destroyed only when the report is owed, no allocator hands out an
id in use or loses one, in every state of the run. -/
theorem no_id_lost {ops : List IdOp} (hm : Exec.Meets step Owed create ops) :
    Exec.Always step NoIdLost create ops :=
  (Exec.always_of_invariant create_inv (fun _ _ _ h hok hs => h.step hok hs) hm).mono
    fun _ h => h.noIdLost

/-- A copy is created and destroyed, and a network that could not be created is reported. -/
theorem no_id_lost_when_destroyed :
    Exec.Always step NoIdLost create
      [.create .copy, .create .devnet, .createEnd .devnet 0 false, .createEnd .copy 0 true,
        .destroy .copy 0 true, .event (.ofCode EventReport.copyDestroyed), .create .copy,
        .event (.ofCode EventReport.devnetDestroyed)] :=
  no_id_lost (by decide)

/-- The creation of a copy fails and its id is given back; then the card reports the copy
destroyed, and the free range shrinks to its id. -/
theorem unknown_copy_destroyed_loses_ids :
    ¬ Exec.Always step NoIdLost create
      [.create .copy, .createEnd .copy 0 false, .event (.ofCode EventReport.copyDestroyed)] := by
  intro h
  have hs := ((h.2 _ rfl).2 _ rfl).2 _ rfl
  rcases (hs.whole .copy 1).mp (by decide) with ⟨r, hr, hle⟩ | hphase
  · obtain rfl : r = (0, 0) := List.mem_singleton.mp hr
    exact absurd hle.2 (by decide)
  · exact hphase rfl

end ContextIds

end NNPIHost

import NNPIHost.Context.Objects
import NNPIHost.Exec.Run

/-! # Lifetimes of the driver's objects

The threads of the API find objects in the handle maps, copy shared pointers out of other
objects, create new objects and put them into the database of their context. The response
thread of a channel takes entries out of the database and, when it ends, resets `m_this` of the
context and then of the channel. Each step here is one such statement, so that the statements of
different threads come in any order. An object is destroyed when its last pointer is dropped.

The response thread has no shared pointer to its channel and its context: it runs on `m_this` of
both. A thread that kills a channel joins the response thread and goes on in its place.
-/

namespace NNPIHost.Lifetime

open Memory Relation Store

/-- `exiting` is set once the handler has returned true: it has reset `m_this` of the context. -/
structure ResponseThread where
  chan : ℕ
  ctx : ℕ
  exiting : Bool
  deriving DecidableEq, Repr

structure State where
  objs : Heap
  /-- The address of the next object. -/
  next : ℕ
  /-- The entries of the handle maps. -/
  handles : List ℕ
  /-- The shared pointers in the local variables of a thread. -/
  held : List (ℕ × ℕ)
  threads : List ResponseThread
  /-- The calls of `nnpiInfContext::create` that have yet to set `m_this` of the context. -/
  creating : List (ℕ × ℕ)
  /-- The objects destroyed so far, in order, with what their destructors did. -/
  destroyed : List (ℕ × Option (List Syscall))

inductive Act
  /-- A weak pointer is locked, that of `nnpiHostProc` or of a device. -/
  | lockWeak (t x : ℕ)
  /-- `nnpiHandleMap::find`. -/
  | find (t x : ℕ)
  /-- A shared pointer is copied out of an object the thread holds. -/
  | load (t y x : ℕ)
  /-- The response thread looks up an entry of its context's database. -/
  | fetch (t ch x : ℕ)
  | new (t : ℕ) (o : Obj)
  /-- `nnpiChannel::create`, up to the start of the response thread or its failure. -/
  | newChannel (t c p d : ℕ) (started : Bool)
  | setThis (t c : ℕ)
  | newRing (t ch h : ℕ)
  | keepRing (t c r : ℕ)
  | insertObj (t c x : ℕ)
  | addDevRes (t n : ℕ) (rs : List ℕ)
  | append (t l x : ℕ)
  | setHostres (t y h : ℕ)
  | resetHostres (y : ℕ)
  | addFailed (x h : ℕ)
  | clearFailed (x : ℕ)
  | pair (t r s : ℕ)
  | unpair (t r : ℕ)
  | makeHandle (t x : ℕ)
  | removeHandle (x : ℕ)
  | endCall (t : ℕ)
  /-- An API thread takes an entry out: a command list that was never finalized. -/
  | removeObj (t c x : ℕ)
  /-- The response thread takes an entry out: the card has destroyed the object. -/
  | eraseObj (ch x : ℕ)
  | clearAll (ch : ℕ)
  | exitHandler (ch : ℕ)
  | exitThread (ch : ℕ)
  deriving DecidableEq, Repr

namespace Obj

def setThis (x : Option ℕ) : Obj → Option Obj
  | channel c => some (channel { c with this := x })
  | infContext c => some (infContext { c with this := x })
  | _ => none

def setChan (ch : ℕ) : Obj → Option Obj
  | infContext c => some (infContext { c with chan := some ch })
  | _ => none

def addRing (r : ℕ) : Obj → Option Obj
  | channel c => some (channel { c with ringbufs := r :: c.ringbufs })
  | infContext c => some (infContext { c with rings := r :: c.rings })
  | _ => none

def insertObj (x : ℕ) : Obj → Option Obj
  | infContext c => some (infContext { c with objdb := x :: c.objdb })
  | _ => none

def eraseObj (x : ℕ) : Obj → Option Obj
  | infContext c => some (infContext { c with objdb := c.objdb.erase x })
  | _ => none

def clearObjs : Obj → Option Obj
  | infContext c => some (infContext { c with objdb := [] })
  | _ => none

def addDevRes (rs : List ℕ) : Obj → Option Obj
  | devNet c rs' => some (devNet c (rs' ++ rs))
  | _ => none

def append (x : ℕ) : Obj → Option Obj
  | commandList c vec failed => some (commandList c (vec ++ [x]) failed)
  | _ => none

def setHostres (h : Option ℕ) : Obj → Option Obj
  | copyCommand c => some (copyCommand { c with hostres := h })
  | _ => none

def addFailed (h : ℕ) : Obj → Option Obj
  | infContext c => some (infContext { c with failedHostres := h :: c.failedHostres })
  | commandList c vec failed => some (commandList c vec (h :: failed))
  | _ => none

def clearFailed : Obj → Option Obj
  | infContext c => some (infContext { c with failedHostres := [] })
  | commandList c vec _ => some (commandList c vec [])
  | _ => none

def setPeer (peer : Option ℕ) : Obj → Option Obj
  | devRes c _ => some (devRes c peer)
  | _ => none

end Obj

namespace State

variable (s : State)

def init : State := ⟨.empty, 0, [], [], [], [], []⟩

/-- The shared pointers outside of objects. -/
def roots : List ℕ := s.handles ++ s.held.map Prod.snd

def kind? (x : ℕ) : Option Kind := s.objs.kind? x

def Holds (t x : ℕ) (k : Kind) : Prop := (t, x) ∈ s.held ∧ s.kind? x = some k

instance (t x : ℕ) (k : Kind) : Decidable (s.Holds t x k) := inferInstanceAs (Decidable (_ ∧ _))

/-- A context with a channel. -/
def HasChan (c : ℕ) : Prop := ∃ o ∈ s.objs.find? c, o.HasChan

instance (c : ℕ) : Decidable (s.HasChan c) := inferInstanceAs (Decidable (∃ o ∈ _, _))

/-- What `new` may create: nothing holds an object of its own, all it refers to is held by the
thread and of the right kind, and an object with a context needs the context's channel. -/
def CanNew (t : ℕ) (o : Obj) : Prop :=
  o.loops = [] ∧ (∀ r ∈ o.down, (t, r.2) ∈ s.held ∧ ∃ k ∈ r.1, s.kind? r.2 = some k) ∧
    (∀ c ∈ o.ctx?, s.HasChan c) ∧
    match o with
    | .hostProc => ∀ e ∈ s.objs.entries, e.2.kind ≠ .hostProc
    | .device n => ∀ e ∈ s.objs.entries, e.2 ≠ .device n
    | .channel _ | .ringBuffer _ => False
    | .infContext c => c = {}
    | .copyCommand c => if c.subres then c.hostres = none ∧ c.srcDevres = none
        else c.hostres.isSome ≠ c.srcDevres.isSome
    | .commandList _ vec failed => vec = [] ∧ failed = []
    | .hostRes _ _ | .devRes _ _ | .devNet _ _ | .infReq _ _ _ => True

instance (t : ℕ) (o : Obj) : Decidable (s.CanNew t o) := by
  unfold CanNew
  cases o <;> infer_instance

/-- A new object, held by the thread. -/
def create (t : ℕ) (o : Obj) : State :=
  { s with objs := s.objs.insert s.next o, next := s.next + 1, held := (t, s.next) :: s.held }

/-- Drop shared pointers that are no longer anywhere. -/
def release (pending : List ℕ) : State :=
  let r := drop Obj.refs destructor s.roots s.objs pending
  { s with objs := r.1, destroyed := s.destroyed ++ r.2 }

/-- Assign to the fields of an object: what it referred to before is dropped. -/
def update (x : ℕ) (f : Obj → Option Obj) : Option State :=
  match s.objs.find? x with
  | none => none
  | some o => (f o).map fun o' => { s with objs := s.objs.insert x o' }.release o.refs

/-- The shared pointers of the objects that a database may hold name their context. -/
def ContextOf (x c : ℕ) : Prop :=
  match s.objs.find? x with
  | some (.infReq n _ _) => (s.objs.find? n).bind Obj.ctx? = some c
  | some (.devNet c' _) | some (.commandList c' _ _) => c' = c
  | some (.copyCommand k) => k.ctx = c
  | _ => False

instance (x c : ℕ) : Decidable (s.ContextOf x c) := by
  unfold ContextOf
  split <;> infer_instance

def ringbufs (c : ℕ) : List ℕ :=
  match s.objs.find? c with
  | some (.infContext k) =>
      match k.chan.bind s.objs.find? with
      | some (.channel ch) => ch.ringbufs
      | _ => []
  | _ => []

/-- The response thread of a channel, when its handler has not returned true. -/
def reading? (ch : ℕ) : Option ResponseThread :=
  s.threads.find? fun th => th.chan = ch ∧ th.exiting = false

/-- `nnpiChannel::create`: the new channel is put into the context, holds itself and the thread
starts. When it cannot start, the channel is destroyed at once. -/
def newChannel (t c p d : ℕ) (started : Bool) : Option State :=
  if s.Holds t c .infContext ∧ s.Holds t p .hostProc ∧ s.Holds t d .device ∧ ¬ s.HasChan c then
    if started then
      let s' := { s with
        objs := s.objs.insert s.next (.channel { this := some s.next, proc := p, dev := d }),
        next := s.next + 1,
        threads := ⟨s.next, c, false⟩ :: s.threads,
        creating := (t, c) :: s.creating }
      s'.update c (Obj.setChan s.next)
    else
      let failed := destructor s.objs (.channel { this := none, proc := p, dev := d })
      some { s with next := s.next + 1, destroyed := s.destroyed ++ [(s.next, failed)] }
  else none

/-- A new ring buffer over a host resource, put into its channel. -/
def newRing (t ch h : ℕ) : Option State :=
  if s.Holds t ch .channel ∧ s.Holds t h .hostRes then
    { s with objs := s.objs.insert s.next (.ringBuffer h), next := s.next + 1 }.update ch
      (Obj.addRing s.next)
  else none

/-- A call ends and its local variables go out of scope. -/
def endCall (t : ℕ) : Option State :=
  if ∃ e ∈ s.creating, e.1 = t then none
  else
    let s' := { s with held := s.held.filter fun e => e.1 ≠ t }
    let ended := s.held.filter fun e => e.1 = t
    some (s'.release (ended.map Prod.snd))

/-- The handler returns true: `m_this` of the context is reset. -/
def exitHandler (ch : ℕ) : Option State :=
  (s.reading? ch).bind fun th =>
    { s with threads := ⟨ch, th.ctx, true⟩ :: s.threads.erase th }.update th.ctx (Obj.setThis none)

/-- The thread ends: `m_this` of its channel is reset. -/
def exitThread (ch : ℕ) : Option State :=
  (s.threads.find? fun th => th.chan = ch ∧ th.exiting = true).bind fun th =>
    { s with threads := s.threads.erase th }.update ch (Obj.setThis none)

def step (s : State) : Act → Option State
  | .lockWeak t x =>
      if s.kind? x = some .hostProc ∨ s.kind? x = some .device then
        some { s with held := (t, x) :: s.held }
      else none
  | .find t x => if x ∈ s.handles then some { s with held := (t, x) :: s.held } else none
  | .load t y x =>
      if (t, y) ∈ s.held ∧ ∃ o ∈ s.objs.find? y, x ∈ o.refs then
        some { s with held := (t, x) :: s.held }
      else none
  | .fetch t ch x =>
      (s.reading? ch).bind fun th =>
        if ∃ o ∈ s.objs.find? th.ctx, x ∈ o.refs then some { s with held := (t, x) :: s.held }
        else none
  | .new t o => if s.CanNew t o then some (s.create t o) else none
  | .newChannel t c p d started => s.newChannel t c p d started
  | .setThis t c =>
      if (t, c) ∈ s.creating then
        { s with creating := s.creating.erase (t, c) }.update c (Obj.setThis (some c))
      else none
  | .newRing t ch h => s.newRing t ch h
  | .keepRing t c r =>
      if s.Holds t c .infContext ∧ r ∈ s.ringbufs c then s.update c (Obj.addRing r) else none
  | .insertObj t c x =>
      if s.Holds t c .infContext ∧ (t, x) ∈ s.held ∧ s.ContextOf x c then
        s.update c (Obj.insertObj x)
      else none
  | .addDevRes t n rs =>
      if s.Holds t n .devNet ∧ ∀ r ∈ rs, s.Holds t r .devRes then s.update n (Obj.addDevRes rs)
      else none
  | .append t l x =>
      if s.Holds t l .commandList ∧ (s.Holds t x .copyCommand ∨ s.Holds t x .infReq) then
        s.update l (Obj.append x)
      else none
  | .setHostres t y h =>
      if s.Holds t y .copyCommand ∧ s.Holds t h .hostRes then s.update y (Obj.setHostres (some h))
      else none
  | .resetHostres y => s.update y (Obj.setHostres none)
  | .addFailed x h =>
      if s.kind? h = some .hostRes then s.update x (Obj.addFailed h) else none
  | .clearFailed x => s.update x Obj.clearFailed
  | .pair t r p =>
      if s.Holds t r .devRes ∧ s.Holds t p .devRes then s.update r (Obj.setPeer (some p)) else none
  | .unpair t r => if s.Holds t r .devRes then s.update r (Obj.setPeer none) else none
  | .makeHandle t x =>
      if (t, x) ∈ s.held then some { s with handles := x :: s.handles } else none
  | .removeHandle x =>
      if x ∈ s.handles then some ({ s with handles := s.handles.erase x }.release [x]) else none
  | .endCall t => s.endCall t
  | .removeObj t c x =>
      if s.Holds t c .infContext then s.update c (Obj.eraseObj x) else none
  | .eraseObj ch x => (s.reading? ch).bind fun th => s.update th.ctx (Obj.eraseObj x)
  | .clearAll ch => (s.reading? ch).bind fun th => s.update th.ctx Obj.clearObjs
  | .exitHandler ch => s.exitHandler ch
  | .exitThread ch => s.exitThread ch

end State

end NNPIHost.Lifetime

import NNPIHost.Context.CriticalError
import NNPIHost.Copy.Table

/-! # Scheduling in a context

Threads schedule copies and command lists while the response thread completes executions,
until an event that ends it or the end of the channel makes it release every copy, record
the error and complete the lists. Calls and the response thread take turns between any two
accesses to what they share. Other contexts and the threads that use a host resource lock it too.
-/

namespace NNPIHost

/-- The elements of a command list, as far as scheduling goes. -/
inductive SchedElem where
  | copy (c : ℕ)
  | copyList (needPrepare : Bool) (cs : List ℕ)
  | infReq
  deriving DecidableEq

namespace SchedElem

/-- What `schedule_done` releases. -/
def copies : SchedElem → List ℕ
  | .copy c => [c]
  | .copyList needPrepare cs => if needPrepare then cs else []
  | .infReq => []

/-- The sub-copies that `prepare_schedule` of a copy list prepares after those in `before`,
each with what it releases when that one is busy: the busy one is released too. -/
def prepareCopies (before : List ℕ) : List ℕ → List (ℕ × List ℕ)
  | [] => []
  | c :: cs => (c, before ++ [c]) :: prepareCopies (before ++ [c]) cs

/-- What `prepare_schedule` prepares, each copy with what it releases when that one is busy. -/
def prepares : SchedElem → List (ℕ × List ℕ)
  | .copy c => [(c, [])]
  | .copyList needPrepare cs => if needPrepare then prepareCopies [] cs else []
  | .infReq => []

end SchedElem

/-- What `schedule` prepares, in order, with what it releases when a copy is busy: `done` are
the copies of the elements before, the last element first. -/
def prepareElems (done : List ℕ) : List SchedElem → List (ℕ × List ℕ)
  | [] => []
  | e :: es =>
      e.prepares.map (fun p => (p.1, p.2 ++ done)) ++ prepareElems (e.copies ++ done) es

/-- The state of a command list that `schedule` tests; `failed` stands for failed commands
or an error list that is not empty. -/
structure SchedList where
  elems : List SchedElem
  finalized : Bool
  inFlight : Bool
  failed : Bool

/-- Where a schedule call stands. -/
inductive Phase where
  | prepare (todo : List (ℕ × List ℕ))
  /-- The lock of the copy is taken, its mark is not set yet. -/
  | mark (c : ℕ) (todo : List (ℕ × List ℕ))
  /-- One message and some more are to be written. -/
  | send (more : ℕ)
  | release (cs : List ℕ)
  /-- The mark of the copy was seen, it is not taken away yet. -/
  | found (c : ℕ) (cs : List ℕ)
  /-- The mark of the copy is taken away, its lock is not released yet. -/
  | unlock (c : ℕ) (cs : List ℕ)
  deriving DecidableEq

structure SchedCall where
  /-- The command list that is scheduled, if it is not a single copy. -/
  list : Option ℕ
  /-- The copies that are released when a message cannot be written. -/
  copies : List ℕ
  /-- The messages after the first one. -/
  more : ℕ
  phase : Phase
  deriving DecidableEq

/-- Where the response thread stands; it has handled the fatal event when it is `done`. -/
inductive Handler where
  | idle
  /-- An execution has ended and the mark of its copy was seen. -/
  | found (c : ℕ) (failed : Bool)
  | finish (c : ℕ)
  /-- Releases the copies that are left before it records the event, if it is not a kill. -/
  | visit (todo : List ℕ) (ev : Option EventReport)
  | see (c : ℕ) (todo : List ℕ) (ev : Option EventReport)
  | unlock (c : ℕ) (todo : List ℕ) (ev : Option EventReport)
  | complete
  | done
  deriving DecidableEq

structure SchedState where
  critical : EventReport
  killed : Bool
  /-- The copies that can be scheduled. -/
  ids : List ℕ
  table : CopyTable
  /-- The modes in which each host resource is locked by others than the copies. -/
  others : ℕ → List Bool
  lists : ℕ → SchedList
  calls : List SchedCall
  handler : Handler
  /-- The copies that the fatal event has been handled for. -/
  visited : List ℕ

inductive SchedOp where
  | scheduleCopy (c size : ℕ)
  | scheduleList (l more : ℕ)
  | proceed (call : SchedCall)
  | write (call : SchedCall) (ok : Bool)
  | respond
  | fatal (ev : EventReport)
  | kill
  | complete (c : ℕ) (failed : Bool)
  | completeList (l : ℕ)
  | setFailed (l : ℕ) (failed : Bool)
  | setCritical (ev : EventReport)
  | lockOther (k : ℕ) (forWrite : Bool)
  | unlockOther (k : ℕ) (forWrite : Bool)
  | updateCopyFailCount (k : ℕ) (n : ℤ)

namespace SchedState

open Function (update)

def setInFlight (s : SchedState) (l : ℕ) (b : Bool) : SchedState :=
  { s with lists := update s.lists l { s.lists l with inFlight := b } }

def add (s : SchedState) (call : SchedCall) : SchedState := { s with calls := call :: s.calls }

/-- A call that scheduled nothing returns. -/
def giveUp (s : SchedState) (call : SchedCall) : SchedState :=
  match call.list with
  | none => s
  | some l => s.setInFlight l false

/-- The next step of a call that is taken out of the state, unless it is to write. -/
def proceed (s : SchedState) (call : SchedCall) : Option SchedState :=
  match call.phase with
  | .prepare [] =>
      if s.critical.broken then some (s.add { call with phase := .release call.copies })
      else some (s.add { call with phase := .send call.more })
  | .prepare ((c, undo) :: todo) =>
      match s.table.lock c with
      | (ret, table) =>
        if ret = .noError then some ({ s with table }.add { call with phase := .mark c todo })
        else some ({ s with table }.add { call with phase := .release undo })
  | .mark c todo =>
      some ({ s with table := s.table.mark c }.add { call with phase := .prepare todo })
  | .send _ => none
  | .release [] => some (s.giveUp call)
  | .release (c :: cs) =>
      if s.table.scheduled c then some (s.add { call with phase := .found c cs })
      else some (s.add { call with phase := .release cs })
  | .found c cs =>
      some ({ s with table := s.table.unmark c false }.add { call with phase := .unlock c cs })
  | .unlock c cs =>
      some ({ s with table := s.table.unlock c }.add { call with phase := .release cs })

/-- The call writes its next message; a killed channel writes nothing. -/
def write (s : SchedState) (call : SchedCall) (ok : Bool) : Option SchedState :=
  match call.phase with
  | .send more =>
      if ¬ ok ∨ s.killed then some (s.add { call with phase := .release call.copies })
      else
        match more with
        | 0 => some s
        | more + 1 => some (s.add { call with phase := .send more })
  | _ => none

/-- What the response thread does with its last event once it has released the copies. -/
def record (s : SchedState) : Option EventReport → SchedState
  | some ev => { s with critical := s.critical.recordFatalDrv ev, handler := .complete }
  | none => { s with
      critical := s.critical.setKilled
      handler := if s.critical.cardFatal then .done else .complete }

/-- The next step of the response thread. -/
def respond (s : SchedState) : Option SchedState :=
  match s.handler with
  | .idle | .done => none
  | .found c failed => some { s with table := s.table.unmark c failed, handler := .finish c }
  | .finish c => some { s with table := s.table.unlock c, handler := .idle }
  | .visit [] ev => some (s.record ev)
  | .visit (c :: cs) ev =>
      if s.table.scheduled c then some { s with handler := .see c cs ev }
      else some { s with handler := .visit cs ev, visited := c :: s.visited }
  | .see c cs ev => some { s with
      table := s.table.unmark c true, handler := .unlock c cs ev, visited := c :: s.visited }
  | .unlock c cs ev => some { s with table := s.table.unlock c, handler := .visit cs ev }
  | .complete => some { s with
      lists := fun l => { s.lists l with inFlight := false }, handler := .done }

def step (s : SchedState) : SchedOp → Option SchedState
  | .scheduleCopy c size =>
      if c ∈ s.ids then
        let copy := (s.table.slots c).copy
        match copy.scheduleTest (s.table.hostres c) (¬ s.critical.broken) size with
        | some _ => some s
        | none => some (s.add ⟨none, [c], 0, .prepare [(c, [])]⟩)
      else none
  | .scheduleList l more =>
      let list := s.lists l
      let copies := list.elems.flatMap SchedElem.copies
      if ∀ c ∈ copies, c ∈ s.ids then
        if ¬ list.finalized ∨ list.inFlight ∨ list.failed ∨ s.critical.broken then some s
        else some ((s.setInFlight l true).add
          ⟨some l, copies, more, .prepare (prepareElems [] list.elems)⟩)
      else none
  | .proceed call =>
      if call ∈ s.calls then { s with calls := s.calls.erase call }.proceed call else none
  | .write call ok =>
      if call ∈ s.calls then { s with calls := s.calls.erase call }.write call ok else none
  | .respond => s.respond
  | .fatal ev =>
      if s.handler = .idle ∧ ev.isCardFatalDrvEvent then
        some { s with handler := .visit s.ids (some ev) }
      else none
  | .kill =>
      if s.handler = .idle then some { s with killed := true, handler := .visit s.ids none }
      else none
  | .complete c failed =>
      if s.handler = .idle then
        if s.table.scheduled c then some { s with handler := .found c failed } else some s
      else none
  | .completeList l => some (s.setInFlight l false)
  | .setFailed l failed =>
      some { s with lists := update s.lists l { s.lists l with failed } }
  | .setCritical ev => some { s with critical := ev }
  | .lockOther k w =>
      match (s.table.res k).lockDeviceAccess w with
      | (ret, r) =>
        if ret = .noError then some { s with
          table := s.table.setRes k r, others := update s.others k (w :: s.others k) }
        else some s
  | .unlockOther k w =>
      if w ∈ s.others k then some { s with
        table := s.table.setRes k ((s.table.res k).unlockDeviceAccess w)
        others := update s.others k ((s.others k).erase w) }
      else none
  | .updateCopyFailCount k n =>
      some { s with table := s.table.setRes k ((s.table.res k).updateCopyFailCount n) }

end SchedState

end NNPIHost

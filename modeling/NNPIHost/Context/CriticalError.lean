import NNPIHost.Exec.Run
import NNPIHost.Ipc.Events

/-! # The critical error of a context

The response thread records fatal events in `m_critical_error`, and callers that wait for the
error or recover from it take it away and put it back. The first error is kept, so an event
that ends the response thread is lost behind a milder error that was there before it.
-/

namespace NNPIHost

namespace EventReport

def abortRequest : BitVec 7 := 26

def contextDestroyed : BitVec 7 := 10

def contextExecError : BitVec 7 := 104

def errorChannelKilled : BitVec 7 := 123

variable (e ev : EventReport)

/-- `broken`, of the recorded error. -/
def broken : Bool := e ≠ zero

def aborted : Bool := e.eventCode = abortRequest

def cardFatal : Bool := e.broken && e.isCardFatalDrvEvent

/-- How the response thread records an event after which it exits. -/
def recordFatalDrv : EventReport := if e.broken then e else ev

/-- How it records the other fatal events and aborts. -/
def recordFatal : EventReport := if ¬ e.broken ∨ ev.eventCode = abortRequest then ev else e

/-- `set_killed` writes two fields of the recorded error, whatever it is. -/
def setKilled : EventReport := { e with opcode := 4, eventCode := errorChannelKilled }

/-- The part of `response_handler` that records errors, and whether the thread exits. -/
def responseHandler : EventReport × Bool :=
  if ev.isCardFatalDrvEvent then (e.recordFatalDrv ev, true)
  else if ev.isCardFatalEvent ∨ ev.isContextFatalEvent ∨ ev.eventCode = abortRequest then
    (e.recordFatal ev, false)
  else (e, ev.eventCode = contextDestroyed)

@[simp] theorem not_broken_zero : zero.broken = false := rfl

variable {e ev}

theorem broken_of_drv (h : e.isCardFatalDrvEvent = true) : e.broken = true := by
  apply decide_eq_true
  intro hzero
  rw [hzero] at h
  cases h

theorem cardFatal_eq : e.cardFatal = e.isCardFatalDrvEvent := by
  cases h : e.isCardFatalDrvEvent
  · rw [cardFatal, h, Bool.and_false]
  · rw [cardFatal, h, broken_of_drv h, Bool.and_true]

theorem broken_of_cardFatal (h : e.cardFatal = true) : e.broken = true :=
  broken_of_drv (cardFatal_eq ▸ h)

theorem cardFatal_setKilled : e.setKilled.cardFatal = true := cardFatal_eq.trans rfl

/-- A card-fatal driver event is recorded as such unless a milder error was there first. -/
theorem cardFatal_recordFatalDrv (h : ev.isCardFatalDrvEvent = true) :
    (e.recordFatalDrv ev).cardFatal = true ↔ (e.broken = true → e.cardFatal = true) := by
  unfold recordFatalDrv
  split
  next hb => exact ⟨fun hc _ => hc, fun hc => hc hb⟩
  next hb => exact iff_of_true (cardFatal_eq.trans h) fun hb' => absurd hb' hb

theorem broken_of_eventCode (h : e.eventCode ≠ 0) : e.broken = true := by
  apply decide_eq_true
  rintro rfl
  exact h rfl

theorem broken_of_aborted (h : e.aborted = true) : e.broken = true := by
  apply broken_of_eventCode
  rw [of_decide_eq_true h]
  decide

theorem broken_setKilled : e.setKilled.broken = true := broken_of_cardFatal cardFatal_setKilled

/-- No event takes the recorded error away. -/
theorem broken_responseHandler (h : e.broken = true) : (e.responseHandler ev).1.broken = true := by
  unfold responseHandler
  split
  next =>
    rw [recordFatalDrv, if_pos h]
    exact h
  next =>
    split
    next =>
      unfold recordFatal
      split
      next hev =>
        have hcode := hev.resolve_left fun hno => hno h
        apply broken_of_eventCode
        rw [hcode]
        decide
      next => exact h
    next => exact h

end EventReport

/-- What a call does when it has cleared the error that it read. -/
inductive AfterClear where
  | query
  | recover
  | timeOut
  deriving DecidableEq

/-- A call that has read the error and is about to clear it. -/
structure PendingClear where
  saved : EventReport
  next : AfterClear
  deriving DecidableEq

/-- Where a call of `recover` is, after it has found the context broken. -/
inductive RecoverTest where
  | cardFatal
  | aborted
  | save
  deriving DecidableEq

/-- The recorded error, with what the calls hold that took it away. The accesses of a call are
steps of their own: a wait that timed out makes them without the mutex of the queue, and unlocks it
between those of another call. -/
structure CriticalState where
  critical : EventReport
  exited : Bool
  /-- The calls of `waitCriticalError` whose wait is over, with whether it found an error. -/
  reads : List Bool
  recovers : List RecoverTest
  clears : List PendingClear
  /-- The errors that calls of `waitCriticalError` query and put back. -/
  queries : List EventReport
  /-- The errors that calls of `recover` put back when they fail. -/
  recoveries : List EventReport
  /-- The errors that calls put back which have found none. -/
  restores : List EventReport
  /-- Whether an event after which the thread exits has been handled. -/
  fatalHandled : Bool
  deriving DecidableEq

inductive CriticalOp where
  | event (ev : EventReport)
  | kill
  | waitFound
  | waitTimeout
  | read (found : Bool)
  | recover
  | recoverTest (test : RecoverTest)
  | clear (c : PendingClear)
  | queryEnd (saved : EventReport) (sent : Bool)
  | recoverEnd (saved : EventReport) (ok : Bool)
  | restore (saved : EventReport)

namespace CriticalState

open EventReport

def create : CriticalState := ⟨zero, false, [], [], [], [], [], [], false⟩

variable (s : CriticalState)

/-- `waitCriticalError`, after its wait: it reads the error, and takes an execution error away. -/
def read (found : Bool) : CriticalState :=
  let s := { s with reads := s.reads.erase found }
  if s.critical.eventCode = contextExecError then
    { s with clears := ⟨s.critical, if found then .query else .timeOut⟩ :: s.clears }
  else s

/-- One access of `recover`; it returns when a test is true. -/
def recoverTest (test : RecoverTest) : CriticalState :=
  let s := { s with recovers := s.recovers.erase test }
  match test with
  | .cardFatal =>
      if s.critical.cardFatal then s else { s with recovers := .aborted :: s.recovers }
  | .aborted => if s.critical.aborted then s else { s with recovers := .save :: s.recovers }
  | .save => { s with clears := ⟨s.critical, .recover⟩ :: s.clears }

def clear (c : PendingClear) : CriticalState :=
  let s := { s with critical := zero, clears := s.clears.erase c }
  match c.next with
  | .query => { s with queries := c.saved :: s.queries }
  | .recover => { s with recoveries := c.saved :: s.recoveries }
  | .timeOut => s

/-- A call is about to put its error back if it finds none. -/
def putBack (saved : EventReport) : CriticalState :=
  if s.critical.broken then s else { s with restores := saved :: s.restores }

def step (s : CriticalState) : CriticalOp → Option CriticalState
  | .event ev =>
      if s.exited then none
      else
        match s.critical.responseHandler ev with
        | (critical, exited) => some { s with
            critical, exited, fatalHandled := s.fatalHandled || ev.isCardFatalDrvEvent }
  | .kill => some { s with critical := s.critical.setKilled, exited := true }
  | .waitFound => if s.critical.broken then some { s with reads := true :: s.reads } else none
  | .waitTimeout => if s.critical.broken then none else some { s with reads := false :: s.reads }
  | .read found => if found ∈ s.reads then some (s.read found) else none
  | .recover =>
      if s.critical.broken then some { s with recovers := .cardFatal :: s.recovers } else some s
  | .recoverTest test => if test ∈ s.recovers then some (s.recoverTest test) else none
  | .clear c => if c ∈ s.clears then some (s.clear c) else none
  | .queryEnd saved sent =>
      if saved ∈ s.queries then
        let s := { s with queries := s.queries.erase saved }
        some (if sent then s.putBack saved else s)
      else none
  | .recoverEnd saved ok =>
      if saved ∈ s.recoveries then
        let s := { s with recoveries := s.recoveries.erase saved }
        some (if ok then s else s.putBack saved)
      else none
  | .restore saved =>
      if saved ∈ s.restores then
        some { s with critical := saved, restores := s.restores.erase saved }
      else none

/-- Once the event has been handled, `card_fatal` is true. -/
def StaysFatal (s : CriticalState) : Prop := s.fatalHandled = true → s.critical.cardFatal = true

/-- The event finds no milder error recorded, and after it no call clears the error or puts a
milder one back. -/
def Kept (s : CriticalState) : CriticalOp → Prop
  | .event ev => s.exited = false → ev.isCardFatalDrvEvent = true →
      s.critical.broken = true → s.critical.cardFatal = true
  | .clear c => c ∈ s.clears → s.fatalHandled = false
  | .restore saved => saved ∈ s.restores → s.fatalHandled = true → saved.cardFatal = true
  | _ => True

instance (s : CriticalState) : Decidable s.StaysFatal := inferInstanceAs (Decidable (_ → _))

instance (s : CriticalState) : DecidablePred s.Kept := fun op => by
  unfold Kept
  split <;> infer_instance

/-- After the event the response thread handles no other. -/
def Inv (s : CriticalState) : Prop := s.fatalHandled = true → s.exited = true

/-- The steps of calls that leave the error as it is. -/
def Quiet (s t : CriticalState) : Prop :=
  t.critical = s.critical ∧ t.exited = s.exited ∧ t.fatalHandled = s.fatalHandled

variable {s} {t : CriticalState} {op : CriticalOp}

theorem quiet_read (found : Bool) : Quiet s (s.read found) := by
  unfold read
  dsimp only
  split <;> exact ⟨rfl, rfl, rfl⟩

theorem quiet_recoverTest (test : RecoverTest) : Quiet s (s.recoverTest test) := by
  unfold recoverTest
  cases test with
  | save => exact ⟨rfl, rfl, rfl⟩
  | _ => dsimp only; split <;> exact ⟨rfl, rfl, rfl⟩

theorem quiet_putBack (saved : EventReport) : Quiet s (s.putBack saved) := by
  unfold putBack
  split <;> exact ⟨rfl, rfl, rfl⟩

theorem clear_eq (c : PendingClear) : (s.clear c).critical = zero ∧
    (s.clear c).exited = s.exited ∧ (s.clear c).fatalHandled = s.fatalHandled := by
  unfold clear
  cases c.next <;> exact ⟨rfl, rfl, rfl⟩

theorem step_cases (hs : s.step op = some t) :
    (∃ ev, op = .event ev ∧ s.exited = false ∧
      t.critical = (s.critical.responseHandler ev).1 ∧
      t.exited = (s.critical.responseHandler ev).2 ∧
      t.fatalHandled = (s.fatalHandled || ev.isCardFatalDrvEvent)) ∨
    (op = .kill ∧ t.critical = s.critical.setKilled ∧ t.exited = true ∧
      t.fatalHandled = s.fatalHandled) ∨
    (∃ c, op = .clear c ∧ c ∈ s.clears ∧ t.critical = zero ∧ t.exited = s.exited ∧
      t.fatalHandled = s.fatalHandled) ∨
    (∃ saved, op = .restore saved ∧ saved ∈ s.restores ∧ t.critical = saved ∧
      t.exited = s.exited ∧ t.fatalHandled = s.fatalHandled) ∨
    Quiet s t ∧ s.Kept op := by
  cases op with
  | event ev =>
    obtain ⟨hexit, hs⟩ := Option.ite_none_left_eq_some.mp hs
    obtain rfl := Option.some.inj hs
    exact .inl ⟨ev, rfl, Bool.eq_false_iff.mpr hexit, rfl, rfl, rfl⟩
  | kill =>
    obtain rfl := Option.some.inj hs
    exact .inr (.inl ⟨rfl, rfl, rfl, rfl⟩)
  | clear c =>
    obtain ⟨hc, hs⟩ := Option.ite_none_right_eq_some.mp hs
    obtain rfl := Option.some.inj hs
    exact .inr (.inr (.inl ⟨c, rfl, hc, clear_eq c⟩))
  | restore saved =>
    obtain ⟨hmem, hs⟩ := Option.ite_none_right_eq_some.mp hs
    obtain rfl := Option.some.inj hs
    exact .inr (.inr (.inr (.inl ⟨saved, rfl, hmem, rfl, rfl, rfl⟩)))
  | waitFound =>
    obtain ⟨_, hs⟩ := Option.ite_none_right_eq_some.mp hs
    obtain rfl := Option.some.inj hs
    exact .inr (.inr (.inr (.inr ⟨⟨rfl, rfl, rfl⟩, trivial⟩)))
  | waitTimeout =>
    obtain ⟨_, hs⟩ := Option.ite_none_left_eq_some.mp hs
    obtain rfl := Option.some.inj hs
    exact .inr (.inr (.inr (.inr ⟨⟨rfl, rfl, rfl⟩, trivial⟩)))
  | read found =>
    obtain ⟨_, hs⟩ := Option.ite_none_right_eq_some.mp hs
    obtain rfl := Option.some.inj hs
    exact .inr (.inr (.inr (.inr ⟨quiet_read found, trivial⟩)))
  | recover =>
    simp only [step] at hs
    split at hs <;> obtain rfl := Option.some.inj hs
    all_goals exact .inr (.inr (.inr (.inr ⟨⟨rfl, rfl, rfl⟩, trivial⟩)))
  | recoverTest test =>
    obtain ⟨_, hs⟩ := Option.ite_none_right_eq_some.mp hs
    obtain rfl := Option.some.inj hs
    exact .inr (.inr (.inr (.inr ⟨quiet_recoverTest test, trivial⟩)))
  | queryEnd saved sent =>
    obtain ⟨_, hs⟩ := Option.ite_none_right_eq_some.mp hs
    obtain rfl := Option.some.inj hs
    refine .inr (.inr (.inr (.inr ⟨?_, trivial⟩)))
    split
    · exact quiet_putBack saved
    · exact ⟨rfl, rfl, rfl⟩
  | recoverEnd saved ok =>
    obtain ⟨_, hs⟩ := Option.ite_none_right_eq_some.mp hs
    obtain rfl := Option.some.inj hs
    refine .inr (.inr (.inr (.inr ⟨?_, trivial⟩)))
    split
    · exact ⟨rfl, rfl, rfl⟩
    · exact quiet_putBack saved

/-- The other events leave the error as it is. -/
theorem critical_of_not_fatal {ev : EventReport} (hs : s.step (.event ev) = some t)
    (hev : ¬ (ev.isCardFatalEvent ∨ ev.isContextFatalEvent ∨ ev.eventCode = abortRequest)) :
    t.critical = s.critical := by
  have hdrv : ¬ ev.isCardFatalDrvEvent = true := by
    intro hdrv
    have hcode : 120 ≤ ev.eventCode.toNat := of_decide_eq_true hdrv
    exact hev (.inl (decide_eq_true (Nat.le_trans (by decide) hcode)))
  rcases step_cases hs with ⟨ev', heq, -, hc, -⟩ | ⟨heq, -⟩ | ⟨c, heq, -⟩ | ⟨saved, heq, -⟩ |
    ⟨⟨hc, -⟩, -⟩
  · obtain rfl := CriticalOp.event.inj heq
    rw [hc, responseHandler, if_neg hdrv, if_neg hev]
  · cases heq
  · cases heq
  · cases heq
  · exact hc

theorem Inv.step (h : s.Inv) (hs : s.step op = some t) : t.Inv := by
  rcases step_cases hs with ⟨ev, -, hexit, -, hx, hf⟩ | ⟨-, -, hx, -⟩ | ⟨c, -, -, -, hx, hf⟩ |
    ⟨saved, -, -, -, hx, hf⟩ | ⟨⟨-, hx, hf⟩, -⟩
  · intro ht
    rw [hf, Bool.or_eq_true] at ht
    rcases ht with ht | hdrv
    · rw [h ht] at hexit
      cases hexit
    · simp [hx, responseHandler, hdrv]
  · exact fun _ => hx
  all_goals
    rw [Inv, hx, hf]
    exact h

/-- A step keeps the context card-fatal exactly if it meets the condition. -/
theorem staysFatal_step (h : s.Inv) (hf : s.StaysFatal) (hs : s.step op = some t) :
    t.StaysFatal ↔ s.Kept op := by
  rcases step_cases hs with ⟨ev, rfl, hexit, hc, -, hfatal⟩ | ⟨rfl, hc, -, -⟩ |
    ⟨c, rfl, hmem, hc, -, hfatal⟩ | ⟨saved, rfl, hmem, hc, -, hfatal⟩ | ⟨⟨hc, -, hfatal⟩, hok⟩
  · have hnot : s.fatalHandled = false := by
      cases hfh : s.fatalHandled
      · rfl
      · rw [h hfh] at hexit
        cases hexit
    rw [StaysFatal, hc, hfatal, hnot, Bool.false_or]
    cases hdrv : ev.isCardFatalDrvEvent with
    | true =>
      have hiff := cardFatal_recordFatalDrv (e := s.critical) hdrv
      simpa [Kept, responseHandler, hdrv, hexit] using hiff
    | false => simp [Kept, hdrv]
  · refine iff_of_true (fun _ => ?_) trivial
    rw [hc]
    exact cardFatal_setKilled
  · simp [StaysFatal, Kept, hmem, hc, hfatal, cardFatal]
  · simp [StaysFatal, Kept, hmem, hc, hfatal]
  · rw [StaysFatal, hc, hfatal]
    exact iff_of_true hf hok

theorem kept_of_disabled (hs : s.step op = none) : s.Kept op := by
  cases op with
  | event ev =>
    intro hexit
    simp [CriticalState.step, hexit] at hs
  | clear c =>
    intro hc
    simp [CriticalState.step, hc] at hs
  | restore saved =>
    intro hmem
    simp [CriticalState.step, hmem] at hs
  | _ => trivial

/-- In every state of a run the context stays card-fatal after the event, exactly when the event
finds no milder error, and no call clears the error or puts a milder one back after it. -/
theorem stays_card_fatal (ops : List CriticalOp) :
    Exec.Always step StaysFatal create ops ↔ Exec.Meets step Kept create ops :=
  Exec.always_iff_meets (I := Inv) nofun nofun
    (fun _ _ _ h hf hs => ⟨h.step hs, staysFatal_step h hf hs⟩)
    fun _ _ _ _ hs => kept_of_disabled hs

/-- The runtime dies, and then the card is reset: the reset is not recorded. -/
theorem milder_error_hides_reset :
    ¬ Exec.Always step StaysFatal create [.event (ofCode 97), .event (ofCode 122)] := by
  decide

end CriticalState

end NNPIHost

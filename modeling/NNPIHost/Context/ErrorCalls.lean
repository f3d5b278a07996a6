import NNPIHost.Context.CriticalInfo

/-! # Waiting for a critical error and recovering from it

A thread in `waitCriticalError` and one in `recover`, with the response thread between their
steps. Both take an execution error out of the context, query the error list that they share,
and put the error back. Each of their accesses is a step of its own, because a wait that timed out
reads and clears the error without the mutex of the queue, and then unlocks it.
-/

namespace NNPIHost

/-- What a call of `waitCriticalError` returns, with what its caller is told. -/
structure WaitReturn where
  ret : NNPError
  info : CriticalErrorInfo
  /-- A call with timeout 0 that found no error. -/
  poll : Bool
  /-- How the query of the error list went, if there was one. -/
  query : Option NNPError
  /-- Whether the context was broken. -/
  broken : Bool
  deriving DecidableEq

/-- Where a thread is in `waitCriticalError`, with the error that it found. -/
inductive WaitCall where
  | idle
  | waiting (timeoutUs : UInt32)
  | expired (timeoutUs : UInt32)
  | stale (timeoutUs : UInt32)
  | reading
  | found (saved : EventReport)
  | taking (saved : EventReport)
  | taken (saved : EventReport)
  | cleared (saved : EventReport)
  | asking (saved : EventReport)
  | asked (saved : EventReport)
  | woken (saved : EventReport)
  | unbroken (saved : EventReport)
  | parsing (saved : EventReport)
  | restoring (saved : EventReport) (query : NNPError) (info : CriticalErrorInfo)
  | storing (saved : EventReport) (query : NNPError) (info : CriticalErrorInfo)
  | returned (r : WaitReturn)
  deriving DecidableEq

/-- The error that the thread takes out of the context, and puts back. -/
def WaitCall.saved? : WaitCall → Option EventReport
  | .taking saved | .taken saved | .cleared saved | .asking saved | .asked saved | .woken saved
  | .unbroken saved | .parsing saved | .restoring saved _ _ | .storing saved _ _ => some saved
  | .idle | .waiting _ | .expired _ | .stale _ | .reading | .found _ | .returned _ => none

/-- What a call of `recover` returns. -/
structure RecoverReturn where
  ret : NNPError
  /-- Whether the card has acknowledged the clear request of the call. -/
  acked : Bool
  /-- Whether the context was broken. -/
  broken : Bool
  deriving DecidableEq

/-- Where a thread is in `recover`, with the error that it took out of the context. -/
inductive RecoverCall where
  | idle
  | testing
  | unfatal
  | saving
  | clearing (saved : EventReport)
  | taken (saved : EventReport)
  | asking (saved : EventReport)
  | asked (saved : EventReport)
  | woken (saved : EventReport)
  | unbroken (saved : EventReport)
  | restoring (saved : EventReport) (ret : NNPError)
  | storing (saved : EventReport) (ret : NNPError)
  /-- What the call returns is determined, it has not returned yet. -/
  | leaving (ret : NNPError)
  | returned (r : RecoverReturn)
  deriving DecidableEq

namespace RecoverCall

/-- The clear request is written, and its reply is not evaluated. -/
def written : RecoverCall → Bool
  | .asked _ | .woken _ | .unbroken _ => true
  | _ => false

/-- The error list waits for the reply to the call. -/
def pending : RecoverCall → Bool
  | .asking _ | .asked _ | .woken _ | .unbroken _ => true
  | _ => false

end RecoverCall

/-- The context with the two threads. -/
structure ErrorCalls (H : Type*) where
  critical : EventReport
  exited : Bool
  errorList : ExecErrorList H
  waiter : WaitCall
  recoverer : RecoverCall
  /-- Whether the context was broken when `waitCriticalError` was called. -/
  waitBroken : Bool
  /-- An error was recorded, and no clear request has been acknowledged since. -/
  unrecovered : Bool
  /-- Whether this was so when `recover` was called. -/
  recoverNeeded : Bool
  /-- Whether the card has acknowledged the clear request of the call of `recover`. -/
  acked : Bool

inductive ErrorCallsOp where
  | event (ev : EventReport)
  | kill
  | packet (fresh : Option (ℕ → UInt8)) (packet : Option (List UInt8)) (totalSize : ℕ)
      (errorEventVal : UInt16)
  /-- A clear request is acknowledged, that of the call of `recover` or another. -/
  | clearAck (own : Bool)
  | waitCall (timeoutUs : UInt32)
  | waitExpire
  /-- The next step of `waitCriticalError`; `written` is for the write of its query. -/
  | waitNext (written : Bool) (handles : UserHandles)
  | recoverCall
  | recoverNext (written : Bool)

/-- The labels of `waitCriticalError`. -/
def ErrorCallsOp.ofWait : ErrorCallsOp → Bool
  | .waitCall _ | .waitExpire | .waitNext _ _ => true
  | .event _ | .kill | .packet _ _ _ _ | .clearAck _ | .recoverCall | .recoverNext _ => false

/-- Those of `recover`. -/
def ErrorCallsOp.ofRecover : ErrorCallsOp → Bool
  | .recoverCall | .recoverNext _ => true
  | .event _ | .kill | .packet _ _ _ _ | .clearAck _ | .waitCall _ | .waitExpire
  | .waitNext _ _ => false

namespace ErrorCalls

open EventReport

variable {H : Type*}

/-- A context before the two calls. -/
def create (critical : EventReport) (exited : Bool) (errorList : ExecErrorList H)
    (unrecovered : Bool) : ErrorCalls H :=
  ⟨critical, exited, errorList, .idle, .idle, false, unrecovered, false, false⟩

variable (s : ErrorCalls H)

/-- An error that the response thread has recorded is not recovered. -/
def record (critical : EventReport) (exited : Bool) : ErrorCalls H :=
  { s with critical, exited, unrecovered := s.unrecovered || critical.broken }

def returnWait (ret : NNPError) (info : CriticalErrorInfo) (poll : Bool)
    (query : Option NNPError) : ErrorCalls H :=
  { s with waiter := .returned ⟨ret, info, poll, query, s.critical.broken⟩ }

/-- The return of a wait that timed out. -/
def returnExpired (timeoutUs : UInt32) : ErrorCalls H :=
  s.returnWait (if 0 < timeoutUs then .timedOut else .noError)
    { CriticalErrorInfo.empty with nnpCriticalError := some .noError } (timeoutUs = 0) none

/-- One step of `waitCriticalError`. -/
def waitNext (written : Bool) (handles : UserHandles) : Option (ErrorCalls H) :=
  match s.waiter with
  | .idle | .returned _ => none
  | .waiting _ => if s.critical.broken then some { s with waiter := .reading } else none
  | .expired timeoutUs =>
      if s.critical.eventCode = contextExecError then some { s with waiter := .stale timeoutUs }
      else some (s.returnExpired timeoutUs)
  | .stale timeoutUs => some ({ s with critical := zero }.returnExpired timeoutUs)
  | .reading =>
      if s.critical.eventCode = contextExecError then some { s with waiter := .taking s.critical }
      else some { s with waiter := .found s.critical }
  | .found saved =>
      some (s.returnWait .noError (.parseErrorEvent handles saved .empty) false none)
  | .taking saved => some { s with critical := zero, waiter := .taken saved }
  | .taken saved => some { s with errorList := s.errorList.clear, waiter := .cleared saved }
  | .cleared saved => some { s with errorList := s.errorList.startQuery, waiter := .asking saved }
  | .asking saved =>
      if written then some { s with waiter := .asked saved }
      else some (s.returnWait .ioError .empty false (some .ioError))
  | .asked saved =>
      if s.errorList.queryCompleted ∨ s.critical.broken then some { s with waiter := .woken saved }
      else none
  | .woken saved =>
      if s.critical.broken then
        some { s with waiter := .restoring saved .contextBroken .empty }
      else some { s with waiter := .unbroken saved }
  | .unbroken saved =>
      let ret := eventValToNNPError s.errorList.completionEventVal.toNat
      if ret = .noError then some { s with waiter := .parsing saved }
      else some { s with waiter := .restoring saved ret .empty }
  | .parsing saved =>
      some { s with
        waiter := .restoring saved .noError (.parseExecError handles s.errorList 0 .empty) }
  -- The result of the query is in an inner variable of the same name; the outer one returns.
  | .restoring saved query info =>
      if s.critical.broken then some (s.returnWait .noError info false (some query))
      else some { s with waiter := .storing saved query info }
  | .storing saved query info =>
      some ({ s with critical := saved }.returnWait .noError info false (some query))

def leaveRecover (ret : NNPError) : ErrorCalls H := { s with recoverer := .leaving ret }

/-- The first test of `recover`. -/
def recoverCall : ErrorCalls H :=
  let s := { s with recoverNeeded := s.unrecovered, acked := false }
  if ¬ s.critical.broken then s.leaveRecover .noError else { s with recoverer := .testing }

/-- One step of `recover` after that. -/
def recoverNext (written : Bool) : Option (ErrorCalls H) :=
  match s.recoverer with
  | .idle | .returned _ => none
  | .testing =>
      if s.critical.cardFatal then some (s.leaveRecover .deviceError)
      else some { s with recoverer := .unfatal }
  | .unfatal =>
      if s.critical.aborted then some (s.leaveRecover .contextBroken)
      else some { s with recoverer := .saving }
  | .saving => some { s with recoverer := .clearing s.critical }
  | .clearing saved => some { s with critical := zero, recoverer := .taken saved }
  | .taken saved =>
      some { s with errorList := s.errorList.startQuery, recoverer := .asking saved }
  | .asking saved =>
      if written then some { s with recoverer := .asked saved }
      else some { s with recoverer := .restoring saved .ioError }
  | .asked saved =>
      if s.errorList.queryCompleted ∨ s.critical.broken then
        some { s with recoverer := .woken saved }
      else none
  | .woken saved =>
      if s.critical.broken then some { s with recoverer := .restoring saved .contextBroken }
      else some { s with recoverer := .unbroken saved }
  | .unbroken saved =>
      some { s with
        recoverer := .restoring saved
          (eventValToNNPError s.errorList.completionEventVal.toNat) }
  | .restoring saved ret =>
      if ret ≠ .noError ∧ ¬ s.critical.broken then
        some { s with recoverer := .storing saved ret }
      else some (s.leaveRecover ret)
  | .storing saved ret => some ({ s with critical := saved }.leaveRecover ret)
  | .leaving ret =>
      some { s with recoverer := .returned ⟨ret, s.acked, s.critical.broken⟩ }

/-- The card acknowledges a request to clear the error list. -/
def clearAck (own : Bool) : ErrorCalls H :=
  let s := { s with errorList := s.errorList.clearRequestSucceeded.1 }
  if own then
    { s with acked := true, unrecovered := s.critical.broken || s.waiter.saved?.isSome }
  else s

def step : ErrorCallsOp → Option (ErrorCalls H)
  | .event ev =>
      if s.exited then none
      else
        match s.critical.responseHandler ev with
        | (critical, exited) => some (s.record critical exited)
  | .kill => some (s.record s.critical.setKilled true)
  | .packet fresh packet totalSize errorEventVal =>
      if s.exited then none
      else
        (s.errorList.appendErrorListPacket fresh packet totalSize errorEventVal).map
          fun errorList => { s with errorList }
  | .clearAck own =>
      if s.exited ∨ own ∧ ¬ s.recoverer.written then none else some (s.clearAck own)
  | .waitCall timeoutUs =>
      match s.waiter with
      | .idle | .returned _ =>
          some { s with waiter := .waiting timeoutUs, waitBroken := s.critical.broken }
      | _ => none
  | .waitExpire =>
      match s.waiter with
      | .waiting timeoutUs =>
          if s.critical.broken ∨ timeoutUs = 0xffffffff then none
          else some { s with waiter := .expired timeoutUs }
      | _ => none
  | .waitNext written handles => s.waitNext written handles
  | .recoverCall =>
      match s.recoverer with
      | .idle | .returned _ => some s.recoverCall
      | _ => none
  | .recoverNext written => s.recoverNext written

variable {s} {t : ErrorCalls H} {op : ErrorCallsOp}

/-- What the response thread and the card can do to the context: an error is recorded, and none
is taken away, or the list changes. -/
inductive Response (s : ErrorCalls H) : ErrorCallsOp → ErrorCalls H → Prop
  | record {op : ErrorCallsOp} (critical : EventReport) (exited : Bool)
      (hkeep : s.critical.broken = true → critical.broken = true) :
      Response s op (s.record critical exited)
  | packet {fresh : Option (ℕ → UInt8)} {packet : Option (List UInt8)} {totalSize : ℕ}
      {errorEventVal : UInt16} (errorList : ExecErrorList H)
      (hlist : s.errorList.appendErrorListPacket fresh packet totalSize errorEventVal =
        some errorList) :
      Response s (.packet fresh packet totalSize errorEventVal) { s with errorList }
  | clearAck (own : Bool) (hown : own = true → s.recoverer.written = true) :
      Response s (.clearAck own) (s.clearAck own)

theorem response_of_step (hwait : op.ofWait = false) (hrec : op.ofRecover = false)
    (hs : s.step op = some t) : s.Response op t := by
  cases op with
  | event ev =>
    obtain ⟨_, hs⟩ := Option.ite_none_left_eq_some.mp hs
    obtain rfl := Option.some.inj hs
    exact .record _ _ broken_responseHandler
  | kill =>
    obtain rfl := Option.some.inj hs
    exact .record _ _ fun _ => broken_setKilled
  | packet fresh packet totalSize errorEventVal =>
    obtain ⟨_, hs⟩ := Option.ite_none_left_eq_some.mp hs
    obtain ⟨errorList, hlist, rfl⟩ := Option.map_eq_some_iff.mp hs
    exact .packet errorList hlist
  | clearAck own =>
    obtain ⟨hno, hs⟩ := Option.ite_none_left_eq_some.mp hs
    obtain rfl := Option.some.inj hs
    simp only [not_or, not_and, Decidable.not_not] at hno
    exact .clearAck own hno.2
  | waitCall | waitExpire | waitNext => cases hwait
  | recoverCall | recoverNext => cases hrec

theorem step_waitCall {timeoutUs : UInt32} (hs : s.step (.waitCall timeoutUs) = some t) :
    t = { s with waiter := .waiting timeoutUs, waitBroken := s.critical.broken } := by
  simp only [step] at hs
  split at hs
  case h_3 => cases hs
  all_goals exact (Option.some.inj hs).symm

theorem step_waitExpire (hs : s.step .waitExpire = some t) :
    ∃ timeoutUs, s.waiter = .waiting timeoutUs ∧ s.critical.broken = false ∧
      t = { s with waiter := .expired timeoutUs } := by
  simp only [step] at hs
  split at hs
  case h_2 => cases hs
  case h_1 timeoutUs hw =>
    obtain ⟨hno, hs⟩ := Option.ite_none_left_eq_some.mp hs
    exact ⟨timeoutUs, hw, Bool.eq_false_iff.mpr fun hb => hno (.inl hb),
      (Option.some.inj hs).symm⟩

theorem step_recoverCall (hs : s.step .recoverCall = some t) : t = s.recoverCall := by
  simp only [step] at hs
  split at hs
  case h_3 => cases hs
  all_goals exact (Option.some.inj hs).symm

end ErrorCalls

end NNPIHost

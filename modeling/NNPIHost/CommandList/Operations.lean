import NNPIHost.CommandList.Send

/-! # Operations on a command list

Append, finalize, overwrite and schedule, each as one step of a machine that also keeps what
the channel has carried: the transaction being received and those received in full.
-/

namespace NNPIHost.CommandList

/-- The largest number of copies in one batch. -/
def maxCopiesPerBatch : ℕ := 0xffff

/-- The copy that an element adds to the batch before it, when it does not break it. -/
def joinsBatch (batch : List CopyParams) : SchedParams → Option CopyParams
  | .copy c =>
      if c.copy.isD2d then none
      else
        match batch with
        | [] => some c
        | first :: _ =>
            if c.copy.isC2h = first.copy.isC2h ∧ batch.length < maxCopiesPerBatch then some c
            else none
  | _ => none

/-- A batch of one copy stays a copy. -/
def closeBatch : List CopyParams → SchedParams
  | [c] => .copy c
  | batch => .copyList (.create batch)

/-- The loop of `optimize_batch_copies`. An element that breaks a batch does not start one. -/
def batchLoop : List SchedParams → List CopyParams → List SchedParams
  | [], _ => []
  | e :: es, batch =>
      match joinsBatch batch e with
      | some c =>
          if es.isEmpty then [closeBatch (batch ++ [c])] else batchLoop es (batch ++ [c])
      | none =>
          if batch.isEmpty then e :: batchLoop es []
          else closeBatch batch :: e :: batchLoop es []

/-- `nnpdrvCommandListAppendCopy` and the overwrite of a copy read a byte size this way. -/
def copySize (byteSize : UInt64) (skipExecution : Bool) : UInt64 :=
  if skipExecution then 0 else if byteSize = 0 then 0xffffffffffffffff else byteSize

namespace SchedParams

/-- `get_cmd_for_overwrite` followed by the overwrite of a command of either type. -/
def edit (onCopy : CopyParams → CopyParams) (onInfReq : InfReqParams → InfReqParams) (i : ℕ) :
    SchedParams → Option SchedParams
  | .copy c => some (.copy (onCopy c.getCmdForOverwrite))
  | .copyList l => (l.getCmdForOverwrite i onCopy).map .copyList
  | .infReq r => some (.infReq (onInfReq r.getCmdForOverwrite))

end SchedParams

/-- Find the element that a user index falls in and edit it: whether it was edited before,
and the elements afterwards. -/
def editAt (onCopy : CopyParams → CopyParams) (onInfReq : InfReqParams → InfReqParams) :
    List SchedParams → ℕ → Option (Bool × List SchedParams)
  | [], _ => none
  | e :: es, usrIdx =>
      if e.numOfSubcmds ≤ usrIdx then
        (editAt onCopy onInfReq es (usrIdx - e.numOfSubcmds)).map fun (was, es') => (was, e :: es')
      else (e.edit onCopy onInfReq usrIdx).map fun e' => (e.isEdited, e' :: es)

namespace CmdList

def create (protocolID : BitVec 16) (chanId : BitVec 10) (optDependencies : Bool) : CmdList :=
  ⟨protocolID, chanId, optDependencies, false, false, 0, [], 0⟩

def append (l : CmdList) (cmd : SchedParams) : NNPError × CmdList :=
  if l.finalized then (.deviceBusy, l)
  else if 0xffff ≤ l.vec.length then (.tooManyContexts, l)
  else
    (.noError, { l with
      vec := l.vec ++ [cmd.setIndex (UInt16.ofNat l.vec.length)]
      numEdits := l.numEdits + 1 })

/-- The list after `get_cmd_for_overwrite` and the overwrite that follows it. -/
def overwrite (l : CmdList) (usrIdx : UInt16) (onCopy : CopyParams → CopyParams)
    (onInfReq : InfReqParams → InfReqParams) : CmdList :=
  match editAt onCopy onInfReq l.vec usrIdx.toNat with
  | none => l
  | some (was, vec) => { l with vec, numEdits := if was then l.numEdits else l.numEdits + 1 }

def optimizeBatchCopies (l : CmdList) : CmdList :=
  let vec := (batchLoop l.vec []).mapIdx fun i e => e.setIndex (UInt16.ofNat i)
  { l with vec, numEdits := UInt16.ofNat vec.length }

/-- What `finalize` makes of the reply of the card; `none` is a failed wait. -/
def finalizeReply : Option EventReport → NNPError
  | none => .ioError
  | some reply =>
      if reply.eventCode = 73 then eventValToNNPError reply.eventVal.toNat
      else if reply.isContextFatalEvent then .contextBroken
      else if reply.eventCode ≠ 28 then .ioError
      else .noError

/-- The conditions under which `schedule` refuses before it looks at the context. -/
def busy (l : CmdList) (numErrors : ℕ) : Bool :=
  !l.finalized || l.inFlight || 0 < l.failedCommands || 0 < numErrors

end CmdList

/-- Receive a message: the bytes of the transaction under way and the finished ones. -/
def receive (w : Option (List UInt8) × List (List UInt8)) (s : Sent) :
    Option (List UInt8) × List (List UInt8) :=
  let pending := if s.msg.isFirst then some s.payload else w.1.map (· ++ s.payload)
  if s.msg.isLast then (none, w.2 ++ pending.toList) else (pending, w.2)

/-- A command list with what the card has received of it. `scheduled` tells that the last
call was a schedule that returned `NNP_NO_ERROR`. -/
structure ListState where
  list : CmdList
  partialTransaction : Option (List UInt8)
  transactions : List (List UInt8)
  scheduled : Bool

inductive ListOp where
  | appendCopy (copy : CopyInfo) (byteSize : UInt64) (priority : UInt8) (skip : Bool)
  | appendInferRequest (netId id : UInt16) (params : Option InfSchedParams)
  | finalize (batchCopies broken : Bool) (io : ℕ → PageIO) (reply : Option EventReport)
  | overwriteCopy (idx : UInt16) (byteSize : UInt64) (priority : UInt8) (skip : Bool)
  | overwriteInferRequest (idx : UInt16) (params : Option InfSchedParams)
  | schedule (numErrors : ℕ) (canSchedule prepared broken : Bool) (io : ℕ → PageIO)
  | complete
  | addError
  | clearErrors (queried : Bool)

namespace ListState

def create (l : CmdList) : ListState := ⟨l, none, [], false⟩

def setList (s : ListState) (list : CmdList) : ListState := { s with list, scheduled := false }

/-- The card has received the messages that left the list as it is now. -/
def received (s : ListState) (sent : List Sent) (list : CmdList) : ListState :=
  let w := sent.foldl receive (s.partialTransaction, s.transactions)
  { s with list, partialTransaction := w.1, transactions := w.2 }

/-- Run `send_to_card` and let the card receive the messages. -/
def send (s : ListState) (opcode : CmdListOpcode) (broken : Bool) (io : ℕ → PageIO) :
    Option (NNPError × ListState) :=
  (s.list.sendToCard opcode broken io).map fun (ret, sent, list) => (ret, s.received sent list)

def finalize (s : ListState) (batchCopies broken : Bool) (io : ℕ → PageIO)
    (reply : Option EventReport) : Option ListState :=
  let list := if batchCopies then s.list.optimizeBatchCopies else s.list
  ((s.setList list).send .chanInfCmdlist broken io).map fun (ret, s) =>
    if ret = .noError ∧ CmdList.finalizeReply reply = .noError then
      { s with list := { s.list with finalized := true } }
    else s

def schedule (s : ListState) (numErrors : ℕ) (canSchedule prepared broken : Bool)
    (io : ℕ → PageIO) : Option ListState :=
  if s.list.busy numErrors ∨ ¬ canSchedule ∨ ¬ prepared then some (s.setList s.list)
  else
    (s.send .chanScheduleCmdlist broken io).map fun (ret, s) =>
      { s with list := { s.list with inFlight := ret == .noError }, scheduled := ret == .noError }

def step (s : ListState) : ListOp → Option ListState
  | .appendCopy copy byteSize priority skip =>
      some (s.setList
        (s.list.append (.copy (.create copy priority (copySize byteSize skip)))).2)
  | .appendInferRequest netId id params =>
      some (s.setList (s.list.append (.infReq (.create netId id params))).2)
  | .finalize batchCopies broken io reply => s.finalize batchCopies broken io reply
  | .overwriteCopy idx byteSize priority skip =>
      some (s.setList
        (s.list.overwrite idx (·.overwrite priority (copySize byteSize skip)) id))
  | .overwriteInferRequest idx params =>
      some (s.setList (s.list.overwrite idx id (·.overwrite params)))
  | .schedule numErrors canSchedule prepared broken io =>
      s.schedule numErrors canSchedule prepared broken io
  | .complete => some (s.setList { s.list with inFlight := false })
  | .addError => some (s.setList { s.list with failedCommands := s.list.failedCommands + 1 })
  | .clearErrors queried =>
      some (s.setList (if queried then { s.list with failedCommands := 0 } else s.list))

end ListState

end NNPIHost.CommandList

import NNPIHost.CommandList.Calls
import NNPIHost.Context.ObjectIds
import NNPIHost.ErrorList.Replies

/-! # The response thread and the mutexes of a context

The response thread handles the messages of the card one after another. It takes the mutex of
a command list to complete it, and after a fatal event it takes those of all lists under the
mutex of the object database, while a call takes these two the other way round. Calls also
keep the mutex of their list locked while they wait for a reply, which has to get past it.
-/

namespace NNPIHost

open Lock

inductive CardMessage where
  | event (ev : EventReport)
  | syncDone
  | infReqFailed (cmdId : Option ℕ)
  /-- `packet` is what is found in the response ring, and `fresh` what `malloc` returns. -/
  | execErrorList (msg : ExecErrorListMsg) (packet : Option (List UInt8))
      (fresh : Option (ℕ → UInt8))
  | ringUpdate (rb : ℕ) (size : UInt32)
  /-- The channel cannot be read any more. -/
  | closed

namespace CtxProgram

open EventReport

/-- A function of the object database, which locks it. -/
def withObjDB {α : Type} (f : ContextObjDB Unit Unit ℕ ℕ → α × ContextObjDB Unit Unit ℕ ℕ)
    (k : α → CtxProgram) : CtxProgram :=
  .lock .objdb <| .read fun d =>
    .update (fun d => { d with objdb := (f d.objdb).2 }) <| .unlock .objdb <| k (f d.objdb).1

def getCommandList (id : ℕ) (k : Option ℕ → CtxProgram) : CtxProgram :=
  withObjDB (·.getCommandList id) k

def updateObjDB (f : ContextObjDB Unit Unit ℕ ℕ → ContextObjDB Unit Unit ℕ ℕ)
    (k : CtxProgram) : CtxProgram :=
  guarded .objdb (fun d => { d with objdb := f d.objdb }) k

def complete (l : ℕ) (k : CtxProgram) : CtxProgram :=
  updateAndNotify (.list l) (·.setInFlight l false) k

def addError (l : ℕ) (k : CtxProgram) : CtxProgram :=
  guarded (.list l)
    (fun d => d.updateList l fun f => { f with failedCommands := f.failedCommands + 1 }) k

/-- A null pointer among the lists is passed over; what the source does with one is undefined. -/
def completeLists (k : CtxProgram) : List (Option ℕ) → CtxProgram
  | [] => k
  | none :: ls => completeLists k ls
  | some l :: ls => complete l (completeLists k ls)

def completeAllCommandLists (k : CtxProgram) : CtxProgram :=
  .lock .objdb <| .read fun d => completeLists (.unlock .objdb k) d.objdb.forEachCmdlist

/-- The copies are released with the mutex of the object database locked. -/
def failAllScheduledCopyCommands (k : CtxProgram) : CtxProgram := guarded .objdb id k

def recordError (f : EventReport → EventReport) (k : CtxProgram) : CtxProgram :=
  updateAndNotify .waitq (fun d => { d with critical := f d.critical }) k

/-- A null response: the channel was killed. -/
def channelKilled (k : CtxProgram) : CtxProgram :=
  failAllScheduledCopyCommands <| .read fun d =>
    if d.critical.cardFatal then
      .update (fun d => { d with critical := d.critical.setKilled }) <|
        updateObjDB ContextObjDB.clearAll k
    else
      recordError setKilled <| completeAllCommandLists <| updateObjDB ContextObjDB.clearAll k

def setInvalid (rb : ℕ) (k : CtxProgram) : CtxProgram :=
  updateAndNotify (.cmdRb rb) (fun d => d.updateRb rb RingBuffer.setInvalid) k

/-- `handleResponseHandlerExit`, at the end of the response thread. -/
def exitThread (abnormal : Bool) : CtxProgram :=
  let exit := .update (fun d => { d with exited := true }) .done
  setInvalid 0 <| setInvalid 1 <|
    if abnormal then .update (fun d => { d with killed := true }) <| channelKilled exit else exit

/-- The reply is kept under its key, and a list counts as finalized. -/
def processCreateReply (ev : EventReport) (key : InfContextObjID) (k : CtxProgram) : CtxProgram :=
  updateAndNotify .waitq (fun d =>
    { d with
      createReply :=
        if d.createReply.any (·.1.equiv key) then
          d.createReply.map fun r => if r.1.equiv key then (r.1, ev) else r
        else (key, ev) :: d.createReply
      finalizedInProgress :=
        if key.type = .cmd ∧ 0 < d.finalizedInProgress then d.finalizedInProgress - 1
        else d.finalizedInProgress }) k

def createSyncFailed : BitVec 7 := 58

def cmdlistFinished : BitVec 8 := 128

/-- `response_handler` of an event; what it returns is whether the thread exits. -/
def handleEvent (ev : EventReport) (k : Bool → CtxProgram) : CtxProgram :=
  if ev.isCardFatalDrvEvent then
    failAllScheduledCopyCommands <| recordError (recordFatalDrv · ev) <|
      completeAllCommandLists <| updateObjDB ContextObjDB.clearAll <| k true
  else if ev.isFatal then
    if ev.isCardFatalEvent then
      failAllScheduledCopyCommands <| recordError (recordFatal · ev) <|
        completeAllCommandLists <| k false
    else recordError (recordFatal · ev) <| completeAllCommandLists <| k false
  else if ev.isExecuteCopy then
    withObjDB (·.getCopy ev.objId.toNat) fun
      | none => k false
      | some _ =>
          if ev.objValid2 then
            getCommandList ev.objId2.toNat fun
              | none => k false
              | some l =>
                  if ev.eventCode = executeCopySuccess ∨ ev.eventCode = executeCopySubresSuccess
                  then complete l (k false)
                  else addError l (k false)
          else k false
  else if ev.isExecuteCpylst then
    getCommandList ev.objId.toNat fun
      | none => k false
      | some l =>
          if ev.eventCode = executeCpylstSuccess then
            if ev.eventVal = cmdlistFinished then complete l (k false) else k false
          else addError l (k false)
  else if ev.eventCode = executeCmdComplete then
    getCommandList ev.objId.toNat fun
      | none => k false
      | some l =>
          if ev.eventVal ≠ 0 then addError l <| complete l (k false) else complete l (k false)
  else if ev.eventCode = devnetDestroyed then
    withObjDB (·.getDevNet ev.objId.toNat) fun
      | none => k false
      | some _ => updateObjDB (·.removeDevNet ev.objId.toNat) (k false)
  else if ev.eventCode = infreqDestroyed then
    withObjDB (·.getDevNet ev.objId2.toNat) fun
      | none => k false
      | some _ => updateObjDB (·.removeInfReq ev.objId2.toNat ev.objId.toNat) (k false)
  else if ev.eventCode = copyDestroyed then
    withObjDB (·.getCopy ev.objId.toNat) fun
      | none => k false
      | some _ => updateObjDB (·.removeCopy ev.objId.toNat) (k false)
  else if ev.eventCode = cmdDestroyed then
    getCommandList ev.objId.toNat fun
      | none => k false
      | some _ => updateObjDB (·.removeCommandList ev.objId.toNat) (k false)
  else if ev.eventCode = contextDestroyed then k true
  else if ev.eventCode = createSyncFailed then updateAndNotify .waitq (fun d => d) (k false)
  else if ev.eventCode = ecFailedToReleaseCredit then
    if ev.objValid then
      getCommandList ev.objId.toNat fun
        | none => k false
        | some l => addError l (k false)
    else k false
  else
    match ev.replyKey with
    | none => k false
    | some key => processCreateReply ev key (k false)

/-- `appendErrorListPacket`, which wakes the waiters when the query is completed. A thread in a
loop that does not end handles no other message. -/
def appendErrorListPacket (cmdlist : Option ℕ) (fresh : Option (ℕ → UInt8))
    (packet : Option (List UInt8)) (totalSize : ℕ) (errorEventVal : UInt16) (k : CtxProgram) :
    CtxProgram :=
  .read fun d =>
    let list := d.findErrorList cmdlist
    match list.appendErrorListPacket fresh packet totalSize errorEventVal with
    | none => .update (fun d => { d with exited := true }) k
    | some list' =>
        if list.state = .queryStarted ∧ list'.state = .completed then
          let parsed := { list' with
            state := .queryStarted, completeEventVal := list.completeEventVal }
          .update (·.setErrorList parsed cmdlist) <|
            updateAndNotify .waitq (·.setErrorList list' cmdlist) k
        else .update (·.setErrorList list' cmdlist) k

def clearRequestSucceeded (cmdlist : Option ℕ) (k : CtxProgram) : CtxProgram :=
  .update (fun d => d.setErrorList (d.findErrorList cmdlist).clear cmdlist) <|
    updateAndNotify .waitq (fun d =>
      d.setErrorList (d.findErrorList cmdlist).clearRequestSucceeded.1 cmdlist) k

/-- A page stays locked in the response ring while it is appended. -/
def processErrorList (cmdlist : Option ℕ) (msg : ExecErrorListMsg) (packet : Option (List UInt8))
    (fresh : Option (ℕ → UInt8)) : CtxProgram :=
  if msg.isError then
    appendErrorListPacket cmdlist fresh none 0 (.ofBitVec msg.totalSize) .done
  else if msg.clearStatus = 0 then
    .lock .respRb <|
      match packet with
      | none =>
          .unlock .respRb <|
            appendErrorListPacket cmdlist fresh none 0 ExecErrorList.ioError .done
      | some _ =>
          appendErrorListPacket cmdlist fresh packet msg.totalSize.toNat 0 <|
            unlockNotify .respRb .done
  else clearRequestSucceeded cmdlist .done

def processExecErrorList (msg : ExecErrorListMsg) (packet : Option (List UInt8))
    (fresh : Option (ℕ → UInt8)) : CtxProgram :=
  let process :=
    if msg.cmdIdValid then
      getCommandList msg.cmdId.toNat fun
        | none => .done
        | some l => processErrorList (some l) msg packet fresh
    else processErrorList none msg packet fresh
  if msg.isPage then guarded .respRb id process else process

def updateHead (rb : ℕ) (size : UInt32) : CtxProgram :=
  if 0 < size then
    .lock (.cmdRb rb) <| .update (·.updateRb rb (·.updateHead size)) <|
      unlockNotify (.cmdRb rb) .done
  else .done

/-- What the response thread does with a message. -/
def respond (msg : CardMessage) : CtxProgram :=
  .read fun d =>
    if d.exited then .done
    else
      match msg with
      | .event ev => handleEvent ev fun exit => if exit then exitThread false else .done
      | .syncDone => updateAndNotify .waitq (fun d => d) .done
      | .infReqFailed none => .done
      | .infReqFailed (some id) =>
          getCommandList id fun
            | none => .done
            | some l => addError l .done
      | .execErrorList msg packet fresh => processExecErrorList msg packet fresh
      | .ringUpdate rb size => if d.killed then .done else updateHead rb size
      | .closed => exitThread true

/-- The discipline of the response thread. -/
abbrev hub : Discipline CtxMutex := .hub

variable {held : List CtxMutex} {m : CtxMutex} {f : CtxData → CtxData} {k : CtxProgram} {l rb : ℕ}
  {kb : Bool → CtxProgram} {cmdlist : Option ℕ} {fresh : Option (ℕ → UInt8)}
  {packet : Option (List UInt8)} {msg : ExecErrorListMsg}

theorem hub_guarded (hm : m ∉ held) (hk : k.Follows hub held) :
    (guarded m f k).Follows hub held := guarded_follows hm trivial hk

theorem hub_updateAndNotify (hm : m ∉ held) (hk : k.Follows hub held) :
    (updateAndNotify m f k).Follows hub held := updateAndNotify_follows hm trivial hk

theorem withObjDB_follows {α : Type} {kα : α → CtxProgram}
    {f : ContextObjDB Unit Unit ℕ ℕ → α × ContextObjDB Unit Unit ℕ ℕ}
    (hk : ∀ a, (kα a).Follows hub []) : (withObjDB f kα).Follows hub [] :=
  ⟨List.not_mem_nil, trivial, fun _ => unlock_follows (hk _)⟩

theorem updateObjDB_follows {f : ContextObjDB Unit Unit ℕ ℕ → ContextObjDB Unit Unit ℕ ℕ}
    (hk : k.Follows hub []) : (updateObjDB f k).Follows hub [] :=
  hub_guarded List.not_mem_nil hk

theorem complete_follows (hl : .list l ∉ held) (hk : k.Follows hub held) :
    (complete l k).Follows hub held := hub_updateAndNotify hl hk

theorem addError_follows (hk : k.Follows hub []) : (addError l k).Follows hub [] :=
  hub_guarded List.not_mem_nil hk

theorem completeLists_follows {ls : List (Option ℕ)} (hheld : ∀ l, .list l ∉ held)
    (hk : k.Follows hub held) : (completeLists k ls).Follows hub held := by
  induction ls with
  | nil => exact hk
  | cons l ls ih =>
    cases l with
    | none => exact ih
    | some l => exact complete_follows (hheld l) ih

theorem completeAllCommandLists_follows (hk : k.Follows hub []) :
    (completeAllCommandLists k).Follows hub [] :=
  ⟨List.not_mem_nil, trivial, fun _ => completeLists_follows (by simp) (unlock_follows hk)⟩

theorem failAll_follows (hk : k.Follows hub []) :
    (failAllScheduledCopyCommands k).Follows hub [] := hub_guarded List.not_mem_nil hk

theorem recordError_follows {f : EventReport → EventReport} (hk : k.Follows hub []) :
    (recordError f k).Follows hub [] := hub_updateAndNotify List.not_mem_nil hk

theorem channelKilled_follows (hk : k.Follows hub []) : (channelKilled k).Follows hub [] := by
  refine failAll_follows fun d => ?_
  dsimp only
  split
  · exact updateObjDB_follows hk
  · exact recordError_follows (completeAllCommandLists_follows (updateObjDB_follows hk))

theorem exitThread_follows {abnormal : Bool} : (exitThread abnormal).Follows hub [] := by
  refine hub_updateAndNotify List.not_mem_nil (hub_updateAndNotify List.not_mem_nil ?_)
  split
  · exact channelKilled_follows (done_follows (D := hub))
  · exact done_follows (D := hub)

theorem ite_follows {c : Prop} [Decidable c] {a b : CtxProgram} (ha : a.Follows hub held)
    (hb : b.Follows hub held) : (if c then a else b).Follows hub held := by
  split
  · exact ha
  · exact hb

theorem lookup_follows {α : Type} {kα : Option α → CtxProgram}
    {f : ContextObjDB Unit Unit ℕ ℕ → Option α × ContextObjDB Unit Unit ℕ ℕ}
    (hnone : (kα none).Follows hub []) (hsome : ∀ a, (kα (some a)).Follows hub []) :
    (withObjDB f kα).Follows hub [] := by
  refine withObjDB_follows ?_
  rintro (_ | a)
  · exact hnone
  · exact hsome a

/-- Handling an event takes the mutexes of lists and of the wait queue with at most that of
the object database locked. -/
theorem handleEvent_follows {ev : EventReport} (hk : ∀ b, (kb b).Follows hub []) :
    (handleEvent ev kb).Follows hub [] := by
  have hno := hk false
  have hcomplete {l : ℕ} : (complete l (kb false)).Follows hub [] :=
    complete_follows List.not_mem_nil hno
  have hadd {l : ℕ} : (addError l (kb false)).Follows hub [] := addError_follows hno
  have hrecord {f : EventReport → EventReport} {k : CtxProgram} (hk : k.Follows hub []) :
      (recordError f (completeAllCommandLists k)).Follows hub [] :=
    recordError_follows (completeAllCommandLists_follows hk)
  unfold handleEvent
  refine ite_follows (failAll_follows (hrecord (updateObjDB_follows (hk true)))) ?_
  refine ite_follows (ite_follows (failAll_follows (hrecord hno)) (hrecord hno)) ?_
  refine ite_follows (lookup_follows hno fun _ => ite_follows ?_ hno) ?_
  · exact lookup_follows hno fun _ => ite_follows hcomplete hadd
  refine ite_follows (lookup_follows hno fun _ => ite_follows ?_ hadd) ?_
  · exact ite_follows hcomplete hno
  refine ite_follows (lookup_follows hno fun _ => ite_follows ?_ hcomplete) ?_
  · exact addError_follows hcomplete
  iterate 4 refine ite_follows (lookup_follows hno fun _ => updateObjDB_follows hno) ?_
  refine ite_follows (hk true) ?_
  refine ite_follows (hub_updateAndNotify List.not_mem_nil hno) ?_
  refine ite_follows (ite_follows (lookup_follows hno fun _ => hadd) hno) ?_
  split
  · exact hno
  · exact hub_updateAndNotify List.not_mem_nil hno

theorem appendErrorListPacket_follows {totalSize : ℕ} {errorEventVal : UInt16}
    (hwaitq : .waitq ∉ held) (hk : k.Follows hub held) :
    (appendErrorListPacket cmdlist fresh packet totalSize errorEventVal k).Follows hub held := by
  intro d
  dsimp only
  split
  · exact hk
  split
  · exact hub_updateAndNotify hwaitq hk
  · exact hk

theorem processErrorList_follows :
    (processErrorList cmdlist msg packet fresh).Follows hub [] := by
  unfold processErrorList
  split
  · exact appendErrorListPacket_follows List.not_mem_nil done_follows
  split
  · refine ⟨List.not_mem_nil, trivial, ?_⟩
    split
    · exact unlock_follows (appendErrorListPacket_follows List.not_mem_nil done_follows)
    · exact appendErrorListPacket_follows (by simp) (unlock_follows (done_follows (D := hub)))
  · exact hub_updateAndNotify List.not_mem_nil (done_follows (D := hub))

theorem processExecErrorList_follows : (processExecErrorList msg packet fresh).Follows hub [] := by
  unfold processExecErrorList
  extract_lets process
  have hprocess : process.Follows hub [] := by
    unfold process
    split
    · exact lookup_follows (done_follows (D := hub)) fun _ => processErrorList_follows
    · exact processErrorList_follows
  split
  · exact hub_guarded List.not_mem_nil hprocess
  · exact hprocess

/-- The response thread holds no mutex when it is done with a message, and never sleeps. -/
theorem respond_follows (msg : CardMessage) : (respond msg).Follows hub [] := by
  intro d
  dsimp only
  split
  · exact done_follows (D := hub)
  cases msg with
  | event ev =>
    refine handleEvent_follows fun exit => ?_
    split
    · exact exitThread_follows
    · exact done_follows
  | syncDone => exact hub_updateAndNotify List.not_mem_nil done_follows
  | infReqFailed cmdId =>
    cases cmdId with
    | none => exact done_follows (D := hub)
    | some id =>
      exact lookup_follows (done_follows (D := hub)) fun _ => addError_follows done_follows
  | execErrorList msg packet fresh => exact processExecErrorList_follows
  | ringUpdate rb size =>
    dsimp only
    split
    · exact done_follows (D := hub)
    unfold updateHead
    split
    · exact ⟨List.not_mem_nil, trivial, unlock_follows (done_follows (D := hub))⟩
    · exact done_follows (D := hub)
  | closed => exact exitThread_follows

end CtxProgram

end NNPIHost

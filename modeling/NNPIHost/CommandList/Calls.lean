import NNPIHost.Context.CriticalError
import NNPIHost.Context.ObjDB
import NNPIHost.Context.ObjId
import NNPIHost.ErrorList.Query
import NNPIHost.Lock.Deadlock
import NNPIHost.Ring.Buffer

/-! # Calls on command lists

The functions of `nnpiCommandList` as programs over the mutexes they lock. A call locks the
mutex of its list first, and most calls keep it locked while they take another one or wait for
the card. The mutexes of host resources, error lists and id allocators are left out: nothing
is locked or waited for under them.
-/

namespace NNPIHost

open Function (update)

/-- The mutexes of wait queues are named by what has the queue. -/
inductive CtxMutex where
  /-- A command list, by its address. -/
  | list (l : ℕ)
  | objdb
  | waitq
  /-- `m_mutex` of the context. -/
  | mutex
  | cmdRb (id : ℕ)
  | respRb
  deriving DecidableEq

/-- The fields of `nnpiCommandList`, as far as its calls test them. -/
structure CmdListFields where
  protocolId : ℕ
  finalized : Bool
  inFlight : Bool
  /-- `m_vec` has elements. -/
  nonempty : Bool
  numEdits : UInt16
  failedCommands : UInt32
  errorList : ExecErrorList Unit

/-- The fields of a context and of its channel. -/
structure CtxData where
  critical : EventReport
  createReply : List (InfContextObjID × EventReport)
  finalizedInProgress : UInt32
  objdb : ContextObjDB Unit Unit ℕ ℕ
  lists : ℕ → CmdListFields
  errorList : ExecErrorList Unit
  cmdRbs : ℕ → RingBuffer
  /-- The channel was killed. -/
  killed : Bool
  /-- The response thread is at its end. -/
  exited : Bool

namespace CtxData

variable (d : CtxData)

def updateList (l : ℕ) (f : CmdListFields → CmdListFields) : CtxData :=
  { d with lists := update d.lists l (f (d.lists l)) }

def updateRb (id : ℕ) (f : RingBuffer → RingBuffer) : CtxData :=
  { d with cmdRbs := update d.cmdRbs id (f (d.cmdRbs id)) }

def setInFlight (l : ℕ) (b : Bool) : CtxData := d.updateList l ({ · with inFlight := b })

def findReply (id : InfContextObjID) : Option EventReport :=
  (d.createReply.find? fun r => r.1.equiv id).map Prod.snd

def eraseReply (id : InfContextObjID) : CtxData :=
  { d with createReply := d.createReply.filter fun r => !r.1.equiv id }

/-- The error list of a command list, or that of the context. -/
def findErrorList : Option ℕ → ExecErrorList Unit
  | none => d.errorList
  | some l => (d.lists l).errorList

def setErrorList (list : ExecErrorList Unit) : Option ℕ → CtxData
  | none => { d with errorList := list }
  | some l => d.updateList l fun fields => { fields with errorList := list }

/-- The key of the reply to the creation of a command list. -/
def cmdId (l : ℕ) : InfContextObjID := ⟨.cmd, (d.lists l).protocolId, -1⟩

end CtxData

abbrev CtxProgram := Lock.Program CtxMutex CtxData

namespace CtxProgram

open Lock.Program

/-- `update_and_notify` of the wait queue with the mutex. -/
def updateAndNotify (m : CtxMutex) (f : CtxData → CtxData) (k : CtxProgram) : CtxProgram :=
  .lock m (.update f (.notify m (.unlock m k)))

/-- An update under a lock guard. -/
def guarded (m : CtxMutex) (f : CtxData → CtxData) (k : CtxProgram) : CtxProgram :=
  .lock m (.update f (.unlock m k))

def unlockNotify (m : CtxMutex) (k : CtxProgram) : CtxProgram := .unlock m (.notify m k)

def cmdlistFinalizedAdd (i : UInt32) (k : CtxProgram) : CtxProgram :=
  updateAndNotify .waitq
    (fun d => { d with finalizedInProgress := d.finalizedInProgress + i }) k

def waitCanSchedule (k : Bool → CtxProgram) : CtxProgram :=
  .wait .waitq (fun d => d.finalizedInProgress = 0 || d.critical.broken)
    (.unlock .waitq (.read fun d => k !d.critical.broken))

def waitCreateCommand (l : ℕ) (k : EventReport → CtxProgram) : CtxProgram :=
  .wait .waitq (fun d => (d.findReply (d.cmdId l)).isSome || d.critical.broken)
    (.read fun d =>
      if d.critical.broken then .unlock .waitq (k d.critical)
      else .update (fun d => d.eraseReply (d.cmdId l))
        (.unlock .waitq (k ((d.findReply (d.cmdId l)).getD .zero))))

/-- The message is written with the mutex of the context locked. -/
def sendQueryErrorList (k : Bool → CtxProgram) : CtxProgram :=
  .lock .mutex (.choose fun ok => .unlock .mutex (k ok))

/-- What is returned is whether the list has no error. -/
def waitErrorListQueryCompletion (l : ℕ) (k : Bool → CtxProgram) : CtxProgram :=
  .wait .waitq (fun d => (d.lists l).errorList.queryCompleted || d.critical.broken)
    (.unlock .waitq (.read fun d =>
      k (!d.critical.broken &&
        eventValToNNPError (d.lists l).errorList.completionEventVal.toNat = .noError)))

/-- The page loop of `send_to_card`, for the number of pages that the elements take. A page
that is not contiguous and a message that is not written are given back. -/
def sendPages (rb : ℕ) (k : Bool → CtxProgram) : ℕ → CtxProgram
  | 0 => k true
  | pages + 1 =>
      .wait (.cmdRb rb) (fun d => (d.cmdRbs rb).lockFreeSpace 4096 false ≠ .waiting)
        (.read fun d =>
          match (d.cmdRbs rb).lockFreeSpace 4096 false with
          | .at _ cont =>
              if cont ≠ 4096 then unlockNotify (.cmdRb rb) (k false)
              else .choose fun ok =>
                if ok then
                  .update (fun d => d.updateRb rb (·.unlockFreeSpace 4096))
                    (unlockNotify (.cmdRb rb) (sendPages rb k pages))
                else unlockNotify (.cmdRb rb) (k false)
          | _ => .unlock (.cmdRb rb) (k false))

/-- `pages` is one less than the number of pages that the elements take. -/
def sendToCard (l rb pages : ℕ) (k : Bool → CtxProgram) : CtxProgram :=
  .read fun d =>
    if !(d.lists l).nonempty then k false
    else .read fun d =>
      if d.critical.broken then k false
      else .read fun d =>
        if (d.lists l).numEdits = 0 then .choose k
        else
          let finish ok := .update (fun d => d.updateList l ({ · with numEdits := 0 })) (k ok)
          sendPages rb finish (pages + 1)

def createCmdSuccess : BitVec 7 := 28

def finalize (l pages : ℕ) : CtxProgram :=
  .lock (.list l) <| cmdlistFinalizedAdd 1 <| sendToCard l 0 pages fun ok =>
    if ok then
      waitCreateCommand l fun reply =>
        if reply.eventCode = createCmdSuccess then
          .update (fun d => d.updateList l ({ · with finalized := true })) <|
            .unlock (.list l) .done
        else .unlock (.list l) .done
    else cmdlistFinalizedAdd (-1) <| .unlock (.list l) .done

/-- The message that destroys a finalized list takes no other mutex. -/
def destroy (l : ℕ) : CtxProgram :=
  .lock (.list l) <| .read fun d =>
    if (d.lists l).finalized then .unlock (.list l) .done
    else guarded .objdb
      (fun d => { d with objdb := d.objdb.removeCommandList (d.lists l).protocolId }) <|
        .unlock (.list l) .done

def schedule (l pages : ℕ) : CtxProgram :=
  .lock (.list l) <| .read fun d =>
    if !(d.lists l).finalized || (d.lists l).inFlight || 0 < (d.lists l).failedCommands ||
        0 < (d.lists l).errorList.numErrors then
      .unlock (.list l) .done
    else waitCanSchedule fun can =>
      if can then
        .update (·.setInFlight l true) <| .unlock (.list l) <|
          -- Whether all elements could be prepared.
          .choose fun prepared =>
            if prepared then
              sendToCard l 1 pages fun ok =>
                if ok then .done else updateAndNotify (.list l) (·.setInFlight l false) .done
            else updateAndNotify (.list l) (·.setInFlight l false) .done
      else .unlock (.list l) .done

def clearErrors (l : ℕ) : CtxProgram :=
  .lock (.list l) <| .read fun d =>
    if (d.lists l).failedCommands = 0 ∧ (d.lists l).errorList.numErrors = 0 then
      .unlock (.list l) .done
    else
      .update (fun d => d.updateList l fun f => { f with errorList := f.errorList.startQuery }) <|
        sendQueryErrorList fun sent =>
          if sent then
            waitErrorListQueryCompletion l fun ok =>
              if ok then
                .update (fun d => d.updateList l ({ · with failedCommands := 0 })) <|
                  .unlock (.list l) .done
              else .unlock (.list l) .done
          else .unlock (.list l) .done

/-- `get_cmd_for_overwrite`, which counts an edit of an element that had none. -/
def overwrite (l : ℕ) : CtxProgram :=
  .lock (.list l) <| .choose fun counted =>
    if counted then
      .update (fun d => d.updateList l fun f => { f with numEdits := f.numEdits + 1 }) <|
        .unlock (.list l) .done
    else .unlock (.list l) .done

end CtxProgram

/-- The mutexes that a call locks first. -/
def CtxMutex.IsList (m : CtxMutex) : Prop := ∃ l, m = .list l

inductive CmdListCall where
  | finalize (l pages : ℕ)
  | schedule (l pages : ℕ)
  | destroy (l : ℕ)
  | clearErrors (l : ℕ)
  | overwrite (l : ℕ)

def CmdListCall.program : CmdListCall → CtxProgram
  | .finalize l pages => .finalize l pages
  | .schedule l pages => .schedule l pages
  | .destroy l => .destroy l
  | .clearErrors l => .clearErrors l
  | .overwrite l => .overwrite l

namespace CtxProgram

open Lock (Discipline)

variable {D : Discipline CtxMutex} {held : List CtxMutex} {m : CtxMutex} {f : CtxData → CtxData}
  {k : CtxProgram} {l rb pages : ℕ} {kb : Bool → CtxProgram}

theorem guarded_follows (hm : m ∉ held) (ht : D.takes held m) (hk : k.Follows D held) :
    (guarded m f k).Follows D held :=
  ⟨hm, ht, List.mem_cons_self, by simpa using hk⟩

theorem updateAndNotify_follows (hm : m ∉ held) (ht : D.takes held m) (hk : k.Follows D held) :
    (updateAndNotify m f k).Follows D held :=
  ⟨hm, ht, List.mem_cons_self, by simpa using hk⟩

/-- The discipline of a call. -/
abbrev client : Discipline CtxMutex := .client CtxMutex.IsList

theorem client_takes (hheld : ∀ n ∈ held, n.IsList) (hm : ¬ m.IsList) :
    m ∉ held ∧ client.takes held m :=
  ⟨fun h => hm (hheld m h), hheld, fun h => absurd h hm⟩

/-- Locking, or sleeping and then holding the mutex, until it is unlocked again. -/
theorem wait_follows {cond : CtxData → Bool} (hheld : ∀ n ∈ held, n.IsList) (hm : ¬ m.IsList)
    (hk : k.Follows client (m :: held)) :
    Lock.Program.Follows client held (.wait m cond k) := by
  obtain ⟨hnot, ht⟩ := client_takes hheld hm
  exact ⟨trivial, hnot, ht, hk⟩

theorem unlock_follows (hk : k.Follows D held) :
    Lock.Program.Follows D (m :: held) (.unlock m k) :=
  ⟨List.mem_cons_self, by simpa using hk⟩

theorem cmdlistFinalizedAdd_follows {i : UInt32} (hheld : ∀ n ∈ held, n.IsList)
    (hk : k.Follows client held) : (cmdlistFinalizedAdd i k).Follows client held := by
  obtain ⟨hnot, ht⟩ := client_takes (m := .waitq) hheld nofun
  exact updateAndNotify_follows hnot ht hk

theorem waitCanSchedule_follows (hheld : ∀ n ∈ held, n.IsList)
    (hk : ∀ b, (kb b).Follows client held) : (waitCanSchedule kb).Follows client held :=
  wait_follows hheld nofun (unlock_follows fun _ => hk _)

theorem waitCreateCommand_follows {ke : EventReport → CtxProgram}
    (hheld : ∀ n ∈ held, n.IsList) (hk : ∀ ev, (ke ev).Follows client held) :
    (waitCreateCommand l ke).Follows client held := by
  refine wait_follows hheld nofun fun d => ?_
  dsimp only
  split
  · exact unlock_follows (hk _)
  · exact unlock_follows (hk _)

theorem sendQueryErrorList_follows (hheld : ∀ n ∈ held, n.IsList)
    (hk : ∀ b, (kb b).Follows client held) : (sendQueryErrorList kb).Follows client held := by
  obtain ⟨hnot, ht⟩ := client_takes (m := .mutex) hheld nofun
  exact ⟨hnot, ht, fun b => unlock_follows (hk b)⟩

theorem waitErrorListQueryCompletion_follows (hheld : ∀ n ∈ held, n.IsList)
    (hk : ∀ b, (kb b).Follows client held) :
    (waitErrorListQueryCompletion l kb).Follows client held :=
  wait_follows hheld nofun (unlock_follows fun _ => hk _)

theorem sendPages_follows (hheld : ∀ n ∈ held, n.IsList) (hk : ∀ b, (kb b).Follows client held) :
    (sendPages rb kb pages).Follows client held := by
  induction pages with
  | zero => exact hk true
  | succ pages ih =>
    have hgive : (unlockNotify (.cmdRb rb) (kb false)).Follows client (.cmdRb rb :: held) :=
      unlock_follows (hk false)
    refine wait_follows hheld nofun fun d => ?_
    dsimp only
    split
    next =>
      split
      next => exact hgive
      next =>
        rintro (_ | _)
        · exact hgive
        · exact unlock_follows ih
    next => exact unlock_follows (hk false)

theorem sendToCard_follows (hheld : ∀ n ∈ held, n.IsList)
    (hk : ∀ b, (kb b).Follows client held) : (sendToCard l rb pages kb).Follows client held := by
  intro d
  dsimp only
  split
  · exact hk false
  intro d
  dsimp only
  split
  · exact hk false
  intro d
  dsimp only
  split
  · exact hk
  · exact sendPages_follows hheld hk

theorem done_follows : (.done : CtxProgram).Follows D [] := rfl

theorem lock_list_follows (hk : k.Follows client [.list l]) :
    Lock.Program.Follows client [] (.lock (.list l) k) :=
  ⟨List.not_mem_nil, ⟨nofun, fun _ => rfl⟩, hk⟩

theorem unlock_list_follows : (.unlock (.list l) .done : CtxProgram).Follows client [.list l] :=
  unlock_follows done_follows

theorem isList_of_mem : ∀ n ∈ [CtxMutex.list l], n.IsList := by
  rintro n hn
  exact ⟨l, List.mem_singleton.mp hn⟩

theorem finalize_follows : (finalize l pages).Follows client [] := by
  refine lock_list_follows (cmdlistFinalizedAdd_follows isList_of_mem ?_)
  refine sendToCard_follows isList_of_mem fun ok => ?_
  split
  · refine waitCreateCommand_follows isList_of_mem fun reply => ?_
    split
    · exact unlock_list_follows
    · exact unlock_list_follows
  · exact cmdlistFinalizedAdd_follows isList_of_mem unlock_list_follows

theorem destroy_follows : (destroy l).Follows client [] := by
  refine lock_list_follows fun d => ?_
  dsimp only
  split
  · exact unlock_list_follows
  · have hobjdb : ¬ CtxMutex.objdb.IsList := by
      rintro ⟨_, ⟨⟩⟩
    obtain ⟨hnot, ht⟩ := client_takes (isList_of_mem (l := l)) hobjdb
    exact guarded_follows hnot ht unlock_list_follows

theorem schedule_follows : (schedule l pages).Follows client [] := by
  have hreset : (updateAndNotify (.list l) (·.setInFlight l false) .done).Follows client [] :=
    updateAndNotify_follows List.not_mem_nil ⟨nofun, fun _ => rfl⟩ done_follows
  refine lock_list_follows fun d => ?_
  dsimp only
  split
  · exact unlock_list_follows
  refine waitCanSchedule_follows isList_of_mem fun can => ?_
  split
  · refine unlock_follows fun prepared => ?_
    dsimp only
    split
    · refine sendToCard_follows nofun fun ok => ?_
      split
      · exact done_follows
      · exact hreset
    · exact hreset
  · exact unlock_list_follows

theorem clearErrors_follows : (clearErrors l).Follows client [] := by
  refine lock_list_follows fun d => ?_
  dsimp only
  split
  · exact unlock_list_follows
  refine sendQueryErrorList_follows isList_of_mem fun sent => ?_
  split
  · refine waitErrorListQueryCompletion_follows isList_of_mem fun ok => ?_
    split
    · exact unlock_list_follows
    · exact unlock_list_follows
  · exact unlock_list_follows

theorem overwrite_follows : (overwrite l).Follows client [] := by
  refine lock_list_follows fun counted => ?_
  dsimp only
  split
  · exact unlock_list_follows
  · exact unlock_list_follows

end CtxProgram

theorem CmdListCall.follows (c : CmdListCall) : c.program.Follows CtxProgram.client [] := by
  cases c with
  | finalize l pages => exact CtxProgram.finalize_follows
  | schedule l pages => exact CtxProgram.schedule_follows
  | destroy l => exact CtxProgram.destroy_follows
  | clearErrors l => exact CtxProgram.clearErrors_follows
  | overwrite l => exact CtxProgram.overwrite_follows

end NNPIHost

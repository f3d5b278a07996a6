import NNPIHost.Context.CriticalError
import NNPIHost.ErrorList.Query

/-! # What a caller is told about a critical error

The fields of `NNPCriticalErrorInfo` that the driver sets, from the event of the error or from
the descriptor of a failed command. A descriptor that is not there sets nothing.
-/

namespace NNPIHost

inductive NNPCriticalError where
  | noError
  | internalDriverError
  | notSupported
  | gracefulDestroy
  | cardReset
  | infreqFailed
  | infreqNetworkReset
  | infreqCardReset
  | inputIsDirty
  | failedToReleaseCredit
  | unknownCriticalError
  deriving DecidableEq, Repr

inductive NNPFailedObjType where
  | none
  | card
  | context
  | copy
  | infreq
  deriving DecidableEq, Repr

/-- The member of the union `obj` that was set. -/
inductive FailedObj where
  | copy (copyHandle : UInt64)
  | infreq (devnetHandle infreqHandle : UInt64)
  deriving DecidableEq, Repr

/-- `NNPCriticalErrorInfo` of a caller, with the fields that were set. -/
structure CriticalErrorInfo where
  nnpCriticalError : Option NNPCriticalError
  objType : Option NNPFailedObjType
  errorMessageSize : Option UInt32
  obj : Option FailedObj
  deriving DecidableEq, Repr

/-- The user handles of the objects in the database: those of copies, and those of infer
requests with their networks. -/
structure UserHandles where
  getCopy : ℕ → Option UInt64
  getInfReq : ℕ → ℕ → Option (UInt64 × UInt64)

namespace UserHandles

def none : UserHandles := ⟨fun _ => .none, fun _ _ => .none⟩

/-- An object that is not there has the handle 0. -/
def copyObj (h : UserHandles) (id : ℕ) : FailedObj := .copy ((h.getCopy id).getD 0)

def infReqObj (h : UserHandles) (netId id : ℕ) : FailedObj :=
  match h.getInfReq netId id with
  | some (devnetHandle, infreqHandle) => .infreq devnetHandle infreqHandle
  | .none => .infreq 0 0

end UserHandles

namespace CriticalErrorInfo

/-- Nothing is set. -/
def empty : CriticalErrorInfo := ⟨none, none, none, none⟩

def errorOsCrashed : BitVec 7 := 112

def errorRuntimeDied : BitVec 7 := 97

def errorRuntimeLaunch : BitVec 7 := 96

def errorCardReset : BitVec 7 := 122

def executeCopySubresFailed : BitVec 7 := 82

def executeCopyFailed : BitVec 7 := 79

def scheduleInfreqFailed : BitVec 7 := 80

def parseErrorEvent (h : UserHandles) (ev : EventReport) (info : CriticalErrorInfo) :
    CriticalErrorInfo :=
  let info := { info with errorMessageSize := some 0 }
  if ev.eventCode = errorOsCrashed then
    { info with nnpCriticalError := some .internalDriverError, objType := some .card }
  else if ev.eventCode = errorRuntimeDied ∨ ev.eventCode = errorRuntimeLaunch then
    { info with nnpCriticalError := some .internalDriverError, objType := some .context }
  else if ev.eventCode = errorCardReset then
    { info with nnpCriticalError := some .cardReset, objType := some .card }
  else if ev.eventCode = executeCopySubresFailed ∨ ev.eventCode = executeCopyFailed then
    { info with
      nnpCriticalError := some .internalDriverError
      objType := some .copy
      obj := some (h.copyObj ev.objId.toNat) }
  else if ev.eventCode = scheduleInfreqFailed then
    { info with
      nnpCriticalError := some .internalDriverError
      objType := some .infreq
      obj := some (h.infReqObj ev.objId.toNat ev.objId2.toNat) }
  else if ev.eventCode = EventReport.abortRequest then
    { info with nnpCriticalError := some .gracefulDestroy, objType := some .none }
  else { info with nnpCriticalError := some .unknownCriticalError, objType := some .none }

/-- The last `switch` of `parseExecError`. -/
def ofEventVal : ℕ → NNPCriticalError
  | 33 => .failedToReleaseCredit
  | 32 => .inputIsDirty
  | 27 => .infreqFailed
  | 28 => .infreqNetworkReset
  | 29 => .infreqCardReset
  | 26 => .notSupported
  | _ => .internalDriverError

/-- What a descriptor sets; the type of its command decides about the object. -/
def parseDesc (h : UserHandles) (desc : ExecErrorDesc) (info : CriticalErrorInfo) :
    CriticalErrorInfo :=
  let info :=
    if desc.cmdType = 0 then
      { info with
        objType := some .infreq
        obj := some (h.infReqObj desc.devnetId.toNat desc.objId.toNat) }
    else if desc.cmdType = 1 then
      { info with objType := some .copy, obj := some (h.copyObj desc.objId.toNat) }
    else if desc.cmdType = 2 then { info with objType := some .copy, obj := some (.copy 0) }
    else { info with objType := some .context }
  { info with
    errorMessageSize := some desc.errorMsgSize
    nnpCriticalError := some (ofEventVal desc.eventVal.toNat) }

def parseExecError {H : Type*} (h : UserHandles) (list : ExecErrorList H) (idx : ℕ)
    (info : CriticalErrorInfo) : CriticalErrorInfo :=
  match list.getDesc idx with
  | none => info
  | some desc => parseDesc h desc info

/-- The two fields that say what failed are set. -/
def Tells (info : CriticalErrorInfo) : Prop :=
  info.nnpCriticalError.isSome = true ∧ info.objType.isSome = true

instance (info : CriticalErrorInfo) : Decidable info.Tells := inferInstanceAs (Decidable (_ ∧ _))

/-- Every event of an error is told. -/
theorem tells_parseErrorEvent (h : UserHandles) (ev : EventReport) (info : CriticalErrorInfo) :
    (parseErrorEvent h ev info).Tells := by
  unfold parseErrorEvent
  repeat' split
  all_goals exact ⟨rfl, rfl⟩

theorem tells_parseDesc (h : UserHandles) (desc : ExecErrorDesc) (info : CriticalErrorInfo) :
    (parseDesc h desc info).Tells := by
  constructor
  · rfl
  · unfold parseDesc
    simp only
    repeat' split
    all_goals rfl

/-- A failed command is told exactly when its descriptor is there. -/
theorem tells_parseExecError_iff {H : Type*} (h : UserHandles) (list : ExecErrorList H)
    (idx : ℕ) : (parseExecError h list idx empty).Tells ↔ list.getDesc idx ≠ none := by
  unfold parseExecError
  cases list.getDesc idx with
  | none => exact iff_of_false (fun h => Bool.false_ne_true h.1) fun h => h rfl
  | some desc =>
    apply iff_of_true
    · exact tells_parseDesc h desc empty
    · rintro ⟨⟩

end CriticalErrorInfo

end NNPIHost

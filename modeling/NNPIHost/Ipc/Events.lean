import Mathlib.Data.Nat.Notation

/-! # Error codes and card events

The results of driver calls, and the reports a card sends with the ranges of their codes.
-/

namespace NNPIHost

inductive NNPError where
  | noError
  | noSuchDevice
  | deviceNotReady
  | outOfMemory
  | noSuchResource
  | noSuchContext
  | incompatibleResources
  | noSuchNetwork
  | tooManyContexts
  | invalidArgument
  | contextBroken
  | deviceError
  | timedOut
  | brokenMarker
  | ioError
  | noSuchCopyHandle
  | noSuchInfreqHandle
  | internalDriverError
  | operationInterrupted
  | notSupported
  | invalidExecutableNetworkBinary
  | inferMissingResource
  | hostresBroken
  | permissionDenied
  | deviceBusy
  | incompleteNetwork
  | devnetReserveInsufficientResources
  | outOfEccMemory
  | noSuchCmdlist
  | versionsMismatch
  | unknownError
  deriving DecidableEq, Repr

def eventValToNNPError : ℕ → NNPError
  | 0 => .noError
  | 1 => .noSuchContext
  | 2 => .noSuchResource
  | 3 => .noSuchCopyHandle
  | 4 => .noSuchNetwork
  | 5 => .noSuchInfreqHandle
  | 7 => .deviceNotReady
  | 8 => .outOfMemory
  | 12 => .notSupported
  | 13 => .invalidExecutableNetworkBinary
  | 14 => .inferMissingResource
  | 18 => .devnetReserveInsufficientResources
  | 19 => .timedOut
  | 20 => .outOfEccMemory
  | 17 => .contextBroken
  | 6 | 9 | 10 | 11 | 15 | 16 | 21 | 22 => .internalDriverError
  | _ => .unknownError

theorem eventValToNNPError_eq_noError {v : ℕ} : eventValToNNPError v = .noError ↔ v = 0 := by
  constructor
  · intro h
    unfold eventValToNNPError at h
    split at h
    · rfl
    all_goals cases h
  · rintro rfl
    rfl

/-- `c2h_event_report`, with the widths of its bit fields. -/
structure EventReport where
  opcode : BitVec 6
  eventCode : BitVec 7
  contextId : BitVec 8
  objId : BitVec 16
  objId2 : BitVec 16
  eventVal : BitVec 8
  ctxValid : Bool
  objValid : Bool
  objValid2 : Bool
  deriving DecidableEq, Repr

namespace EventReport

/-- The report whose 64-bit value is zero. -/
def zero : EventReport := ⟨0, 0, 0, 0, 0, 0, false, false, false⟩

/-- A report with the opcode the card uses for events. -/
def ofCode (code : BitVec 7) : EventReport := { zero with opcode := 4, eventCode := code }

variable (ev : EventReport)

def isContextFatalEvent : Bool := 96 ≤ ev.eventCode.toNat && ev.eventCode.toNat < 112

def isCardFatalEvent : Bool := 112 ≤ ev.eventCode.toNat

def isCardFatalDrvEvent : Bool := 120 ≤ ev.eventCode.toNat

end EventReport

end NNPIHost

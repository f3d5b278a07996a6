import NNPIHost.Codec.BitFields

/-! # Messages to the card

The layouts of messages on a channel, in words of 64 bits. All start with an opcode of six bits
and the id of the channel; the opcode tells the layout of the rest.
-/

namespace NNPIHost

open BitFields

/-- `h2c_ChanInferenceResourceOp`. -/
structure ResourceOp where
  opcode : BitVec 6
  chanId : BitVec 10
  rbId : Bool
  resID : BitVec 16
  destroy : Bool
  isInput : Bool
  isOutput : Bool
  isNetwork : Bool
  isForce4G : Bool
  isEcc : Bool
  isP2pDst : Bool
  isP2pSrc : Bool
  depth : BitVec 7
  align : BitVec 16
  size : UInt64
  deriving DecidableEq, Repr

namespace ResourceOp

def fields (m : ResourceOp) : List Field :=
  [bits m.opcode, bits m.chanId, flag m.rbId, bits m.resID, flag m.destroy, flag m.isInput,
    flag m.isOutput, flag m.isNetwork, flag m.isForce4G, flag m.isEcc, flag m.isP2pDst,
    flag m.isP2pSrc, bits m.depth, bits m.align]

def words (m : ResourceOp) : List UInt64 := [word m.fields, m.size]

def ofWords : List UInt64 → Option ResourceOp
  | [w, size] =>
      let (opcode, n) := take 6 w.toNat
      let (chanId, n) := take 10 n
      let (rbId, n) := takeFlag n
      let (resID, n) := take 16 n
      let (destroy, n) := takeFlag n
      let (isInput, n) := takeFlag n
      let (isOutput, n) := takeFlag n
      let (isNetwork, n) := takeFlag n
      let (isForce4G, n) := takeFlag n
      let (isEcc, n) := takeFlag n
      let (isP2pDst, n) := takeFlag n
      let (isP2pSrc, n) := takeFlag n
      let (depth, n) := take 7 n
      let (align, _) := take 16 n
      some ⟨opcode, chanId, rbId, resID, destroy, isInput, isOutput, isNetwork, isForce4G, isEcc,
        isP2pDst, isP2pSrc, depth, align, size⟩
  | _ => none

@[simp] theorem ofWords_words (m : ResourceOp) : ofWords m.words = some m := by
  simp [ofWords, words, fields]

end ResourceOp

/-- `h2c_ChanInferenceSchedCopy`. -/
structure SchedCopy where
  opcode : BitVec 6
  chanId : BitVec 10
  protCopyID : BitVec 16
  copySize : BitVec 30
  priority : BitVec 2
  deriving DecidableEq, Repr

namespace SchedCopy

def fields (m : SchedCopy) : List Field :=
  [bits m.opcode, bits m.chanId, bits m.protCopyID, bits m.copySize, bits m.priority]

def words (m : SchedCopy) : List UInt64 := [word m.fields]

def ofWords : List UInt64 → Option SchedCopy
  | [w] =>
      let (opcode, n) := take 6 w.toNat
      let (chanId, n) := take 10 n
      let (protCopyID, n) := take 16 n
      let (copySize, n) := take 30 n
      let (priority, _) := take 2 n
      some ⟨opcode, chanId, protCopyID, copySize, priority⟩
  | _ => none

@[simp] theorem ofWords_words (m : SchedCopy) : ofWords m.words = some m := by
  simp [ofWords, words, fields]

end SchedCopy

/-- `h2c_ChanInferenceSchedCopyLarge`. -/
structure SchedCopyLarge where
  opcode : BitVec 6
  chanId : BitVec 10
  protCopyID : BitVec 16
  priority : BitVec 8
  reserved : BitVec 24
  copySize : UInt64
  deriving DecidableEq, Repr

namespace SchedCopyLarge

def fields (m : SchedCopyLarge) : List Field :=
  [bits m.opcode, bits m.chanId, bits m.protCopyID, bits m.priority, bits m.reserved]

def words (m : SchedCopyLarge) : List UInt64 := [word m.fields, m.copySize]

def ofWords : List UInt64 → Option SchedCopyLarge
  | [w, copySize] =>
      let (opcode, n) := take 6 w.toNat
      let (chanId, n) := take 10 n
      let (protCopyID, n) := take 16 n
      let (priority, n) := take 8 n
      let (reserved, _) := take 24 n
      some ⟨opcode, chanId, protCopyID, priority, reserved, copySize⟩
  | _ => none

@[simp] theorem ofWords_words (m : SchedCopyLarge) : ofWords m.words = some m := by
  simp [ofWords, words, fields]

end SchedCopyLarge

/-- `h2c_ChanInferenceSchedCopySubres`. -/
structure SchedCopySubres where
  opcode : BitVec 6
  chanId : BitVec 10
  protCopyID : BitVec 16
  hostresId : BitVec 16
  copySize : BitVec 16
  dstOffset : UInt64
  deriving DecidableEq, Repr

namespace SchedCopySubres

def fields (m : SchedCopySubres) : List Field :=
  [bits m.opcode, bits m.chanId, bits m.protCopyID, bits m.hostresId, bits m.copySize]

def words (m : SchedCopySubres) : List UInt64 := [word m.fields, m.dstOffset]

def ofWords : List UInt64 → Option SchedCopySubres
  | [w, dstOffset] =>
      let (opcode, n) := take 6 w.toNat
      let (chanId, n) := take 10 n
      let (protCopyID, n) := take 16 n
      let (hostresId, n) := take 16 n
      let (copySize, _) := take 16 n
      some ⟨opcode, chanId, protCopyID, hostresId, copySize, dstOffset⟩
  | _ => none

@[simp] theorem ofWords_words (m : SchedCopySubres) : ofWords m.words = some m := by
  simp [ofWords, words, fields]

end SchedCopySubres

/-- `h2c_ChanInferenceReqSchedule`. -/
structure ReqSchedule where
  opcode : BitVec 6
  chanId : BitVec 10
  netID : BitVec 16
  infreqID : BitVec 16
  reserved : BitVec 16
  batchSize : BitVec 16
  priority : BitVec 8
  debugOn : Bool
  collectInfo : Bool
  schedParamsIsNull : Bool
  reserve : BitVec 37
  deriving DecidableEq, Repr

namespace ReqSchedule

def fields (m : ReqSchedule) : List Field :=
  [bits m.opcode, bits m.chanId, bits m.netID, bits m.infreqID, bits m.reserved]

def paramFields (m : ReqSchedule) : List Field :=
  [bits m.batchSize, bits m.priority, flag m.debugOn, flag m.collectInfo,
    flag m.schedParamsIsNull, bits m.reserve]

def words (m : ReqSchedule) : List UInt64 := [word m.fields, word m.paramFields]

def ofWords : List UInt64 → Option ReqSchedule
  | [w, params] =>
      let (opcode, n) := take 6 w.toNat
      let (chanId, n) := take 10 n
      let (netID, n) := take 16 n
      let (infreqID, n) := take 16 n
      let (reserved, _) := take 16 n
      let (batchSize, n) := take 16 params.toNat
      let (priority, n) := take 8 n
      let (debugOn, n) := takeFlag n
      let (collectInfo, n) := takeFlag n
      let (schedParamsIsNull, n) := takeFlag n
      let (reserve, _) := take 37 n
      some ⟨opcode, chanId, netID, infreqID, reserved, batchSize, priority, debugOn, collectInfo,
        schedParamsIsNull, reserve⟩
  | _ => none

@[simp] theorem ofWords_words (m : ReqSchedule) : ofWords m.words = some m := by
  simp [ofWords, words, fields, paramFields]

end ReqSchedule

end NNPIHost

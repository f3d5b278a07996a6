import NNPIHost.DevNet.Create

/-! # Sending an infer request

`nnpiInfReq::create` sends one page with the numbers of inputs and outputs, the size of the
configuration data, the ids of the inputs and outputs, and the data.
-/

namespace NNPIHost

namespace EventReport

def createInfreqSuccess : BitVec 7 := 13

def createInfreqFailed : BitVec 7 := 62

/-- What `nnpiInfReq::create` makes of its reply. -/
def createInfReqResult (reply : EventReport) : NNPError :=
  if reply.eventCode = createInfreqFailed then eventValToNNPError reply.eventVal.toNat
  else if reply.isContextFatalEvent then .contextBroken
  else if reply.eventCode ≠ createInfreqSuccess then .ioError
  else .noError

end EventReport

/-- `h2c_ChanInferenceReqOp`, with the widths of its bit fields. -/
structure InfReqMsg where
  chanId : BitVec 10
  netID : BitVec 16
  infreqID : BitVec 16
  size : BitVec 12
  rbId : BitVec 1
  destroy : Bool
  deriving DecidableEq, Repr

/-- What a request reads of a device resource. -/
structure ReqDevRes where
  id : UInt16
  usageFlags : UInt32
  deriving DecidableEq, Repr

namespace ReqDevRes

def nnInput : UInt32 := 1

def nnOutput : UInt32 := 2

def uses (r : ReqDevRes) (flag : UInt32) : Bool := r.usageFlags &&& flag != 0

end ReqDevRes

/-- What `nnpiInfReq::create` returns once it has an id. `reply` is what `wait_create_command`
gives, if it does not fail. -/
def RingPage.infReqResult (io : RingPage) (reply : Option EventReport) : NNPError :=
  if ¬ io.space then .ioError
  else if ¬ io.written then .ioError
  else
    match reply with
    | none => .ioError
    | some reply => reply.createInfReqResult

/-- The arguments of `nnpiInfReq::create`, with what it reads of the network. -/
structure InfReqRequest where
  chanId : BitVec 10
  netID : BitVec 16
  netValid : Bool
  inputs : List ReqDevRes
  outputs : List ReqDevRes
  configData : Option (ℕ → UInt8)
  configDataSize : UInt32

/-- The message and the bytes of the only page. -/
structure InfReqSend where
  msg : InfReqMsg
  bytes : List UInt8

namespace InfReqRequest

variable (r : InfReqRequest)

def packetSize : ℕ :=
  (12 + (r.inputs.length + r.outputs.length) * 2 + r.configDataSize.toNat) % 2 ^ 32

/-- What is put into the page. -/
def bytes : List UInt8 :=
  Codec.u32.encode (.ofNat r.inputs.length) ++ Codec.u32.encode (.ofNat r.outputs.length) ++
    Codec.u32.encode r.configDataSize ++
    r.inputs.flatMap (fun d => Codec.u16.encode d.id) ++
    r.outputs.flatMap (fun d => Codec.u16.encode d.id) ++
    match r.configData with
    | none => []
    | some data => Memory.read data 0 r.configDataSize.toNat

/-- What is done before the page is sent; `id` is what `allocInfReqID` gives. -/
def start (broken : Bool) (id : Option (BitVec 16)) : Except NNPError InfReqSend :=
  if r.configData.isNone ∧ 0 < r.configDataSize then .error .invalidArgument
  else if ¬ r.netValid then .error .incompleteNetwork
  else if broken then .error .contextBroken
  else if 4096 ≤ r.packetSize ∨ r.outputs.length = 0 then .error .notSupported
  else if ¬ r.inputs.all (·.uses ReqDevRes.nnInput) then .error .incompatibleResources
  else if ¬ r.outputs.all (·.uses ReqDevRes.nnOutput) then .error .incompatibleResources
  else
    match id with
    | none => .error .notSupported
    | some id => .ok {
        msg := {
          chanId := r.chanId
          netID := r.netID
          infreqID := id
          size := .ofNat 12 r.packetSize
          rbId := 0
          destroy := false }
        bytes := r.bytes }

/-- `nnpiInfReq::create`: the page that is filled, if there is room for it, and what it
returns. -/
def send (broken : Bool) (id : Option (BitVec 16)) (io : RingPage) (reply : Option EventReport) :
    Option InfReqSend × NNPError :=
  match r.start broken id with
  | .error e => (none, e)
  | .ok page => (if io.space then some page else none, io.infReqResult reply)

theorem length_bytes_eq (hconf : r.configData = none → r.configDataSize = 0) :
    r.bytes.length = 12 + (r.inputs.length + r.outputs.length) * 2 + r.configDataSize.toNat := by
  have hids (ds : List ReqDevRes) :
      (ds.flatMap fun d => Codec.u16.encode d.id).length = ds.length * 2 := by
    simp [List.length_flatMap, List.map_const']
  cases hdata : r.configData with
  | none =>
    simp only [bytes, hdata, List.length_append, hids, Codec.length_u32, hconf hdata,
      List.length_nil, UInt32.toNat_zero]
    omega
  | some data =>
    simp only [bytes, hdata, List.length_append, hids, Codec.length_u32, Memory.length_read]
    omega

theorem length_bytes (hconf : r.configData = none → r.configDataSize = 0) :
    r.bytes.length % 2 ^ 32 = r.packetSize := by
  rw [length_bytes_eq r hconf, packetSize]

end InfReqRequest

end NNPIHost

import Mathlib.Data.List.TakeWhile
import NNPIHost.Codec.Schema
import NNPIHost.CommandList.Send
import NNPIHost.Context.ScheduleMessages
import NNPIHost.DevRes.Create

/-! # All messages to the card

The driver's functions write their arguments into the bit fields of a message each, and the card
reads messages off the channel one after the other. What it reads are the arguments of the
functions as long as they have room in their fields.
-/

namespace NNPIHost

/-- `nnp_chan_h2c_opcode`, less the messages that this driver does not send. -/
inductive H2COpcode where
  | channelRbUpdate | chanInfContext | chanInfResource | chanCopyOp | chanScheduleCopy
  | chanScheduleCopyLarge | chanScheduleCopySubres | chanInfNetwork | chanInfReqOp
  | chanScheduleInfReq | chanSync | chanNetworkProperty | chanInfCmdlist | chanScheduleCmdlist
  | chanExecErrorList | chanP2pGetCrFifo | chanP2pConnectPeers | chanP2pUpdatePeerDev
  | chanTraceUserData | chanIdsMap | chanMarkInfResource
  deriving DecidableEq, Repr

namespace H2COpcode

def code : H2COpcode → ℕ
  | channelRbUpdate => 32
  | chanInfContext => 34
  | chanInfResource => 35
  | chanCopyOp => 36
  | chanScheduleCopy => 37
  | chanScheduleCopyLarge => 38
  | chanScheduleCopySubres => 39
  | chanInfNetwork => 40
  | chanInfReqOp => 41
  | chanScheduleInfReq => 42
  | chanSync => 43
  | chanNetworkProperty => 45
  | chanInfCmdlist => 46
  | chanScheduleCmdlist => 47
  | chanExecErrorList => 50
  | chanP2pGetCrFifo => 51
  | chanP2pConnectPeers => 52
  | chanP2pUpdatePeerDev => 53
  | chanTraceUserData => 54
  | chanIdsMap => 55
  | chanMarkInfResource => 56

def all : List H2COpcode :=
  [channelRbUpdate, chanInfContext, chanInfResource, chanCopyOp, chanScheduleCopy,
    chanScheduleCopyLarge, chanScheduleCopySubres, chanInfNetwork, chanInfReqOp,
    chanScheduleInfReq, chanSync, chanNetworkProperty, chanInfCmdlist, chanScheduleCmdlist,
    chanExecErrorList, chanP2pGetCrFifo, chanP2pConnectPeers, chanP2pUpdatePeerDev,
    chanTraceUserData, chanIdsMap, chanMarkInfResource]

def ofCode (n : ℕ) : Option H2COpcode := all.find? fun op => op.code == n

/-- The widths of the fields after `opcode` and `chan_id`, as the unions of the protocol have
them. -/
def fields : H2COpcode → List ℕ
  | channelRbUpdate => [1, 15, 32]
  | chanInfContext => [1, 1, 1, 8, 37]
  | chanInfResource => [1, 16, 1, 1, 1, 1, 1, 1, 1, 1, 7, 16, 64]
  | chanCopyOp => [16, 16, 1, 1, 1, 45, 1, 10, 16, 5]
  | chanScheduleCopy => [16, 30, 2]
  | chanScheduleCopyLarge => [16, 8, 24, 64]
  | chanScheduleCopySubres => [16, 16, 16, 64]
  | chanInfNetwork => [16, 1, 1, 1, 24, 5, 32, 24, 7, 1]
  | chanInfReqOp => [16, 16, 12, 1, 1, 2]
  | chanScheduleInfReq => [16, 16, 16, 16, 8, 1, 1, 1, 37]
  | chanSync => [16, 32]
  | chanNetworkProperty => [16, 32, 32, 32]
  | chanInfCmdlist | chanScheduleCmdlist => [16, 1, 1, 1, 1, 16, 12]
  | chanExecErrorList => [16, 1, 1, 30]
  | chanP2pGetCrFifo => [16, 5, 1, 26]
  | chanP2pConnectPeers => [16, 8, 1, 5, 8, 1, 9]
  | chanP2pUpdatePeerDev => [16, 5, 1, 57, 45, 52]
  | chanTraceUserData => [48, 64]
  | chanIdsMap => [16, 16, 16, 64]
  | chanMarkInfResource => [16, 32]

theorem ofCode_code (op : H2COpcode) : ofCode op.code = some op := by cases op <;> rfl

theorem code_of_ofCode {n : ℕ} {op : H2COpcode} (h : ofCode n = some op) : op.code = n := by
  have hcode := List.find?_some h
  exact beq_iff_eq.mp hcode

theorem code_lt (op : H2COpcode) : op.code < 64 := by cases op <;> decide

theorem whole (op : H2COpcode) : ∃ k, 16 + op.fields.sum = 64 * (k + 1) := by
  cases op <;> first | exact ⟨0, rfl⟩ | exact ⟨1, rfl⟩ | exact ⟨2, rfl⟩

end H2COpcode

/-- The messages from the host to the card. -/
def h2cSchema : Schema where
  bits := 6
  layout n := (H2COpcode.ofCode n).map fun op => 10 :: op.fields
  bits_le := by decide
  opcode_lt h := by
    obtain ⟨op, hop, -⟩ := Option.map_eq_some_iff.mp h
    exact H2COpcode.code_of_ofCode hop ▸ op.code_lt
  whole h := by
    obtain ⟨op, -, rfl⟩ := Option.map_eq_some_iff.mp h
    obtain ⟨k, hk⟩ := op.whole
    refine ⟨k, ?_⟩
    rw [List.sum_cons]
    omega

/-- What the driver tells the card, by the functions that write the messages. -/
inductive HostRequest where
  /-- `sendResponseRingBufferHeadUpdate`. -/
  | headUpdate (rbId : Bool) (size : UInt32)
  /-- `nnpiInfContext::create`. -/
  | createContext (flags : UInt8)
  | destroyContext
  | createDevRes (args : ResourceArgs)
  | destroyDevRes (id : UInt16)
  | markDevResDirty (id : UInt16)
  | createCopy (devres hostres : UInt16) (isC2h isSubres : Bool) (id : UInt16)
  | createDeviceToDeviceCopy (src : UInt16) (dstAddr : UInt64) (dst dstCtx : UInt16)
      (peerDev : UInt32) (id : UInt16)
  | destroyCopy (id : UInt16)
  | schedule (call : ScheduleCall)
  /-- A page of `send_create_or_add`. -/
  | network (id : UInt16) (isCreate : Bool) (numRes totalSize : UInt64) (startResIdx : UInt32)
      (chained : Bool)
  | destroyNetwork (id : UInt16)
  /-- `nnpiInfReq::create`. -/
  | createInfReq (net id : UInt16) (packetSize : UInt32)
  | destroyInfReq (net id : UInt16)
  | createMarker (syncSeq : UInt16)
  | setProperty (net : UInt16) (timeout property value : UInt32)
  /-- A page of `send_to_card`. -/
  | commandList (opcode : CommandList.CmdListOpcode) (id : UInt16) (isFirst isLast : Bool)
      (optDependencies : Bool) (size : UInt32)
  | destroyCommandList (id : UInt16)
  /-- `sendQueryErrorList`; the id is there when it is no larger than `USHRT_MAX`. -/
  | queryErrorList (cmdId : Option UInt16) (forClear : Bool)
  | getCrFifo (trId : UInt16) (peer : UInt32) (fwFifo : Bool)
  | updatePeerDev (trId : UInt16) (dev : UInt32) (isProducer : Bool) (bar0 crFifo : UInt64)
  /-- `d2d_pair`, with the number and the buffer of the peer. -/
  | connectPeers (trId : UInt16) (bufId : UInt8) (isSrcBuf : Bool) (peer : Option (UInt32 × UInt8))
  | traceUserData (key : List UInt8) (userData : UInt64)
  | sendUserHandle (objType id1 id2 : UInt16) (handle : UInt64)
  deriving DecidableEq, Repr

namespace HostRequest

/-- `MSB_DB_OFFSET`. -/
def msbDbOffset : UInt64 := 0x37

/-- `scheduleCopy` takes the small form. -/
def isSmall (byteSize : UInt64) (priority : UInt8) : Bool := byteSize ≤ 0x3fffffff && priority ≤ 3

def opcode : HostRequest → H2COpcode
  | headUpdate .. => .channelRbUpdate
  | createContext _ | destroyContext => .chanInfContext
  | createDevRes _ | destroyDevRes _ => .chanInfResource
  | markDevResDirty _ => .chanMarkInfResource
  | createCopy .. | createDeviceToDeviceCopy .. | destroyCopy _ => .chanCopyOp
  | schedule (.copy _ byteSize priority) =>
      if isSmall byteSize priority then .chanScheduleCopy else .chanScheduleCopyLarge
  | schedule (.copySubres ..) => .chanScheduleCopySubres
  | schedule (.infReq ..) => .chanScheduleInfReq
  | network .. | destroyNetwork _ => .chanInfNetwork
  | createInfReq .. | destroyInfReq .. => .chanInfReqOp
  | createMarker _ => .chanSync
  | setProperty .. => .chanNetworkProperty
  | commandList .chanInfCmdlist .. | destroyCommandList _ => .chanInfCmdlist
  | commandList .chanScheduleCmdlist .. => .chanScheduleCmdlist
  | queryErrorList .. => .chanExecErrorList
  | getCrFifo .. => .chanP2pGetCrFifo
  | updatePeerDev .. => .chanP2pUpdatePeerDev
  | connectPeers .. => .chanP2pConnectPeers
  | traceUserData .. => .chanTraceUserData
  | sendUserHandle .. => .chanIdsMap

/-- The bytes of a number of 48 bits, as `memcpy_s` of the key puts them there. -/
def keyWord (key : List UInt8) : ℕ :=
  (key.take 6).foldr (fun b n => b.toNat + 256 * n) 0

/-- The values that go into the fields; `stale` is what fields that nothing is put into have. -/
def values (stale : ℕ → ℕ) : HostRequest → List ℕ
  | headUpdate rbId size => [rbId.toNat, 0, size.toNat]
  | createContext flags => [0, 0, 0, flags.toNat, 0]
  | destroyContext => [0, 1, 0, 0, 0]
  | createDevRes a =>
      [0, a.id.toNat, 0, a.isInput.toNat, a.isOutput.toNat, a.isNetwork.toNat, a.isForce4G.toNat,
        a.isEcc.toNat, a.isP2pDst.toNat, a.isP2pSrc.toNat, a.depth, a.alignPages, a.size.toNat]
  | destroyDevRes id => [0, id.toNat, 1, 0, 0, 0, 0, 0, 0, 0, 0, 0, 0]
  | markDevResDirty id => [id.toNat, 0]
  | createCopy devres hostres isC2h isSubres id =>
      [devres.toNat, id.toNat, 0, isC2h.toNat, 0, hostres.toNat, isSubres.toNat, 0, 0, 0]
  | createDeviceToDeviceCopy src dstAddr dst dstCtx peerDev id =>
      [src.toNat, id.toNat, 1, 0, 0, dstAddr.toNat / 4096, 0, dstCtx.toNat, dst.toNat,
        peerDev.toNat % 256]
  | destroyCopy id => [0, id.toNat, 0, 0, 1, 0, 0, 0, 0, 0]
  | schedule (.copy id byteSize priority) =>
      if isSmall byteSize priority then [id.toNat, byteSize.toNat, priority.toNat]
      else [id.toNat, priority.toNat, stale 0, byteSize.toNat]
  | schedule (.copySubres id hostres offset byteSize) =>
      [id.toNat, hostres.toNat, (byteSize - 1).toNat, offset.toNat]
  | schedule (.infReq net id none) => [net.toNat, id.toNat, 0, 0, 0, 0, 0, 1, 0]
  | schedule (.infReq net id (some p)) =>
      [net.toNat, id.toNat, 0, p.batchSize.toNat, p.priority.toNat, p.debugOn.toNat,
        p.collectInfo.toNat, 0, 0]
  | network id isCreate numRes totalSize startResIdx chained =>
      [id.toNat, 0, 0, isCreate.toNat, numRes.toNat, 0, (totalSize - 1).toNat, startResIdx.toNat, 0,
        chained.toNat]
  | destroyNetwork id => [id.toNat, 0, 1, 0, 0, 0, 0, 0, 0, 0]
  | createInfReq net id packetSize => [net.toNat, id.toNat, packetSize.toNat, 0, 0, 0]
  | destroyInfReq net id => [net.toNat, id.toNat, 0, 0, 1, 0]
  | createMarker syncSeq => [syncSeq.toNat, stale 0]
  | setProperty net timeout property value =>
      [net.toNat, timeout.toNat, property.toNat, value.toNat]
  | commandList _ id isFirst isLast optDependencies size =>
      [id.toNat, 0, isFirst.toNat, isLast.toNat, optDependencies.toNat, size.toNat, 0]
  | destroyCommandList id => [id.toNat, 1, 0, 0, 0, 0, 0]
  | queryErrorList none forClear => [0, 0, forClear.toNat, 0]
  | queryErrorList (some cmdId) forClear => [cmdId.toNat, 1, forClear.toNat, 0]
  | getCrFifo trId peer fwFifo => [trId.toNat, peer.toNat, fwFifo.toNat, stale 0]
  | updatePeerDev trId dev isProducer bar0 crFifo =>
      [trId.toNat, dev.toNat, isProducer.toNat, (bar0 + msbDbOffset).toNat, crFifo.toNat / 4096,
        stale 0]
  | connectPeers trId bufId isSrcBuf none =>
      [trId.toNat, bufId.toNat, isSrcBuf.toNat, stale 0, stale 1, 1, stale 2]
  | connectPeers trId bufId isSrcBuf (some (dev, buf)) =>
      [trId.toNat, bufId.toNat, isSrcBuf.toNat, dev.toNat, buf.toNat, 0, stale 2]
  | traceUserData key userData => [keyWord key, userData.toNat]
  | sendUserHandle objType id1 id2 handle =>
      [objType.toNat, id1.toNat, id2.toNat, handle.toNat]

/-- The words on the channel. -/
def words (chanId : BitVec 10) (stale : ℕ → ℕ) (r : HostRequest) : List UInt64 :=
  h2cSchema.encode r.opcode.code (chanId.toNat :: r.values stale)

/-- The bytes of a word up to the first that is zero, six of them at most. -/
def keyOfWord : ℕ → ℕ → List UInt8
  | 0, _ => []
  | k + 1, n => if n % 256 = 0 then [] else .ofNat (n % 256) :: keyOfWord k (n / 256)

/-- What the card makes of the fields of a message. -/
def ofValues : H2COpcode → List ℕ → Option HostRequest
  | .channelRbUpdate, [rbId, _, size] => some (.headUpdate (rbId == 1) (.ofNat size))
  | .chanInfContext, [_, destroy, _, cflags, _] =>
      some (if destroy = 1 then .destroyContext else .createContext (.ofNat cflags))
  | .chanInfResource, [_, id, destroy, isIn, isOut, isNet, is4G, isEcc, isDst, isSrc, depth, align,
      size] =>
      some (if destroy = 1 then .destroyDevRes (.ofNat id)
        else .createDevRes ⟨.ofNat id, .ofNat size, depth, align, isIn == 1, isOut == 1, isNet == 1,
          is4G == 1, isEcc == 1, isDst == 1, isSrc == 1⟩)
  | .chanMarkInfResource, [id, _] => some (.markDevResDirty (.ofNat id))
  | .chanCopyOp, [res, id, d2d, c2h, destroy, hostres, subres, peerChan, peerRes, peerDev] =>
      some (if destroy = 1 then .destroyCopy (.ofNat id)
        else if d2d = 1 then
          .createDeviceToDeviceCopy (.ofNat res) (.ofNat (4096 * hostres)) (.ofNat peerRes)
            (.ofNat peerChan) (.ofNat peerDev) (.ofNat id)
        else .createCopy (.ofNat res) (.ofNat hostres) (c2h == 1) (subres == 1) (.ofNat id))
  | .chanScheduleCopy, [id, size, priority] =>
      some (.schedule (.copy (.ofNat id) (.ofNat size) (.ofNat priority)))
  | .chanScheduleCopyLarge, [id, priority, _, size] =>
      some (.schedule (.copy (.ofNat id) (.ofNat size) (.ofNat priority)))
  | .chanScheduleCopySubres, [id, hostres, size, offset] =>
      some (.schedule (.copySubres (.ofNat id) (.ofNat hostres) (.ofNat offset)
        (.ofNat (size + 1))))
  | .chanScheduleInfReq, [net, id, _, batch, priority, debug, collect, isNull, _] =>
      some (.schedule (.infReq (.ofNat net) (.ofNat id)
        (if isNull = 1 then none
        else some ⟨.ofNat batch, .ofNat priority, debug == 1, collect == 1⟩)))
  | .chanInfNetwork, [id, _, destroy, create, numRes, _, size, start, _, chained] =>
      some (if destroy = 1 then .destroyNetwork (.ofNat id)
        else .network (.ofNat id) (create == 1) (.ofNat numRes) (.ofNat (size + 1)) (.ofNat start)
          (chained == 1))
  | .chanInfReqOp, [net, id, size, _, destroy, _] =>
      some (if destroy = 1 then .destroyInfReq (.ofNat net) (.ofNat id)
        else .createInfReq (.ofNat net) (.ofNat id) (.ofNat size))
  | .chanSync, [syncSeq, _] => some (.createMarker (.ofNat syncSeq))
  | .chanNetworkProperty, [net, timeout, property, value] =>
      some (.setProperty (.ofNat net) (.ofNat timeout) (.ofNat property) (.ofNat value))
  | .chanInfCmdlist, [id, destroy, isFirst, isLast, opt, size, _] =>
      some (if destroy = 1 then .destroyCommandList (.ofNat id)
        else .commandList .chanInfCmdlist (.ofNat id) (isFirst == 1) (isLast == 1) (opt == 1)
          (.ofNat size))
  | .chanScheduleCmdlist, [id, _, isFirst, isLast, opt, size, _] =>
      some (.commandList .chanScheduleCmdlist (.ofNat id) (isFirst == 1) (isLast == 1) (opt == 1)
        (.ofNat size))
  | .chanExecErrorList, [cmdId, valid, clear, _] =>
      some (.queryErrorList (if valid = 1 then some (.ofNat cmdId) else none) (clear == 1))
  | .chanP2pGetCrFifo, [trId, peer, fw, _] =>
      some (.getCrFifo (.ofNat trId) (.ofNat peer) (fw == 1))
  | .chanP2pUpdatePeerDev, [trId, dev, producer, db, fifo, _] =>
      some (.updatePeerDev (.ofNat trId) (.ofNat dev) (producer == 1) (.ofNat db - msbDbOffset)
        (.ofNat (4096 * fifo)))
  | .chanP2pConnectPeers, [trId, buf, isSrc, peerDev, peerBuf, disconnect, _] =>
      some (.connectPeers (.ofNat trId) (.ofNat buf) (isSrc == 1)
        (if disconnect = 1 then none else some (.ofNat peerDev, .ofNat peerBuf)))
  | .chanTraceUserData, [key, userData] => some (.traceUserData (keyOfWord 6 key) (.ofNat userData))
  | .chanIdsMap, [objType, val1, val2, handle] =>
      some (.sendUserHandle (.ofNat objType) (.ofNat val1) (.ofNat val2) (.ofNat handle))
  | _, _ => none

/-- The message on a channel, of the fields after the opcode. -/
def ofRow (row : ℕ × List ℕ) : Option (BitVec 10 × HostRequest) :=
  match row.2 with
  | [] => none
  | chanId :: vs =>
      ((H2COpcode.ofCode row.1).bind (ofValues · vs)).map fun r => (BitVec.ofNat 10 chanId, r)

/-- What the card reads off a stream of words. -/
def readAll (words : List UInt64) : Option (List (BitVec 10 × HostRequest)) :=
  (h2cSchema.readAll words).bind fun rows => rows.mapM ofRow

/-- The arguments have room in their fields: device numbers in five bits, addresses in 45 bits of
pages and 57 bits, keys in six bytes, and what the other functions do not check. -/
def Fits : HostRequest → Prop
  | createDevRes a => a.depth < 2 ^ 7 ∧ a.alignPages < 2 ^ 16
  | createDeviceToDeviceCopy _ dstAddr _ dstCtx peerDev _ =>
      (dstAddr.toNat % 4096 = 0 ∧ dstAddr.toNat < 2 ^ 57) ∧ dstCtx.toNat < 2 ^ 10 ∧
        peerDev.toNat < 2 ^ 5
  | schedule (.copySubres _ _ _ byteSize) => (byteSize - 1).toNat < 2 ^ 16
  | network _ _ numRes totalSize startResIdx _ =>
      numRes.toNat < 2 ^ 24 ∧ (totalSize - 1).toNat < 2 ^ 32 ∧ startResIdx.toNat < 2 ^ 24
  | createInfReq _ _ packetSize => packetSize.toNat < 2 ^ 12
  | commandList _ _ _ _ _ size => size.toNat < 2 ^ 16
  | getCrFifo _ peer _ => peer.toNat < 2 ^ 5
  | updatePeerDev _ dev _ bar0 crFifo =>
      dev.toNat < 2 ^ 5 ∧ (bar0 + msbDbOffset).toNat < 2 ^ 57 ∧ crFifo.toNat % 4096 = 0 ∧
        crFifo.toNat < 2 ^ 57
  | connectPeers _ _ _ (some (dev, _)) => dev.toNat < 2 ^ 5
  | traceUserData key _ => key.length ≤ 6 ∧ 0 ∉ key
  | _ => True

section Stored

variable {w : ℕ}

@[simp] theorem beq_stored (b : Bool) : (b.toNat % 2 == 1) = b := by cases b <;> rfl

@[simp] theorem ofNat8_stored (x : UInt8) :
    UInt8.ofNat (x.toNat % 2 ^ w) = x ↔ x.toNat < 2 ^ w := by
  rw [← UInt8.toNat_inj, UInt8.toNat_ofNat_of_lt' (Nat.lt_of_le_of_lt (Nat.mod_le _ _) x.toNat_lt)]
  exact Nat.mod_eq_iff_lt (Nat.two_pow_pos w).ne'

@[simp] theorem ofNat16_stored (x : UInt16) :
    UInt16.ofNat (x.toNat % 2 ^ w) = x ↔ x.toNat < 2 ^ w := by
  rw [← UInt16.toNat_inj,
    UInt16.toNat_ofNat_of_lt' (Nat.lt_of_le_of_lt (Nat.mod_le _ _) x.toNat_lt)]
  exact Nat.mod_eq_iff_lt (Nat.two_pow_pos w).ne'

@[simp] theorem ofNat32_stored (x : UInt32) :
    UInt32.ofNat (x.toNat % 2 ^ w) = x ↔ x.toNat < 2 ^ w := by
  rw [← UInt32.toNat_inj,
    UInt32.toNat_ofNat_of_lt' (Nat.lt_of_le_of_lt (Nat.mod_le _ _) x.toNat_lt)]
  exact Nat.mod_eq_iff_lt (Nat.two_pow_pos w).ne'

@[simp] theorem ofNat64_stored (x : UInt64) :
    UInt64.ofNat (x.toNat % 2 ^ w) = x ↔ x.toNat < 2 ^ w := by
  rw [← UInt64.toNat_inj,
    UInt64.toNat_ofNat_of_lt' (Nat.lt_of_le_of_lt (Nat.mod_le _ _) x.toNat_lt)]
  exact Nat.mod_eq_iff_lt (Nat.two_pow_pos w).ne'

theorem ofNat_pages (x : UInt64) : 4096 * UInt64.ofNat (x.toNat / 4096 % 2 ^ 45) = x ↔
    x.toNat % 4096 = 0 ∧ x.toNat < 2 ^ 57 := by
  have hlt := x.toNat_lt
  have hofNat : UInt64.ofNat (4096 * (x.toNat / 4096 % 2 ^ 45)) =
      4096 * UInt64.ofNat (x.toNat / 4096 % 2 ^ 45) := UInt64.ofNat_mul _ _
  rw [← hofNat, ← UInt64.toNat_inj, UInt64.toNat_ofNat_of_lt' (by simp only [UInt64.size]; omega)]
  omega

theorem ofNat_sizes (x : UInt64) : UInt64.ofNat ((x - 1).toNat % 2 ^ w) + 1 = x ↔
    (x - 1).toNat < 2 ^ w := by
  rw [← ofNat64_stored]
  constructor
  · intro h
    nth_rewrite 2 [← h]
    rw [UInt64.add_sub_cancel]
  · intro h
    rw [h, UInt64.sub_add_cancel]

theorem ofNat_sub (x y : UInt64) : UInt64.ofNat ((x + y).toNat % 2 ^ w) - y = x ↔
    (x + y).toNat < 2 ^ w := by
  rw [← ofNat64_stored]
  constructor
  · intro h
    nth_rewrite 2 [← h]
    rw [UInt64.sub_add_cancel]
  · intro h
    rw [h, UInt64.add_sub_cancel]

end Stored

theorem keyOfWord_foldr (k : ℕ) (key : List UInt8) :
    keyOfWord k ((key.take k).foldr (fun b n => b.toNat + 256 * n) 0) =
      (key.take k).takeWhile (· ≠ 0) := by
  induction k generalizing key with
  | zero => rfl
  | succ k ih =>
    cases key with
    | nil => rfl
    | cons b key =>
      have hb := b.toNat_lt
      rw [List.take_succ_cons, List.foldr_cons, keyOfWord, Nat.add_mul_mod_self_left,
        Nat.mod_eq_of_lt hb, Nat.add_mul_div_left _ _ (by decide), Nat.div_eq_of_lt hb,
        Nat.zero_add, ih, UInt8.ofNat_toNat]
      by_cases hzero : b = 0
      · subst hzero
        rfl
      · have hne : b.toNat ≠ 0 := fun h => hzero (UInt8.toNat_inj.mp h)
        rw [if_neg hne, List.takeWhile_cons, if_pos (decide_eq_true hzero)]

theorem keyWord_lt (key : List UInt8) : keyWord key < 2 ^ 48 := by
  have hlt : ∀ (k : ℕ) (key : List UInt8), key.length ≤ k →
      key.foldr (fun b n => b.toNat + 256 * n) 0 < 256 ^ k := by
    intro k
    induction k with
    | zero =>
      intro key hk
      rw [List.length_eq_zero_iff.mp (Nat.le_zero.mp hk)]
      decide
    | succ k ih =>
      intro key hk
      cases key with
      | nil => exact Nat.pow_pos (by decide)
      | cons b key =>
        have hb := b.toNat_lt
        have hrest := ih key (Nat.le_of_succ_le_succ hk)
        rw [List.foldr_cons, Nat.pow_succ]
        omega
  exact hlt 6 _ (List.length_take_le 6 key)

theorem keyOfWord_iff (key : List UInt8) :
    keyOfWord 6 (keyWord key % 2 ^ 48) = key ↔ key.length ≤ 6 ∧ 0 ∉ key := by
  rw [Nat.mod_eq_of_lt (keyWord_lt key), keyWord, keyOfWord_foldr]
  constructor
  · intro h
    have hle : key.length ≤ 6 := by
      rw [← h]
      exact Nat.le_trans (List.takeWhile_prefix _).length_le (List.length_take_le 6 key)
    refine ⟨hle, fun hzero => ?_⟩
    rw [← h] at hzero
    have hne := List.mem_takeWhile_imp hzero
    exact absurd rfl (of_decide_eq_true hne)
  · rintro ⟨hle, hzero⟩
    rw [List.take_of_length_le hle]
    apply List.takeWhile_eq_self_iff.mpr
    rintro b hb
    exact decide_eq_true (ne_of_mem_of_not_mem hb hzero)

theorem lt_of_isSmall {byteSize : UInt64} {priority : UInt8}
    (h : isSmall byteSize priority = true) :
    byteSize.toNat < 2 ^ 30 ∧ priority.toNat < 2 ^ 2 := by
  rw [isSmall, Bool.and_eq_true, decide_eq_true_iff, decide_eq_true_iff] at h
  have hsize : byteSize.toNat ≤ 0x3fffffff := UInt64.le_iff_toNat_le.mp h.1
  have hpriority : priority.toNat ≤ 3 := UInt8.le_iff_toNat_le.mp h.2
  omega

/-- The fields of a message say what it was made of exactly when the arguments fit. -/
theorem ofValues_stored_iff (stale : ℕ → ℕ) (r : HostRequest) :
    ofValues r.opcode (Schema.stored r.opcode.fields (r.values stale)) = some r ↔ r.Fits := by
  cases r with
  | createDevRes a =>
    cases a
    simp [-Nat.reducePow, Fits, opcode, values, H2COpcode.fields, Schema.stored, ofValues,
      UInt16.toNat_lt, UInt64.toNat_lt, Nat.mod_eq_iff_lt]
  | createCopy devres hostres isC2h isSubres id =>
    have hlt : hostres.toNat < 2 ^ 45 := Nat.lt_trans hostres.toNat_lt (by decide)
    simp [-Nat.reducePow, Fits, opcode, values, H2COpcode.fields, Schema.stored, ofValues,
      UInt16.toNat_lt, hlt]
  | createDeviceToDeviceCopy =>
    have hmod : ∀ n : ℕ, n % 256 % 2 ^ 5 = n % 2 ^ 5 := fun n => Nat.mod_mod_of_dvd n (by decide)
    simp [-Nat.reducePow, Fits, opcode, values, H2COpcode.fields, Schema.stored, ofValues,
      UInt16.toNat_lt, ofNat_pages, hmod]
  | schedule call =>
    cases call with
    | copy id byteSize priority =>
      cases hsmall : isSmall byteSize priority with
      | true =>
        obtain ⟨hsize, hpriority⟩ := lt_of_isSmall hsmall
        simp [-Nat.reducePow, Fits, opcode, values, H2COpcode.fields, Schema.stored, ofValues,
          UInt16.toNat_lt, hsmall, hsize, hpriority]
      | false =>
        simp [-Nat.reducePow, Fits, opcode, values, H2COpcode.fields, Schema.stored, ofValues,
          UInt8.toNat_lt, UInt16.toNat_lt, UInt64.toNat_lt, hsmall]
    | copySubres =>
      simp [-Nat.reducePow, Fits, opcode, values, H2COpcode.fields, Schema.stored, ofValues,
        UInt16.toNat_lt, UInt64.toNat_lt, ofNat_sizes]
    | infReq net id params =>
      rcases params with _ | ⟨batchSize, priority, debugOn, collectInfo⟩ <;>
        simp [-Nat.reducePow, Fits, opcode, values, H2COpcode.fields, Schema.stored, ofValues,
          UInt8.toNat_lt, UInt16.toNat_lt]
  | network =>
    simp [-Nat.reducePow, Fits, opcode, values, H2COpcode.fields, Schema.stored, ofValues,
      UInt16.toNat_lt, ofNat_sizes]
  | commandList op =>
    cases op <;>
      simp [-Nat.reducePow, Fits, opcode, values, H2COpcode.fields, Schema.stored, ofValues,
        UInt16.toNat_lt]
  | queryErrorList cmdId =>
    cases cmdId <;>
      simp [-Nat.reducePow, Fits, opcode, values, H2COpcode.fields, Schema.stored, ofValues,
        UInt16.toNat_lt]
  | updatePeerDev =>
    simp [-Nat.reducePow, -UInt64.toNat_add, Fits, opcode, values, H2COpcode.fields,
      Schema.stored, ofValues,
      UInt16.toNat_lt, ofNat_pages, ofNat_sub]
  | connectPeers trId bufId isSrcBuf peer =>
    rcases peer with _ | ⟨dev, buf⟩ <;>
      simp [-Nat.reducePow, Fits, opcode, values, H2COpcode.fields, Schema.stored, ofValues,
        UInt8.toNat_lt, UInt16.toNat_lt]
  | traceUserData =>
    simp [-Nat.reducePow, Fits, opcode, values, H2COpcode.fields, Schema.stored, ofValues,
      UInt64.toNat_lt, keyOfWord_iff]
  | _ =>
    simp [-Nat.reducePow, Fits, opcode, values, H2COpcode.fields, Schema.stored, ofValues,
      UInt8.toNat_lt, UInt16.toNat_lt, UInt32.toNat_lt, UInt64.toNat_lt]

theorem length_values (stale : ℕ → ℕ) (r : HostRequest) :
    (r.values stale).length = r.opcode.fields.length := by
  cases r with
  | schedule call =>
    cases call with
    | copy id byteSize priority =>
      cases hsmall : isSmall byteSize priority <;>
        simp [opcode, values, H2COpcode.fields, hsmall]
    | copySubres => rfl
    | infReq net id params => cases params <;> rfl
  | commandList op => cases op <;> rfl
  | queryErrorList cmdId => cases cmdId <;> rfl
  | connectPeers trId bufId isSrcBuf peer => cases peer <;> rfl
  | _ => rfl

/-- Messages of one channel on a stream, each with what its unused fields have. -/
def stream (chanId : BitVec 10) (rs : List ((ℕ → ℕ) × HostRequest)) : List UInt64 :=
  rs.flatMap fun r => r.2.words chanId r.1

theorem readAll_words (chanId : BitVec 10) (stale : ℕ → ℕ) (r : HostRequest)
    (words : List UInt64) : readAll (r.words chanId stale ++ words) =
      (ofValues r.opcode (Schema.stored r.opcode.fields (r.values stale))).bind fun q =>
        (readAll words).map ((chanId, q) :: ·) := by
  have hlayout : h2cSchema.layout r.opcode.code = some (10 :: r.opcode.fields) := by
    simp only [h2cSchema, H2COpcode.ofCode_code, Option.map_some]
  have hlen : (chanId.toNat :: r.values stale).length = (10 :: r.opcode.fields).length := by
    rw [List.length_cons, List.length_cons, length_values]
  have hrow : ofRow (r.opcode.code, Schema.stored (10 :: r.opcode.fields)
      (chanId.toNat :: r.values stale)) =
      (ofValues r.opcode (Schema.stored r.opcode.fields (r.values stale))).map fun q =>
        (chanId, q) := by
    have hchan : BitVec.ofNat 10 (chanId.toNat % 2 ^ 10) = chanId := by
      apply BitVec.eq_of_toNat_eq
      rw [BitVec.toNat_ofNat, Nat.mod_mod, Nat.mod_eq_of_lt chanId.isLt]
    rw [Schema.stored, List.zipWith_cons_cons, ofRow]
    simp only [H2COpcode.ofCode_code, Option.bind_some, hchan]
    rfl
  rw [readAll, HostRequest.words, Schema.readAll_encode hlayout hlen, readAll]
  cases h2cSchema.readAll words with
  | none => cases ofValues r.opcode _ <;> rfl
  | some rows =>
    simp only [Option.map_some, Option.bind_some, List.mapM_cons, hrow]
    cases ofValues r.opcode _ with
    | none => rfl
    | some q =>
      simp only [Option.map_some, Option.bind_some]
      cases rows.mapM ofRow <;> rfl

/-- Whatever the driver's functions write on a channel, one message after the other, the card
reads their arguments off it exactly when they all fit in their fields. -/
theorem readAll_stream_iff (chanId : BitVec 10) (rs : List ((ℕ → ℕ) × HostRequest)) :
    readAll (stream chanId rs) = some (rs.map fun r => (chanId, r.2)) ↔ ∀ r ∈ rs, r.2.Fits := by
  induction rs with
  | nil => exact iff_of_true rfl fun r hr => absurd hr List.not_mem_nil
  | cons r rs ih =>
    rw [stream, List.flatMap_cons, readAll_words, List.forall_mem_cons, ← ih,
      ← ofValues_stored_iff r.1, List.map_cons, Option.bind_eq_some_iff]
    constructor
    · rintro ⟨q, hq, hrest⟩
      obtain ⟨qs, hqs, heq⟩ := Option.map_eq_some_iff.mp hrest
      obtain ⟨hhead, rfl⟩ := List.cons.inj heq
      obtain rfl := (Prod.mk.inj hhead).2
      exact ⟨hq, hqs⟩
    · rintro ⟨hq, hqs⟩
      refine ⟨r.2, hq, ?_⟩
      rw [stream] at hqs
      rw [hqs]
      rfl

theorem words_eq (chanId : BitVec 10) (stale : ℕ → ℕ) {r : HostRequest} {k : ℕ}
    (hk : 16 + r.opcode.fields.sum = 64 * k) : r.words chanId stale =
      Schema.toWords k (Schema.pack (6 :: 10 :: r.opcode.fields)
        (r.opcode.code :: chanId.toNat :: r.values stale)) := by
  have hdiv : (6 + (10 + r.opcode.fields.sum)) / 64 = k := by omega
  simp only [HostRequest.words, Schema.encode, h2cSchema, H2COpcode.ofCode_code, Option.map_some,
    List.sum_cons, hdiv]

theorem words_smallCopy (chanId copyId : UInt16) {byteSize : UInt64} {priority : UInt8}
    (h : isSmall byteSize priority = true) (stale : ℕ → ℕ) :
    (smallCopy chanId copyId byteSize priority).words =
      (schedule (.copy copyId byteSize priority)).words (chanBits chanId) stale := by
  have hop : (schedule (.copy copyId byteSize priority)).opcode = .chanScheduleCopy := if_pos h
  rw [words_eq (k := 1) _ _ (by rw [hop]; rfl), hop, SchedCopy.words, Schema.toWords,
    Schema.toWords, BitFields.word, ← Schema.pack_fields]
  simp [smallCopy, SchedCopy.fields, BitFields.bits, Schema.pack, H2COpcode.code,
    SchedCopy.opcodeVal, H2COpcode.fields, values, h]

theorem words_largeCopy (chanId copyId : UInt16) {byteSize : UInt64} {priority : UInt8}
    (h : isSmall byteSize priority = false) {stale : ℕ → ℕ} {s : BitVec 24}
    (hs : s.toNat = stale 0) :
    (largeCopy chanId copyId byteSize priority s).words =
      (schedule (.copy copyId byteSize priority)).words (chanBits chanId) stale := by
  have hop : (schedule (.copy copyId byteSize priority)).opcode = .chanScheduleCopyLarge := by
    rw [opcode, h]
    rfl
  have hwords := Schema.toWords_append [6, 10, 16, 8, 24]
    [38, (chanBits chanId).toNat, copyId.toNat, priority.toNat, stale 0] 1 [64] [byteSize.toNat]
    rfl rfl
  rw [words_eq (k := 2) _ _ (by rw [hop]; rfl), hop, SchedCopyLarge.words]
  simp only [values, h]
  refine Eq.trans ?_ hwords.symm
  rw [Schema.toWords_one, BitFields.word, ← Schema.pack_fields]
  simp [largeCopy, SchedCopyLarge.fields, BitFields.bits, SchedCopyLarge.opcodeVal, hs]

theorem words_subres (chanId copyId hostresMapId : UInt16) (devresOffset : UInt64)
    {byteSize : UInt64} (stale : ℕ → ℕ) :
    (SubresMsg.mk copyId hostresMapId (byteSize - 1).toUInt16 devresOffset).words chanId =
      (schedule (.copySubres copyId hostresMapId devresOffset byteSize)).words (chanBits chanId)
        stale := by
  have hwords := Schema.toWords_append [6, 10, 16, 16, 16]
    [39, (chanBits chanId).toNat, copyId.toNat, hostresMapId.toNat, (byteSize - 1).toNat] 1 [64]
    [devresOffset.toNat] rfl rfl
  rw [words_eq (k := 2) _ _ rfl, SubresMsg.words, SchedCopySubres.words]
  refine Eq.trans ?_ hwords.symm
  rw [Schema.toWords_one, BitFields.word, ← Schema.pack_fields]
  generalize byteSize - 1 = size
  simp [SchedCopySubres.fields, BitFields.bits, SchedCopySubres.opcodeVal, Schema.pack]

theorem words_reqSchedule (chanId netId id : UInt16) (params : Option CommandList.InfSchedParams)
    (stale : ℕ → ℕ) : (reqSchedule chanId netId id params).words =
      (schedule (.infReq netId id params)).words (chanBits chanId) stale := by
  have hwords := fun vs' => Schema.toWords_append [6, 10, 16, 16, 16]
    [42, (chanBits chanId).toNat, netId.toNat, id.toNat, 0] 1 [16, 8, 1, 1, 1, 37] vs' rfl rfl
  rw [words_eq (k := 2) _ _ rfl, ReqSchedule.words]
  rcases params with _ | ⟨batchSize, priority, debugOn, collectInfo⟩ <;>
    refine Eq.trans ?_ (hwords _).symm <;>
    rw [Schema.toWords, Schema.toWords, BitFields.word, BitFields.word, ← Schema.pack_fields,
      ← Schema.pack_fields] <;>
    simp [reqSchedule, ReqSchedule.fields, ReqSchedule.paramFields, BitFields.bits,
      BitFields.flag, ReqSchedule.opcodeVal]

theorem words_of_run {chanId : UInt16} {io : ScheduleIO} {call : ScheduleCall} {ws : List UInt64}
    (h : (call.run chanId io).2 = some ws) :
    ws = (schedule call).words (chanBits chanId) fun _ => io.stale.toNat := by
  cases call with
  | copy copyId byteSize priority =>
    simp only [ScheduleCall.run, scheduleCopy] at h
    split at h
    · cases h
    split at h <;> obtain rfl := ScheduleIO.write_eq_some h
    next hsmall =>
      apply words_smallCopy
      rw [isSmall, Bool.and_eq_true, decide_eq_true_iff, decide_eq_true_iff]
      exact hsmall
    next hlarge =>
      refine words_largeCopy chanId copyId ?_ rfl
      rw [isSmall, Bool.eq_false_iff, ne_eq, Bool.and_eq_true, decide_eq_true_iff,
        decide_eq_true_iff]
      exact hlarge
  | copySubres copyId hostresMapId devresOffset byteSize =>
    simp only [ScheduleCall.run] at h
    split at h
    · cases h
    next msg hmsg =>
      obtain ⟨rfl, -⟩ := SubLoad.scheduleCopySubres_eq_ok hmsg
      rw [← Option.some.inj h]
      exact words_subres chanId copyId hostresMapId devresOffset _
  | infReq netId id params =>
    simp only [ScheduleCall.run, infReqSchedule] at h
    split at h
    · cases h
    obtain rfl := ScheduleIO.write_eq_some h
    exact words_reqSchedule chanId netId id params _

theorem words_message (r : DevResRequest) (chanId : BitVec 10) (id : UInt16) (stale : ℕ → ℕ) :
    (r.message chanId id).words = (createDevRes (r.args id)).words chanId stale := by
  have hwords := Schema.toWords_append [6, 10, 1, 16, 1, 1, 1, 1, 1, 1, 1, 1, 7, 16]
    [35, chanId.toNat, 0, id.toNat, 0, (r.uses ReqDevRes.nnInput).toNat,
      (r.uses ReqDevRes.nnOutput).toNat, (r.uses DevRes.network).toNat,
      (r.uses DevRes.force4GAlloc).toNat, (r.uses DevRes.ecc).toNat,
      (r.uses DevRes.p2pDst).toNat, (r.uses DevRes.p2pSrc).toNat, r.depth.toNat,
      r.align.toNat / 4096] 1 [64] [r.byteSize.toNat] rfl rfl
  rw [words_eq (k := 2) _ _ rfl, ResourceOp.words]
  refine Eq.trans ?_ hwords.symm
  rw [Schema.toWords_one, BitFields.word, ← Schema.pack_fields]
  simp [ResourceOp.fields, DevResRequest.message, BitFields.bits, BitFields.flag,
    ResourceOp.chanInfResource, Schema.pack, Nat.shiftRight_eq_div_pow]

end HostRequest

end NNPIHost

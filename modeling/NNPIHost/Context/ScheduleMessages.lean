import NNPIHost.CommandList.Params
import NNPIHost.Ipc.Messages
import NNPIHost.SubLoad.Blocks

/-! # Messages that schedule commands

Copies and infer requests are scheduled one at a time by messages of their own. A copy has a
small form, for sizes and priorities that fit its fields, and a large one; the size of a copy
to a part of a resource is sent less one.
-/

namespace NNPIHost

open CommandList (InfSchedParams)

/-- The calls that schedule a command, with their arguments. -/
inductive ScheduleCall where
  | copy (copyId : UInt16) (byteSize : UInt64) (priority : UInt8)
  | copySubres (copyId hostresMapId : UInt16) (devresOffset byteSize : UInt64)
  | infReq (netId id : UInt16) (params : Option InfSchedParams)
  deriving DecidableEq, Repr

def SchedCopy.opcodeVal : BitVec 6 := 37

def SchedCopyLarge.opcodeVal : BitVec 6 := 38

def SchedCopySubres.opcodeVal : BitVec 6 := 39

def ReqSchedule.opcodeVal : BitVec 6 := 42

/-- What a call meets: whether it finds the context broken, whether the channel takes the
message, and the bits that the message has where nothing is put. -/
structure ScheduleIO where
  broken : Bool
  written : Bool
  stale : BitVec 24
  deriving DecidableEq, Repr

/-- The result, and the words that are written on the channel. -/
def ScheduleIO.write (io : ScheduleIO) (ws : List UInt64) : NNPError × Option (List UInt64) :=
  if io.written then (.noError, some ws) else (.ioError, none)

/-- The id of a channel in a message. -/
def chanBits (chanId : UInt16) : BitVec 10 := .ofNat 10 chanId.toNat

def smallCopy (chanId copyId : UInt16) (byteSize : UInt64) (priority : UInt8) : SchedCopy where
  opcode := SchedCopy.opcodeVal
  chanId := chanBits chanId
  protCopyID := copyId.toBitVec
  copySize := .ofNat 30 byteSize.toNat
  priority := .ofNat 2 priority.toNat

def largeCopy (chanId copyId : UInt16) (byteSize : UInt64) (priority : UInt8)
    (stale : BitVec 24) : SchedCopyLarge where
  opcode := SchedCopyLarge.opcodeVal
  chanId := chanBits chanId
  protCopyID := copyId.toBitVec
  priority := priority.toBitVec
  reserved := stale
  copySize := byteSize

def scheduleCopy (chanId copyId : UInt16) (byteSize : UInt64) (priority : UInt8)
    (io : ScheduleIO) : NNPError × Option (List UInt64) :=
  if io.broken then (.contextBroken, none)
  else if byteSize ≤ 0x3fffffff ∧ priority ≤ 3 then
    io.write (smallCopy chanId copyId byteSize priority).words
  else io.write (largeCopy chanId copyId byteSize priority io.stale).words

/-- The message that `scheduleCopySubres` makes, in words. -/
def SubresMsg.words (m : SubresMsg) (chanId : UInt16) : List UInt64 :=
  SchedCopySubres.words
    { opcode := SchedCopySubres.opcodeVal
      chanId := chanBits chanId
      protCopyID := m.protCopyId.toBitVec
      hostresId := m.hostresId.toBitVec
      copySize := m.copySize.toBitVec
      dstOffset := m.dstOffset }

def reqSchedule (chanId netId id : UInt16) (params : Option InfSchedParams) : ReqSchedule :=
  let p := params.getD ⟨0, 0, false, false⟩
  { opcode := ReqSchedule.opcodeVal
    chanId := chanBits chanId
    netID := netId.toBitVec
    infreqID := id.toBitVec
    reserved := 0
    batchSize := p.batchSize.toBitVec
    priority := p.priority.toBitVec
    debugOn := p.debugOn
    collectInfo := p.collectInfo
    schedParamsIsNull := params.isNone
    reserve := 0 }

/-- `nnpiInfReq::schedule` after `wait_can_schedule`. -/
def infReqSchedule (chanId netId id : UInt16) (params : Option InfSchedParams) (io : ScheduleIO) :
    NNPError × Option (List UInt64) :=
  if io.broken then (.contextBroken, none)
  else io.write (reqSchedule chanId netId id params).words

namespace ScheduleCall

def run (chanId : UInt16) (io : ScheduleIO) : ScheduleCall → NNPError × Option (List UInt64)
  | .copy copyId byteSize priority => scheduleCopy chanId copyId byteSize priority io
  | .copySubres copyId hostresMapId devresOffset byteSize =>
      match NNPIHost.scheduleCopySubres copyId hostresMapId devresOffset byteSize
          ⟨true, io.broken, io.written⟩ with
      | .error ret => (ret, none)
      | .ok msg => (.noError, some (msg.words chanId))
  | .infReq netId id params => infReqSchedule chanId netId id params io

end ScheduleCall

namespace SchedCopy

/-- The id of the channel and the call, as the card reads them. -/
def call (m : SchedCopy) : UInt16 × ScheduleCall :=
  (.ofNat m.chanId.toNat,
    .copy (.ofBitVec m.protCopyID) (.ofNat m.copySize.toNat) (.ofNat m.priority.toNat))

end SchedCopy

namespace SchedCopyLarge

def call (m : SchedCopyLarge) : UInt16 × ScheduleCall :=
  (.ofNat m.chanId.toNat, .copy (.ofBitVec m.protCopyID) m.copySize (.ofBitVec m.priority))

end SchedCopyLarge

namespace SchedCopySubres

def call (m : SchedCopySubres) : UInt16 × ScheduleCall :=
  (.ofNat m.chanId.toNat, .copySubres (.ofBitVec m.protCopyID) (.ofBitVec m.hostresId) m.dstOffset
    (.ofNat (m.copySize.toNat + 1)))

end SchedCopySubres

namespace ReqSchedule

def call (m : ReqSchedule) : UInt16 × ScheduleCall :=
  (.ofNat m.chanId.toNat, .infReq (.ofBitVec m.netID) (.ofBitVec m.infreqID)
    (if m.schedParamsIsNull then none
    else some ⟨.ofBitVec m.batchSize, .ofBitVec m.priority, m.debugOn, m.collectInfo⟩))

end ReqSchedule

/-- Read a message by the layout that its opcode tells. -/
def decodeSchedule (ws : List UInt64) : Option (UInt16 × ScheduleCall) :=
  let opcode := (BitFields.take 6 (ws.headD 0).toNat).1
  if opcode = SchedCopy.opcodeVal then (SchedCopy.ofWords ws).map SchedCopy.call
  else if opcode = SchedCopyLarge.opcodeVal then
    (SchedCopyLarge.ofWords ws).map SchedCopyLarge.call
  else if opcode = SchedCopySubres.opcodeVal then
    (SchedCopySubres.ofWords ws).map SchedCopySubres.call
  else if opcode = ReqSchedule.opcodeVal then (ReqSchedule.ofWords ws).map ReqSchedule.call
  else none

section Decode

theorem opcode_words {op : BitVec 6} {fs : List BitFields.Field}
    (h : BitFields.width (BitFields.bits op :: fs) ≤ 64) :
    (BitFields.take 6 (BitFields.word (BitFields.bits op :: fs)).toNat).1 = op := by
  rw [BitFields.toNat_word h, BitFields.take_pack]

theorem decodeSchedule_small {m : SchedCopy} (h : m.opcode = SchedCopy.opcodeVal) :
    decodeSchedule m.words = some m.call := by
  have hop : (BitFields.take 6 (m.words.headD 0).toNat).1 = m.opcode := opcode_words (by simp)
  rw [decodeSchedule, hop, h, if_pos rfl, m.ofWords_words, Option.map_some]

theorem decodeSchedule_large {m : SchedCopyLarge} (h : m.opcode = SchedCopyLarge.opcodeVal) :
    decodeSchedule m.words = some m.call := by
  have hop : (BitFields.take 6 (m.words.headD 0).toNat).1 = m.opcode := opcode_words (by simp)
  rw [decodeSchedule, hop, h, if_neg (by decide), if_pos rfl, m.ofWords_words, Option.map_some]

theorem decodeSchedule_subres {m : SchedCopySubres} (h : m.opcode = SchedCopySubres.opcodeVal) :
    decodeSchedule m.words = some m.call := by
  have hop : (BitFields.take 6 (m.words.headD 0).toNat).1 = m.opcode := opcode_words (by simp)
  rw [decodeSchedule, hop, h, if_neg (by decide), if_neg (by decide), if_pos rfl, m.ofWords_words,
    Option.map_some]

theorem decodeSchedule_infReq {m : ReqSchedule} (h : m.opcode = ReqSchedule.opcodeVal) :
    decodeSchedule m.words = some m.call := by
  have hop : (BitFields.take 6 (m.words.headD 0).toNat).1 = m.opcode := opcode_words (by simp)
  rw [decodeSchedule, hop, h, if_neg (by decide), if_neg (by decide), if_neg (by decide),
    if_pos rfl, m.ofWords_words, Option.map_some]

end Decode

variable {chanId : UInt16} {io : ScheduleIO} {ws ws' : List UInt64}

theorem ScheduleIO.write_eq_some (h : (io.write ws).2 = some ws') : ws' = ws := by
  unfold ScheduleIO.write at h
  split at h
  · exact (Option.some.inj h).symm
  · cases h

theorem ScheduleIO.write_ne (io : ScheduleIO) (ws : List UInt64) :
    (io.write ws).1 ≠ .invalidArgument ∧ (io.written = true → (io.write ws).2 ≠ none) := by
  unfold ScheduleIO.write
  split
  · exact ⟨nofun, fun _ => nofun⟩
  next h => exact ⟨nofun, fun hw => absurd hw h⟩

theorem ofNat_chanBits (h : chanId < 1024) : UInt16.ofNat (chanBits chanId).toNat = chanId := by
  have hlt : chanId.toNat < 2 ^ 10 := UInt16.lt_iff_toNat_lt.mp h
  rw [chanBits, BitVec.toNat_ofNat, Nat.mod_eq_of_lt hlt, UInt16.ofNat_toNat]

theorem call_smallCopy (h : chanId < 1024) (copyId : UInt16) {byteSize : UInt64}
    {priority : UInt8} (hsize : byteSize ≤ 0x3fffffff) (hprio : priority ≤ 3) :
    (smallCopy chanId copyId byteSize priority).call =
      (chanId, .copy copyId byteSize priority) := by
  have hsize : byteSize.toNat < 2 ^ 30 := Nat.lt_succ_of_le (UInt64.le_iff_toNat_le.mp hsize)
  have hprio : priority.toNat < 2 ^ 2 := Nat.lt_succ_of_le (UInt8.le_iff_toNat_le.mp hprio)
  simp only [SchedCopy.call, smallCopy, ofNat_chanBits h, BitVec.toNat_ofNat,
    Nat.mod_eq_of_lt hsize, Nat.mod_eq_of_lt hprio, UInt64.ofNat_toNat, UInt8.ofNat_toNat,
    UInt16.ofBitVec_toBitVec]

theorem call_largeCopy (h : chanId < 1024) (copyId : UInt16) (byteSize : UInt64)
    (priority : UInt8) (stale : BitVec 24) :
    (largeCopy chanId copyId byteSize priority stale).call =
      (chanId, .copy copyId byteSize priority) := by
  simp only [SchedCopyLarge.call, largeCopy, ofNat_chanBits h, UInt16.ofBitVec_toBitVec,
    UInt8.ofBitVec_toBitVec]

/-- The size less one has 16 bits exactly if the size is at least one and at most 2^16. -/
theorem sub_one_le_iff {byteSize : UInt64} :
    byteSize - 1 ≤ 0xffff ↔ 1 ≤ byteSize.toNat ∧ byteSize.toNat ≤ 0x10000 := by
  have hlt := byteSize.toNat_lt
  have hone : (1 : UInt64).toNat = 1 := rfl
  have hmax : (0xffff : UInt64).toNat = 0xffff := rfl
  rw [UInt64.le_iff_toNat_le, UInt64.toNat_sub, hone, hmax]
  omega

theorem call_subres (h : chanId < 1024) (copyId hostresMapId : UInt16) (offset : UInt64)
    {byteSize : UInt64} (hsize : byteSize - 1 ≤ 0xffff) :
    decodeSchedule
        (SubresMsg.words ⟨copyId, hostresMapId, (byteSize - 1).toUInt16, offset⟩ chanId) =
      some (chanId, .copySubres copyId hostresMapId offset byteSize) := by
  have hlt := UInt64.le_iff_toNat_le.mp hsize
  have hmax : (0xffff : UInt64).toNat = 0xffff := rfl
  obtain ⟨hpos, _⟩ := sub_one_le_iff.mp hsize
  have hone : (1 : UInt64) ≤ byteSize := UInt64.le_iff_toNat_le.mpr hpos
  have hfield : (byteSize - 1).toUInt16.toBitVec.toNat + 1 = byteSize.toNat := by
    have hsub := UInt64.toNat_sub_of_le _ _ hone
    have hval : (byteSize - 1).toUInt16.toBitVec.toNat = (byteSize - 1).toNat % 2 ^ 16 :=
      UInt64.toNat_toUInt16 _
    have hone' : (1 : UInt64).toNat = 1 := rfl
    omega
  rw [SubresMsg.words, decodeSchedule_subres rfl]
  simp only [SchedCopySubres.call, ofNat_chanBits h, hfield, UInt64.ofNat_toNat,
    UInt16.ofBitVec_toBitVec]

theorem infReqSchedule_spec (h : chanId < 1024) (netId id : UInt16)
    (params : Option InfSchedParams)
    (hws : (infReqSchedule chanId netId id params io).2 = some ws) :
    decodeSchedule ws = some (chanId, .infReq netId id params) := by
  unfold infReqSchedule at hws
  split at hws
  · cases hws
  · obtain rfl := ScheduleIO.write_eq_some hws
    rw [decodeSchedule_infReq rfl]
    cases params <;>
      simp only [ReqSchedule.call, reqSchedule, ofNat_chanBits h, UInt16.ofBitVec_toBitVec,
        UInt8.ofBitVec_toBitVec, Option.isNone_none, Option.isNone_some, Option.getD_some,
        Bool.false_eq_true, if_true, if_false]

theorem scheduleCopy_spec (h : chanId < 1024) (copyId : UInt16) (byteSize : UInt64)
    (priority : UInt8) (hws : (scheduleCopy chanId copyId byteSize priority io).2 = some ws) :
    decodeSchedule ws = some (chanId, .copy copyId byteSize priority) := by
  unfold scheduleCopy at hws
  split at hws
  · cases hws
  split at hws <;> obtain rfl := ScheduleIO.write_eq_some hws
  next hsmall => rw [decodeSchedule_small rfl, call_smallCopy h copyId hsmall.1 hsmall.2]
  next => rw [decodeSchedule_large rfl, call_largeCopy h]

namespace ScheduleCall

/-- The call is for a part of a resource, and its size less one does not fit 16 bits. -/
def Refused : ScheduleCall → Prop
  | .copySubres _ _ _ byteSize => ¬ ∃ v : BitVec 16, byteSize.toNat = v.toNat + 1
  | _ => False

theorem refused_iff {byteSize : UInt64} :
    (∃ v : BitVec 16, byteSize.toNat = v.toNat + 1) ↔ byteSize - 1 ≤ 0xffff := by
  rw [sub_one_le_iff]
  constructor
  · rintro ⟨v, hv⟩
    have := v.isLt
    omega
  · rintro ⟨hpos, hle⟩
    refine ⟨.ofNat 16 (byteSize.toNat - 1), ?_⟩
    rw [BitVec.toNat_ofNat]
    omega

/-- Every message that is written is read back as the call that wrote it, and on a context
that is not broken the calls that are refused are those whose size has no field. -/
theorem decodeSchedule_run (h : chanId < 1024) (io : ScheduleIO) (call : ScheduleCall) :
    (∀ ws, (call.run chanId io).2 = some ws → decodeSchedule ws = some (chanId, call)) ∧
      (io.broken = false →
        ((call.run chanId io).1 = .invalidArgument ↔ call.Refused) ∧
          (io.written = true → ((call.run chanId io).2 = none ↔ call.Refused))) := by
  cases call with
  | copy copyId byteSize priority =>
    constructor
    · exact fun ws hws => scheduleCopy_spec h copyId byteSize priority hws
    · intro hb
      simp only [run, scheduleCopy, hb, Refused, iff_false, Bool.false_eq_true, if_false]
      split
      · exact io.write_ne _
      · exact io.write_ne _
  | copySubres copyId hostresMapId offset byteSize =>
    simp only [run, Refused, refused_iff, UInt64.not_le]
    constructor
    · intro ws hws
      cases hmsg : NNPIHost.scheduleCopySubres copyId hostresMapId offset byteSize
          ⟨true, io.broken, io.written⟩ with
      | error ret => simp [hmsg] at hws
      | ok msg =>
        obtain ⟨rfl, hsize⟩ := SubLoad.scheduleCopySubres_eq_ok hmsg
        simp only [hmsg, Option.some.injEq] at hws
        exact hws ▸ call_subres h copyId hostresMapId offset hsize
    · intro hb
      by_cases hsize : 0xffff < byteSize - 1
      · simp [NNPIHost.scheduleCopySubres, hb, hsize]
      · cases io.written <;> simp [NNPIHost.scheduleCopySubres, hb, hsize]
  | infReq netId id params =>
    constructor
    · exact fun ws hws => infReqSchedule_spec h netId id params hws
    · intro hb
      simp only [run, infReqSchedule, hb, Refused, iff_false, Bool.false_eq_true, if_false]
      exact io.write_ne _

/-- A small copy with a priority that takes the large form. -/
theorem decodeSchedule_run_large : ∃ ws, (run 3 ⟨false, true, 0⟩ (.copy 7 64 4)).2 = some ws ∧
    ws.length = 2 ∧ decodeSchedule ws = some (3, .copy 7 64 4) :=
  ⟨_, rfl, rfl, (decodeSchedule_run (by decide) ⟨false, true, 0⟩ (.copy 7 64 4)).1 _ rfl⟩

end ScheduleCall

end NNPIHost

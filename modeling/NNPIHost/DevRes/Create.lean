import NNPIHost.DevRes.Locality
import NNPIHost.Ipc.Messages

/-! # Creating a device resource

`nnpiDevRes::create` tests its arguments, and `createDevRes` puts them into the bit fields of a
message. A depth of up to 255 passes the tests, and its field has seven bits.
-/

namespace NNPIHost

namespace DevRes

def force4GAlloc : UInt32 := 8

def ecc : UInt32 := 16

end DevRes

namespace EventReport

def createDevresSuccess : BitVec 7 := 5

def createDevresFailed : BitVec 7 := 53

/-- What `createDevRes` makes of its reply. -/
def createDevResResult (reply : EventReport) : NNPError :=
  if reply.eventCode = createDevresSuccess then .noError
  else if reply.eventCode = createDevresFailed then eventValToNNPError reply.eventVal.toNat
  else if reply.isContextFatalEvent then .contextBroken
  else .ioError

end EventReport

/-- What a message about a device resource tells the card. -/
structure ResourceArgs where
  id : UInt16
  size : UInt64
  depth : ℕ
  alignPages : ℕ
  isInput : Bool
  isOutput : Bool
  isNetwork : Bool
  isForce4G : Bool
  isEcc : Bool
  isP2pDst : Bool
  isP2pSrc : Bool
  deriving DecidableEq, Repr

namespace ResourceOp

def chanInfResource : BitVec 6 := 35

/-- What the card reads. -/
def args (m : ResourceOp) : ResourceArgs :=
  ⟨.ofBitVec m.resID, m.size, m.depth.toNat, m.align.toNat, m.isInput, m.isOutput, m.isNetwork,
    m.isForce4G, m.isEcc, m.isP2pDst, m.isP2pSrc⟩

end ResourceOp

/-- What a creation meets: whether the context is broken, the id that is allocated, if any,
whether the channel takes the message, the reply, and where the card's memory is mapped. -/
structure DevResIO where
  broken : Bool
  id : Option UInt16
  written : Bool
  reply : EventReport
  bar2 : UInt64

/-- The address and the buffer are set for resources of peers only. -/
structure CreatedDevRes where
  id : UInt16
  peer : Option (UInt64 × UInt8)
  deriving DecidableEq, Repr

/-- The arguments of `nnpiDevRes::create`. -/
structure DevResRequest where
  byteSize : UInt64
  depth : UInt32
  align : UInt64
  usageFlags : UInt32
  deriving DecidableEq, Repr

namespace DevResRequest

open DevRes (network p2pDst p2pSrc force4GAlloc ecc)

open ReqDevRes (nnInput nnOutput)

variable (r : DevResRequest)

def uses (flags : UInt32) : Bool := r.usageFlags &&& flags != 0

/-- The tests of `nnpiDevRes::create` but for that of the context. -/
def check : NNPError :=
  if r.byteSize = 0 ∨ r.depth = 0 ∨ 255 < r.depth then .invalidArgument
  else if r.align % 4096 ≠ 0 ∨ r.align >>> 28 ≠ 0 then .notSupported
  else if r.uses p2pDst ∧ r.uses p2pSrc then .invalidArgument
  else if r.uses network ∧ r.uses (nnInput ||| nnOutput) then .invalidArgument
  else .noError

/-- The message of `createDevRes`. -/
def message (chanId : BitVec 10) (id : UInt16) : ResourceOp where
  opcode := ResourceOp.chanInfResource
  chanId := chanId
  rbId := false
  resID := id.toBitVec
  destroy := false
  isInput := r.uses nnInput
  isOutput := r.uses nnOutput
  isNetwork := r.uses network
  isForce4G := r.uses force4GAlloc
  isEcc := r.uses ecc
  isP2pDst := r.uses p2pDst
  isP2pSrc := r.uses p2pSrc
  depth := .ofNat 7 r.depth.toNat
  align := .ofNat 16 (r.align >>> 12).toNat
  size := r.byteSize

/-- The words that are written on the channel, and what the call returns. -/
def createDevRes (chanId : BitVec 10) (io : DevResIO) :
    Option (List UInt64) × Except NNPError CreatedDevRes :=
  match io.id with
  | none => (none, .error .notSupported)
  | some id =>
      if io.written then
        let ret := io.reply.createDevResResult
        let addr := io.bar2 + (io.reply.objId2.toNat.toUInt64 <<< 12)
        let peer :=
          if r.uses p2pDst ∨ r.uses p2pSrc then some (addr, .ofNat io.reply.eventVal.toNat)
          else none
        (some (r.message chanId id).words, if ret = .noError then .ok ⟨id, peer⟩ else .error ret)
      else (none, .error .ioError)

def create (chanId : BitVec 10) (io : DevResIO) :
    Option (List UInt64) × Except NNPError CreatedDevRes :=
  if r.check ≠ .noError then (none, .error r.check)
  else if io.broken then (none, .error .contextBroken)
  else r.createDevRes chanId io

/-- What the card is to be told. -/
def args (id : UInt16) : ResourceArgs :=
  ⟨id, r.byteSize, r.depth.toNat, r.align.toNat / 4096, r.uses nnInput, r.uses nnOutput,
    r.uses network, r.uses force4GAlloc, r.uses ecc, r.uses p2pDst, r.uses p2pSrc⟩

variable {r} {r' : DevResRequest} {chanId : BitVec 10} {id id' : UInt16} {io io' : DevResIO}
  {ws ws' : List UInt64}

theorem of_check (h : r.check = .noError) :
    r.depth.toNat ≤ 255 ∧ r.align.toNat < 2 ^ 28 ∧ r.align.toNat % 4096 = 0 := by
  unfold check at h
  split at h
  · cases h
  split at h
  · cases h
  next hsizes halign =>
    rw [not_or, not_not, not_not, ← UInt64.toNat_inj, ← UInt64.toNat_inj, UInt64.toNat_mod,
      UInt64.toNat_shiftRight] at halign
    obtain ⟨hmod, hshift⟩ := halign
    have hdepth : ¬ 255 < r.depth := fun hd => hsizes (.inr (.inr hd))
    rw [UInt32.lt_iff_toNat_lt] at hdepth
    have hlt : r.align.toNat / 2 ^ 28 = 0 := by simpa [Nat.shiftRight_eq_div_pow] using hshift
    exact ⟨Nat.le_of_not_lt hdepth, by omega, hmod⟩

theorem create_writes (h : (r.create chanId io).1 = some ws) (hid : io.id = some id) :
    r.check = .noError ∧ ws = (r.message chanId id).words := by
  unfold create at h
  split at h
  · cases h
  next hcheck =>
    split at h
    · cases h
    · simp only [createDevRes, hid] at h
      split at h
      · exact ⟨not_not.mp hcheck, (Option.some.inj h).symm⟩
      · cases h

theorem args_message (h : r.check = .noError) :
    (r.message chanId id).args = { r.args id with depth := r.depth.toNat % 128 } := by
  obtain ⟨_, halign, _⟩ := of_check h
  have hpages : (BitVec.ofNat 16 (r.align >>> 12).toNat).toNat = r.align.toNat / 4096 := by
    have hshift : (r.align >>> 12).toNat = r.align.toNat / 2 ^ 12 := by
      simp [Nat.shiftRight_eq_div_pow]
    rw [BitVec.toNat_ofNat, hshift]
    omega
  simp only [ResourceOp.args, message, args, hpages, BitVec.toNat_ofNat, UInt16.ofBitVec_toBitVec,
    Nat.reducePow]

theorem args_eq_iff (h : r.check = .noError) :
    (r.message chanId id).args = r.args id ↔ r.depth ≤ 127 := by
  obtain ⟨hdepth, _, _⟩ := of_check h
  rw [args_message h, UInt32.le_iff_toNat_le]
  constructor
  · intro heq
    have hmod : r.depth.toNat % 128 = r.depth.toNat := congrArg ResourceArgs.depth heq
    exact Nat.le_of_lt_succ (hmod ▸ Nat.mod_lt _ (by decide))
  · intro hle
    have hmod : r.depth.toNat % 128 = r.depth.toNat := Nat.mod_eq_of_lt (Nat.lt_succ_of_le hle)
    rw [hmod]
    rfl

theorem align_eq (h : r.check = .noError) (h' : r'.check = .noError)
    (heq : (r.args id).alignPages = (r'.args id').alignPages) : r.align = r'.align := by
  obtain ⟨_, _, hmod⟩ := of_check h
  obtain ⟨_, _, hmod'⟩ := of_check h'
  have hdiv : r.align.toNat / 4096 = r'.align.toNat / 4096 := heq
  apply UInt64.toNat_inj.mp
  omega

/-- The messages of two requests tell the card their arguments, so that the messages are the
same only when the arguments are, exactly if no depth is greater than 127. -/
theorem messages_tell_iff (h : (r.create chanId io).1 = some ws) (hid : io.id = some id)
    (h' : (r'.create chanId io').1 = some ws') (hid' : io'.id = some id') :
    ((ResourceOp.ofWords ws).map ResourceOp.args = some (r.args id) ∧
        (ResourceOp.ofWords ws').map ResourceOp.args = some (r'.args id') ∧
        (ws = ws' → r.args id = r'.args id' ∧ r.align = r'.align)) ↔
      r.depth ≤ 127 ∧ r'.depth ≤ 127 := by
  obtain ⟨hcheck, rfl⟩ := create_writes h hid
  obtain ⟨hcheck', rfl⟩ := create_writes h' hid'
  simp only [ResourceOp.ofWords_words, Option.map_some, Option.some.injEq, args_eq_iff hcheck,
    args_eq_iff hcheck']
  constructor
  · rintro ⟨hdepth, hdepth', _⟩
    exact ⟨hdepth, hdepth'⟩
  · rintro ⟨hdepth, hdepth'⟩
    refine ⟨hdepth, hdepth', fun heq => ?_⟩
    have hmsg := congrArg ResourceOp.ofWords heq
    rw [ResourceOp.ofWords_words, ResourceOp.ofWords_words, Option.some.injEq] at hmsg
    have hargs : r.args id = r'.args id' := by
      rw [← (args_eq_iff hcheck).mpr hdepth, hmsg, (args_eq_iff hcheck').mpr hdepth']
    exact ⟨hargs, align_eq hcheck hcheck' (congrArg ResourceArgs.alignPages hargs)⟩

/-- A queue of pages for the input of a network. -/
def inputQueue (depth : UInt32) : DevResRequest := ⟨4096, depth, 4096, nnInput⟩

/-- The card creates the resource that is asked for. -/
def created (id : UInt16) : DevResIO :=
  ⟨false, some id, true, .ofCode EventReport.createDevresSuccess, 0⟩

theorem inputQueue_messages_tell_iff : ∃ ws ws',
    ((inputQueue 2).create 3 (created 0)).1 = some ws ∧
      ((inputQueue 127).create 3 (created 1)).1 = some ws' ∧
      (((ResourceOp.ofWords ws).map ResourceOp.args = some ((inputQueue 2).args 0) ∧
          (ResourceOp.ofWords ws').map ResourceOp.args = some ((inputQueue 127).args 1) ∧
          (ws = ws' → (inputQueue 2).args 0 = (inputQueue 127).args 1 ∧
            (inputQueue 2).align = (inputQueue 127).align)) ↔
        (inputQueue 2).depth ≤ 127 ∧ (inputQueue 127).depth ≤ 127) := by
  have h : ((inputQueue 2).create 3 (created 0)).1 = some _ := rfl
  have h' : ((inputQueue 127).create 3 (created 1)).1 = some _ := rfl
  exact ⟨_, _, h, h', messages_tell_iff h rfl h' rfl⟩

/-- The card makes a queue of 129 pages as one of a single page. -/
theorem deep_queue_cut : ∃ ws, ((inputQueue 129).create 3 (created 0)).1 = some ws ∧
    ((inputQueue 1).create 3 (created 0)).1 = some ws ∧
    (ResourceOp.ofWords ws).map (fun m => m.args.depth) = some 1 :=
  ⟨_, rfl, by decide, by decide⟩

end DevResRequest

end NNPIHost

import NNPIHost.HostRes.Locks

/-! # Loading a device resource from a stream

`nnpdrvDeviceResourceSubLoadFromStream` reads a stream block by block into two host resources
in turn, and has the card copy one of them while it fills the other. The card reports the
copies at any time after they were scheduled.
-/

namespace NNPIHost

/-- `errnoToNNPError` of an error number of the system or of the kernel driver. -/
def errnoToNNPError : ℕ → NNPError
  | 0 => .noError
  | 9 | 19 | 25 => .noSuchDevice
  | 201 => .deviceNotReady
  | 12 | 28 => .outOfMemory
  | 202 => .noSuchResource
  | 223 => .noSuchContext
  | 1 | 77 | 203 => .incompatibleResources
  | 225 => .noSuchNetwork
  | 248 => .incompleteNetwork
  | 27 | 226 => .tooManyContexts
  | 22 | 105 => .invalidArgument
  | 227 => .contextBroken
  | 245 => .hostresBroken
  | 32 | 204 => .deviceError
  | 16 | 62 | 229 => .timedOut
  | 56 | 230 => .brokenMarker
  | 5 => .ioError
  | 231 => .noSuchCopyHandle
  | 239 => .noSuchCmdlist
  | 232 => .noSuchInfreqHandle
  | 14 | 233 => .internalDriverError
  | 4 => .operationInterrupted
  | 234 => .notSupported
  | 235 => .invalidExecutableNetworkBinary
  | 236 => .inferMissingResource
  | 249 => .devnetReserveInsufficientResources
  | 250 => .outOfEccMemory
  | 207 => .versionsMismatch
  | _ => .unknownError

theorem errnoToNNPError_ne {error : ℕ} (h : error ≠ 0) : errnoToNNPError error ≠ .noError := by
  unfold errnoToNNPError
  split
  · exact absurd rfl h
  all_goals decide

/-- The doublings of a block size, which stop at the maximum or when the block holds all. -/
def growBlock (size : ℕ) : ℕ → ℕ → ℕ
  | 0, opt => opt
  | n + 1, opt => if opt < size ∧ opt < 0x10000 then growBlock size n (2 * opt) else opt

/-- Four doublings lead from a page to the maximum. -/
def calcOptimalBlockSize (size : UInt64) : ℕ := growBlock size.toNat 4 4096

/-- `nnpiCopyCommand` as `create_subres` makes it, for copies from host blocks to the card. -/
structure SubresCopy where
  id : UInt16
  scheduled : Bool
  deriving DecidableEq, Repr

/-- A host block: its resource with the bytes in it, its mapping and its copy. -/
structure HostBlock where
  hostres : Option HostRes
  mem : List UInt8
  mapId : UInt16
  isMapped : Bool
  copy : Option SubresCopy
  deriving DecidableEq, Repr

/-- `h2c_ChanInferenceSchedCopySubres` but for the id of the channel. -/
structure SubresMsg where
  protCopyId : UInt16
  hostresId : UInt16
  copySize : UInt16
  dstOffset : UInt64
  deriving DecidableEq, Repr

/-- A copy that the card was told to make, with the bytes that its block had then and whether
it was reported as successful. -/
structure ScheduledCopy where
  msg : SubresMsg
  block : Bool
  bytes : List UInt8
  report : Option Bool
  deriving DecidableEq, Repr

/-- What a schedule meets: what `wait_can_schedule` returns, whether the context is broken
later, and whether the channel takes the message. -/
structure SubresIO where
  canSchedule : Bool
  broken : Bool
  written : Bool
  deriving DecidableEq, Repr

/-- `scheduleCopySubres`: the message that is written. -/
def scheduleCopySubres (copyId hostresMapId : UInt16) (devresOffset byteSize : UInt64)
    (io : SubresIO) : Except NNPError SubresMsg :=
  if io.broken then .error .contextBroken
  else if 0xffff < byteSize - 1 then .error .invalidArgument
  else if ¬ io.written then .error .ioError
  else .ok ⟨copyId, hostresMapId, (byteSize - 1).toUInt16, devresOffset⟩

namespace HostBlock

def empty : HostBlock := ⟨none, [], 0xffff, false, none⟩

/-- `preSchedule` of the copy with the block it is given. -/
def preSchedule (b : HostBlock) (r : HostRes) (c : SubresCopy) : Bool × HostBlock :=
  match r.lockDeviceAccess false with
  | (ret, r) =>
      if ret = .noError then
        (true, { b with hostres := some r, copy := some { c with scheduled := true } })
      else (false, b)

/-- `postSchedule`, with an error list when the copy has failed. -/
def postSchedule (b : HostBlock) (failed : Bool) : HostBlock :=
  match b.copy, b.hostres with
  | some c, some r =>
      if c.scheduled then
        let r := if failed then r.updateCopyFailCount 1 else r
        { b with
          hostres := some (r.unlockDeviceAccess false)
          copy := some { c with scheduled := false } }
      else b
  | _, _ => b

end HostBlock

/-- Where the function stands; `true` is the second of the blocks. -/
inductive LoadPhase where
  | create | map | createSubres | lock | read
  | unlock (n : ℤ)
  | schedule (n : ℕ)
  | waitLock (i : Bool)
  | waitUnlock (i : Bool)
  | unmap (i : Bool)
  | destroy (i : Bool)
  | returned
  deriving DecidableEq, Repr

/-- The variables of the function, and the copies that the card was told to make. -/
structure SubLoad (σ : Type*) where
  devresSize : UInt64
  blockSize : ℕ
  blocks : Bool → HostBlock
  blockIdx : Bool
  devresOffset : UInt64
  ret : NNPError
  phase : LoadPhase
  stream : σ
  sent : List ScheduledCopy

/-- A step of the function with what it meets, or the report of a copy. -/
inductive LoadOp where
  | create (rc : ℕ)
  | map (rc : ℕ) (mapId : UInt16) (syncNeeded : Bool)
  | createSubres (ret : NNPError) (id : UInt16)
  | lock (sync : NNPError)
  | read
  | unlock (sync : NNPError)
  | schedule (io : SubresIO)
  | waitLock (sync : NNPError)
  | waitUnlock (sync : NNPError)
  | unmap
  | destroy
  | complete (j : ℕ) (failed : Bool)
  deriving DecidableEq, Repr

namespace SubLoad

variable {σ : Type*} (s : SubLoad σ)

def start (devresSize offset : UInt64) (stream : σ) : SubLoad σ where
  devresSize
  blockSize := calcOptimalBlockSize (devresSize - offset)
  blocks := fun _ => .empty
  blockIdx := false
  devresOffset := offset
  ret := .noError
  phase := .create
  stream
  sent := []

/-- The block that is filled next. -/
def block : HostBlock := s.blocks s.blockIdx

def setBlock (i : Bool) (b : HostBlock) : SubLoad σ :=
  { s with blocks := Function.update s.blocks i b }

/-- Leave the loop; after an error the function does not wait for the copies. -/
def leave (ret : NNPError) : SubLoad σ :=
  { s with ret, phase := if ret = .noError then .waitLock false else .unmap false }

/-- The test of the loop, after `n` bytes were read. -/
def again (n : ℕ) : SubLoad σ :=
  if n = s.blockSize then
    { s with phase := if s.block.hostres.isNone then .create else .lock }
  else s.leave .noError

/-- `nnpiHostRes::create`; its error falls through to the last case of the switch. -/
def create (rc : ℕ) : SubLoad σ :=
  if rc ≠ 0 then s.leave .ioError
  else
    { s.setBlock s.blockIdx { s.block with
        hostres := some (.create false false)
        mem := List.replicate s.blockSize 0 } with
      phase := .map }

/-- `mapHostResource`, which may find that the CPU has to synchronize its accesses. -/
def map (rc : ℕ) (mapId : UInt16) (syncNeeded : Bool) : SubLoad σ :=
  if rc ≠ 0 then s.leave (errnoToNNPError rc)
  else
    { s.setBlock s.blockIdx { s.block with
        hostres := s.block.hostres.map fun r =>
          { r with cpuSyncNeeded := r.cpuSyncNeeded || syncNeeded }
        mapId
        isMapped := true } with
      phase := .createSubres }

def createSubres (ret : NNPError) (id : UInt16) : SubLoad σ :=
  if ret ≠ .noError then s.leave ret
  else
    { s.setBlock s.blockIdx { s.block with copy := some ⟨id, false⟩ } with phase := .lock }

/-- `lock_cpu_access` without a timeout, which waits until the copy of the block was reported. -/
def lock (sync : NNPError) : Option (SubLoad σ) :=
  s.block.hostres.bind fun r =>
    match r.lockCpuTest with
    | some ret => some (s.leave ret)
    | none =>
        if r.cpuCond true then
          match r.lockCpuTaken sync true with
          | (ret, r) =>
              let t := s.setBlock s.blockIdx { s.block with hostres := some r }
              some (if ret = .noError then { t with phase := .read } else t.leave ret)
        else none

/-- The callback puts bytes into the block. -/
def readBlock (read : σ → List UInt8 → ℤ × List UInt8 × σ) : SubLoad σ :=
  match read s.stream s.block.mem with
  | (n, mem, stream) =>
      { s.setBlock s.blockIdx { s.block with mem } with stream, phase := .unlock n }

def unlock (n : ℤ) (sync : NNPError) : Option (SubLoad σ) :=
  s.block.hostres.map fun r =>
    match r.unlockCpuAccess sync with
    | (ret, r) =>
        let t := s.setBlock s.blockIdx { s.block with hostres := some r }
        if n < 0 then t.leave .ioError
        else if ret ≠ .noError then t.leave ret
        else if 0 < n then { t with phase := .schedule n.toNat }
        else t.again 0

/-- `schedule` of the copy of the block. -/
def scheduleCopy (r : HostRes) (c : SubresCopy) (n : ℕ) (io : SubresIO) : NNPError × SubLoad σ :=
  if ¬ io.canSchedule then (.contextBroken, s)
  else if s.blockSize < n ∨ s.devresSize < s.devresOffset + UInt64.ofNat n then
    (.invalidArgument, s)
  else
    match s.block.preSchedule r c with
    | (false, _) => (.deviceBusy, s)
    | (true, b) =>
        match scheduleCopySubres c.id b.mapId s.devresOffset (.ofNat n) io with
        | .error ret => (ret, s.setBlock s.blockIdx (b.postSchedule false))
        | .ok msg =>
            (.noError, { s.setBlock s.blockIdx b with
              sent := s.sent ++ [⟨msg, s.blockIdx, b.mem.take n, none⟩] })

def schedule (n : ℕ) (io : SubresIO) : Option (SubLoad σ) :=
  match s.block.hostres, s.block.copy with
  | some r, some c =>
      match s.scheduleCopy r c n io with
      | (ret, t) =>
          some (if ret ≠ .noError then t.leave ret
            else { t with
              devresOffset := s.devresOffset + UInt64.ofNat n
              blockIdx := !s.blockIdx }.again n)
  | _, _ => none

/-- The final wait for a block does not look at what the lock returns. -/
def waitLock (i : Bool) (sync : NNPError) : Option (SubLoad σ) :=
  match (s.blocks i).hostres with
  | none => some { s with phase := .waitUnlock i }
  | some r =>
      match r.lockCpuTest with
      | some _ => some { s with phase := .waitUnlock i }
      | none =>
          if r.cpuCond true then
            let b := { s.blocks i with hostres := some (r.lockCpuTaken sync true).2 }
            some { s.setBlock i b with phase := .waitUnlock i }
          else none

def waitUnlock (i : Bool) (sync : NNPError) : SubLoad σ :=
  { s.setBlock i { s.blocks i with
      hostres := (s.blocks i).hostres.map fun r => (r.unlockCpuAccess sync).2 } with
    phase := if i then .unmap false else .waitLock true }

/-- Whether the clean-up unmaps the resource of the block. -/
def unmaps (i : Bool) : Bool := (s.blocks i).hostres.isSome && (s.blocks i).isMapped

/-- Whether the clean-up destroys the copy of the block. -/
def destroys (i : Bool) : Bool := (s.blocks i).copy.isSome

/-- A report of the card, when the copy is still in flight. -/
def complete (j : ℕ) (failed : Bool) : Option (SubLoad σ) :=
  match s.sent[j]? with
  | some m =>
      if m.report.isNone then
        some { s.setBlock m.block ((s.blocks m.block).postSchedule failed) with
          sent := s.sent.set j { m with report := some !failed } }
      else none
  | none => none

def step (read : σ → List UInt8 → ℤ × List UInt8 × σ) (s : SubLoad σ) :
    LoadOp → Option (SubLoad σ)
  | .create rc => if s.phase = .create then some (s.create rc) else none
  | .map rc mapId syncNeeded =>
      if s.phase = .map then some (s.map rc mapId syncNeeded) else none
  | .createSubres ret id =>
      if s.phase = .createSubres then some (s.createSubres ret id) else none
  | .lock sync => if s.phase = .lock then s.lock sync else none
  | .read => if s.phase = .read then some (s.readBlock read) else none
  | .unlock sync =>
      match s.phase with
      | .unlock n => s.unlock n sync
      | _ => none
  | .schedule io =>
      match s.phase with
      | .schedule n => s.schedule n io
      | _ => none
  | .waitLock sync =>
      match s.phase with
      | .waitLock i => s.waitLock i sync
      | _ => none
  | .waitUnlock sync =>
      match s.phase with
      | .waitUnlock i => some (s.waitUnlock i sync)
      | _ => none
  | .unmap =>
      match s.phase with
      | .unmap i => some { s with phase := .destroy i }
      | _ => none
  | .destroy =>
      match s.phase with
      | .destroy i => some { s with phase := if i then .returned else .unmap true }
      | _ => none
  | .complete j failed => s.complete j failed

section Fields

variable {s} {i : Bool} {b : HostBlock} {n : ℕ}

@[simp] theorem setBlock_blocks : (s.setBlock i b).blocks = Function.update s.blocks i b := rfl

@[simp] theorem setBlock_blockIdx : (s.setBlock i b).blockIdx = s.blockIdx := rfl

@[simp] theorem setBlock_block : s.setBlock s.blockIdx s.block = s := by
  simp only [setBlock, block, Function.update_eq_self]

@[simp] theorem again_sent : (s.again n).sent = s.sent := by
  unfold again
  split <;> rfl

end Fields

end SubLoad

end NNPIHost

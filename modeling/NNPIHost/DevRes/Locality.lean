import NNPIHost.Copy.Peers
import NNPIHost.InfReq.Create

/-! # Device resources and their contexts

The ids of device resources are small numbers that each context gives out from zero, so an id
means a resource only together with its context. The calls that send ids look their resources
up by handle, among those of all contexts; the creation of a host copy tests that its resource
belongs to the context it is used in, and the other calls do not.
-/

namespace NNPIHost

open Function (update)

/-- A context as its objects see it, told apart from all others by its number. -/
structure ApiContext where
  object : ℕ
  device : ℕ
  chanId : BitVec 10
  deriving DecidableEq

structure DevRes where
  ctx : ApiContext
  id : UInt16
  size : ℕ
  usageFlags : UInt32
  deriving DecidableEq

namespace DevRes

def network : UInt32 := 4

def p2pDst : UInt32 := 32

def p2pSrc : UInt32 := 64

variable (r : DevRes)

def toReq : ReqDevRes := ⟨r.id, r.usageFlags⟩

def uses (flag : UInt32) : Bool := r.toReq.uses flag

def toD2d : D2dDevRes := ⟨r.size, r.uses p2pDst, r.uses p2pSrc, r.ctx.device⟩

end DevRes

structure ApiNetwork where
  ctx : ApiContext
  id : BitVec 16
  valid : Bool
  deriving DecidableEq

structure ConfigData where
  data : Option (ℕ → UInt8)
  size : UInt32

/-- What `createCopyCommand` reads of the host resource. -/
structure CopyHostRes where
  size : ℕ
  usageFlags : UInt32
  deriving DecidableEq

/-- How the sending of a network goes; `id` is what `allocDevNetID` gives. -/
structure NetworkIO where
  id : Option (BitVec 16)
  broken : Bool
  pages : List RingPage
  reply : Option EventReport
  deriving DecidableEq

structure InfReqIO where
  id : Option (BitVec 16)
  broken : Bool
  page : RingPage
  reply : Option EventReport
  deriving DecidableEq

/-- How the creation of a copy goes; `mapped` is the result of the mapping of its host
resource. -/
structure CopyIO where
  mapped : NNPError
  allocated : Bool
  written : Bool
  reply : Option EventReport
  deriving DecidableEq

/-- What `createCopy` and `createDeviceToDeviceCopy` return. -/
def CopyIO.created (io : CopyIO) : NNPError :=
  if ¬ io.allocated then .notSupported
  else if ¬ io.written then .ioError
  else
    match io.reply with
    | none => .ioError
    | some reply => reply.createCopyResult

/-- The objects behind the handles, and each id put into a message or a page of a context's
channel, as the context and the resource that the id was taken from. -/
structure ApiState where
  created : ℕ
  contexts : ℕ → Option ApiContext
  devres : ℕ → Option DevRes
  networks : ℕ → Option ApiNetwork
  puts : List (ApiContext × DevRes)

/-- The calls, with the new handle where they make one. -/
inductive ApiOp where
  | createContext (h device : ℕ) (chanId : BitVec 10)
  | destroyContext (h : ℕ)
  | createDeviceResource (h ctx : ℕ) (id : UInt16) (size : ℕ) (usageFlags : UInt32)
  | destroyDeviceResource (h : ℕ)
  | createNetwork (h ctx : ℕ) (devResArray : List ℕ) (config : ConfigData) (io : NetworkIO)
  | destroyNetwork (h : ℕ)
  /-- `infReqs` tells whether the network has ids of infer requests outstanding. -/
  | addResources (net : ℕ) (devResArray : List ℕ) (config : ConfigData) (infReqs : Bool)
      (io : NetworkIO)
  | createInferRequest (net : ℕ) (inputs outputs : List ℕ) (config : ConfigData) (io : InfReqIO)
  | createCopy (ctx devRes : ℕ) (hostRes : Option CopyHostRes) (isC2h : Bool) (io : CopyIO)
  | createD2dCopy (ctx dst src : ℕ) (io : CopyIO)
  | createSubres (devRes : ℕ) (io : CopyIO)

namespace ApiState

def create : ApiState := ⟨0, fun _ => none, fun _ => none, fun _ => none, []⟩

variable (s : ApiState)

/-- The ids of the resources are put into messages or pages of the channel of `c`. -/
def put (c : ApiContext) (rs : List DevRes) : ApiState :=
  { s with puts := rs.map (c, ·) ++ s.puts }

/-- The resources of an array of handles, up to the first that is not found or not usable. -/
def findAll (usable : DevRes → Bool) : List ℕ → Except NNPError (List DevRes)
  | [] => .ok []
  | h :: hs =>
      match s.devres h with
      | none => .error .noSuchResource
      | some r =>
          if ¬ usable r then .error .incompatibleResources
          else (findAll usable hs).map (r :: ·)

def getDevresArray : List ℕ → Except NNPError (List DevRes) := s.findAll (·.uses DevRes.network)

def networkRequest (c : ApiContext) (id : BitVec 16) (isCreate : Bool) (devresVec : List DevRes)
    (config : ConfigData) : NetworkRequest :=
  ⟨c.chanId, id, isCreate, devresVec.map (·.id), config.data.getD fun _ => 0, config.size⟩

def createDeviceNetworkWithResources (h ctx : ℕ) (devResArray : List ℕ) (config : ConfigData)
    (io : NetworkIO) : NNPError × ApiState :=
  match s.contexts ctx, s.getDevresArray devResArray, io.id with
  | none, _, _ => (.noSuchContext, s)
  | _, .error e, _ => (e, s)
  | _, _, none => (.notSupported, s)
  | some c, .ok devresVec, some id =>
      let (pages, ret) :=
        (networkRequest c id true devresVec config).send io.broken io.pages io.reply
      let s := s.put c (pages.flatMap (·.resources devresVec))
      if ret = .noError then
        (ret, { s with networks := update s.networks h (some ⟨c, id, !devresVec.isEmpty⟩) })
      else (ret, s)

def deviceNetworkAddResources (net : ℕ) (devResArray : List ℕ) (config : ConfigData)
    (infReqs : Bool) (io : NetworkIO) : NNPError × ApiState :=
  match s.networks net, s.getDevresArray devResArray with
  | none, _ => (.noSuchNetwork, s)
  | _, .error e => (e, s)
  | some n, .ok devresVec =>
      if infReqs then (.notSupported, s)
      else
        let (pages, ret) :=
          (networkRequest n.ctx n.id false devresVec config).send io.broken io.pages io.reply
        let s := s.put n.ctx (pages.flatMap (·.resources devresVec))
        if ret = .noError then
          let valid := n.valid || !devresVec.isEmpty
          (ret, { s with networks := update s.networks net (some { n with valid }) })
        else (ret, s)

def inferRequest (n : ApiNetwork) (inputs outputs : List DevRes) (config : ConfigData) :
    InfReqRequest :=
  ⟨n.ctx.chanId, n.id, n.valid, inputs.map (·.toReq), outputs.map (·.toReq), config.data,
    config.size⟩

def createInferRequest (net : ℕ) (inputs outputs : List ℕ) (config : ConfigData)
    (io : InfReqIO) : NNPError × ApiState :=
  match s.networks net, s.findAll (fun _ => true) inputs, s.findAll (fun _ => true) outputs with
  | none, _, _ => (.noSuchNetwork, s)
  | _, .error e, _ => (e, s)
  | _, _, .error e => (e, s)
  | some n, .ok inputs, .ok outputs =>
      match (inferRequest n inputs outputs config).send io.broken io.id io.page io.reply with
      | (none, ret) => (ret, s)
      | (some _, ret) => (ret, s.put n.ctx (inputs ++ outputs))

/-- The tests of `nnpiCopyCommand::create`. -/
def copyCompatible (r : DevRes) (hostRes : CopyHostRes) (isC2h : Bool) : Bool :=
  let flag := if isC2h then ReqDevRes.nnOutput else ReqDevRes.nnInput
  r.size = hostRes.size && !r.uses DevRes.network && r.uses flag &&
    (hostRes.usageFlags &&& flag != 0)

/-- A message with the id of the resource is written once there is an id for the copy. -/
def putCopy (c : ApiContext) (r : DevRes) (io : CopyIO) : ApiState :=
  if io.allocated ∧ io.written then s.put c [r] else s

def createCopyCommand (ctx devRes : ℕ) (hostRes : Option CopyHostRes) (isC2h : Bool)
    (io : CopyIO) : NNPError × ApiState :=
  match s.contexts ctx, hostRes, s.devres devRes with
  | none, _, _ => (.noSuchContext, s)
  | _, none, _ => (.noSuchResource, s)
  | _, _, none => (.noSuchResource, s)
  | some c, some hostRes, some r =>
      if r.ctx ≠ c then (.noSuchResource, s)
      else if ¬ copyCompatible r hostRes isC2h then (.incompatibleResources, s)
      else if io.mapped ≠ .noError then (io.mapped, s)
      else (io.created, s.putCopy c r io)

def createDeviceToDeviceCopyCommand (ctx dst src : ℕ) (io : CopyIO) : NNPError × ApiState :=
  match s.contexts ctx, s.devres src, s.devres dst with
  | none, _, _ => (.noSuchContext, s)
  | _, none, _ => (.noSuchResource, s)
  | _, _, none => (.noSuchResource, s)
  | some c, some src, some dst =>
      if ¬ D2dState.Compatible DevRes.toD2d c.device dst src then (.incompatibleResources, s)
      else (io.created, s.putCopy c src io)

/-- The copies that `nnpdrvDeviceResourceSubLoadFromStream` creates. -/
def createSubres (devRes : ℕ) (io : CopyIO) : NNPError × ApiState :=
  match s.devres devRes with
  | none => (.noSuchResource, s)
  | some r => (io.created, s.putCopy r.ctx r io)

def step : ApiOp → Option ApiState
  | .createContext h device chanId =>
      if (s.contexts h).isSome then none
      else some { s with
        created := s.created + 1
        contexts := update s.contexts h (some ⟨s.created, device, chanId⟩) }
  | .destroyContext h => some { s with contexts := update s.contexts h none }
  | .createDeviceResource h ctx id size usageFlags =>
      match s.contexts ctx with
      | none => some s
      | some c =>
          if (s.devres h).isSome then none
          else some { s with devres := update s.devres h (some ⟨c, id, size, usageFlags⟩) }
  | .destroyDeviceResource h => some { s with devres := update s.devres h none }
  | .createNetwork h ctx devResArray config io =>
      if (s.networks h).isSome then none
      else some (s.createDeviceNetworkWithResources h ctx devResArray config io).2
  | .destroyNetwork h => some { s with networks := update s.networks h none }
  | .addResources net devResArray config infReqs io =>
      some (s.deviceNetworkAddResources net devResArray config infReqs io).2
  | .createInferRequest net inputs outputs config io =>
      some (s.createInferRequest net inputs outputs config io).2
  | .createCopy ctx devRes hostRes isC2h io =>
      some (s.createCopyCommand ctx devRes hostRes isC2h io).2
  | .createD2dCopy ctx dst src io => some (s.createDeviceToDeviceCopyCommand ctx dst src io).2
  | .createSubres devRes io => some (s.createSubres devRes io).2

/-- Every id went to the context of its resource. -/
def PutsLocal : Prop := ∀ p ∈ s.puts, p.2.ctx = p.1

/-- The resources whose page the loop comes to belong to `c`, if the request gets that far. -/
def NetworkLocal (c : ApiContext) (request : NetworkRequest) (devresVec : List DevRes)
    (io : NetworkIO) : Prop :=
  (request.start io.broken).isOk → ∀ r ∈ devresVec.take (2048 * reachedPages io.pages), r.ctx = c

/-- The resources that a call names belong to its context, or to that of its network, as far as
the call comes to them. -/
def HandlesLocal : ApiOp → Prop
  | .createNetwork h ctx devResArray config io => s.networks h = none →
      ∀ c, s.contexts ctx = some c → ∀ devresVec, s.getDevresArray devResArray = .ok devresVec →
        ∀ id, io.id = some id →
          NetworkLocal c (networkRequest c id true devresVec config) devresVec io
  | .addResources net devResArray config infReqs io =>
      ∀ n, s.networks net = some n → ∀ devresVec, s.getDevresArray devResArray = .ok devresVec →
        infReqs = false →
          NetworkLocal n.ctx (networkRequest n.ctx n.id false devresVec config) devresVec io
  | .createInferRequest net inputs outputs config io =>
      ∀ n, s.networks net = some n → ∀ ins, s.findAll (fun _ => true) inputs = .ok ins →
        ∀ outs, s.findAll (fun _ => true) outputs = .ok outs →
          ((inferRequest n ins outs config).start io.broken io.id).isOk → io.page.space →
          ∀ r ∈ ins ++ outs, r.ctx = n.ctx
  | .createD2dCopy ctx dst src io =>
      ∀ c, s.contexts ctx = some c → ∀ r, s.devres src = some r → ∀ d, s.devres dst = some d →
        D2dState.Compatible DevRes.toD2d c.device d r → io.allocated ∧ io.written → r.ctx = c
  | _ => True

variable {s} {c : ApiContext} {rs devresVec : List DevRes} {r : DevRes}

theorem putsLocal_put (h : s.PutsLocal) :
    (s.put c rs).PutsLocal ↔ ∀ r ∈ rs, r.ctx = c := by
  simp only [PutsLocal, put, List.forall_mem_append, List.forall_mem_map]
  exact and_iff_left h

theorem putsLocal_putCopy (h : s.PutsLocal) {io : CopyIO} :
    (s.putCopy c r io).PutsLocal ↔ (io.allocated ∧ io.written → r.ctx = c) := by
  unfold putCopy
  split
  next hio => simp only [putsLocal_put h, hio, List.forall_mem_singleton, and_self, true_implies]
  next hio => exact iff_of_true h fun hio' => absurd hio' hio

theorem putsLocal_send (h : s.PutsLocal) {request : NetworkRequest} {io : NetworkIO}
    (hlen : devresVec.length = request.devresVec.length) :
    (s.put c ((request.send io.broken io.pages io.reply).1.flatMap
      (·.resources devresVec))).PutsLocal ↔ NetworkLocal c request devresVec io := by
  rw [putsLocal_put h, NetworkLocal]
  cases hstart : request.start io.broken with
  | error e =>
    rw [NetworkRequest.send_pages_of_error hstart]
    exact iff_of_true nofun nofun
  | ok st =>
    rw [NetworkRequest.send_resources hstart hlen]
    exact ⟨fun hput _ => hput, fun hput => hput rfl⟩

theorem putsLocal_createNetwork (h : s.PutsLocal) (hdl ctx : ℕ) (devResArray : List ℕ)
    (config : ConfigData) (io : NetworkIO) :
    (s.createDeviceNetworkWithResources hdl ctx devResArray config io).2.PutsLocal ↔
      ∀ c, s.contexts ctx = some c → ∀ devresVec, s.getDevresArray devResArray = .ok devresVec →
        ∀ id, io.id = some id →
          NetworkLocal c (networkRequest c id true devresVec config) devresVec io := by
  unfold createDeviceNetworkWithResources
  cases hc : s.contexts ctx with
  | none => exact iff_of_true h nofun
  | some c =>
    cases hvec : s.getDevresArray devResArray with
    | error e => exact iff_of_true h nofun
    | ok vec =>
      cases hid : io.id with
      | none => exact iff_of_true h nofun
      | some id =>
        simp only [Option.some.injEq, Except.ok.injEq, forall_eq']
        rw [← putsLocal_send h (List.length_map _).symm]
        split <;> exact Iff.rfl

theorem putsLocal_addResources (h : s.PutsLocal) (net : ℕ) (devResArray : List ℕ)
    (config : ConfigData) (infReqs : Bool) (io : NetworkIO) :
    (s.deviceNetworkAddResources net devResArray config infReqs io).2.PutsLocal ↔
      ∀ n, s.networks net = some n → ∀ devresVec, s.getDevresArray devResArray = .ok devresVec →
        infReqs = false →
          NetworkLocal n.ctx (networkRequest n.ctx n.id false devresVec config) devresVec io := by
  unfold deviceNetworkAddResources
  cases hn : s.networks net with
  | none => exact iff_of_true h nofun
  | some n =>
    cases hvec : s.getDevresArray devResArray with
    | error e => exact iff_of_true h nofun
    | ok vec =>
      simp only [Option.some.injEq, Except.ok.injEq, forall_eq']
      cases infReqs with
      | true => exact iff_of_true h nofun
      | false =>
        rw [← putsLocal_send h (List.length_map _).symm, if_neg Bool.false_ne_true]
        split <;> exact ⟨fun hput _ => hput, fun hput => hput rfl⟩

theorem putsLocal_createInferRequest (h : s.PutsLocal) (net : ℕ) (inputs outputs : List ℕ)
    (config : ConfigData) (io : InfReqIO) :
    (s.createInferRequest net inputs outputs config io).2.PutsLocal ↔
      ∀ n, s.networks net = some n → ∀ ins, s.findAll (fun _ => true) inputs = .ok ins →
        ∀ outs, s.findAll (fun _ => true) outputs = .ok outs →
          ((inferRequest n ins outs config).start io.broken io.id).isOk → io.page.space →
          ∀ r ∈ ins ++ outs, r.ctx = n.ctx := by
  unfold createInferRequest
  cases hn : s.networks net with
  | none => exact iff_of_true h nofun
  | some n =>
    cases hins : s.findAll (fun _ => true) inputs with
    | error e => exact iff_of_true h nofun
    | ok ins =>
      cases houts : s.findAll (fun _ => true) outputs with
      | error e => exact iff_of_true h nofun
      | ok outs =>
        simp only [Option.some.injEq, Except.ok.injEq, forall_eq', InfReqRequest.send]
        cases hstart : (inferRequest n ins outs config).start io.broken io.id with
        | error e => exact iff_of_true h nofun
        | ok page =>
          cases hspace : io.page.space with
          | false => exact iff_of_true h nofun
          | true =>
            rw [← putsLocal_put h]
            exact ⟨fun hput _ _ => hput, fun hput => hput rfl rfl⟩

theorem putsLocal_createCopy (h : s.PutsLocal) (ctx devRes : ℕ) (hostRes : Option CopyHostRes)
    (isC2h : Bool) (io : CopyIO) :
    (s.createCopyCommand ctx devRes hostRes isC2h io).2.PutsLocal := by
  unfold createCopyCommand
  split
  · exact h
  · exact h
  · exact h
  · split_ifs with hctx
    · exact h
    · exact h
    · exact (putsLocal_putCopy h).mpr fun _ => not_not.mp hctx
    · exact h

theorem putsLocal_createD2dCopy (h : s.PutsLocal) (ctx dst src : ℕ) (io : CopyIO) :
    (s.createDeviceToDeviceCopyCommand ctx dst src io).2.PutsLocal ↔
      ∀ c, s.contexts ctx = some c → ∀ r, s.devres src = some r → ∀ d, s.devres dst = some d →
        D2dState.Compatible DevRes.toD2d c.device d r → io.allocated ∧ io.written → r.ctx = c := by
  unfold createDeviceToDeviceCopyCommand
  cases hc : s.contexts ctx with
  | none => exact iff_of_true h nofun
  | some c =>
    cases hsrc : s.devres src with
    | none => exact iff_of_true h nofun
    | some r =>
      cases hdst : s.devres dst with
      | none => exact iff_of_true h nofun
      | some d =>
        simp only [Option.some.injEq, forall_eq']
        by_cases hcomp : D2dState.Compatible DevRes.toD2d c.device d r
        · simp only [hcomp, not_true_eq_false, if_false, true_implies]
          exact putsLocal_putCopy h
        · simp only [hcomp, not_false_eq_true, if_true, false_implies]
          exact iff_of_true h trivial

theorem putsLocal_createSubres (h : s.PutsLocal) (devRes : ℕ) (io : CopyIO) :
    (s.createSubres devRes io).2.PutsLocal := by
  unfold createSubres
  split
  · exact h
  · exact (putsLocal_putCopy h).mpr fun _ => rfl

theorem putsLocal_step {t : ApiState} {op : ApiOp} (h : s.PutsLocal) (hs : s.step op = some t) :
    t.PutsLocal ↔ s.HandlesLocal op := by
  cases op with
  | createNetwork hdl ctx devResArray config io =>
    obtain ⟨hnew, hs⟩ := Option.ite_none_left_eq_some.mp hs
    obtain rfl := Option.some.inj hs
    rw [putsLocal_createNetwork h]
    have hnew := Option.not_isSome_iff_eq_none.mp hnew
    exact ⟨fun hput _ => hput, fun hput => hput hnew⟩
  | addResources net devResArray config infReqs io =>
    obtain rfl := Option.some.inj hs
    exact putsLocal_addResources h net devResArray config infReqs io
  | createInferRequest net inputs outputs config io =>
    obtain rfl := Option.some.inj hs
    exact putsLocal_createInferRequest h net inputs outputs config io
  | createCopy ctx devRes hostRes isC2h io =>
    obtain rfl := Option.some.inj hs
    exact iff_of_true (putsLocal_createCopy h ctx devRes hostRes isC2h io) trivial
  | createD2dCopy ctx dst src io =>
    obtain rfl := Option.some.inj hs
    exact putsLocal_createD2dCopy h ctx dst src io
  | createSubres devRes io =>
    obtain rfl := Option.some.inj hs
    exact iff_of_true (putsLocal_createSubres h devRes io) trivial
  | createDeviceResource hdl ctx id size usageFlags =>
    refine iff_of_true ?_ trivial
    simp only [step] at hs
    split at hs
    · obtain rfl := Option.some.inj hs
      exact h
    · obtain ⟨_, hs⟩ := Option.ite_none_left_eq_some.mp hs
      obtain rfl := Option.some.inj hs
      exact h
  | createContext hdl device chanId =>
    obtain ⟨_, hs⟩ := Option.ite_none_left_eq_some.mp hs
    obtain rfl := Option.some.inj hs
    exact iff_of_true h trivial
  | destroyContext hdl =>
    obtain rfl := Option.some.inj hs
    exact iff_of_true h trivial
  | destroyDeviceResource hdl =>
    obtain rfl := Option.some.inj hs
    exact iff_of_true h trivial
  | destroyNetwork hdl =>
    obtain rfl := Option.some.inj hs
    exact iff_of_true h trivial

theorem handlesLocal_of_disabled {op : ApiOp} (hs : s.step op = none) : s.HandlesLocal op := by
  cases op with
  | createNetwork hdl ctx devResArray config io =>
    intro hnew
    rw [step, hnew] at hs
    cases hs
  | addResources | createInferRequest | createD2dCopy => cases hs
  | _ => trivial

/-- In a run every id goes to the context of its resource exactly when the calls that do not
test it are given handles of resources of their own context. -/
theorem puts_local_iff (ops : List ApiOp) :
    Exec.Always step PutsLocal create ops ↔ Exec.Meets step HandlesLocal create ops :=
  Exec.always_iff_meets (I := fun _ => True) nofun trivial
    (fun _ _ _ _ h hs => ⟨trivial, putsLocal_step h hs⟩)
    fun _ _ _ _ hs => handlesLocal_of_disabled hs

/-- A network of the first context is made of a resource of the second, when the first has no
resources at all. -/
theorem foreign_resource_put :
    ¬ Exec.Always step PutsLocal create [
      .createContext 1 0 0,
      .createContext 2 0 1,
      .createDeviceResource 3 2 0 4096 DevRes.network,
      .createNetwork 4 1 [3] ⟨none, 0⟩
        ⟨some 0, false, [⟨true, true⟩], some (.ofCode EventReport.createDevnetSuccess)⟩] := by
  intro h
  have hput := h.2 _ rfl |>.2 _ rfl |>.2 _ rfl |>.2 _ rfl
  have hctx := hput (⟨0, 0, 0⟩, ⟨⟨1, 0, 1⟩, 0, 4096, 4⟩) (by decide)
  cases hctx

end ApiState

end NNPIHost

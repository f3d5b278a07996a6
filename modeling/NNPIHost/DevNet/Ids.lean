import NNPIHost.DevNet.Create
import NNPIHost.Ida.Uses
import NNPIHost.InfReq.Create

/-! # Ids of networks and infer requests

A context has an allocator for the ids of its networks, and each network has one for the ids
of its infer requests. Both creations take the id first, and neither gives it back when a later
step fails; then the id is lost, and a network that lost one refuses new resources for ever.
-/

namespace NNPIHost

/-- What `nnpiInfReq::create` needs to succeed once it has an id: room for its page, a message
that is written, and a reply that reports a success. -/
structure RingPage.InfReqCompletes (io : RingPage) (reply : Option EventReport) : Prop where
  space : io.space = true
  written : io.written = true
  reply : ∃ ev, reply = some ev ∧ ev.createInfReqResult = .noError

theorem RingPage.infReqResult_eq_noError {io : RingPage} {reply : Option EventReport} :
    io.infReqResult reply = .noError ↔ io.InfReqCompletes reply := by
  unfold infReqResult
  constructor
  · intro h
    split_ifs at h with hspace hwritten
    cases reply with
    | none => cases h
    | some ev => exact ⟨hspace, hwritten, ev, rfl, h⟩
  · rintro ⟨hspace, hwritten, ev, rfl, hev⟩
    simp only [hspace, hwritten, not_true_eq_false, if_false, hev]

/-- `m_devnet_ida` of a context, and `m_infreq_ida` of each network created so far. -/
structure NetIds where
  devnets : IdUse
  networks : List IdUse

/-- A creation takes its id in one step and ends in another; networks and requests that are
reported destroyed exist until then. -/
inductive NetIdOp where
  | createNet
  | createNetEnd (id : ℕ) (r : NetworkRequest) (broken : Bool) (pages : List RingPage)
      (reply : Option EventReport)
  | netDestroyed (id : ℕ)
  | createInfReq (k : ℕ) (r : InfReqRequest) (broken : Bool)
  | createInfReqEnd (k id : ℕ) (page : RingPage) (reply : Option EventReport)
  | infReqDestroyed (k id : ℕ)

namespace NetIds

/-- The greatest 16-bit id. -/
def maxId : ℕ := 65535

def create : NetIds := ⟨.create maxId, []⟩

variable (s : NetIds)

/-- A change of the ids of one network. -/
def atNetwork (k : ℕ) (f : IdUse → Option IdUse) : Option NetIds :=
  s.networks[k]?.bind fun u => (f u).map fun v => { s with networks := s.networks.set k v }

def step : NetIdOp → Option NetIds
  | .createNet =>
      match s.devnets.begin with
      | none => some s
      | some (_, u) => some { s with devnets := u }
  | .createNetEnd id r broken pages reply =>
      if id ∈ s.devnets.creating then
        if (r.send broken pages reply).2 = .noError then
          some ⟨s.devnets.finish id, s.networks ++ [.create maxId]⟩
        else some { s with devnets := s.devnets.abandon id }
      else none
  | .netDestroyed id =>
      if id ∈ s.devnets.live then some { s with devnets := s.devnets.release id } else none
  | .createInfReq k r broken =>
      s.atNetwork k fun u =>
        -- The tests come before the allocation and do not depend on the id.
        match r.start broken (some 0), u.begin with
        | .error _, _ => some u
        | _, none => some u
        | .ok _, some (_, v) => some v
  | .createInfReqEnd k id page reply =>
      s.atNetwork k fun u =>
        if id ∈ u.creating then
          if page.infReqResult reply = .noError then some (u.finish id) else some (u.abandon id)
        else none
  | .infReqDestroyed k id =>
      s.atNetwork k fun u => if id ∈ u.live then some (u.release id) else none

/-- The allocators hand out what is not outstanding, and a network whose `m_infreq_ida` counts
ids has an infer request, or one that is being created. -/
structure Accounted (s : NetIds) : Prop where
  devnets : s.devnets.ids.Refined maxId
  infreqs : ∀ u ∈ s.networks, u.ids.Refined maxId
  counted : ∀ u ∈ s.networks, 0 < u.ids.ida.getNumAlloc → (u.creating ∪ u.live).Nonempty

/-- A creation that fails leaves no id of its own outstanding, and the allocators account for
their ids afterwards. -/
def Restores (op : NetIdOp) : Prop := ∀ t, s.step op = some t →
  (match op with
    | .createNetEnd id r broken pages reply => (r.send broken pages reply).2 ≠ .noError →
        t.devnets.ids.outstanding = s.devnets.ids.outstanding.erase id
    | .createInfReqEnd k id page reply => page.infReqResult reply ≠ .noError →
        ∀ u v, s.networks[k]? = some u → t.networks[k]? = some v →
          v.ids.outstanding = u.ids.outstanding.erase id
    | _ => True) ∧ t.Accounted

/-- Nothing goes wrong in a creation that has its id. -/
def Completes : NetIdOp → Prop
  | .createNetEnd id r broken pages reply => id ∈ s.devnets.creating →
      r.Completes broken pages reply
  | .createInfReqEnd k id page reply => ∀ u, s.networks[k]? = some u → id ∈ u.creating →
      page.InfReqCompletes reply
  | _ => True

structure Inv (s : NetIds) : Prop where
  devnets : s.devnets.Inv maxId
  networks : ∀ u ∈ s.networks, u.Inv maxId

variable {s} {t : NetIds} {op : NetIdOp}

theorem create_inv : create.Inv := ⟨IdUse.create_inv maxId, nofun⟩

theorem Inv.accounted (h : s.Inv) : s.Accounted where
  devnets := h.devnets.ids.refined (by decide)
  infreqs u hu := (h.networks u hu).ids.refined (by decide)
  counted u hu := (h.networks u hu).nonempty

theorem Inv.atNetwork (h : s.Inv) {k : ℕ} {f : IdUse → Option IdUse}
    (hf : ∀ u v, s.networks[k]? = some u → u.Inv maxId → f u = some v → v.Inv maxId)
    (hs : s.atNetwork k f = some t) : t.Inv := by
  obtain ⟨u, hu, hs⟩ := Option.bind_eq_some_iff.mp hs
  obtain ⟨v, hv, rfl⟩ := Option.map_eq_some_iff.mp hs
  refine ⟨h.devnets, fun w hw => ?_⟩
  rcases List.mem_or_eq_of_mem_set hw with hw | rfl
  · exact h.networks w hw
  · exact hf u w hu (h.networks u (List.mem_of_getElem? hu)) hv

theorem Inv.step (h : s.Inv) (hok : s.Completes op) (hs : s.step op = some t) : t.Inv := by
  cases op with
  | createNet =>
    simp only [NetIds.step] at hs
    split at hs
    next => exact Option.some.inj hs ▸ h
    next id u hb =>
      obtain rfl := Option.some.inj hs
      exact ⟨h.devnets.begin (by decide) hb, h.networks⟩
  | createNetEnd id r broken pages reply =>
    obtain ⟨hid, hs⟩ := Option.ite_none_right_eq_some.mp hs
    rw [if_pos (NetworkRequest.send_eq_noError.mpr (hok hid))] at hs
    obtain rfl := Option.some.inj hs
    refine ⟨h.devnets.finish hid, List.forall_mem_append.mpr ⟨h.networks, ?_⟩⟩
    exact List.forall_mem_singleton.mpr (IdUse.create_inv maxId)
  | netDestroyed id =>
    obtain ⟨hid, hs⟩ := Option.ite_none_right_eq_some.mp hs
    obtain rfl := Option.some.inj hs
    exact ⟨h.devnets.release (by decide) hid, h.networks⟩
  | createInfReq k r broken =>
    refine h.atNetwork (fun u v _ hu hv => ?_) hs
    split at hv
    · exact Option.some.inj hv ▸ hu
    · exact Option.some.inj hv ▸ hu
    next hb =>
      obtain rfl := Option.some.inj hv
      exact hu.begin (by decide) hb
  | createInfReqEnd k id page reply =>
    refine h.atNetwork (fun u v hk hu hv => ?_) hs
    obtain ⟨hid, hv⟩ := Option.ite_none_right_eq_some.mp hv
    rw [if_pos (RingPage.infReqResult_eq_noError.mpr (hok u hk hid))] at hv
    obtain rfl := Option.some.inj hv
    exact hu.finish hid
  | infReqDestroyed k id =>
    refine h.atNetwork (fun u v _ hu hv => ?_) hs
    obtain ⟨hid, hv⟩ := Option.ite_none_right_eq_some.mp hv
    obtain rfl := Option.some.inj hv
    exact hu.release (by decide) hid

theorem Inv.mem_outstanding {u : IdUse} {id : ℕ} (h : u.Inv maxId) (hid : id ∈ u.creating) :
    id ∈ u.ids.outstanding := by
  rw [h.used]
  exact Finset.mem_union_left _ hid

theorem completes_of_restores (h : s.Inv) (hr : s.Restores op) : s.Completes op := by
  cases op with
  | createNetEnd id r broken pages reply =>
    intro hid
    by_contra hfail
    have hret : (r.send broken pages reply).2 ≠ .noError :=
      fun hret => hfail (NetworkRequest.send_eq_noError.mp hret)
    have hs : s.step (.createNetEnd id r broken pages reply) =
        some { s with devnets := s.devnets.abandon id } := by
      simp only [NetIds.step, hid, hret, if_true, if_false]
    have hids := (hr _ hs).1 hret
    exact Finset.notMem_erase id _ (hids ▸ Inv.mem_outstanding h.devnets hid)
  | createInfReqEnd k id page reply =>
    intro u hu hid
    by_contra hfail
    have hret : page.infReqResult reply ≠ .noError :=
      fun hret => hfail (RingPage.infReqResult_eq_noError.mp hret)
    have hs : s.step (.createInfReqEnd k id page reply) =
        some { s with networks := s.networks.set k (u.abandon id) } := by
      simp only [NetIds.step, atNetwork, hu, Option.bind_some, hid, hret, if_true, if_false,
        Option.map_some]
    obtain ⟨hlt, _⟩ := List.getElem?_eq_some_iff.mp hu
    have hset : (s.networks.set k (u.abandon id))[k]? = some (u.abandon id) :=
      List.getElem?_set_self hlt
    have hids := (hr _ hs).1 hret u _ hu hset
    have hout := Inv.mem_outstanding (h.networks u (List.mem_of_getElem? hu)) hid
    exact Finset.notMem_erase id _ (hids ▸ hout)
  | _ => trivial

theorem restores_of_completes (h : s.Inv) (hok : s.Completes op) : s.Restores op := by
  intro t hs
  refine ⟨?_, (h.step hok hs).accounted⟩
  cases op with
  | createNetEnd id r broken pages reply =>
    intro hret
    obtain ⟨hid, _⟩ := Option.ite_none_right_eq_some.mp hs
    exact absurd (NetworkRequest.send_eq_noError.mpr (hok hid)) hret
  | createInfReqEnd k id page reply =>
    intro hret u v hu _
    simp only [NetIds.step, atNetwork, hu, Option.bind_some] at hs
    obtain ⟨_, hv, _⟩ := Option.map_eq_some_iff.mp hs
    obtain ⟨hid, _⟩ := Option.ite_none_right_eq_some.mp hv
    exact absurd (RingPage.infReqResult_eq_noError.mpr (hok u hu hid)) hret
  | _ => trivial

/-- In a run no creation that fails leaves an id behind, and the allocators account for their
ids, exactly when no creation fails after it took its id. -/
theorem restores_iff_completes (ops : List NetIdOp) :
    Exec.Meets step Restores create ops ↔ Exec.Meets step Completes create ops :=
  Exec.meets_iff_meets create_inv
    (fun _ _ h => ⟨completes_of_restores h, restores_of_completes h⟩)
    fun _ _ _ h hok hs => h.step hok hs

/-- A network request for one resource, with one page, that goes well. -/
def oneResource : NetworkRequest := ⟨0, 0, true, [0], fun _ => 0, 0⟩

/-- The request for an infer request finds no room in the ring. -/
def infReqWithoutRoom : List NetIdOp :=
  [.createNet,
    .createNetEnd 0 oneResource false [⟨true, true⟩]
      (some (.ofCode EventReport.createDevnetSuccess)),
    .createInfReq 0 ⟨0, 0, true, [⟨0, 1⟩], [⟨0, 2⟩], none, 0⟩ false,
    .createInfReqEnd 0 0 ⟨false, false⟩ none]

/-- It fails, and its id stays outstanding: the network has no infer request, and
`add_resources` is refused. -/
theorem failed_request_keeps_id :
    ¬ Exec.Meets step Restores create infReqWithoutRoom := by
  intro h
  have hlast := ((((h.2 _ rfl).2 _ rfl).2 _ rfl).1 _ rfl).2
  have hnone := hlast.counted _ (List.mem_singleton_self _) (by decide)
  exact absurd hnone (by decide)

end NetIds

end NNPIHost

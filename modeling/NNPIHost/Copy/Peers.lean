import Mathlib.Logic.Function.Basic
import NNPIHost.Exec.Run
import NNPIHost.Ipc.Events

/-! # Peers of a copy between devices

A copy between devices is created in steps: the contexts of its two resources exchange the
addresses of their credit fifos, each resource is connected to the other, and then the copy
itself is created. The result is that of the last step alone, and nobody disconnects the
resources again, neither when that step fails nor when the copy is destroyed.
-/

namespace NNPIHost

open Function (update)

namespace EventReport

def createCopySuccess : BitVec 7 := 6

def createCopyFailed : BitVec 7 := 54

/-- What the creation of a copy makes of its reply. -/
def createCopyResult (reply : EventReport) : NNPError :=
  if reply.eventCode ≠ createCopySuccess then
    if reply.eventCode = createCopyFailed then eventValToNNPError reply.eventVal.toNat
    else if reply.isContextFatalEvent then .contextBroken
    else .ioError
  else .noError

end EventReport

/-- What `create_d2d` reads of a device resource and its context. -/
structure D2dDevRes where
  size : ℕ
  isP2pDst : Bool
  isP2pSrc : Bool
  device : ℕ
  deriving DecidableEq, Repr

/-- A message of the protocol: whether it is sent and waited for, whether its context is
broken then, and the reply. -/
structure Exchange where
  sent : Bool
  broken : Bool
  reply : EventReport
  deriving DecidableEq

def Exchange.result (x : Exchange) : NNPError :=
  if ¬ x.sent then .ioError
  else if x.broken then .contextBroken
  else eventValToNNPError x.reply.eventVal.toNat

/-- How the steps of `create_d2d` go. -/
structure D2dSteps where
  relCrFifo : Exchange
  fwCrFifo : Exchange
  updateSrc : Exchange
  updateDst : Exchange
  connectSrc : Exchange
  connectDst : Exchange
  /-- Whether the message that disconnects the source is sent. -/
  disconnectSrc : Bool
  /-- Whether there is an id for the copy. -/
  allocated : Bool
  createSent : Bool
  createReply : EventReport
  deriving DecidableEq

namespace D2dSteps

variable (io : D2dSteps)

/-- The exchanges before the resources are connected, in order. -/
def exchanges : List Exchange := [io.relCrFifo, io.fwCrFifo, io.updateSrc, io.updateDst]

/-- What `createDeviceToDeviceCopy` returns. -/
def created : NNPError :=
  if ¬ io.allocated then .notSupported
  else if ¬ io.createSent then .ioError
  else io.createReply.createCopyResult

end D2dSteps

/-- The peers of the device resources, and the copies between devices, each as its destination
and its source. -/
structure D2dState (R : Type*) where
  peer : R → Option R
  copies : List (R × R)

inductive D2dOp (R : Type*) where
  /-- The context of the call is on the device `device`. -/
  | create (device : ℕ) (dst src : R) (io : D2dSteps)
  | destroy (dst src : R) (cardFatal written : Bool)

namespace D2dState

variable {R : Type*} [DecidableEq R]

def create : D2dState R := ⟨fun _ => none, []⟩

/-- `d2d_pair` of a resource; a disconnection is not waited for. -/
def d2dPair (peer : R → Option R) (r : R) (p : Option R) (x : Exchange) :
    NNPError × (R → Option R) :=
  match p with
  | some _ =>
      if (peer r).isSome then (.deviceBusy, peer)
      else if x.result ≠ .noError then (x.result, peer)
      else (.noError, update peer r p)
  | none => if ¬ x.sent then (.ioError, peer) else (.noError, update peer r none)

def updatePeers (peer : R → Option R) (dst src : R) (io : D2dSteps) :
    NNPError × (R → Option R) :=
  match io.exchanges.find? (·.result ≠ .noError) with
  | some x => (x.result, peer)
  | none =>
      match d2dPair peer src (some dst) io.connectSrc with
      | (.noError, peer) =>
          match d2dPair peer dst (some src) io.connectDst with
          | (.noError, peer) => (.noError, peer)
          | (ret, peer) => (ret, (d2dPair peer src none ⟨io.disconnectSrc, false, .zero⟩).2)
      | (ret, peer) => (ret, peer)

/-- The tests of `create_d2d`. -/
def Compatible (attr : R → D2dDevRes) (device : ℕ) (dst src : R) : Prop :=
  (attr src).size = (attr dst).size ∧ (attr dst).isP2pDst ∧ (attr src).isP2pSrc ∧
    (attr src).device = device ∧ (attr src).device ≠ (attr dst).device

instance (attr : R → D2dDevRes) (device : ℕ) (dst src : R) :
    Decidable (Compatible attr device dst src) := inferInstanceAs (Decidable (_ ∧ _))

def createD2d (attr : R → D2dDevRes) (peer : R → Option R) (device : ℕ) (dst src : R)
    (io : D2dSteps) : NNPError × (R → Option R) :=
  if ¬ Compatible attr device dst src then (.incompatibleResources, peer)
  -- The result of `update_peers` is written to the log only.
  else (io.created, (updatePeers peer dst src io).2)

def destroyCopy (cardFatal written : Bool) : NNPError :=
  if cardFatal then .noError else if written then .noError else .ioError

variable (attr : R → D2dDevRes) (s : D2dState R)

/-- What the call returns. -/
def result : D2dOp R → NNPError
  | .create device dst src io => (createD2d attr s.peer device dst src io).1
  | .destroy _ _ cardFatal written => destroyCopy cardFatal written

def step : D2dOp R → Option (D2dState R)
  | .create device dst src io =>
      match createD2d attr s.peer device dst src io with
      | (.noError, peer) => some ⟨peer, (dst, src) :: s.copies⟩
      | (_, peer) => some { s with peer }
  | .destroy dst src cardFatal written =>
      if (dst, src) ∈ s.copies then
        if destroyCopy cardFatal written = .noError then
          some { s with copies := s.copies.erase (dst, src) }
        else some s
      else none

/-- The two resources are connected to each other. -/
def Paired (dst src : R) : Prop := s.peer src = some dst ∧ s.peer dst = some src

/-- A copy that is created pairs its resources, a creation that fails leaves them as they were,
and the resources of a copy that has been destroyed are not paired. -/
def Pairs (op : D2dOp R) : Prop := ∀ t, s.step attr op = some t →
  match op with
  | .create _ dst src _ =>
      if s.result attr op = .noError then t.Paired dst src
      else t.peer src = s.peer src ∧ t.peer dst = s.peer dst
  | .destroy dst src _ _ => s.result attr op = .noError →
      t.peer src ≠ some dst ∧ t.peer dst ≠ some src

/-- All steps of `update_peers` succeed. -/
def Connects (dst src : R) (io : D2dSteps) : Prop :=
  (∀ x ∈ io.exchanges, x.result = .noError) ∧
    s.peer src = none ∧ io.connectSrc.result = .noError ∧
    s.peer dst = none ∧ io.connectDst.result = .noError

/-- The source is connected, the destination is not, and the source cannot be told so. -/
def Dangles (dst src : R) (io : D2dSteps) : Prop :=
  (∀ x ∈ io.exchanges, x.result = .noError) ∧
    s.peer src = none ∧ io.connectSrc.result = .noError ∧
    ¬ (s.peer dst = none ∧ io.connectDst.result = .noError) ∧ io.disconnectSrc = false

/-- The last step of a creation succeeds exactly when the others do, but for resources that
are paired already; a source that has to be disconnected is; and no copy is destroyed. -/
def Consistent : D2dOp R → Prop
  | .create device dst src io => Compatible attr device dst src →
      if io.created = .noError then s.Connects dst src io ∨ s.Paired dst src
      else ¬ s.Connects dst src io ∧ ¬ s.Dangles dst src io
  | .destroy dst src cardFatal written => (dst, src) ∈ s.copies →
      destroyCopy cardFatal written ≠ .noError

section Pairing

variable {peer : R → Option R} {r q dst src : R} {x : Exchange} {io : D2dSteps}

theorem d2dPair_connects (hr : peer r = none) (hx : x.result = .noError) :
    d2dPair peer r (some q) x = (.noError, update peer r (some q)) := by
  simp [d2dPair, hr, hx]

theorem d2dPair_refused (h : ¬ (peer r = none ∧ x.result = .noError)) :
    ∃ e, e ≠ .noError ∧ d2dPair peer r (some q) x = (e, peer) := by
  cases hr : peer r with
  | some p => exact ⟨.deviceBusy, nofun, by simp [d2dPair, hr]⟩
  | none =>
    have hx : x.result ≠ .noError := fun hx => h ⟨hr, hx⟩
    exact ⟨x.result, hx, by simp [d2dPair, hr, hx]⟩

theorem updatePeers_of_exchange (h : ¬ ∀ x ∈ io.exchanges, x.result = .noError) :
    (updatePeers peer dst src io).2 = peer := by
  cases hfind : io.exchanges.find? (·.result ≠ .noError) with
  | some x => simp only [updatePeers, hfind]
  | none =>
    refine absurd (fun x hx => ?_) h
    have hx := List.find?_eq_none.mp hfind x hx
    simpa using hx

theorem updatePeers_of_exchanges (h : ∀ x ∈ io.exchanges, x.result = .noError) :
    updatePeers peer dst src io =
      match d2dPair peer src (some dst) io.connectSrc with
      | (.noError, peer) =>
          match d2dPair peer dst (some src) io.connectDst with
          | (.noError, peer) => (.noError, peer)
          | (ret, peer) => (ret, (d2dPair peer src none ⟨io.disconnectSrc, false, .zero⟩).2)
      | (ret, peer) => (ret, peer) := by
  have hfind : io.exchanges.find? (·.result ≠ .noError) = none := by
    apply List.find?_eq_none.mpr
    intro x hx
    simp [h x hx]
  simp only [updatePeers, hfind]

end Pairing

variable {s} {t : D2dState R} {dst src : R} {io : D2dSteps} {attr} {op : D2dOp R}

/-- `update_peers` connects both resources, leaves the source with a peer that does not know
it, or changes nothing. -/
theorem updatePeers_cases (hne : src ≠ dst) :
    (s.Connects dst src io ∧ (updatePeers s.peer dst src io).2 =
        update (update s.peer src (some dst)) dst (some src)) ∨
      (s.Dangles dst src io ∧ (updatePeers s.peer dst src io).2 = update s.peer src (some dst)) ∨
      (¬ s.Connects dst src io ∧ ¬ s.Dangles dst src io ∧
        (updatePeers s.peer dst src io).2 = s.peer) := by
  by_cases hex : ∀ x ∈ io.exchanges, x.result = .noError
  swap
  · exact .inr (.inr ⟨fun h => hex h.1, fun h => hex h.1, updatePeers_of_exchange hex⟩)
  rw [updatePeers_of_exchanges hex]
  by_cases hsrc : s.peer src = none ∧ io.connectSrc.result = .noError
  swap
  · obtain ⟨e, he, hpair⟩ := d2dPair_refused (q := dst) hsrc
    refine .inr (.inr ⟨fun h => hsrc ⟨h.2.1, h.2.2.1⟩, fun h => hsrc ⟨h.2.1, h.2.2.1⟩, ?_⟩)
    rw [hpair]
    cases e <;> first | rfl | exact absurd rfl he
  obtain ⟨hnone, hconn⟩ := hsrc
  rw [d2dPair_connects hnone hconn]
  have hdst : update s.peer src (some dst) dst = s.peer dst := Function.update_of_ne hne.symm _ _
  dsimp only
  by_cases hok : s.peer dst = none ∧ io.connectDst.result = .noError
  · rw [d2dPair_connects (hdst.trans hok.1) hok.2]
    exact .inl ⟨⟨hex, hnone, hconn, hok⟩, rfl⟩
  · obtain ⟨e, he, hpair⟩ := d2dPair_refused (q := src) (by rwa [← hdst] at hok)
    rw [hpair]
    have hret : (match (e, update s.peer src (some dst)) with
        | (NNPError.noError, peer) => (NNPError.noError, peer)
        | (ret, peer) => (ret, (d2dPair peer src none ⟨io.disconnectSrc, false, .zero⟩).2)).2 =
        (d2dPair (update s.peer src (some dst)) src none ⟨io.disconnectSrc, false, .zero⟩).2 := by
      cases e <;> first | rfl | exact absurd rfl he
    rw [hret]
    cases hdis : io.disconnectSrc with
    | false => exact .inr (.inl ⟨⟨hex, hnone, hconn, hok, hdis⟩, rfl⟩)
    | true =>
      refine .inr (.inr ⟨fun h => hok h.2.2.2, fun h => ?_, ?_⟩)
      · rw [h.2.2.2.2] at hdis
        cases hdis
      · simp only [d2dPair, not_true_eq_false, if_false, Function.update_idem]
        rw [← hnone, Function.update_eq_self]

omit [DecidableEq R] in
theorem Compatible.ne {device : ℕ} (h : Compatible attr device dst src) : src ≠ dst := by
  rintro rfl
  exact h.2.2.2.2 rfl

/-- A creation that passes its tests records a copy exactly when the last step succeeds. -/
theorem step_create {device : ℕ} (h : Compatible attr device dst src) :
    s.step attr (.create device dst src io) = some {
      peer := (updatePeers s.peer dst src io).2
      copies := if io.created = .noError then (dst, src) :: s.copies else s.copies } := by
  have hcreate : createD2d attr s.peer device dst src io =
      (io.created, (updatePeers s.peer dst src io).2) := if_neg (not_not.mpr h)
  rw [step, hcreate]
  cases hret : io.created <;> rfl

theorem result_create {device : ℕ} (h : Compatible attr device dst src) :
    s.result attr (.create device dst src io) = io.created :=
  congrArg Prod.fst (if_neg (not_not.mpr h))

theorem step_incompatible {device : ℕ} (h : ¬ Compatible attr device dst src) :
    s.step attr (.create device dst src io) = some s ∧
      s.result attr (.create device dst src io) = .incompatibleResources := by
  have hcreate : createD2d attr s.peer device dst src io = (.incompatibleResources, s.peer) :=
    if_pos h
  exact ⟨by rw [step, hcreate], congrArg Prod.fst hcreate⟩

/-- Peers know each other, and those of a copy are paired. -/
structure Inv (s : D2dState R) : Prop where
  symm : ∀ x y, s.peer x = some y → s.peer y = some x
  copies : ∀ c ∈ s.copies, s.Paired c.1 c.2

omit [DecidableEq R] in
theorem inv_create : (create : D2dState R).Inv := ⟨nofun, nofun⟩

omit [DecidableEq R] in
theorem Paired.of_eq (h : s.Paired dst src) (hsrc : t.peer src = s.peer src)
    (hdst : t.peer dst = s.peer dst) : t.Paired dst src := ⟨hsrc.trans h.1, hdst.trans h.2⟩

/-- A creation does what it should exactly when its last step agrees with the others. -/
theorem pairs_create_iff (h : s.Inv) {device : ℕ} (hcomp : Compatible attr device dst src) :
    s.Pairs attr (.create device dst src io) ↔
      if io.created = .noError then s.Connects dst src io ∨ s.Paired dst src
      else ¬ s.Connects dst src io ∧ ¬ s.Dangles dst src io := by
  have hne := hcomp.ne
  simp only [Pairs, step_create hcomp, result_create hcomp, Option.some.injEq, forall_eq', Paired]
  rcases @updatePeers_cases R _ s dst src io hne with ⟨hc, heq⟩ | ⟨hd, heq⟩ | ⟨hc, hd, heq⟩ <;>
    rw [heq]
  · have hnone : s.peer src = none := hc.2.1
    simp only [hc, true_or, not_true_eq_false, false_and, Function.update_self,
      Function.update_of_ne hne, hnone, and_self, reduceCtorEq]
  · have hnone : s.peer src = none := hd.2.1
    have hback : s.peer dst ≠ some src := by
      intro hdst
      have hsrc := h.symm _ _ hdst
      rw [hnone] at hsrc
      cases hsrc
    have hc : ¬ s.Connects dst src io := fun hc => hd.2.2.2.1 hc.2.2.2
    simp [hc, hd, hnone, hback, Function.update_of_ne hne.symm]
  · simp only [hc, hd, false_or, not_false_eq_true, and_self]

theorem pairs_iff (h : s.Inv) : s.Pairs attr op ↔ s.Consistent attr op := by
  cases op with
  | create device dst src io =>
    by_cases hcomp : Compatible attr device dst src
    · simp only [pairs_create_iff h hcomp, Consistent, hcomp, true_implies]
    · obtain ⟨hstep, hres⟩ := @step_incompatible R _ attr s dst src io device hcomp
      simp only [Pairs, hstep, hres, Option.some.injEq, forall_eq', Consistent, hcomp,
        reduceCtorEq, if_false, and_self, false_implies]
  | destroy dst src cardFatal written =>
    by_cases hmem : (dst, src) ∈ s.copies
    · obtain ⟨hsrc, hdst⟩ := h.copies _ hmem
      by_cases hret : destroyCopy cardFatal written = .noError
      · simp [Pairs, Consistent, step, result, hmem, hret, hsrc]
      · simp [Pairs, Consistent, step, result, hmem, hret]
    · simp [Pairs, Consistent, step, hmem]

theorem Inv.pair (h : s.Inv) (hne : src ≠ dst) (hsrc : s.peer src = none)
    (hdst : s.peer dst = none) :
    (⟨update (update s.peer src (some dst)) dst (some src), s.copies⟩ : D2dState R).Inv where
  symm x y hxy := by
    have hx := h.symm x y
    dsimp only [Function.update_apply] at hxy ⊢
    grind
  copies c hc := by
    obtain ⟨hs, hd⟩ := h.copies c hc
    have hne' : ∀ r, s.peer r = none → c.2 ≠ r ∧ c.1 ≠ r := by
      rintro r hr
      constructor <;> rintro rfl
      · rw [hr] at hs
        cases hs
      · rw [hr] at hd
        cases hd
    obtain ⟨h1, h2⟩ := hne' src hsrc
    obtain ⟨h3, h4⟩ := hne' dst hdst
    apply Paired.of_eq ⟨hs, hd⟩ <;>
      simp only [ne_eq, h1, h2, h3, h4, not_false_eq_true, Function.update_of_ne]

omit [DecidableEq R] in
theorem Inv.record (h : s.Inv) (hp : s.Paired dst src) :
    ({ s with copies := (dst, src) :: s.copies }).Inv where
  symm := h.symm
  copies := List.forall_mem_cons.mpr ⟨hp, h.copies⟩

theorem Inv.create (h : s.Inv) {device : ℕ} (hcomp : Compatible attr device dst src)
    (hok : s.Consistent attr (.create device dst src io)) :
    ({ peer := (updatePeers s.peer dst src io).2
       copies := if io.created = .noError then (dst, src) :: s.copies else s.copies } :
      D2dState R).Inv := by
  have hne := hcomp.ne
  have hok := hok hcomp
  rcases @updatePeers_cases R _ s dst src io hne with ⟨hc, heq⟩ | ⟨hd, heq⟩ | ⟨hc, hd, heq⟩ <;>
    rw [heq] <;> split_ifs at hok ⊢ with hret
  · have hpair := h.pair hne hc.2.1 hc.2.2.2.1
    refine hpair.record ⟨?_, Function.update_self ..⟩
    simp only [Function.update_of_ne hne, Function.update_self]
  · exact absurd hc hok.1
  · rcases hok with hc | hp
    · exact absurd hc.2.2.2 hd.2.2.2.1
    · have hnone := hd.2.1
      rw [hp.1] at hnone
      cases hnone
  · exact absurd hd hok.2
  · exact h.record (hok.resolve_left hc)
  · exact h

theorem Inv.step (h : s.Inv) (hok : s.Consistent attr op) (hs : s.step attr op = some t) :
    t.Inv := by
  cases op with
  | create device dst src io =>
    by_cases hcomp : Compatible attr device dst src
    · rw [step_create hcomp] at hs
      obtain rfl := Option.some.inj hs
      exact h.create hcomp hok
    · rw [(step_incompatible hcomp).1] at hs
      obtain rfl := Option.some.inj hs
      exact h
  | destroy dst src cardFatal written =>
    simp only [D2dState.step, Option.ite_none_right_eq_some] at hs
    obtain ⟨hmem, hs⟩ := hs
    rw [if_neg (hok hmem)] at hs
    obtain rfl := Option.some.inj hs
    exact h

/-- In a run the calls do all they should exactly when no creation is left half done and no
copy is destroyed. -/
theorem pairs_iff_consistent (attr : R → D2dDevRes) (ops : List (D2dOp R)) :
    Exec.Meets (step attr) (Pairs attr) create ops ↔
      Exec.Meets (step attr) (Consistent attr) create ops :=
  Exec.meets_iff_meets inv_create (fun _ _ h => pairs_iff h) fun _ _ _ h hok hs => h.step hok hs

/-- A source and a destination on two devices. -/
def twoDevices (dst : Bool) : D2dDevRes := ⟨4096, dst, !dst, if dst then 1 else 0⟩

def stepSucceeds : Exchange := ⟨true, false, .zero⟩

/-- Everything goes well, and the copy that is created is destroyed. -/
def copyLifecycle : List (D2dOp Bool) :=
  [.create 0 true false {
      relCrFifo := stepSucceeds
      fwCrFifo := stepSucceeds
      updateSrc := stepSucceeds
      updateDst := stepSucceeds
      connectSrc := stepSucceeds
      connectDst := stepSucceeds
      disconnectSrc := true
      allocated := true
      createSent := true
      createReply := .ofCode EventReport.createCopySuccess },
    .destroy true false false true]

/-- Its resources are still paired then. -/
theorem destroyed_copy_stays_paired :
    ¬ Exec.Meets (step twoDevices) (Pairs twoDevices) create copyLifecycle := by
  intro h
  have hdestroy := (h.2 _ rfl).1 _ rfl rfl
  exact hdestroy.1 rfl

end D2dState

end NNPIHost

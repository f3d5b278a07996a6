import NNPIHost.Ipc.Events
import NNPIHost.Store.Drain

/-! # Destroying everything at exit

`nnpdrvFin_no_wait` destroys the first handle of a kind until there is none. The destroy calls
keep the handle of an object that they could not tell the card about, with the exception of
that of infer requests, so the loops end only when each message gets through at last.
-/

namespace NNPIHost

open Store (OrderedMap)

/-- What a destroy call meets: whether the context has a fatal error of the card, and whether
the channel takes the message as a whole. -/
structure DestroyOutcome where
  cardFatal : Bool
  written : Bool

namespace DestroyOutcome

variable (io : DestroyOutcome)

/-- The end of a destroy function, once it has put its message together. -/
def send : NNPError :=
  if io.cardFatal then .noError
  else if io.written then .noError
  else .ioError

def destroyCommandList (finalized : Bool) : NNPError := if finalized then io.send else .noError

def destroyInfReq : NNPError := io.send

def destroyDevNet : NNPError := io.send

def destroyCopy : NNPError := io.send

def destroyDevRes : NNPError := io.send

/-- `nnpiInfContext::destroy`; without a card it kills the channel. -/
def destroyContext : NNPError :=
  if ¬ io.cardFatal then
    if io.written then .noError else .ioError
  else .noError

variable {io}

theorem send_eq_noError : io.send = .noError ↔ io.cardFatal = true ∨ io.written = true := by
  rcases io with ⟨_ | _, _ | _⟩ <;> decide

theorem destroyContext_eq_send : io.destroyContext = io.send := by
  rcases io with ⟨_ | _, _ | _⟩ <;> rfl

end DestroyOutcome

section Handles

variable {κ ν : Type*} [LinearOrder κ]

/-- A destroy call of the interface: the handle stays when the object could not be destroyed. -/
def destroyHandle (noSuch : NNPError) (destroy : ν → NNPError) (hdl : κ) (m : OrderedMap κ ν) :
    NNPError × OrderedMap κ ν :=
  match m.find? hdl with
  | none => (noSuch, m)
  | some obj =>
      let ret := destroy obj
      (ret, if ret = .noError then m.erase hdl else m)

def nnpdrvDestroyCommandList (io : DestroyOutcome) (hdl : κ) (m : OrderedMap κ Bool) :
    NNPError × OrderedMap κ Bool :=
  destroyHandle .noSuchCmdlist (fun finalized => io.destroyCommandList finalized) hdl m

/-- This call removes the handle whatever becomes of the message. -/
def nnpdrvDestroyInferRequest (io : DestroyOutcome) (hdl : κ) (m : OrderedMap κ Unit) :
    NNPError × OrderedMap κ Unit :=
  match m.find? hdl with
  | none => (.noSuchInfreqHandle, m)
  | some () =>
      let _ := io.destroyInfReq
      (.noError, m.erase hdl)

def nnpdrvDestroyDeviceNetwork (io : DestroyOutcome) (hdl : κ) (m : OrderedMap κ Unit) :
    NNPError × OrderedMap κ Unit := destroyHandle .noSuchNetwork (fun _ => io.destroyDevNet) hdl m

def nnpdrvDestroyCopyHandle (io : DestroyOutcome) (hdl : κ) (m : OrderedMap κ Unit) :
    NNPError × OrderedMap κ Unit := destroyHandle .noSuchCopyHandle (fun _ => io.destroyCopy) hdl m

def nnpdrvDestroyDeviceResource (io : DestroyOutcome) (hdl : κ) (m : OrderedMap κ Unit) :
    NNPError × OrderedMap κ Unit := destroyHandle .noSuchResource (fun _ => io.destroyDevRes) hdl m

def nnpdrvDestroyInferContext (io : DestroyOutcome) (hdl : κ) (m : OrderedMap κ Unit) :
    NNPError × OrderedMap κ Unit := destroyHandle .noSuchContext (fun _ => io.destroyContext) hdl m

theorem takes_destroyHandle {noSuch : NNPError} {destroy : κ → ℕ → ν → NNPError} :
    Store.Takes (fun hdl n m => (destroyHandle noSuch (destroy hdl n) hdl m).2)
      fun hdl obj n => destroy hdl n obj = .noError := by
  intro hdl obj n m hm
  simp only [destroyHandle, OrderedMap.find?_eq_some.mpr hm]
  exact ⟨fun h => if_pos h, fun h => if_neg h⟩

end Handles

inductive HandleKind where
  | cmdlist | infreq | network | copy | devres | context
  deriving DecidableEq, Repr

/-- The open handles; a command list with whether it is finalized. -/
structure OpenHandles (κ : Type*) [LinearOrder κ] where
  cmdlists : OrderedMap κ Bool
  infreqs : OrderedMap κ Unit
  networks : OrderedMap κ Unit
  copies : OrderedMap κ Unit
  devres : OrderedMap κ Unit
  hostres : OrderedMap κ Unit
  contexts : OrderedMap κ Unit

namespace OpenHandles

variable {κ : Type*} [LinearOrder κ] (s : OpenHandles κ) (io : HandleKind → κ → ℕ → DestroyOutcome)

/-- `nnpdrvFin_no_wait` up to its last line, each loop for at most `fuel` calls; `io` is what
the calls on a handle meet, one after the other. -/
def finNoWait (fuel : ℕ) : Option (OpenHandles κ) := do
  let cmdlists ← Store.drain (fun hdl n m =>
    (nnpdrvDestroyCommandList (io .cmdlist hdl n) hdl m).2) fuel (fun _ => 0) s.cmdlists
  let infreqs ← Store.drain (fun hdl n m =>
    (nnpdrvDestroyInferRequest (io .infreq hdl n) hdl m).2) fuel (fun _ => 0) s.infreqs
  let networks ← Store.drain (fun hdl n m =>
    (nnpdrvDestroyDeviceNetwork (io .network hdl n) hdl m).2) fuel (fun _ => 0) s.networks
  let copies ← Store.drain (fun hdl n m =>
    (nnpdrvDestroyCopyHandle (io .copy hdl n) hdl m).2) fuel (fun _ => 0) s.copies
  let devres ← Store.drain (fun hdl n m =>
    (nnpdrvDestroyDeviceResource (io .devres hdl n) hdl m).2) fuel (fun _ => 0) s.devres
  let contexts ← Store.drain (fun hdl n m =>
    (nnpdrvDestroyInferContext (io .context hdl n) hdl m).2) fuel (fun _ => 0) s.contexts
  return ⟨cmdlists, infreqs, networks, copies, devres, .empty, contexts⟩

/-- The handle stays until its object was destroyed, and that takes a message to the card. -/
def NeedsCard (s : OpenHandles κ) (hdl : κ) : HandleKind → Prop
  | .cmdlist => (hdl, true) ∈ s.cmdlists
  | .infreq => False
  | .network => (hdl, ()) ∈ s.networks
  | .copy => (hdl, ()) ∈ s.copies
  | .devres => (hdl, ()) ∈ s.devres
  | .context => (hdl, ()) ∈ s.contexts

variable {s io}

theorem exists_finNoWait_iff : (∃ fuel, (s.finNoWait io fuel).isSome = true) ↔
    Store.Drains (fun hdl n m => (nnpdrvDestroyCommandList (io .cmdlist hdl n) hdl m).2)
      (fun _ => 0) s.cmdlists ∧
    Store.Drains (fun hdl n m => (nnpdrvDestroyInferRequest (io .infreq hdl n) hdl m).2)
      (fun _ => 0) s.infreqs ∧
    Store.Drains (fun hdl n m => (nnpdrvDestroyDeviceNetwork (io .network hdl n) hdl m).2)
      (fun _ => 0) s.networks ∧
    Store.Drains (fun hdl n m => (nnpdrvDestroyCopyHandle (io .copy hdl n) hdl m).2)
      (fun _ => 0) s.copies ∧
    Store.Drains (fun hdl n m => (nnpdrvDestroyDeviceResource (io .devres hdl n) hdl m).2)
      (fun _ => 0) s.devres ∧
    Store.Drains (fun hdl n m => (nnpdrvDestroyInferContext (io .context hdl n) hdl m).2)
      (fun _ => 0) s.contexts := by
  constructor
  · rintro ⟨fuel, h⟩
    obtain ⟨s', h⟩ := Option.isSome_iff_exists.mp h
    simp only [finNoWait, Option.bind_eq_bind, Option.bind_eq_some_iff] at h
    obtain ⟨_, h1, _, h2, _, h3, _, h4, _, h5, _, h6, _⟩ := h
    exact ⟨⟨fuel, by rw [h1]; rfl⟩, ⟨fuel, by rw [h2]; rfl⟩, ⟨fuel, by rw [h3]; rfl⟩,
      ⟨fuel, by rw [h4]; rfl⟩, ⟨fuel, by rw [h5]; rfl⟩, ⟨fuel, by rw [h6]; rfl⟩⟩
  · rintro ⟨h1, h2, h3, h4, h5, h6⟩
    obtain ⟨n1, m1, h1⟩ := h1.eventually
    obtain ⟨n2, m2, h2⟩ := h2.eventually
    obtain ⟨n3, m3, h3⟩ := h3.eventually
    obtain ⟨n4, m4, h4⟩ := h4.eventually
    obtain ⟨n5, m5, h5⟩ := h5.eventually
    obtain ⟨n6, m6, h6⟩ := h6.eventually
    refine ⟨n1 + n2 + n3 + n4 + n5 + n6, ?_⟩
    rw [finNoWait, h1 _ (by omega), h2 _ (by omega), h3 _ (by omega), h4 _ (by omega),
      h5 _ (by omega), h6 _ (by omega)]
    rfl

theorem drains_destroyHandle_iff {ν : Type*} {m : OrderedMap κ ν} {noSuch : NNPError}
    {destroy : κ → ℕ → ν → NNPError} :
    Store.Drains (fun hdl n m => (destroyHandle noSuch (destroy hdl n) hdl m).2) (fun _ => 0) m ↔
      ∀ hdl obj, (hdl, obj) ∈ m → ∃ n, destroy hdl n obj = .noError := by
  rw [Store.drains_iff_goes takes_destroyHandle]
  simp only [Nat.zero_le, true_and]

theorem drains_infreqs {m : OrderedMap κ Unit} {io : κ → ℕ → DestroyOutcome} :
    Store.Drains (fun hdl n m => (nnpdrvDestroyInferRequest (io hdl n) hdl m).2) (fun _ => 0)
      m := by
  have ht : Store.Takes (fun hdl n m => (nnpdrvDestroyInferRequest (io hdl n) hdl m).2)
      fun (_ : κ) (_ : Unit) _ => True := by
    intro hdl obj n m hm
    simp [nnpdrvDestroyInferRequest, OrderedMap.find?_eq_some.mpr hm]
  exact (Store.drains_iff_goes ht).mpr fun hdl obj _ => ⟨0, le_rfl, trivial⟩

/-- The loops end exactly when for every handle that needs the card some call meets a fatal
error of the card or has its message written. -/
theorem finNoWait_terminates_iff (s : OpenHandles κ) (io : HandleKind → κ → ℕ → DestroyOutcome) :
    (∃ fuel, (s.finNoWait io fuel).isSome = true) ↔ ∀ kind hdl, s.NeedsCard hdl kind →
      ∃ n, (io kind hdl n).cardFatal = true ∨ (io kind hdl n).written = true := by
  rw [exists_finNoWait_iff]
  simp only [nnpdrvDestroyCommandList, nnpdrvDestroyDeviceNetwork, nnpdrvDestroyCopyHandle,
    nnpdrvDestroyDeviceResource, nnpdrvDestroyInferContext, drains_destroyHandle_iff,
    iff_true_intro drains_infreqs, true_and]
  simp only [DestroyOutcome.destroyCommandList, DestroyOutcome.destroyDevNet,
    DestroyOutcome.destroyCopy, DestroyOutcome.destroyDevRes,
    DestroyOutcome.destroyContext_eq_send, ite_eq_right_iff, DestroyOutcome.send_eq_noError]
  constructor
  · rintro ⟨hlist, hnet, hcopy, hres, hctx⟩ kind hdl hneeds
    cases kind with
    | cmdlist =>
      obtain ⟨n, hn⟩ := hlist hdl true hneeds
      exact ⟨n, hn rfl⟩
    | infreq => exact hneeds.elim
    | network => exact hnet hdl () hneeds
    | copy => exact hcopy hdl () hneeds
    | devres => exact hres hdl () hneeds
    | context => exact hctx hdl () hneeds
  · intro h
    refine ⟨fun hdl finalized hm => ?_, fun hdl _ => h .network hdl, fun hdl _ => h .copy hdl,
      fun hdl _ => h .devres hdl, fun hdl _ => h .context hdl⟩
    cases finalized with
    | true =>
      obtain ⟨n, hn⟩ := h .cmdlist hdl hm
      exact ⟨n, fun _ => hn⟩
    | false => exact ⟨0, by rintro ⟨⟩⟩

end OpenHandles

/-- One device resource. -/
def oneDevRes : OpenHandles ℕ :=
  ⟨.empty, .empty, .empty, .empty, .singleton 0 (), .empty, .empty⟩

/-- The channel takes no message, and the context has no fatal error of the card. -/
theorem unwritten_destroy_repeats_forever :
    ¬ ∀ (s : OpenHandles ℕ) (io : HandleKind → ℕ → ℕ → DestroyOutcome),
      ∃ fuel, (s.finNoWait io fuel).isSome = true := by
  intro h
  have hdrains := OpenHandles.exists_finNoWait_iff.mp (h oneDevRes fun _ _ _ => ⟨false, false⟩)
  have hgoes := OpenHandles.drains_destroyHandle_iff.mp hdrains.2.2.2.2.1
  obtain ⟨n, hn⟩ := hgoes 0 () (List.mem_singleton_self _)
  cases hn

end NNPIHost

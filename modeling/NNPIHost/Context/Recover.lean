import NNPIHost.Context.ErrorCalls

/-! # Recovering from a critical error

A call of `recover` returns success for what it finds in two fields that others write too: the
critical error, which a wait may hold or clear, and the error list, on which a reply to a query of
a wait looks like the reply to the clear request. While nobody writes them, success means that the
card has acknowledged the request, and a failure leaves the context broken.
-/

namespace NNPIHost

/-- The list looks as after a request that succeeded. -/
def ExecErrorList.Succeeded {H : Type*} (s : ExecErrorList H) : Prop :=
  s.queryCompleted = true ∧ s.completionEventVal = 0

instance {H : Type*} (s : ExecErrorList H) : Decidable s.Succeeded :=
  inferInstanceAs (Decidable (_ ∧ _))

theorem ExecErrorList.not_succeeded_startQuery {H : Type*} (s : ExecErrorList H) :
    ¬ s.startQuery.Succeeded := by
  rintro ⟨hcompleted, _⟩
  cases hcompleted

/-- The labels of `recover`, and its answer. -/
def ErrorCallsOp.forRecover : ErrorCallsOp → Bool
  | .recoverCall | .recoverNext _ => true
  | .clearAck own => own
  | .event _ | .kill | .packet _ _ _ _ | .waitCall _ | .waitExpire | .waitNext _ _ => false

/-- The error that the call has taken out of the context. -/
def RecoverCall.saved? : RecoverCall → Option EventReport
  | .clearing saved | .taken saved | .asking saved | .asked saved | .woken saved
  | .unbroken saved | .restoring saved _ | .storing saved _ => some saved
  | .idle | .testing | .unfatal | .saving | .leaving _ | .returned _ => none

/-- The call is about to return an error. -/
def RecoverCall.failing : RecoverCall → Bool
  | .leaving ret => ret ≠ .noError
  | _ => false

/-- The wait is about to clear the error of the context. -/
def WaitCall.clears : WaitCall → Bool
  | .stale _ | .taking _ => true
  | _ => false

namespace ErrorCalls

open EventReport

variable {H : Type*} {s t : ErrorCalls H} {op : ErrorCallsOp}

/-- A call that was needed succeeds with an answer, and one that fails leaves the context
broken. -/
def RecoverOk (s : ErrorCalls H) : Prop :=
  match s.recoverer with
  | .returned r =>
      (r.ret = .noError → s.recoverNeeded = true → r.acked = true) ∧
        (r.ret ≠ .noError → r.broken = true)
  | _ => True

instance (s : ErrorCalls H) : Decidable s.RecoverOk := by
  unfold RecoverOk
  split <;> infer_instance

/-- A call that fails, or will, leaves the context broken. -/
def FailsBroken (s : ErrorCalls H) : Prop :=
  match s.recoverer with
  | .leaving ret => ret ≠ .noError → s.critical.broken = true
  | .returned r => r.ret ≠ .noError → r.broken = true
  | _ => True

/-- A call that succeeds, or will, has its answer if it was needed. -/
def Acknowledged (s : ErrorCalls H) : Prop :=
  match s.recoverer with
  | .restoring _ ret => ret = .noError → s.acked = true
  | .storing _ ret => ret ≠ .noError
  | .leaving ret => ret = .noError → s.recoverNeeded = true → s.acked = true
  | .returned r => r.ret = .noError → s.recoverNeeded = true → r.acked = true
  | _ => True

theorem recoverOk_of (hack : s.Acknowledged) (hfails : s.FailsBroken) : s.RecoverOk := by
  unfold RecoverOk
  unfold Acknowledged at hack
  unfold FailsBroken at hfails
  split
  next r hr =>
    simp only [hr] at hack hfails
    exact ⟨hack, hfails⟩
  next => trivial

/-- The call of `recover` looks at the list, and the card has not acknowledged its request. -/
def Awaiting (s : ErrorCalls H) : Prop := s.recoverer.pending = true ∧ s.acked = false

/-- Nobody holds the error when `recover` is called, and nobody has cleared it by the time that it
is saved; while the call awaits its answer no packets complete a list, no other clear request is
acknowledged, and the query of a wait is not begun between the wake-up of the call and its look at
the result; and no wait clears the error of a call that has failed before it returns. -/
def Undisturbed (s : ErrorCalls H) : ErrorCallsOp → Prop
  | .recoverCall => s.unrecovered = true → s.critical.broken = true
  | .packet fresh packet totalSize errorEventVal => s.Awaiting →
      ∀ list, s.errorList.appendErrorListPacket fresh packet totalSize errorEventVal = some list →
        ¬ list.Succeeded
  | .clearAck own => s.Awaiting → own = true
  | .recoverNext _ =>
      match s.recoverer with
      | .saving => s.critical.broken = true
      | .unbroken _ => s.Awaiting → s.errorList.queryCompleted = true
      | _ => True
  | .waitNext _ _ => s.waiter.clears = true → s.recoverer.failing = false
  | _ => True

instance (s : ErrorCalls H) : Decidable s.Awaiting := inferInstanceAs (Decidable (_ ∧ _))

instance (s : ErrorCalls H) (op : ErrorCallsOp) : Decidable (s.Undisturbed op) := by
  unfold Undisturbed
  repeat' split
  all_goals infer_instance

/-- What a call needs to succeed with its answer only. -/
structure RecoverInv (s : ErrorCalls H) : Prop where
  unanswered : s.Awaiting → ¬ s.errorList.Succeeded
  acknowledged : s.Acknowledged

/-- What it needs to put an error back; a wait puts one back as well. -/
structure HoldsError (s : ErrorCalls H) : Prop where
  saved : ∀ e, s.recoverer.saved? = some e → e.broken = true
  waitSaved : ∀ e, s.waiter.saved? = some e → e.broken = true
  fails : s.FailsBroken

/-- Two states that differ for the call of `recover` in the list at most. -/
structure SameRecover (s t : ErrorCalls H) : Prop where
  recoverer : t.recoverer = s.recoverer
  recoverNeeded : t.recoverNeeded = s.recoverNeeded
  acked : t.acked = s.acked

theorem RecoverInv.of_same (h : s.RecoverInv) (hsame : SameRecover s t)
    (hlist : s.Awaiting → t.errorList.Succeeded → s.errorList.Succeeded) : t.RecoverInv where
  unanswered := by
    unfold Awaiting
    rw [hsame.recoverer, hsame.acked]
    exact fun ha hlist' => h.unanswered ha (hlist ha hlist')
  acknowledged := by
    unfold Acknowledged
    rw [hsame.recoverer, hsame.recoverNeeded, hsame.acked]
    exact h.acknowledged

theorem failsBroken_of_failing
    (h : s.recoverer.failing = true → s.critical.broken = true)
    (hret : ∀ r, s.recoverer = .returned r → r.ret ≠ .noError → r.broken = true) :
    s.FailsBroken := by
  unfold FailsBroken
  split
  next ret hr =>
    rw [hr] at h
    exact fun hne => h (decide_eq_true hne)
  next r hr => exact hret r hr
  next => trivial

theorem FailsBroken.of_failing (h : s.FailsBroken) (hf : s.recoverer.failing = true) :
    s.critical.broken = true := by
  unfold FailsBroken at h
  cases hr : s.recoverer with
  | leaving ret =>
    rw [hr] at h hf
    exact h (of_decide_eq_true hf)
  | _ =>
    rw [hr] at hf
    cases hf

/-- A step that is not one of the call leaves its error alone if it clears none of a call that
has failed. -/
theorem HoldsError.of_eq (h : s.HoldsError) (heq : t.recoverer = s.recoverer)
    (hwait : ∀ e, t.waiter.saved? = some e → e.broken = true)
    (hkeep : s.recoverer.failing = true → s.critical.broken = true → t.critical.broken = true) :
    t.HoldsError where
  saved := by
    rw [heq]
    exact h.saved
  waitSaved := hwait
  fails := by
    apply failsBroken_of_failing
    · rw [heq]
      exact fun hf => hkeep hf (h.fails.of_failing hf)
    · intro r hr
      have hfails := h.fails
      rw [FailsBroken, ← heq, hr] at hfails
      exact hfails

theorem HoldsError.response (h : s.HoldsError) (hs : s.Response op t) : t.HoldsError := by
  cases hs with
  | record critical exited hkeep => exact h.of_eq rfl h.waitSaved fun _ => hkeep
  | packet errorList => exact h.of_eq rfl h.waitSaved fun _ hb => hb
  | clearAck own =>
    unfold clearAck
    split <;> exact h.of_eq rfl h.waitSaved fun _ hb => hb

theorem HoldsError.waitNext {written : Bool} {handles : UserHandles} (h : s.HoldsError)
    (hok : s.Undisturbed (.waitNext written handles))
    (hs : s.waitNext written handles = some t) : t.HoldsError := by
  obtain ⟨critical, exited, errorList, waiter, recoverer, waitBroken, _, _, _⟩ := s
  have hsaved := h.waitSaved
  cases waiter with
  | idle | returned => cases hs
  | stale | taking =>
    -- The clear of the error, which the condition keeps away from a call that has failed.
    obtain rfl := Option.some.inj hs
    exact h.of_eq rfl hsaved fun hf => absurd (hok rfl) (ne_true_of_eq_false · hf)
  | reading =>
    simp only [ErrorCalls.waitNext] at hs
    split at hs <;> obtain rfl := Option.some.inj hs
    next hcode =>
      refine h.of_eq rfl ?_ fun _ hb => hb
      rintro e ⟨⟩
      apply broken_of_eventCode
      rw [hcode]
      decide
    next => exact h.of_eq rfl nofun fun _ hb => hb
  | storing saved query info =>
    obtain rfl := Option.some.inj hs
    exact h.of_eq rfl nofun fun _ _ => hsaved saved rfl
  | _ =>
    simp only [ErrorCalls.waitNext] at hs
    repeat' split at hs
    all_goals
      first
        | cases hs; done
        | obtain rfl := Option.some.inj hs
          first
            | exact h.of_eq rfl hsaved fun _ hb => hb
            | exact h.of_eq rfl nofun fun _ hb => hb

theorem SameRecover.waitNext {written : Bool} {handles : UserHandles}
    (hs : s.waitNext written handles = some t) :
    SameRecover s t ∧ (t.errorList.Succeeded → s.errorList.Succeeded) := by
  obtain ⟨critical, exited, errorList, waiter, recoverer, waitBroken, _, _, _⟩ := s
  cases waiter with
  | taken saved =>
    obtain rfl := Option.some.inj hs
    exact ⟨⟨rfl, rfl, rfl⟩, fun h => absurd h.1 nofun⟩
  | cleared saved =>
    obtain rfl := Option.some.inj hs
    exact ⟨⟨rfl, rfl, rfl⟩, fun h => absurd h (ExecErrorList.not_succeeded_startQuery _)⟩
  | idle | returned => cases hs
  | _ =>
    simp only [ErrorCalls.waitNext] at hs
    repeat' split at hs
    all_goals
      first
        | cases hs; done
        | obtain rfl := Option.some.inj hs
          exact ⟨⟨rfl, rfl, rfl⟩, id⟩

/-- The labels that are not for the call of `recover`; undisturbed they bring no success while
it awaits its answer. -/
theorem SameRecover.step (hop : op.forRecover = false) (hs : s.step op = some t) :
    SameRecover s t ∧
      (s.Undisturbed op → s.Awaiting → t.errorList.Succeeded → s.errorList.Succeeded) := by
  cases hwait : op.ofWait with
  | false =>
    have hrec : op.ofRecover = false := by cases op <;> first | rfl | cases hop
    cases response_of_step hwait hrec hs with
    | record => exact ⟨⟨rfl, rfl, rfl⟩, fun _ _ => id⟩
    | packet errorList hlist =>
      exact ⟨⟨rfl, rfl, rfl⟩, fun hok ha h => absurd h (hok ha errorList hlist)⟩
    | clearAck own =>
      obtain rfl : own = false := hop
      exact ⟨⟨rfl, rfl, rfl⟩, fun hok ha => absurd (hok ha) Bool.false_ne_true⟩
  | true =>
    cases op with
    | waitCall timeoutUs =>
      obtain rfl := step_waitCall hs
      exact ⟨⟨rfl, rfl, rfl⟩, fun _ _ => id⟩
    | waitExpire =>
      obtain ⟨timeoutUs, _, _, rfl⟩ := step_waitExpire hs
      exact ⟨⟨rfl, rfl, rfl⟩, fun _ _ => id⟩
    | waitNext written handles =>
      obtain ⟨hsame, hlist⟩ := SameRecover.waitNext hs
      exact ⟨hsame, fun _ _ => hlist⟩
    | _ => cases hwait

theorem RecoverInv.acked (h : s.RecoverInv) (hwritten : s.recoverer.written = true) :
    (s.clearAck true).RecoverInv := by
  obtain ⟨critical, exited, errorList, waiter, recoverer, waitBroken, _, _, _⟩ := s
  cases recoverer with
  | asked | woken | unbroken => exact ⟨fun ha => absurd ha.2.symm nofun, trivial⟩
  | idle | testing | unfatal | saving | clearing | taken | asking | restoring | storing
  | leaving | returned => cases hwritten

theorem not_awaiting_leaving {ret : NNPError} : ¬ (s.leaveRecover ret).Awaiting :=
  fun ha => absurd ha.1 Bool.false_ne_true

theorem recoverInv_recoverCall (hok : s.unrecovered = true → s.critical.broken = true) :
    s.recoverCall.RecoverInv := by
  simp only [recoverCall]
  split
  next hno =>
    exact ⟨fun ha => absurd ha not_awaiting_leaving, fun _ hneed => absurd (hok hneed) hno⟩
  next => exact ⟨fun ha => absurd ha.1 Bool.false_ne_true, trivial⟩

theorem HoldsError.recoverCall (h : s.HoldsError) : s.recoverCall.HoldsError := by
  simp only [ErrorCalls.recoverCall]
  split
  next => exact ⟨nofun, h.waitSaved, fun h => absurd rfl h⟩
  next => exact ⟨nofun, h.waitSaved, trivial⟩

theorem RecoverInv.recoverNext {written : Bool} (h : s.RecoverInv)
    (hok : s.Undisturbed (.recoverNext written)) (hs : s.recoverNext written = some t) :
    t.RecoverInv := by
  obtain ⟨critical, exited, errorList, waiter, recoverer, waitBroken, _, _, acked⟩ := s
  obtain ⟨hun, hack⟩ := h
  cases recoverer with
  | idle | returned => cases hs
  | testing | unfatal =>
    simp only [ErrorCalls.recoverNext] at hs
    split at hs <;> obtain rfl := Option.some.inj hs
    · exact ⟨fun ha => absurd ha not_awaiting_leaving, nofun⟩
    · exact ⟨fun ha => absurd ha.1 Bool.false_ne_true, trivial⟩
  | saving | clearing =>
    obtain rfl := Option.some.inj hs
    exact ⟨fun ha => absurd ha.1 Bool.false_ne_true, trivial⟩
  | taken saved =>
    obtain rfl := Option.some.inj hs
    exact ⟨fun _ => errorList.not_succeeded_startQuery, trivial⟩
  | asking saved =>
    simp only [ErrorCalls.recoverNext] at hs
    split at hs <;> obtain rfl := Option.some.inj hs
    · exact ⟨hun, trivial⟩
    · exact ⟨fun ha => absurd ha.1 Bool.false_ne_true, nofun⟩
  | asked saved =>
    obtain ⟨_, hs⟩ := Option.ite_none_right_eq_some.mp hs
    obtain rfl := Option.some.inj hs
    exact ⟨hun, trivial⟩
  | woken saved =>
    simp only [ErrorCalls.recoverNext] at hs
    split at hs <;> obtain rfl := Option.some.inj hs
    · exact ⟨fun ha => absurd ha.1 Bool.false_ne_true, nofun⟩
    · exact ⟨hun, trivial⟩
  | unbroken saved =>
    obtain rfl := Option.some.inj hs
    constructor
    · exact fun ha => absurd ha.1 Bool.false_ne_true
    · intro hsucc
      -- A value without error is that of a list that succeeded, so the answer has come.
      have hval : errorList.completionEventVal = 0 :=
        UInt16.toNat_inj.mp (eventValToNNPError_eq_noError.mp hsucc)
      cases acked with
      | true => rfl
      | false => exact absurd ⟨hok ⟨rfl, rfl⟩, hval⟩ (hun ⟨rfl, rfl⟩)
  | restoring saved ret =>
    simp only [ErrorCalls.recoverNext] at hs
    split at hs <;> obtain rfl := Option.some.inj hs
    next hno => exact ⟨fun ha => absurd ha.1 Bool.false_ne_true, hno.1⟩
    next => exact ⟨fun ha => absurd ha not_awaiting_leaving, fun h _ => hack h⟩
  | storing saved ret =>
    obtain rfl := Option.some.inj hs
    exact ⟨fun ha => absurd ha not_awaiting_leaving, fun h => absurd h hack⟩
  | leaving ret =>
    obtain rfl := Option.some.inj hs
    exact ⟨fun ha => absurd ha.1 Bool.false_ne_true, hack⟩

theorem HoldsError.recoverNext {written : Bool} (h : s.HoldsError)
    (hok : s.Undisturbed (.recoverNext written)) (hs : s.recoverNext written = some t) :
    t.HoldsError := by
  obtain ⟨critical, exited, errorList, waiter, recoverer, waitBroken, _, _, acked⟩ := s
  cases recoverer with
  | idle | returned => cases hs
  | testing =>
    simp only [ErrorCalls.recoverNext] at hs
    split at hs <;> obtain rfl := Option.some.inj hs
    next hfatal => exact ⟨nofun, h.waitSaved, fun _ => broken_of_cardFatal hfatal⟩
    next => exact ⟨nofun, h.waitSaved, trivial⟩
  | unfatal =>
    simp only [ErrorCalls.recoverNext] at hs
    split at hs <;> obtain rfl := Option.some.inj hs
    next habort => exact ⟨nofun, h.waitSaved, fun _ => broken_of_aborted habort⟩
    next => exact ⟨nofun, h.waitSaved, trivial⟩
  | saving =>
    obtain rfl := Option.some.inj hs
    refine ⟨?_, h.waitSaved, trivial⟩
    rintro e ⟨⟩
    exact hok
  | restoring saved ret =>
    simp only [ErrorCalls.recoverNext] at hs
    split at hs <;> obtain rfl := Option.some.inj hs
    next => exact ⟨h.saved, h.waitSaved, trivial⟩
    next hno =>
      refine ⟨nofun, h.waitSaved, fun hne => ?_⟩
      exact Decidable.not_not.mp fun hb => hno ⟨hne, hb⟩
  | storing saved ret =>
    obtain rfl := Option.some.inj hs
    exact ⟨nofun, h.waitSaved, fun _ => h.saved saved rfl⟩
  | leaving ret =>
    obtain rfl := Option.some.inj hs
    exact ⟨nofun, h.waitSaved, h.fails⟩
  | clearing | taken | asking | asked | woken | unbroken =>
    simp only [ErrorCalls.recoverNext] at hs
    repeat' split at hs
    all_goals
      first
        | cases hs; done
        | obtain rfl := Option.some.inj hs
          exact ⟨h.saved, h.waitSaved, trivial⟩

theorem HoldsError.step (h : s.HoldsError) (hok : s.Undisturbed op) (hs : s.step op = some t) :
    t.HoldsError := by
  cases op with
  | recoverCall =>
    obtain rfl := step_recoverCall hs
    exact h.recoverCall
  | recoverNext written => exact h.recoverNext hok hs
  | waitNext written handles => exact h.waitNext hok hs
  | waitCall timeoutUs =>
    obtain rfl := step_waitCall hs
    exact h.of_eq rfl nofun fun _ hb => hb
  | waitExpire =>
    obtain ⟨timeoutUs, _, _, rfl⟩ := step_waitExpire hs
    exact h.of_eq rfl nofun fun _ hb => hb
  | event | kill | packet | clearAck => exact h.response (response_of_step rfl rfl hs)

theorem RecoverInv.step (h : s.RecoverInv) (hok : s.Undisturbed op) (hs : s.step op = some t) :
    t.RecoverInv := by
  cases hop : op.forRecover with
  | false =>
    obtain ⟨hsame, hlist⟩ := SameRecover.step hop hs
    exact h.of_same hsame (hlist hok)
  | true =>
    cases op with
    | recoverCall =>
      obtain rfl := step_recoverCall hs
      exact recoverInv_recoverCall hok
    | recoverNext written => exact h.recoverNext hok hs
    | clearAck own =>
      obtain rfl : own = true := hop
      obtain ⟨hno, hs⟩ := Option.ite_none_left_eq_some.mp hs
      obtain rfl := Option.some.inj hs
      simp only [true_and, not_or, Decidable.not_not] at hno
      exact h.acked hno.2
    | event | kill | packet | waitCall | waitExpire | waitNext => cases hop

/-- In every run in which the calls of `recover` are undisturbed, each that is needed succeeds
only with the answer of the card to its own request, and fails only with the context broken. -/
theorem recover_ok (critical : EventReport) (exited : Bool) (errorList : ExecErrorList H)
    (unrecovered : Bool) (ops : List ErrorCallsOp)
    (hok : Exec.Meets step Undisturbed (create critical exited errorList unrecovered) ops) :
    Exec.Always step RecoverOk (create critical exited errorList unrecovered) ops := by
  let I : ErrorCalls H → Prop := fun s => s.RecoverInv ∧ s.HoldsError
  have hstart : I (create critical exited errorList unrecovered) :=
    ⟨⟨fun ha => absurd ha.1 Bool.false_ne_true, trivial⟩, nofun, nofun, trivial⟩
  have hstep (s : ErrorCalls H) (op : ErrorCallsOp) (t : ErrorCalls H) (h : I s)
      (hok : s.Undisturbed op) (hs : s.step op = some t) : I t :=
    ⟨h.1.step hok hs, h.2.step hok hs⟩
  have hinv := Exec.always_of_invariant hstart hstep hok
  exact hinv.mono fun _ h => recoverOk_of h.1.acknowledged h.2.fails

/-- The card answers the clear request of a call. -/
theorem recover_ok_acknowledged :
    Exec.Always step RecoverOk
      (create (ofCode 104) false (ExecErrorList.create (H := Unit)) true)
      (.recoverCall :: (List.replicate 6 (.recoverNext true) ++
        .clearAck true :: List.replicate 5 (.recoverNext true))) :=
  recover_ok _ _ _ _ _ (by decide)

/-- A wait holds the error, and `recover` returns success without a request. -/
theorem wait_hides_error_from_recover :
    ¬ Exec.Always step RecoverOk
      (create (ofCode 104) false (ExecErrorList.create (H := Unit)) true)
      [.waitCall 0xffffffff, .waitNext true .none, .waitNext true .none, .waitNext true .none,
        .recoverCall, .recoverNext true] := by
  decide

end ErrorCalls

end NNPIHost

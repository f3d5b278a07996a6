import NNPIHost.Context.ErrorCalls

/-! # What a wait for a critical error leaves and tells

Between its steps a wait holds the error that it will put back. Only the exit after a failed
write does not put it back, and only the exit after the query returns what the query did not
say: the result of the query is kept in a variable of the inner block.
-/

namespace NNPIHost

/-- Whether the label is a call of `waitCriticalError`. -/
def ErrorCallsOp.isWaitCall : ErrorCallsOp → Bool
  | .waitCall _ => true
  | _ => false

/-- A wait that began on a broken context still sees the error or holds it. -/
def WaitCall.Keeps (broken : Bool) : WaitCall → Prop
  | .waiting _ | .reading | .found _ => broken = true
  | .expired _ | .stale _ => False
  | .taking saved | .taken saved | .cleared saved | .asking saved | .asked saved | .woken saved
  | .unbroken saved | .parsing saved | .restoring saved _ _ | .storing saved _ _ =>
      saved.broken = true
  | .idle | .returned _ => True

/-- No success without an answer, except for a poll that finds nothing; a query that failed is
an error. -/
def WaitReturn.Reported (r : WaitReturn) : Prop :=
  (r.ret = .noError →
    if r.poll then r.info.nnpCriticalError = some .noError else r.info.Tells) ∧
  ∀ query, r.query = some query → query ≠ .noError → r.ret ≠ .noError

instance (r : WaitReturn) : Decidable r.Reported := by
  unfold WaitReturn.Reported
  cases r.query <;> infer_instance

namespace ErrorCalls

open EventReport

variable {H : Type*} {s t : ErrorCalls H} {op : ErrorCallsOp}

/-- A wait that began on a broken context returns with the context broken. -/
def ReturnsBroken (s : ErrorCalls H) : Prop :=
  match s.waiter with
  | .returned r => s.waitBroken = true → r.broken = true
  | _ => True

/-- The write of the query succeeds, or there is another error by the time it fails. -/
def Queried (s : ErrorCalls H) : ErrorCallsOp → Prop
  | .waitNext written _ => ∀ saved, s.waiter = .asking saved → s.waitBroken = true →
      written = true ∨ s.critical.broken = true
  | _ => True

/-- What the wait will report is what the query said. -/
def Reports (s : ErrorCalls H) : Prop :=
  match s.waiter with
  | .restoring _ query info | .storing _ query info => query = .noError ∧ info.Tells
  | .returned r => r.Reported
  | _ => True

/-- The query is not overtaken by another error, its reply is no error, and the list that it
brings has a descriptor. -/
def Answered (s : ErrorCalls H) : ErrorCallsOp → Prop
  | .waitNext _ _ =>
      match s.waiter with
      | .woken _ => s.critical.broken = false
      | .unbroken _ => s.errorList.completionEventVal = 0
      | .parsing _ => s.errorList.getDesc 0 ≠ none
      | _ => True
  | _ => True

instance (s : ErrorCalls H) : Decidable s.ReturnsBroken := by
  unfold ReturnsBroken
  split <;> infer_instance

theorem waiter_recoverCall (s : ErrorCalls H) :
    s.recoverCall.waiter = s.waiter ∧ s.recoverCall.waitBroken = s.waitBroken := by
  simp only [recoverCall]
  split <;> exact ⟨rfl, rfl⟩

theorem waiter_recoverNext {written : Bool} (hs : s.recoverNext written = some t) :
    t.waiter = s.waiter ∧ t.waitBroken = s.waitBroken := by
  simp only [recoverNext] at hs
  repeat' split at hs
  all_goals
    first
      | cases hs; done
      | obtain rfl := Option.some.inj hs
        exact ⟨rfl, rfl⟩

theorem waiter_step (hop : op.ofWait = false) (hs : s.step op = some t) :
    t.waiter = s.waiter ∧ t.waitBroken = s.waitBroken := by
  cases hrec : op.ofRecover with
  | false =>
    cases response_of_step hop hrec hs with
    | record => exact ⟨rfl, rfl⟩
    | packet => exact ⟨rfl, rfl⟩
    | clearAck own =>
      unfold clearAck
      split <;> exact ⟨rfl, rfl⟩
  | true =>
    cases op with
    | recoverCall =>
      obtain rfl := step_recoverCall hs
      exact s.waiter_recoverCall
    | recoverNext written => exact waiter_recoverNext hs
    | _ => cases hrec

theorem broken_step (hop : op.ofWait = false) (hrec : op.ofRecover = false)
    (hs : s.step op = some t) (hb : s.critical.broken = true) : t.critical.broken = true := by
  cases response_of_step hop hrec hs with
  | record _ _ hkeep => exact hkeep hb
  | packet => exact hb
  | clearAck own =>
    unfold clearAck
    split <;> exact hb

/-- What a wait needs to leave the context broken. -/
def KeepsError (s : ErrorCalls H) : Prop :=
  s.waitBroken = true → s.waiter.Keeps s.critical.broken

theorem KeepsError.of_eq (h : s.KeepsError) (hw : t.waiter = s.waiter)
    (hwb : t.waitBroken = s.waitBroken)
    (hb : s.critical.broken = true → t.critical.broken = true) : t.KeepsError := by
  intro ht
  have hk := h (hwb ▸ ht)
  rw [hw]
  cases hphase : s.waiter with
  | waiting | reading | found =>
    rw [hphase] at hk
    exact hb hk
  | _ =>
    rw [hphase] at hk
    exact hk

theorem queried_of_ne {written : Bool} {handles : UserHandles}
    (h : ∀ saved, s.waiter ≠ .asking saved) : s.Queried (.waitNext written handles) :=
  fun saved hw => absurd hw (h saved)

theorem KeepsError.waitNext {written : Bool} {handles : UserHandles} (h : s.KeepsError)
    (hs : s.waitNext written handles = some t) :
    t.KeepsError ∧ (t.ReturnsBroken ↔ s.Queried (.waitNext written handles)) := by
  obtain ⟨critical, exited, errorList, waiter, recoverer, waitBroken, _, _, _⟩ := s
  cases waiter with
  | idle | returned => cases hs
  | waiting timeoutUs =>
    obtain ⟨hb, hs⟩ := Option.ite_none_right_eq_some.mp hs
    obtain rfl := Option.some.inj hs
    exact ⟨fun _ => hb, iff_of_true trivial (queried_of_ne nofun)⟩
  | reading =>
    simp only [ErrorCalls.waitNext] at hs
    split at hs <;> obtain rfl := Option.some.inj hs
    all_goals exact ⟨h, iff_of_true trivial (queried_of_ne nofun)⟩
  | taking saved =>
    obtain rfl := Option.some.inj hs
    exact ⟨h, iff_of_true trivial (queried_of_ne nofun)⟩
  | expired timeoutUs =>
    simp only [ErrorCalls.waitNext] at hs
    split at hs <;> obtain rfl := Option.some.inj hs
    · exact ⟨h, iff_of_true trivial (queried_of_ne nofun)⟩
    · exact ⟨fun _ => trivial, iff_of_true (fun hb => (h hb).elim) (queried_of_ne nofun)⟩
  | stale timeoutUs =>
    obtain rfl := Option.some.inj hs
    exact ⟨fun _ => trivial, iff_of_true (fun hb => (h hb).elim) (queried_of_ne nofun)⟩
  | found saved =>
    obtain rfl := Option.some.inj hs
    exact ⟨fun _ => trivial, iff_of_true h (queried_of_ne nofun)⟩
  | taken saved =>
    obtain rfl := Option.some.inj hs
    exact ⟨h, iff_of_true trivial (queried_of_ne nofun)⟩
  | cleared saved =>
    obtain rfl := Option.some.inj hs
    exact ⟨h, iff_of_true trivial (queried_of_ne nofun)⟩
  | asking saved =>
    simp only [ErrorCalls.waitNext] at hs
    split at hs <;> obtain rfl := Option.some.inj hs
    next hw => exact ⟨h, iff_of_true trivial fun _ _ _ => .inl hw⟩
    next hw =>
      constructor
      · exact fun _ => trivial
      · constructor
        · exact fun hr _ _ hb => .inr (hr hb)
        · exact fun hq hb => (hq saved rfl hb).resolve_left hw
  | asked saved =>
    obtain ⟨_, hs⟩ := Option.ite_none_right_eq_some.mp hs
    obtain rfl := Option.some.inj hs
    exact ⟨h, iff_of_true trivial (queried_of_ne nofun)⟩
  | woken saved =>
    simp only [ErrorCalls.waitNext] at hs
    split at hs <;> obtain rfl := Option.some.inj hs
    all_goals exact ⟨h, iff_of_true trivial (queried_of_ne nofun)⟩
  | unbroken saved =>
    simp only [ErrorCalls.waitNext] at hs
    split at hs <;> obtain rfl := Option.some.inj hs
    all_goals exact ⟨h, iff_of_true trivial (queried_of_ne nofun)⟩
  | parsing saved =>
    obtain rfl := Option.some.inj hs
    exact ⟨h, iff_of_true trivial (queried_of_ne nofun)⟩
  | restoring saved query info =>
    simp only [ErrorCalls.waitNext] at hs
    split at hs <;> obtain rfl := Option.some.inj hs
    next hb => exact ⟨fun _ => trivial, iff_of_true (fun _ => hb) (queried_of_ne nofun)⟩
    next => exact ⟨h, iff_of_true trivial (queried_of_ne nofun)⟩
  | storing saved query info =>
    obtain rfl := Option.some.inj hs
    exact ⟨fun _ => trivial, iff_of_true h (queried_of_ne nofun)⟩

theorem KeepsError.step (h : s.KeepsError) (hret : s.ReturnsBroken) (hrec : op.ofRecover = false)
    (hs : s.step op = some t) : t.KeepsError ∧ (t.ReturnsBroken ↔ s.Queried op) := by
  cases hop : op.ofWait with
  | false =>
    obtain ⟨hw, hwb⟩ := waiter_step hop hs
    constructor
    · exact h.of_eq hw hwb (broken_step hop hrec hs)
    · apply iff_of_true
      · rw [ReturnsBroken, hw, hwb]
        exact hret
      · cases op <;> first | exact trivial | cases hop
  | true =>
    cases op with
    | waitNext written handles => exact h.waitNext hs
    | waitCall timeoutUs =>
      obtain rfl := step_waitCall hs
      exact ⟨id, iff_of_true trivial trivial⟩
    | waitExpire =>
      obtain ⟨timeoutUs, hw, hno, rfl⟩ := step_waitExpire hs
      constructor
      · intro hb
        have hk := h hb
        rw [hw] at hk
        exact Bool.false_ne_true (hno.symm.trans hk)
      · exact iff_of_true trivial trivial
    | event | kill | packet | clearAck | recoverCall | recoverNext => cases hop

theorem queried_of_disabled (hs : s.step op = none) : s.Queried op := by
  cases op with
  | waitNext written handles =>
    intro saved hw
    simp only [step, waitNext, hw] at hs
    split at hs <;> cases hs
  | _ => trivial

/-- In every run without a `recover`, every wait that begins on a broken context returns with
the context broken, exactly when the writes of the queries succeed or another error comes. -/
theorem waitCriticalError_broken_iff (critical : EventReport) (exited : Bool)
    (errorList : ExecErrorList H) (unrecovered : Bool) (ops : List ErrorCallsOp) :
    Exec.Always (Exec.restrict (fun _ op => op.ofRecover = false) step) ReturnsBroken
        (create critical exited errorList unrecovered) ops ↔
      Exec.Meets (Exec.restrict (fun _ op => op.ofRecover = false) step) Queried
        (create critical exited errorList unrecovered) ops := by
  apply Exec.always_iff_meets (I := KeepsError)
  · trivial
  · exact fun _ => trivial
  · intro s op t hI hP hs
    obtain ⟨hrec, hs⟩ := Exec.restrict_eq_some.mp hs
    exact hI.step hP hrec hs
  · intro s op hI hP hs
    cases hrec : op.ofRecover with
    | true => cases op <;> first | exact trivial | cases hrec
    | false =>
      rw [Exec.restrict, if_pos hrec] at hs
      exact queried_of_disabled hs

/-- The query of an execution error is not written, and the error is lost. -/
theorem failed_query_loses_error :
    ¬ Exec.Always (Exec.restrict (fun _ op => op.ofRecover = false) step) ReturnsBroken
      (create (ofCode 104) false (ExecErrorList.create (H := Unit)) true)
      [.waitCall 0xffffffff, .waitNext true .none, .waitNext true .none, .waitNext true .none,
        .waitNext true .none, .waitNext true .none, .waitNext false .none] := by
  decide

theorem reported_expired (s : ErrorCalls H) (timeoutUs : UInt32) :
    (s.returnExpired timeoutUs).Reports := by
  constructor
  · split
    next => nofun
    next h0 =>
      have hzero : timeoutUs = 0 := by
        rw [UInt32.lt_iff_toNat_lt] at h0
        exact UInt32.toNat_inj.mp (Nat.eq_zero_of_not_pos h0)
      intro _
      rw [if_pos (decide_eq_true hzero)]
  · nofun

theorem reports_waitNext {written : Bool} {handles : UserHandles}
    (hs : s.waitNext written handles = some t) :
    t.Reports ↔ s.Reports ∧ s.Answered (.waitNext written handles) := by
  obtain ⟨critical, exited, errorList, waiter, recoverer, waitBroken, _, _, _⟩ := s
  have hgood {t : ErrorCalls H} (ht : t.Reports) : t.Reports ↔ True ∧ True :=
    iff_of_true ht ⟨trivial, trivial⟩
  cases waiter with
  | idle | returned => cases hs
  | waiting timeoutUs =>
    obtain ⟨_, hs⟩ := Option.ite_none_right_eq_some.mp hs
    obtain rfl := Option.some.inj hs
    exact hgood trivial
  | reading =>
    simp only [waitNext] at hs
    split at hs <;> obtain rfl := Option.some.inj hs
    all_goals exact hgood trivial
  | expired timeoutUs =>
    simp only [waitNext] at hs
    split at hs <;> obtain rfl := Option.some.inj hs
    · exact hgood trivial
    · exact hgood (reported_expired _ timeoutUs)
  | stale timeoutUs =>
    obtain rfl := Option.some.inj hs
    exact hgood (reported_expired _ timeoutUs)
  | found saved =>
    obtain rfl := Option.some.inj hs
    exact hgood ⟨fun _ => CriticalErrorInfo.tells_parseErrorEvent _ _ _, nofun⟩
  | taking saved =>
    obtain rfl := Option.some.inj hs
    exact hgood trivial
  | taken saved =>
    obtain rfl := Option.some.inj hs
    exact hgood trivial
  | cleared saved =>
    obtain rfl := Option.some.inj hs
    exact hgood trivial
  | asking saved =>
    simp only [waitNext] at hs
    split at hs <;> obtain rfl := Option.some.inj hs
    · exact hgood trivial
    · exact hgood ⟨nofun, fun _ _ _ => nofun⟩
  | asked saved =>
    obtain ⟨_, hs⟩ := Option.ite_none_right_eq_some.mp hs
    obtain rfl := Option.some.inj hs
    exact hgood trivial
  | woken saved =>
    simp only [waitNext] at hs
    split at hs <;> obtain rfl := Option.some.inj hs
    next hb => simp [Reports, Answered, hb]
    next hb => simp [Reports, Answered, hb]
  | unbroken saved =>
    have hval := @eventValToNNPError_eq_noError errorList.completionEventVal.toNat
    rw [← UInt16.toNat_zero, UInt16.toNat_inj] at hval
    simp only [waitNext, hval] at hs
    split at hs <;> obtain rfl := Option.some.inj hs
    next h0 => simp [Reports, Answered, h0]
    next h0 => simp [Reports, Answered, h0, hval]
  | parsing saved =>
    obtain rfl := Option.some.inj hs
    have htells := CriticalErrorInfo.tells_parseExecError_iff handles errorList 0
    simp [Reports, Answered, htells]
  | restoring saved query info =>
    simp only [waitNext] at hs
    split at hs <;> obtain rfl := Option.some.inj hs
    · simp [Reports, Answered, WaitReturn.Reported, returnWait, and_comm]
    · simp [Reports, Answered]
  | storing saved query info =>
    obtain rfl := Option.some.inj hs
    simp [Reports, Answered, WaitReturn.Reported, returnWait, and_comm]

theorem reports_step (hop : op.isWaitCall = false) (hs : s.step op = some t) :
    t.Reports ↔ s.Reports ∧ s.Answered op := by
  cases hwait : op.ofWait with
  | false =>
    have hans : s.Answered op := by cases op <;> first | exact trivial | cases hwait
    rw [Reports, (waiter_step hwait hs).1]
    exact (and_iff_left hans).symm
  | true =>
    cases op with
    | waitNext written handles => exact reports_waitNext hs
    | waitCall => cases hop
    | waitExpire =>
      obtain ⟨timeoutUs, hw, _, rfl⟩ := step_waitExpire hs
      rw [Reports, Reports, hw]
      exact iff_of_true trivial ⟨trivial, trivial⟩
    | event | kill | packet | clearAck | recoverCall | recoverNext => cases hwait

/-- A call of `waitCriticalError` from any state, over any other steps: what it returns and sets
is what the query of the list said, exactly when the query was answered with a descriptor. -/
theorem waitCriticalError_reported_iff {timeoutUs : UInt32} {ops : List ErrorCallsOp}
    {r : WaitReturn} (hone : ∀ op ∈ ops, op.isWaitCall = false)
    (hrun : Exec.run step s (.waitCall timeoutUs :: ops) = some t) (hret : t.waiter = .returned r) :
    r.Reported ↔ Exec.Meets step Answered s (.waitCall timeoutUs :: ops) := by
  obtain ⟨u, hu, hrun⟩ := Option.bind_eq_some_iff.mp hrun
  have hlast : t.Reports ↔ u.Reports ∧ Exec.Meets step Answered u ops :=
    Exec.last_iff_meets (fun _ op hmem _ => reports_step (hone op hmem)) hrun
  have hstart : u.Reports := by
    rw [step_waitCall hu]
    trivial
  rw [Reports, hret] at hlast
  simp only [Exec.Meets, hu, Option.some.injEq, forall_eq']
  exact hlast.trans ((and_iff_right hstart).trans (and_iff_right trivial).symm)

/-- The steps of a wait that takes an execution error, with a reply to its query in between. -/
def queryRun (reply : ErrorCallsOp) (n : ℕ) : List ErrorCallsOp :=
  List.replicate 6 (.waitNext true .none) ++ reply :: List.replicate n (.waitNext true .none)

/-- The query brings a list with the descriptor of a copy that found its input dirty. -/
def answeredQuery : List ErrorCallsOp :=
  .waitCall 0xffffffff ::
    queryRun (.packet (some fun _ => 0) (some (ExecErrorDesc.encode ⟨1, 3, 0, 32, 0⟩)) 11 0) 6

theorem waitCriticalError_reported_answered :
    ∃ t r, Exec.run step (create (ofCode 104) false (ExecErrorList.create (H := Unit)) true)
        answeredQuery = some t ∧
      t.waiter = .returned r ∧
      (r.Reported ↔ Exec.Meets step Answered
        (create (ofCode 104) false (ExecErrorList.create (H := Unit)) true) answeredQuery) := by
  let info : CriticalErrorInfo := ⟨some .inputIsDirty, some .copy, some 0, some (.copy 0)⟩
  have hrun : (Exec.run step (create (ofCode 104) false (ExecErrorList.create (H := Unit)) true)
      answeredQuery).map (·.waiter) =
        some (.returned ⟨.noError, info, false, some .noError, true⟩) := by
    decide +kernel
  obtain ⟨t, ht, hw⟩ := Option.map_eq_some_iff.mp hrun
  exact ⟨t, _, ht, hw, waitCriticalError_reported_iff (by decide) ht hw⟩

/-- The reply to the query is an error, and the call returns success with nothing set. -/
theorem failed_query_is_success :
    ∃ r, (Exec.run step (create (ofCode 104) false (ExecErrorList.create (H := Unit)) true)
        (.waitCall 0xffffffff :: queryRun (.packet none none 0 8) 5)).map (·.waiter) =
          some (.returned r) ∧
      ¬ r.Reported :=
  ⟨_, rfl, by decide⟩

end ErrorCalls

end NNPIHost

import NNPIHost.Context.CriticalError
import NNPIHost.WaitQueue.Monitor

/-! # Waits for a command list

The callers of `wait` sleep on the queue of their list until it is no longer in flight or the
context is broken. The error of the context is not guarded by the queue; the response thread
completes all lists of the database when it has recorded one. A wait that times out unlocks the
queue although it did not have it locked.
-/

namespace NNPIHost

/-- What the predicate of `wait` tests, and what the response thread has to do. -/
structure ListWaitData where
  inFlight : Bool
  critical : EventReport
  /-- Whether the database has the list. -/
  stored : Bool
  /-- The response thread has recorded an error and has not completed the lists. -/
  completing : Bool
  /-- Some wait has timed out, and unlocked the queue whoever had it locked. Who lost it so unlocks
  it for another thread in turn. -/
  disturbed : Bool

/-- A command list with the threads in `wait`. -/
abbrev ListWaits (τ : Type*) := Monitor τ Unit ListWaitData

inductive ListWaitOp (τ : Type*) where
  | wait (t : τ)
  | test (t : τ)
  | sleep (t : τ)
  | wake (t : τ)
  | found (t : τ)
  | expire (t : τ)
  | unlock
  /-- `ready` is what the tests of `schedule` but the last one say. -/
  | schedule (ready : Bool)
  /-- A list that was not sent is no longer in flight. -/
  | giveUp
  | complete
  | fatal (ev : EventReport)
  | kill
  | completeAll
  | remove
  /-- `recover` or `waitCriticalError` takes the error away. -/
  | clear
  | restore (saved : EventReport)

namespace ListWaitData

open EventReport

def cond (_ : Unit) (d : ListWaitData) : Bool :=
  !d.inFlight || (d.critical.broken && !d.critical.aborted)

def done (d : ListWaitData) : ListWaitData := { d with inFlight := false }

def schedule (ready : Bool) (d : ListWaitData) : ListWaitData :=
  if ready ∧ ¬ d.inFlight ∧ ¬ d.critical.broken then { d with inFlight := true } else d

def setKilled (d : ListWaitData) : ListWaitData :=
  { d with critical := d.critical.setKilled, completing := !d.critical.cardFatal }

end ListWaitData

namespace ListWaits

open EventReport ListWaitData

variable {τ : Type*}

def create : ListWaits τ := Monitor.create ⟨false, .zero, true, false, false⟩

/-- `completeAllCommandLists` reaches the lists of the database. -/
def completeAll (s : ListWaits τ) : Option (ListWaits τ) :=
  if s.data.stored then s.updateAndNotify fun d => { d.done with completing := false }
  else some (s.write fun d => { d with completing := false })

def step [DecidableEq τ] (s : ListWaits τ) : ListWaitOp τ → Option (ListWaits τ)
  | .wait t => s.call t ()
  | .test t => s.test cond t
  | .sleep t => s.sleep t
  | .wake t => s.wake t
  | .found t => s.found cond t fun _ => id
  | .expire t => s.expire cond t fun _ => some fun d => { d with disturbed := true }
  | .unlock => if s.data.disturbed then some s.free else none
  | .schedule ready => s.locked (·.schedule ready)
  | .giveUp => s.updateAndNotify done
  | .complete => if s.data.stored then s.updateAndNotify done else none
  | .fatal ev =>
      if ¬ s.data.completing ∧
          (ev.isCardFatalEvent ∨ ev.isContextFatalEvent ∨ ev.eventCode = abortRequest) then
        some (s.write fun d =>
          { d with critical := (d.critical.responseHandler ev).1, completing := true })
      else none
  | .kill => if s.data.completing then none else some (s.write setKilled)
  | .completeAll => if s.data.completing then s.completeAll else none
  | .remove => some (s.write fun d => { d with stored := false })
  | .clear => some (s.write fun d => { d with critical := .zero })
  | .restore saved => some (s.write fun d => { d with critical := saved })

/-- Once the response thread has completed the lists, nobody sleeps or is about to although the
wait is over. -/
def Calm (s : ListWaits τ) : Prop :=
  s.data.completing = false → Monitor.Inv s cond ∧ s.NoLostWakeup cond

/-- Nobody sleeps without a notification or is about to, with the queue locked. -/
def NobodyWaits (s : ListWaits τ) : Prop :=
  ∀ t, s.place t ≠ .asleep () false ∧ (s.place t = .tested () → s.owner ≠ some t)

/-- Nobody waits for a list that is not in the database when an error is handled, or for one in
flight when an error is put back, and no thread whose mutex another one has unlocked falls asleep
although its wait is over. -/
def Reached (s : ListWaits τ) : ListWaitOp τ → Prop
  | .sleep t => s.data.completing = false → s.place t = .tested () → s.owner ≠ some t →
      cond () s.data = false
  | .completeAll => s.data.completing = true → s.data.stored = false →
      cond () s.data = true → s.NobodyWaits
  | .restore saved => s.data.completing = false → cond () s.data = false →
      saved.broken = true → saved.aborted = false → s.NobodyWaits
  | _ => True

variable {s t : ListWaits τ}

theorem calm_iff :
    s.Calm ↔ (s.data.completing = false → cond () s.data = true → s.NobodyWaits) := by
  constructor
  · intro hcalm hc htrue u
    obtain ⟨hinv, hno⟩ := hcalm hc
    constructor
    · intro hu
      rw [hno u () hu] at htrue
      cases htrue
    · intro hu howner
      rw [hinv u () hu howner] at htrue
      cases htrue
  · intro hwaits hc
    constructor
    · intro u w hu howner
      exact Bool.eq_false_iff.mpr fun htrue => (hwaits hc htrue u).2 hu howner
    · intro u w hu
      exact Bool.eq_false_iff.mpr fun htrue => (hwaits hc htrue u).1 hu

theorem Calm.leaves (h : s.Calm) (hm : s.Leaves t) (hc : t.data.completing = s.data.completing)
    (hdata : cond () t.data = true → cond () s.data = true) : t.Calm := by
  intro hcompleting
  obtain ⟨hinv, hno⟩ := h (hc ▸ hcompleting)
  exact hinv.leaves hno hm fun _ => hdata

theorem calm_of_completing (h : s.data.completing = true) : s.Calm := fun hc => by
  rw [h] at hc
  cases hc

theorem schedule_completing (ready : Bool) (d : ListWaitData) :
    (d.schedule ready).completing = d.completing := by
  unfold ListWaitData.schedule
  split <;> rfl

theorem cond_of_schedule {ready : Bool} {d : ListWaitData}
    (h : cond () (d.schedule ready) = true) : cond () d = true := by
  unfold ListWaitData.schedule at h
  split at h
  next hready => simp [ListWaitData.cond, hready.2.1]
  next => exact h

theorem create_calm : (create : ListWaits τ).Calm := fun _ =>
  ⟨Monitor.create_inv _, Monitor.create_noLostWakeup _⟩

theorem Calm.write (h : s.Calm) {f : ListWaitData → ListWaitData}
    (hc : (f s.data).completing = s.data.completing)
    (hdata : cond () (f s.data) = true → cond () s.data = true) : Calm (s.write f) :=
  h.leaves (Monitor.write_leaves f) hc hdata

theorem calm_notify (f : ListWaitData → ListWaitData) (hs : s.updateAndNotify f = some t) :
    t.Calm := by
  obtain ⟨hinv, hno, -⟩ :
      Monitor.Inv t cond ∧ t.NoLostWakeup cond ∧ (s.Disciplined → t.Disciplined) :=
    Monitor.updateAndNotify_spec hs
  exact fun _ => ⟨hinv, hno⟩

theorem cond_of_cardFatal {d : ListWaitData} (h : d.critical.cardFatal = true) :
    cond () d = true := by
  have hb := broken_of_cardFatal h
  have ha : d.critical.aborted = false := by
    apply decide_eq_false
    intro hcode
    rw [cardFatal_eq, isCardFatalDrvEvent, hcode] at h
    exact absurd h (by decide)
  simp [ListWaitData.cond, hb, ha]

theorem calm_kill (h : s.Calm) (hc : s.data.completing = false) : Calm (s.write setKilled) := by
  cases hf : s.data.critical.cardFatal with
  | false =>
    apply calm_of_completing
    simp [Monitor.write, ListWaitData.setKilled, hf]
  | true =>
    refine h.write ?_ fun _ => cond_of_cardFatal hf
    simp [ListWaitData.setKilled, hf, hc]

theorem calm_completeAll_iff (hc : s.data.completing = true) (hs : s.completeAll = some t) :
    t.Calm ↔ s.Reached .completeAll := by
  unfold completeAll at hs
  split at hs
  next hstored =>
    refine iff_of_true (calm_notify _ hs) fun _ hno => ?_
    rw [hstored] at hno
    cases hno
  next hstored =>
    obtain rfl := Option.some.inj hs
    refine calm_iff.trans ?_
    have hno := eq_false_of_ne_true hstored
    exact ⟨fun hall _ _ => hall rfl, fun hall _ => hall hc hno⟩

theorem calm_restore_iff (hcalm : s.Calm) (saved : EventReport) :
    Calm (s.write fun d => { d with critical := saved }) ↔ s.Reached (.restore saved) := by
  refine calm_iff.trans (forall_congr' fun hc => ?_)
  have hc : s.data.completing = false := hc
  change (cond () { s.data with critical := saved } = true → s.NobodyWaits) ↔ _
  cases htrue : cond () s.data with
  | true => exact iff_of_true (fun _ => calm_iff.mp hcalm hc htrue) nofun
  | false =>
    have hflight : s.data.inFlight = true := by
      simp only [ListWaitData.cond, Bool.or_eq_false_iff, Bool.not_eq_false'] at htrue
      exact htrue.1
    simp [ListWaitData.cond, hflight]

theorem calm_sleep_iff [DecidableEq τ] {u : τ} (hcalm : s.Calm) (hs : s.sleep u = some t) :
    t.Calm ↔ s.Reached (.sleep u) := by
  obtain ⟨w, hw, rfl⟩ := Monitor.sleep_spec hs
  constructor
  · intro hcalm' hc hu howner
    obtain ⟨hinv, hno⟩ := hcalm hc
    exact ((hinv.sleep hno hs).2.mp (hcalm' hc).2) () hu howner
  · intro hok hc
    obtain ⟨hinv, hno⟩ := hcalm hc
    obtain ⟨hinv', hiff⟩ := hinv.sleep hno hs
    exact ⟨hinv', hiff.mpr fun v hv howner => hok hc hv howner⟩

variable [DecidableEq τ] {op : ListWaitOp τ}

theorem step_spec (hcalm : s.Calm) (hs : s.step op = some t) : t.Calm ↔ s.Reached op := by
  cases op with
  | wait u =>
    obtain ⟨hm, hdata⟩ := Monitor.call_spec hs
    exact iff_of_true (hcalm.leaves hm (hdata ▸ rfl) (hdata ▸ id)) trivial
  | test u =>
    have hs : s.test cond u = some t := hs
    refine iff_of_true (fun hc => ?_) trivial
    obtain ⟨w, -, -, rfl⟩ := Monitor.test_spec hs
    exact Monitor.test_keeps (hcalm hc).2 hs
  | sleep u => exact calm_sleep_iff hcalm hs
  | wake u =>
    obtain ⟨hm, hdata⟩ := Monitor.wake_spec hs
    exact iff_of_true (hcalm.leaves hm (hdata ▸ rfl) (hdata ▸ id)) trivial
  | found u =>
    have hs : s.found cond u (fun _ => id) = some t := hs
    obtain ⟨w, -, -, hm, hdata⟩ := Monitor.found_spec hs
    have hdata : t.data = s.data := hdata
    exact iff_of_true (hcalm.leaves hm (hdata ▸ rfl) (hdata ▸ id)) trivial
  | expire u =>
    obtain ⟨w, g, hg, hm, hdata⟩ := Monitor.expire_spec hs
    obtain rfl := Option.some.inj hg
    have hdata : t.data = { s.data with disturbed := true } := hdata
    exact iff_of_true (hcalm.leaves hm (hdata ▸ rfl) (hdata ▸ id)) trivial
  | unlock =>
    obtain ⟨-, hs⟩ := Option.ite_none_right_eq_some.mp hs
    obtain rfl := Option.some.inj hs
    refine iff_of_true (fun hc => ?_) trivial
    exact ⟨Monitor.free_spec.1, Monitor.free_spec.2.mpr (hcalm hc).2⟩
  | schedule ready =>
    have hs : s.locked (·.schedule ready) = some t := hs
    refine iff_of_true (fun hc => ?_) trivial
    have hdata : t.data = s.data.schedule ready := by
      obtain ⟨-, hs⟩ := Option.ite_none_right_eq_some.mp hs
      exact Option.some.inj hs ▸ rfl
    rw [hdata, schedule_completing] at hc
    exact Monitor.locked_keeps (hcalm hc).2 hs fun _ => cond_of_schedule
  | giveUp => exact iff_of_true (calm_notify _ hs) trivial
  | complete =>
    obtain ⟨-, hs⟩ := Option.ite_none_right_eq_some.mp hs
    exact iff_of_true (calm_notify _ hs) trivial
  | fatal ev =>
    obtain ⟨-, ⟨⟩⟩ := Option.ite_none_right_eq_some.mp hs
    exact iff_of_true (calm_of_completing rfl) trivial
  | kill =>
    obtain ⟨hc, ⟨⟩⟩ := Option.ite_none_left_eq_some.mp hs
    exact iff_of_true (calm_kill hcalm (eq_false_of_ne_true hc)) trivial
  | completeAll =>
    obtain ⟨hc, hs⟩ := Option.ite_none_right_eq_some.mp hs
    exact calm_completeAll_iff hc hs
  | remove =>
    obtain rfl := Option.some.inj hs
    exact iff_of_true (hcalm.write rfl id) trivial
  | clear =>
    obtain rfl := Option.some.inj hs
    refine iff_of_true (hcalm.write rfl ?_) trivial
    simp only [ListWaitData.cond, not_broken_zero, Bool.false_and, Bool.or_false]
    exact fun hdone => Bool.or_eq_true_iff.mpr (.inl hdone)
  | restore saved =>
    obtain rfl := Option.some.inj hs
    exact calm_restore_iff hcalm saved

theorem reached_of_step_eq_none (hs : s.step op = none) : s.Reached op := by
  cases op with
  | sleep u =>
    intro hc hu
    simp [step, Monitor.sleep, hu] at hs
  | completeAll =>
    intro hc hno
    simp [step, completeAll, hc, hno] at hs
  | restore saved => cases hs
  | _ => trivial

/-- In every interleaving, once an error of the context has been handled nobody sleeps on for a
command list although its wait is over, exactly while nobody waits for a list that has left the
database by then or for a list in flight when an error is put back, and nobody falls asleep too late
who lost the mutex to another thread's unlock. -/
theorem calm_iff_reached (ops : List (ListWaitOp τ)) :
    Exec.Always step Calm (create : ListWaits τ) ops ↔ Exec.Meets step Reached create ops :=
  Exec.always_iff_meets (I := fun _ => True) create_calm trivial
    (fun _ _ _ _ hcalm hs => ⟨trivial, step_spec hcalm hs⟩)
    fun _ _ _ _ hs => reached_of_step_eq_none hs

end ListWaits

end NNPIHost

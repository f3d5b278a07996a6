import Mathlib.Data.Finset.Basic
import NNPIHost.Context.CriticalError
import NNPIHost.Context.ObjId
import NNPIHost.Context.SyncPoint
import NNPIHost.ErrorList.Query
import NNPIHost.WaitQueue.Monitor

/-! # Waits on a context

The callers of a context sleep on one queue, each with its own predicate, and all predicates but
those of markers are true on a broken context. The response thread notifies with every change it
makes. The callers that took a critical error away put it back without a notification, and whoever
fell asleep in the meantime sleeps on.
-/

namespace NNPIHost

open Function (update)

/-- The waits on the queue, with what their predicates test; `L` are the error lists of the
context and of its command lists. -/
inductive ContextWait (L : Type*) where
  | marker (marker : UInt32)
  | criticalError
  | createCommand (id : InfContextObjID)
  | errorListQuery (list : L)
  | canSchedule

/-- What the predicates test, and the calls whose wait is over. -/
structure WaitData (L : Type*) where
  errors : CriticalState
  lastCompletedSyncPoint : SyncPoint
  failedSyncPoints : Finset UInt16
  createReply : List (InfContextObjID × EventReport)
  cmdlistFinalizedInProgress : UInt32
  lists : L → ErrorListState
  /-- The markers of the waits that are about to look for a failure. -/
  markerWaits : List UInt32
  /-- The ids of the waits that are about to take their reply. -/
  replyWaits : List InfContextObjID
  /-- Some wait has timed out, and unlocked the queue although it did not have it locked. Whoever
  loses the mutex to that will unlock it for another thread in turn. -/
  disturbed : Bool

/-- `m_create_reply[id] = ev`, where keys that compare as equal are the same. -/
def setReply (id : InfContextObjID) (ev : EventReport) :
    List (InfContextObjID × EventReport) → List (InfContextObjID × EventReport)
  | [] => [(id, ev)]
  | r :: rs => if r.1.equiv id then (r.1, ev) :: rs else r :: setReply id ev rs

/-- The errors that end a wait: requests to abort do not end those for markers. -/
def ContextWait.endedBy {L : Type*} : ContextWait L → EventReport → Bool
  | .marker _, e => e.broken && !e.aborted
  | _, e => e.broken

namespace WaitData

open EventReport

variable {L : Type*}

def createSyncFailed : BitVec 7 := 58

def create : WaitData L :=
  ⟨.create, .zero, ∅, [], 0, fun _ => .cleared, [], [], false⟩

variable (d : WaitData L)

def critical : EventReport := d.errors.critical

/-- The predicates that are waited for. -/
def cond : ContextWait L → WaitData L → Bool
  | .marker m, d =>
      d.lastCompletedSyncPoint.ge (.ofMarker m) ||
        decide ((SyncPoint.ofMarker m).val ∈ d.failedSyncPoints) ||
        (d.critical.broken && !d.critical.aborted)
  | .criticalError, d => d.critical.broken
  | .createCommand id, d => d.createReply.any (·.1.equiv id) || d.critical.broken
  | .errorListQuery l, d => decide (d.lists l = .completed) || d.critical.broken
  | .canSchedule, d => decide (d.cmdlistFinalizedInProgress = 0) || d.critical.broken

/-- The predicates as far as they do not test the error. -/
def ready : ContextWait L → WaitData L → Bool
  | .marker m, d =>
      d.lastCompletedSyncPoint.ge (.ofMarker m) ||
        decide ((SyncPoint.ofMarker m).val ∈ d.failedSyncPoints)
  | .criticalError, _ => false
  | .createCommand id, d => d.createReply.any (·.1.equiv id)
  | .errorListQuery l, d => decide (d.lists l = .completed)
  | .canSchedule, d => decide (d.cmdlistFinalizedInProgress = 0)

/-- What is left to do when a wait has ended with its predicate. -/
def found : ContextWait L → WaitData L → WaitData L
  | .marker m, d => { d with markerWaits := m :: d.markerWaits }
  | .criticalError, d => { d with errors := { d.errors with reads := true :: d.errors.reads } }
  | .createCommand id, d => { d with replyWaits := id :: d.replyWaits }
  | .errorListQuery _, d | .canSchedule, d => d

/-- The waits that may time out. -/
def expired : ContextWait L → Option (WaitData L → WaitData L)
  | .marker _ => some fun d => { d with disturbed := true }
  | .criticalError => some fun d => { d with
      errors := { d.errors with reads := false :: d.errors.reads }
      disturbed := true }
  | _ => none

/-- The end of `waitMarker`. -/
def endMarker (m : UInt32) : WaitData L :=
  let d := { d with markerWaits := d.markerWaits.erase m }
  if d.critical.broken then d
  else { d with failedSyncPoints := d.failedSyncPoints.erase (SyncPoint.ofMarker m).val }

/-- The end of `wait_create_command`. -/
def takeReply (id : InfContextObjID) : WaitData L :=
  let d := { d with replyWaits := d.replyWaits.erase id }
  if d.critical.broken then d
  else { d with createReply := d.createReply.filter fun r => !r.1.equiv id }

def finalizedAdd (i : ℤ) : WaitData L :=
  { d with cmdlistFinalizedInProgress := d.cmdlistFinalizedInProgress + .ofInt i }

def syncDone (syncSeq : UInt16) : WaitData L :=
  { d with lastCompletedSyncPoint := d.lastCompletedSyncPoint.set syncSeq }

/-- The state of a list of errors changes. -/
def setList [DecidableEq L] (l : L) (x : ErrorListState) : WaitData L :=
  { d with lists := update d.lists l x }

def processCreateReply (key : InfContextObjID) (ev : EventReport) : WaitData L :=
  { d with
    createReply := setReply key ev d.createReply
    cmdlistFinalizedInProgress :=
      if key.type = .cmd ∧ 0 < d.cmdlistFinalizedInProgress then d.cmdlistFinalizedInProgress - 1
      else d.cmdlistFinalizedInProgress }

/-- What `response_handler` changes for an event of the card, besides the recorded error, if it
makes a change; it notifies then. -/
def responseHandler (ev : EventReport) : Option (WaitData L → WaitData L) :=
  if ev.isCardFatalEvent ∨ ev.isContextFatalEvent ∨ ev.eventCode = abortRequest then some id
  else if ev.eventCode = createSyncFailed then
    some fun d => { d with failedSyncPoints := insert (.ofBitVec ev.objId) d.failedSyncPoints }
  else ev.replyKey.map fun key d => d.processCreateReply key ev

def setErrors (errors : CriticalState) : WaitData L := { d with errors }

/-- A change after which no predicate is true that was false before. -/
structure Fades (d d' : WaitData L) : Prop where
  sync : d'.lastCompletedSyncPoint = d.lastCompletedSyncPoint
  failed : d'.failedSyncPoints ⊆ d.failedSyncPoints
  replies : ∀ r ∈ d'.createReply, r ∈ d.createReply
  finalized : d'.cmdlistFinalizedInProgress = d.cmdlistFinalizedInProgress
  lists : ∀ l, d'.lists l = .completed → d.lists l = .completed
  errors : ∀ w : ContextWait L, w.endedBy d'.critical = true → w.endedBy d.critical = true

variable {d} {d' : WaitData L} {w : ContextWait L}

theorem cond_eq (w : ContextWait L) (d : WaitData L) :
    cond w d = (ready w d || w.endedBy d.critical) := by
  cases w <;> rfl

theorem Fades.cond (h : Fades d d') (hw : WaitData.cond w d' = true) :
    WaitData.cond w d = true := by
  rw [cond_eq, Bool.or_eq_true] at hw ⊢
  refine hw.imp (fun hw => ?_) (h.errors w)
  cases w with
  | marker m =>
    simp only [ready, h.sync, Bool.or_eq_true, decide_eq_true_eq] at hw ⊢
    exact hw.imp_right fun hm => h.failed hm
  | criticalError => cases hw
  | createCommand id =>
    simp only [ready, List.any_eq_true] at hw ⊢
    exact hw.imp fun r hr => ⟨h.replies r hr.1, hr.2⟩
  | errorListQuery l =>
    simp only [ready, decide_eq_true_eq] at hw ⊢
    exact h.lists l hw
  | canSchedule =>
    simp only [ready, decide_eq_true_eq, h.finalized] at hw ⊢
    exact hw

theorem fades_setList [DecidableEq L] (l : L) {x : ErrorListState} (hx : x ≠ .completed)
    (d : WaitData L) : Fades d (d.setList l x) := by
  refine ⟨rfl, fun _ => id, fun _ => id, rfl, fun k hk => ?_, fun _ => id⟩
  by_cases hkl : k = l
  · subst hkl
    exact absurd ((Function.update_self ..).symm.trans hk) hx
  · exact (Function.update_of_ne hkl ..).symm.trans hk

theorem fades_of_errors {d' : WaitData L}
    (h : d' = { d with
      errors := d'.errors
      markerWaits := d'.markerWaits
      replyWaits := d'.replyWaits
      disturbed := d'.disturbed })
    (herrors : ∀ w : ContextWait L, w.endedBy d'.critical = true → w.endedBy d.critical = true) :
    Fades d d' := by
  rw [h]
  exact ⟨rfl, fun _ => id, fun _ => id, rfl, fun _ => id, herrors⟩

theorem fades_found (w : ContextWait L) (d : WaitData L) : Fades d (found w d) := by
  cases w <;> exact fades_of_errors rfl fun _ => id

theorem fades_expired {f : WaitData L → WaitData L} (h : expired w = some f) (d : WaitData L) :
    Fades d (f d) := by
  cases w <;> cases h <;> exact fades_of_errors rfl fun _ => id

theorem fades_endMarker (m : UInt32) (d : WaitData L) : Fades d (d.endMarker m) := by
  unfold endMarker
  dsimp only
  split
  · exact fades_of_errors rfl fun _ => id
  · exact ⟨rfl, Finset.erase_subset _ _, fun _ => id, rfl, fun _ => id, fun _ => id⟩

theorem fades_takeReply (id : InfContextObjID) (d : WaitData L) : Fades d (d.takeReply id) := by
  unfold takeReply
  dsimp only
  split
  · exact fades_of_errors rfl fun _ h => h
  · exact ⟨rfl, fun _ h => h, fun r hr => List.mem_of_mem_filter hr, rfl, fun _ h => h,
      fun _ h => h⟩

theorem endedBy_of_cardFatal {e : EventReport} (h : e.cardFatal = true) (w : ContextWait L) :
    w.endedBy e = true := by
  have hb := broken_of_cardFatal h
  cases w with
  | marker m =>
    have ha : e.aborted = false := by
      apply decide_eq_false
      intro hcode
      rw [cardFatal_eq, isCardFatalDrvEvent, hcode] at h
      cases h
    simp [ContextWait.endedBy, hb, ha]
  | _ => exact hb

end WaitData

/-- A context with the threads that wait on its queue. -/
abbrev ContextWaits (τ L : Type*) := Monitor τ (ContextWait L) (WaitData L)

inductive ContextWaitOp (τ L : Type*) where
  | call (t : τ) (w : ContextWait L)
  | test (t : τ)
  | sleep (t : τ)
  | wake (t : τ)
  | found (t : τ)
  | expire (t : τ)
  | endMarker (m : UInt32)
  | takeReply (id : InfContextObjID)
  /-- A call of `waitCriticalError` or `recover` looks at the error or clears it. -/
  | access (op : CriticalOp)
  | restore (saved : EventReport)
  | unlock
  | clearList (l : L)
  | startQuery (l : L)
  | finalizedAdd (i : ℤ)
  | event (ev : EventReport)
  | syncDone (syncSeq : UInt16)
  | completeQuery (l : L)
  | kill
  | killAtFork

/-- The accesses of calls to the error, with whether the call locks the queue for them. -/
def CriticalOp.access? : CriticalOp → Option Bool
  | .recover | .queryEnd _ _ | .recoverEnd _ _ => some true
  | .read _ | .recoverTest _ | .clear _ => some false
  | .event _ | .kill | .waitFound | .waitTimeout | .restore _ => none

namespace ContextWaits

open WaitData

variable {τ L : Type*}

def create : ContextWaits τ L := Monitor.create .create

/-- One access to the error. While the queue is locked as it should be, the accesses that follow
the first one of a section find nobody between test and sleep. -/
def access (s : ContextWaits τ L) (op : CriticalOp) : Option (ContextWaits τ L) :=
  op.access?.bind fun locks =>
    if locks ∧ s.owner.isSome then none
    else (s.data.errors.step op).map fun errors => s.write (·.setErrors errors)

section Step

variable [DecidableEq τ] [DecidableEq L]

def step (s : ContextWaits τ L) : ContextWaitOp τ L → Option (ContextWaits τ L)
  | .call t w => s.call t w
  | .test t => s.test cond t
  | .sleep t => s.sleep t
  | .wake t => s.wake t
  | .found t => s.found cond t WaitData.found
  | .expire t => s.expire cond t expired
  | .endMarker m =>
      if m ∈ s.data.markerWaits then some (s.write (·.endMarker m)) else none
  | .takeReply id =>
      if id ∈ s.data.replyWaits then some (s.write (·.takeReply id)) else none
  | .access op => s.access op
  -- The call that stores the error unlocks the queue next.
  | .restore saved =>
      (s.data.errors.step (.restore saved)).map fun errors =>
        (s.write (·.setErrors errors)).free
  | .unlock => if s.data.disturbed then some s.free else none
  | .clearList l => some (s.write (·.setList l .cleared))
  | .startQuery l => some (s.write (·.setList l .queryStarted))
  | .finalizedAdd i => s.updateAndNotify (·.finalizedAdd i)
  | .event ev =>
      (s.data.errors.step (.event ev)).bind fun errors =>
        match responseHandler ev with
        | none => some (s.write (·.setErrors errors))
        | some f => s.updateAndNotify fun d => f (d.setErrors errors)
  | .syncDone syncSeq => s.updateAndNotify (·.syncDone syncSeq)
  | .completeQuery l => s.updateAndNotify (·.setList l .completed)
  | .kill =>
      (s.data.errors.step .kill).bind fun errors =>
        if s.data.critical.cardFatal then some (s.write (·.setErrors errors))
        else s.updateAndNotify (·.setErrors errors)
  -- In the child process there is only the thread that forked.
  | .killAtFork =>
      (s.data.errors.step .kill).map fun errors =>
        ⟨s.data.setErrors errors, s.owner, fun _ => .away⟩

end Step

/-- Nobody sleeps without a notification whose wait is ended by an error that is put back, and no
thread whose mutex another one has unlocked falls asleep although its predicate is true. -/
def NobodyMissed (s : ContextWaits τ L) : ContextWaitOp τ L → Prop
  | .sleep t => ∀ w, s.place t = .tested w → s.owner ≠ some t → cond w s.data = false
  | .restore saved => saved ∈ s.data.errors.restores → ∀ t w, s.place t = .asleep w false →
      w.endedBy saved = false
  | _ => True

variable {s t : ContextWaits τ L} {op : ContextWaitOp τ L}

theorem leaves (h : Monitor.Inv s cond) (hl : s.NoLostWakeup cond) (hm : s.Leaves t)
    (hf : Fades s.data t.data) : Monitor.Inv t cond ∧ t.NoLostWakeup cond :=
  h.leaves hl hm fun _ hw => hf.cond hw

theorem restore_iff (hl : s.NoLostWakeup cond) {saved : EventReport} {errors : CriticalState}
    (herrors : errors.critical = saved) :
    Monitor.NoLostWakeup (s.write (·.setErrors errors)).free cond ↔
      ∀ t w, s.place t = .asleep w false → w.endedBy saved = false := by
  refine forall₂_congr fun t w => imp_congr_right fun ht => ?_
  have hw := hl t w ht
  rw [cond_eq, Bool.or_eq_false_iff] at hw
  have hready : ready w (s.data.setErrors errors) = ready w s.data := by cases w <;> rfl
  change cond w (s.data.setErrors errors) = false ↔ _
  rw [cond_eq, hready, hw.1, Bool.false_or]
  change w.endedBy errors.critical = false ↔ _
  rw [herrors]

theorem access_spec {op : CriticalOp} (hs : s.access op = some t) :
    s.Leaves t ∧ Fades s.data t.data := by
  obtain ⟨locks, hlocks, hs⟩ := Option.bind_eq_some_iff.mp hs
  obtain ⟨_, hs⟩ := Option.ite_none_left_eq_some.mp hs
  obtain ⟨errors, herrors, rfl⟩ := Option.map_eq_some_iff.mp hs
  refine ⟨Monitor.write_leaves _, fades_of_errors rfl fun w hw => ?_⟩
  change w.endedBy errors.critical = true at hw
  rcases CriticalState.step_cases herrors with ⟨ev, rfl, -⟩ | ⟨rfl, -⟩ | ⟨c, -, -, hc, -⟩ |
    ⟨saved, rfl, -⟩ | ⟨⟨hc, -⟩, -⟩
  · cases hlocks
  · cases hlocks
  · rw [hc] at hw
    cases w <;> cases hw
  · cases hlocks
  · rwa [hc] at hw

theorem notifies (f : WaitData L → WaitData L) (hs : s.updateAndNotify f = some t) :
    Monitor.Inv t cond ∧ t.NoLostWakeup cond := by
  obtain ⟨hinv, hno, _⟩ := @Monitor.updateAndNotify_spec _ _ _ s WaitData.cond t f hs
  exact ⟨hinv, hno⟩

section Step

variable [DecidableEq τ] [DecidableEq L]

theorem event_spec {ev : EventReport} (h : Monitor.Inv s cond) (hl : s.NoLostWakeup cond)
    (hs : s.step (.event ev) = some t) : Monitor.Inv t cond ∧ t.NoLostWakeup cond := by
  obtain ⟨errors, herrors, hs⟩ := Option.bind_eq_some_iff.mp hs
  split at hs
  next hno =>
    obtain rfl := Option.some.inj hs
    refine leaves h hl (Monitor.write_leaves _) (fades_of_errors rfl fun w => ?_)
    have hfatal : ¬ (ev.isCardFatalEvent ∨ ev.isContextFatalEvent ∨
        ev.eventCode = EventReport.abortRequest) := by
      intro hev
      rw [responseHandler, if_pos hev] at hno
      cases hno
    have hcritical := CriticalState.critical_of_not_fatal herrors hfatal
    change w.endedBy errors.critical = true → _
    rw [hcritical]
    exact id
  next f hf => exact notifies _ hs

theorem kill_spec (h : Monitor.Inv s cond) (hl : s.NoLostWakeup cond)
    (hs : s.step .kill = some t) : Monitor.Inv t cond ∧ t.NoLostWakeup cond := by
  simp only [ContextWaits.step] at hs
  obtain ⟨errors, _, hs⟩ := Option.bind_eq_some_iff.mp hs
  split at hs
  next hfatal =>
    obtain rfl := Option.some.inj hs
    have hf : Fades s.data (s.data.setErrors errors) :=
      fades_of_errors rfl fun w _ => endedBy_of_cardFatal hfatal w
    exact leaves h hl (Monitor.write_leaves _) hf
  · exact notifies _ hs

theorem step_spec (h : Monitor.Inv s cond) (hl : s.NoLostWakeup cond) (hs : s.step op = some t) :
    Monitor.Inv t cond ∧ (t.NoLostWakeup cond ↔ s.NobodyMissed op) := by
  have hgood {op : ContextWaitOp τ L} (hgood : Monitor.Inv t cond ∧ t.NoLostWakeup cond)
      (hok : s.NobodyMissed op) : Monitor.Inv t cond ∧ (t.NoLostWakeup cond ↔ s.NobodyMissed op) :=
    ⟨hgood.1, iff_of_true hgood.2 hok⟩
  cases op with
  | call u w =>
    obtain ⟨hm, hdata⟩ := Monitor.call_spec hs
    exact hgood (h.leaves hl hm fun w => hdata ▸ id) trivial
  | test u => exact hgood (Monitor.test_keeps hl hs) trivial
  | sleep u => exact h.sleep hl hs
  | wake u =>
    obtain ⟨hm, hdata⟩ := Monitor.wake_spec hs
    exact hgood (h.leaves hl hm fun w => hdata ▸ id) trivial
  | found u =>
    obtain ⟨w, _, _, hm, hdata⟩ := Monitor.found_spec hs
    exact hgood (leaves h hl hm (hdata ▸ fades_found w s.data)) trivial
  | expire u =>
    obtain ⟨w, g, hg, hm, hdata⟩ := Monitor.expire_spec hs
    exact hgood (leaves h hl hm (hdata ▸ fades_expired hg s.data)) trivial
  | endMarker m =>
    obtain ⟨_, hs⟩ := Option.ite_none_right_eq_some.mp hs
    obtain rfl := Option.some.inj hs
    exact hgood (leaves h hl (Monitor.write_leaves _) (fades_endMarker m s.data)) trivial
  | takeReply id =>
    obtain ⟨_, hs⟩ := Option.ite_none_right_eq_some.mp hs
    obtain rfl := Option.some.inj hs
    exact hgood (leaves h hl (Monitor.write_leaves _) (fades_takeReply id s.data)) trivial
  | access op =>
    obtain ⟨hm, hf⟩ := access_spec hs
    exact hgood (leaves h hl hm hf) trivial
  | restore saved =>
    obtain ⟨errors, herrors, rfl⟩ := Option.map_eq_some_iff.mp hs
    obtain ⟨hmem, herrors⟩ := Option.ite_none_right_eq_some.mp herrors
    obtain rfl := Option.some.inj herrors
    refine ⟨Monitor.free_spec.1, (restore_iff hl rfl).trans ?_⟩
    exact ⟨fun hok _ => hok, fun hok => hok hmem⟩
  | unlock =>
    obtain ⟨_, hs⟩ := Option.ite_none_right_eq_some.mp hs
    obtain rfl := Option.some.inj hs
    exact hgood ⟨Monitor.free_spec.1, Monitor.free_spec.2.mpr hl⟩ trivial
  | clearList l =>
    obtain rfl := Option.some.inj hs
    have hf := fades_setList l (x := .cleared) nofun s.data
    exact hgood (leaves h hl (Monitor.write_leaves _) hf) trivial
  | startQuery l =>
    obtain rfl := Option.some.inj hs
    have hf := fades_setList l (x := .queryStarted) nofun s.data
    exact hgood (leaves h hl (Monitor.write_leaves _) hf) trivial
  | finalizedAdd i => exact hgood (notifies (·.finalizedAdd i) hs) trivial
  | event ev => exact hgood (event_spec h hl hs) trivial
  | syncDone syncSeq => exact hgood (notifies (·.syncDone syncSeq) hs) trivial
  | completeQuery l => exact hgood (notifies (·.setList l .completed) hs) trivial
  | kill => exact hgood (kill_spec h hl hs) trivial
  | killAtFork =>
    simp only [ContextWaits.step] at hs
    obtain ⟨errors, _, rfl⟩ := Option.map_eq_some_iff.mp hs
    refine hgood ⟨?_, ?_⟩ trivial
    · rintro u w ⟨⟩
    · rintro u w ⟨⟩

theorem nobodyMissed_of_step_eq_none (hs : s.step op = none) : s.NobodyMissed op := by
  cases op with
  | sleep u =>
    intro w hw
    simp [ContextWaits.step, Monitor.sleep, hw] at hs
  | restore saved =>
    intro hmem
    simp [ContextWaits.step, CriticalState.step, hmem] at hs
  | _ => trivial

/-- In a run no thread sleeps on without a notification while its predicate is true, exactly
when nobody sleeps whose wait an error ends that is put back, and nobody falls asleep too late who
lost the mutex to another thread's unlock. -/
theorem no_wakeup_missed_iff (ops : List (ContextWaitOp τ L)) :
    Exec.Always step (Monitor.NoLostWakeup · cond) (create : ContextWaits τ L) ops ↔
      Exec.Meets step NobodyMissed (create : ContextWaits τ L) ops :=
  Exec.always_iff_meets (I := fun s => Monitor.Inv s cond) (Monitor.create_noLostWakeup _)
    (Monitor.create_inv _) (fun _ _ _ hI hP hs => step_spec hI hP hs)
    fun _ _ _ _ hs => nobodyMissed_of_step_eq_none hs

/-- A thread queries the error that it took away, and another one falls asleep meanwhile. -/
def errorTakenAway : List (ContextWaitOp ℕ Unit) :=
  let ev := EventReport.ofCode EventReport.contextExecError
  [.event ev, .call 0 .criticalError, .found 0, .access (.read true),
    .access (.clear ⟨ev, .query⟩), .clearList (), .startQuery (), .call 0 (.errorListQuery ()),
    .test 0, .sleep 0, .completeQuery (), .wake 0, .found 0, .call 1 .criticalError, .test 1,
    .sleep 1, .access (.queryEnd ev true), .restore ev]

/-- The error is put back when the query is complete, and the other thread sleeps on. -/
theorem restored_error_missed :
    ¬ Exec.Always step (Monitor.NoLostWakeup · cond) (create : ContextWaits ℕ Unit)
      errorTakenAway := by
  intro h
  have hrun : (Exec.run step (create : ContextWaits ℕ Unit) errorTakenAway).isSome = true := rfl
  have hlast := h.last (Option.some_get hrun).symm
  have hfalse : true = false := hlast 1 .criticalError rfl
  cases hfalse

end Step

end ContextWaits

end NNPIHost

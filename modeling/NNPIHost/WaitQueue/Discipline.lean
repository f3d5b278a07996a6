import Mathlib.Algebra.Group.Nat.Defs
import Mathlib.Logic.Function.Basic
import NNPIHost.Exec.Run
import NNPIHost.Lock.Mutex

/-! # Discipline of the wait-queue mutex

Threads call the functions that wait on a queue, each with its own predicate. A wait with a
timeout leaves the mutex locked only if its predicate was met, and three of the four functions
unlock it in either case.
-/

namespace NNPIHost.WaitQueue

/-- What a function does with the mutex of a queue, in order. -/
inductive QueueInstr where
  | lock
  | unlock
  /-- `wait_lock` for the largest timeout, `wait_timeout_lock` otherwise. -/
  | wait (timeout : UInt32)
  /-- Return when the last wait ended by its timeout. -/
  | returnUnlessFound
  deriving DecidableEq

def updateAndNotify : List QueueInstr := [.lock, .unlock]

def waitMarker (timeout : UInt32) : List QueueInstr := [.wait timeout, .unlock]

/-- `query` tells whether the error that was found is queried, and put back at the end. -/
def waitCriticalError (timeout : UInt32) (query : Bool) : List QueueInstr :=
  [.wait timeout, .unlock, .returnUnlessFound] ++ if query then [.lock, .unlock] else []

def commandListWait (timeout : UInt32) : List QueueInstr := [.wait timeout, .unlock]

def lockCpuAccess (timeout : UInt32) : List QueueInstr :=
  [.wait timeout, .returnUnlessFound, .unlock]

inductive QueueCall where
  | updateAndNotify
  | waitMarker (timeout : UInt32)
  | waitCriticalError (timeout : UInt32) (query : Bool)
  | commandListWait (timeout : UInt32)
  | lockCpuAccess (timeout : UInt32)

def QueueCall.code : QueueCall → List QueueInstr
  | .updateAndNotify => WaitQueue.updateAndNotify
  | .waitMarker timeout => WaitQueue.waitMarker timeout
  | .waitCriticalError timeout query => WaitQueue.waitCriticalError timeout query
  | .commandListWait timeout => WaitQueue.commandListWait timeout
  | .lockCpuAccess timeout => WaitQueue.lockCpuAccess timeout

/-- What is left of a thread's call. -/
structure Thread where
  code : List QueueInstr
  /-- The thread tests the predicate of its wait, with the mutex locked. -/
  testing : Bool
  /-- The last wait ended by its predicate. -/
  found : Bool

structure QueueState (τ : Type*) where
  threads : τ → Thread
  owner : Option τ
  history : List (Lock.MutexEvent τ)

inductive QueueOp (τ : Type*) where
  | call (t : τ) (f : QueueCall)
  /-- The thread runs on; if it tests its predicate, `cond` is the predicate's value and
  `expired` tells whether its time is over. -/
  | run (t : τ) (cond expired : Bool)

namespace QueueState

variable {τ : Type*}

def create : QueueState τ := ⟨fun _ => ⟨[], false, true⟩, none, []⟩

variable [DecidableEq τ]

def setThread (s : QueueState τ) (t : τ) (th : Thread) : QueueState τ :=
  { s with threads := Function.update s.threads t th }

/-- Locking waits until the mutex is free. -/
def lockMutex (s : QueueState τ) (t : τ) : Option (QueueState τ) :=
  if s.owner = none then some { s with owner := some t, history := .lock t :: s.history } else none

/-- Unlocking frees the mutex, whoever holds it. -/
def unlockMutex (s : QueueState τ) (t : τ) : QueueState τ :=
  { s with owner := none, history := .unlock t :: s.history }

def step (s : QueueState τ) : QueueOp τ → Option (QueueState τ)
  | .call t f =>
      if (s.threads t).code = [] then some (s.setThread t ⟨f.code, false, true⟩) else none
  | .run t cond expired =>
      let th := s.threads t
      match th.code with
      | [] => none
      | .lock :: is => (s.lockMutex t).map (·.setThread t ⟨is, false, true⟩)
      | .unlock :: is => some ((s.unlockMutex t).setThread t { th with code := is })
      | .returnUnlessFound :: is =>
          some (s.setThread t { th with code := if th.found then is else [] })
      | .wait timeout :: is =>
          if ¬ th.testing then (s.lockMutex t).map (·.setThread t { th with testing := true })
          else if cond then some (s.setThread t ⟨is, false, true⟩)
          -- The condition variable unlocks the mutex while it waits, and so does the
          -- destructor of the lock after a timeout.
          else if expired ∧ timeout ≠ UInt32.ofNat (2 ^ 32 - 1) then
            some ((s.unlockMutex t).setThread t ⟨is, false, false⟩)
          else some ((s.unlockMutex t).setThread t { th with testing := false })

/-- Every unlock was by the thread that held the mutex, once for each lock, and no thread
outside of a call holds it. -/
def Disciplined (s : QueueState τ) : Prop :=
  Lock.owner? s.history = some s.owner ∧ ∀ t, s.owner = some t → (s.threads t).code ≠ []

/-- A function that unlocks the mutex got it from a wait that did not time out. -/
def UnlocksFound (s : QueueState τ) : QueueOp τ → Prop
  | .run t _ _ => (s.threads t).code.head? = some .unlock → (s.threads t).found = true
  | _ => True

instance (s : QueueState τ) : Decidable s.Disciplined := inferInstanceAs (Decidable (_ ∧ _))

instance (s : QueueState τ) : DecidablePred s.UnlocksFound := fun op => by
  unfold UnlocksFound
  split <;> infer_instance

/-- Between its instructions a function has the mutex locked or not, if its waits end by
their predicates. -/
def Paired : Bool → List QueueInstr → Prop
  | false, [] => True
  | false, .lock :: is => Paired true is
  | false, .wait _ :: is => Paired true is
  | true, .unlock :: is => Paired false is
  | locked, .returnUnlessFound :: is => Paired locked is
  | _, _ => False

theorem paired_code (f : QueueCall) : Paired false f.code := by
  cases f with
  | waitCriticalError timeout query => cases query <;> trivial
  | _ => trivial

/-- A thread holds the mutex while it tests a predicate, and where its function has it locked
unless a wait has timed out. -/
def ThreadOk (owner : Option τ) (t : τ) (th : Thread) : Prop :=
  ∃ locked, Paired locked th.code ∧
    (th.testing = true → locked = false ∧ ∃ timeout is, th.code = .wait timeout :: is) ∧
    (owner = some t ↔ th.testing = true ∨ locked = true ∧ th.found = true)

def Inv (s : QueueState τ) : Prop := ∀ t, ThreadOk s.owner t (s.threads t)

variable {s s' : QueueState τ} {t : τ}

omit [DecidableEq τ] in
theorem create_inv : (create : QueueState τ).Inv := by
  intro t
  exact ⟨false, trivial, nofun, by simp [create]⟩

theorem create_disciplined : (create : QueueState τ).Disciplined := ⟨rfl, nofun⟩

theorem Inv.disciplined_iff (h : s.Inv) :
    s.Disciplined ↔ Lock.owner? s.history = some s.owner := by
  refine ⟨And.left, fun howner => ⟨howner, fun t ht hcode => ?_⟩⟩
  obtain ⟨locked, hpaired, htesting, hiff⟩ := h t
  rcases hiff.mp ht with htest | ⟨rfl, _⟩
  · obtain ⟨_, timeout, is, hwait⟩ := htesting htest
    rw [hcode] at hwait
    cases hwait
  · rw [hcode] at hpaired
    exact hpaired

theorem Inv.move (h : s.Inv) {owner : Option τ} {history : List (Lock.MutexEvent τ)} {th : Thread}
    (hother : ∀ u, u ≠ t → (owner = some u ↔ s.owner = some u)) (hok : ThreadOk owner t th) :
    (QueueState.setThread { s with owner, history } t th).Inv := by
  intro u
  by_cases hut : u = t
  · subst hut
    simpa [QueueState.setThread] using hok
  · obtain ⟨locked, hpaired, htesting, hiff⟩ := h u
    simp only [QueueState.setThread, Function.update_of_ne hut]
    exact ⟨locked, hpaired, htesting, (hother u hut).trans hiff⟩

omit [DecidableEq τ] in
theorem Inv.not_owner (h : s.Inv) (hcode : (s.threads t).code = []) : s.owner ≠ some t := by
  obtain ⟨locked, hpaired, htesting, hiff⟩ := h t
  rw [hcode] at hpaired htesting
  intro ht
  rcases hiff.mp ht with htest | ⟨rfl, _⟩
  · obtain ⟨_, timeout, is, hwait⟩ := htesting htest
    cases hwait
  · exact hpaired

theorem Inv.lock (h : s.Inv) (hd : s.Disciplined) {th : Thread}
    (hs : (s.lockMutex t).map (·.setThread t th) = some s') (hok : ThreadOk (some t) t th) :
    s'.Inv ∧ Lock.owner? s'.history = some s'.owner := by
  obtain ⟨u, hu, rfl⟩ := Option.map_eq_some_iff.mp hs
  simp only [lockMutex, Option.ite_none_right_eq_some] at hu
  obtain ⟨hfree, hu⟩ := hu
  obtain rfl := Option.some.inj hu
  refine ⟨h.move (fun u hut => ?_) hok, Lock.owner?_lock (hfree ▸ hd.1)⟩
  rw [hfree]
  exact iff_of_false (fun hu => hut (Option.some.inj hu).symm) nofun

theorem Inv.unlock (h : s.Inv) (hd : s.Disciplined) (hheld : s.owner = some t) {th : Thread}
    (hok : ThreadOk none t th) :
    ((s.unlockMutex t).setThread t th).Inv ∧
      Lock.owner? ((s.unlockMutex t).setThread t th).history = some none := by
  refine ⟨h.move (fun u hut => ?_) hok, (Lock.owner?_unlock hd.1).mpr hheld⟩
  rw [hheld]
  exact iff_of_false nofun fun hu => hut (Option.some.inj hu).symm

/-- From a disciplined state a step leads to one exactly if it does not unlock after a wait
that timed out. -/
theorem Inv.step (h : s.Inv) (hd : s.Disciplined) {op : QueueOp τ} (hs : s.step op = some s') :
    (s'.Disciplined → s'.Inv) ∧ (s'.Disciplined ↔ s.UnlocksFound op) := by
  have hgood (hinv : s'.Inv ∧ Lock.owner? s'.history = some s'.owner) (hok : s.UnlocksFound op) :
      (s'.Disciplined → s'.Inv) ∧ (s'.Disciplined ↔ s.UnlocksFound op) :=
    ⟨fun _ => hinv.1, iff_of_true (hinv.1.disciplined_iff.mpr hinv.2) hok⟩
  cases op with
  | call t f =>
    simp only [QueueState.step, Option.ite_none_right_eq_some] at hs
    obtain ⟨hcode, hs⟩ := hs
    obtain rfl := Option.some.inj hs
    have hok : ThreadOk s.owner t ⟨f.code, false, true⟩ :=
      ⟨false, paired_code f, nofun, iff_of_false (h.not_owner hcode) (by simp)⟩
    exact hgood ⟨h.move (fun _ _ => Iff.rfl) hok, hd.1⟩ trivial
  | run t cond expired =>
    obtain ⟨locked, hpaired, htesting, hiff⟩ := h t
    simp only [QueueState.step] at hs
    rcases hth : s.threads t with ⟨code, testing, found⟩
    simp only [hth] at hpaired htesting hiff hs
    cases code with
    | nil => cases hs
    | cons i is =>
      cases i with
      | lock =>
        cases locked with
        | true => cases hpaired
        | false =>
          exact hgood (h.lock hd hs ⟨true, hpaired, nofun, by simp⟩) (by simp [UnlocksFound, hth])
      | unlock =>
        cases locked with
        | false => cases hpaired
        | true =>
          have htest : testing = false := by
            cases testing
            · rfl
            · cases (htesting rfl).1
          subst htest
          obtain rfl := Option.some.inj hs
          cases found with
          | true =>
            have hheld : s.owner = some t := hiff.mpr (.inr ⟨rfl, rfl⟩)
            exact hgood (h.unlock hd hheld ⟨false, hpaired, nofun, by simp⟩)
              (by simp [UnlocksFound, hth])
          | false =>
            have hfree : s.owner ≠ some t := fun ht => by simpa using hiff.mp ht
            have hbad : ¬ ((s.unlockMutex t).setThread t ⟨is, false, false⟩).Disciplined :=
              fun hd' => hfree ((Lock.owner?_unlock hd.1).mp hd'.1)
            exact ⟨fun hd' => absurd hd' hbad, iff_of_false hbad (by simp [UnlocksFound, hth])⟩
      | returnUnlessFound =>
        have htest : testing = false := by
          cases testing
          · rfl
          · obtain ⟨_, _, _, hwait⟩ := htesting rfl
            cases hwait
        subst htest
        obtain rfl := Option.some.inj hs
        have hok : ThreadOk s.owner t ⟨if found then is else [], false, found⟩ := by
          cases found with
          | true => exact ⟨locked, by cases locked <;> exact hpaired, nofun, hiff⟩
          | false => exact ⟨false, trivial, nofun, hiff.trans (by simp)⟩
        exact hgood ⟨h.move (fun _ _ => Iff.rfl) hok, hd.1⟩ (by simp [UnlocksFound, hth])
      | wait timeout =>
        cases locked with
        | true => cases hpaired
        | false =>
          have hfound : s.UnlocksFound (.run t cond expired) := by simp [UnlocksFound, hth]
          cases testing with
          | false =>
            exact hgood (h.lock hd hs ⟨false, hpaired, fun _ => ⟨rfl, _, _, rfl⟩, by simp⟩) hfound
          | true =>
            have hheld : s.owner = some t := hiff.mpr (.inl rfl)
            simp only [not_true_eq_false, if_false] at hs
            split at hs
            · obtain rfl := Option.some.inj hs
              have hok : ThreadOk s.owner t ⟨is, false, true⟩ :=
                ⟨true, hpaired, nofun, iff_of_true hheld (.inr ⟨rfl, rfl⟩)⟩
              exact hgood ⟨h.move (fun _ _ => Iff.rfl) hok, hd.1⟩ hfound
            · split at hs <;> obtain rfl := Option.some.inj hs
              · exact hgood (h.unlock hd hheld ⟨true, hpaired, nofun, by simp⟩) hfound
              · exact hgood (h.unlock hd hheld ⟨false, hpaired, nofun, by simp⟩) hfound

theorem unlocksFound_of_disabled {op : QueueOp τ} (hs : s.step op = none) : s.UnlocksFound op := by
  cases op with
  | call t f => trivial
  | run t cond expired =>
    intro hhead
    obtain ⟨is, hcode⟩ := List.head?_eq_some_iff.mp hhead
    simp [QueueState.step, hcode] at hs

theorem Disciplined.once_per_lock (h : s.Disciplined) (hcode : (s.threads t).code = []) :
    s.history.count (.lock t) = s.history.count (.unlock t) := by
  rw [Lock.count_lock_eq h.1, if_neg fun ht => h.2 t ht hcode, Nat.add_zero]

/-- In every state of a run the mutex is used with discipline, exactly when no function
unlocks it after a wait that timed out. -/
theorem disciplined_iff_unlocks_found (ops : List (QueueOp τ)) :
    Exec.Always step Disciplined (create : QueueState τ) ops ↔
      Exec.Meets step UnlocksFound (create : QueueState τ) ops :=
  Exec.always_iff_meets (I := fun s => s.Disciplined → s.Inv) create_disciplined
    (fun _ => create_inv) (fun _ _ _ h hd hs => (h hd).step hd hs)
    fun _ _ _ _ hs => unlocksFound_of_disabled hs

/-- A `waitMarker` that times out unlocks the mutex while another thread updates the queue. -/
theorem timed_out_wait_unlocks :
    ¬ Exec.Always step Disciplined (create : QueueState ℕ)
      [.call 0 (.waitMarker 1000), .run 0 false false, .run 0 false true,
        .call 1 .updateAndNotify, .run 1 false false, .run 0 false false] := by
  decide

end QueueState

end NNPIHost.WaitQueue

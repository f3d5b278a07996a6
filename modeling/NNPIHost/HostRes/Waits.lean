import NNPIHost.Exec.Run
import NNPIHost.HostRes.Locks
import NNPIHost.WaitQueue.Monitor

/-! # Waits for a host resource

The threads that wait for a CPU lock sleep on one queue, each for its mode. The device unlocks
with a notification and the host without one, so a thread that waits behind a CPU lock sleeps
on when the lock is gone.
-/

namespace NNPIHost

/-- A host resource with the threads in `lock_cpu_access`, each for a mode. -/
abbrev CpuWaits (τ : Type*) := Monitor τ Bool HostRes

inductive CpuWaitOp (τ : Type*) where
  | lockCpu (t : τ) (forWrite : Bool)
  | test (t : τ)
  | sleep (t : τ)
  | wake (t : τ)
  /-- The wait has ended with the predicate; `sync` is what `begin_cpu_access` returns. -/
  | taken (t : τ) (sync : NNPError)
  | expire (t : τ)
  | unlockCpu (sync : NNPError)
  | lockDevice (forWrite : Bool)
  | unlockDevice (forWrite : Bool)
  | updateCopyFailCount (n : ℤ)

namespace CpuWaits

variable {τ : Type*}

/-- The predicate of a thread that waits for a lock in the mode. -/
def cond (forWrite : Bool) (r : HostRes) : Bool := r.cpuCond forWrite

def create (lockless cpuSyncNeeded : Bool) : CpuWaits τ :=
  Monitor.create (.create lockless cpuSyncNeeded)

section Step

variable [DecidableEq τ]

def step (s : CpuWaits τ) : CpuWaitOp τ → Option (CpuWaits τ)
  | .lockCpu t forWrite =>
      match s.data.lockCpuTest with
      | some _ => some s
      | none => s.call t forWrite
  | .test t => s.test cond t
  | .sleep t => s.sleep t
  | .wake t => s.wake t
  | .taken t sync => s.found cond t fun forWrite r => (r.lockCpuTaken sync forWrite).2
  | .expire t => s.expire cond t fun _ => some id
  | .unlockCpu sync =>
      if s.data.lockless then some s else s.locked fun r => (r.unlockCpuAccess sync).2
  | .lockDevice forWrite =>
      if s.data.lockless then some s else s.locked fun r => (r.lockDeviceAccess forWrite).2
  | .unlockDevice forWrite =>
      if s.data.lockless then some s
      else s.updateAndNotify fun r => r.unlockDeviceAccess forWrite
  | .updateCopyFailCount n => some (s.write fun r => r.updateCopyFailCount n)

end Step

/-- When a CPU lock for writing is given back nobody sleeps without a notification, and no
writer does when the last CPU lock for reading is. -/
def NobodyMissed (s : CpuWaits τ) : CpuWaitOp τ → Prop
  | .unlockCpu _ => s.owner = none → s.data.lockless = false →
      (s.data.cpuLocked < 0 → s.NoneAsleep) ∧
      (0 < s.data.cpuLocked → s.data.readers = 1 → ∀ t, s.place t ≠ .asleep true false)
  | _ => True

/-- Nobody unlocks the queue while a thread is about to fall asleep. -/
structure Inv (s : CpuWaits τ) : Prop where
  tested : Monitor.Inv s cond
  disciplined : s.Disciplined

variable {s t : CpuWaits τ} {r : HostRes} {forWrite w : Bool} {sync : NNPError}

theorem cond_of_lockDeviceAccess (hl : r.lockless = false)
    (h : cond w (r.lockDeviceAccess forWrite).2 = true) : cond w r = true := by
  rcases HostRes.lockDeviceAccess_cases hl forWrite with hret | ⟨hfree, hret⟩ <;> rw [hret] at h
  · exact h
  · exact Lock.free_of_take hfree h

theorem cond_of_lockCpuTaken (hfree : cond forWrite r = true)
    (h : cond w (r.lockCpuTaken sync forWrite).2 = true) : cond w r = true := by
  have hreaders : (r.lockCpuTaken sync forWrite).2.readers = r.readers ∨
      (r.lockCpuTaken sync forWrite).2.readers = Lock.take r.readers forWrite := by
    unfold HostRes.lockCpuTaken
    dsimp only
    split_ifs <;> simp [Lock.take, *]
  change Lock.free (r.lockCpuTaken sync forWrite).2.readers w = true at h
  rcases hreaders with hr | hr <;> rw [hr] at h
  · exact h
  · exact Lock.free_of_take hfree h

theorem unlockCpuAccess_readers (hl : r.lockless = false) :
    (r.unlockCpuAccess sync).2.readers =
      if r.cpuLocked < 0 then 0 else if 0 < r.cpuLocked then r.readers - 1 else r.readers := by
  unfold HostRes.unlockCpuAccess
  simp only [hl, Bool.false_eq_true, if_false]
  split_ifs <;> rfl

theorem unlockCpu_iff (hl : s.NoLostWakeup cond) (hless : s.data.lockless = false) :
    (∀ t w, s.place t = .asleep w false →
        cond w (s.data.unlockCpuAccess sync).2 = false) ↔
      (s.data.cpuLocked < 0 → s.NoneAsleep) ∧
      (0 < s.data.cpuLocked → s.data.readers = 1 → ∀ t, s.place t ≠ .asleep true false) := by
  have hcond (w : Bool) : cond w (s.data.unlockCpuAccess sync).2 =
      Lock.free (s.data.unlockCpuAccess sync).2.readers w := rfl
  simp only [hcond, unlockCpuAccess_readers hless]
  rcases Int.lt_trichotomy s.data.cpuLocked 0 with hneg | hzero | hpos
  · have hpos : ¬ 0 < s.data.cpuLocked := Int.lt_asymm hneg
    simp only [hneg, hpos, if_true, true_implies, false_implies, and_true]
    constructor
    · intro hall t w ht
      cases w <;> cases hall t _ ht
    · intro hnone t w ht
      exact absurd ht (hnone t w)
  · simp only [hzero, Int.lt_irrefl, if_false, false_implies, and_self, iff_true]
    exact hl
  · have hneg : ¬ s.data.cpuLocked < 0 := Int.lt_asymm hpos
    simp only [hneg, hpos, if_false, if_true, false_implies, true_and, true_implies]
    constructor
    · intro hall hone t ht
      have hfree := hall t true ht
      rw [hone] at hfree
      cases hfree
    · intro hone t w ht
      have hold : Lock.free s.data.readers w = false := hl t w ht
      cases w with
      | true =>
        have hne : s.data.readers ≠ 1 := fun hreaders => hone hreaders t ht
        simp only [Lock.free, if_true, beq_eq_false_iff_ne]
        omega
      | false =>
        simp [Lock.free] at hold ⊢
        omega

theorem Inv.leaves (h : s.Inv) (hl : s.NoLostWakeup cond) (hm : s.Leaves t)
    (hdata : ∀ w, cond w t.data = true → cond w s.data = true) :
    t.Inv ∧ t.NoLostWakeup cond := by
  obtain ⟨htested, hno⟩ := h.tested.leaves hl hm hdata
  exact ⟨⟨htested, h.disciplined.leaves hm⟩, hno⟩

section Step

variable [DecidableEq τ] {op : CpuWaitOp τ}

theorem Inv.step (h : s.Inv) (hl : s.NoLostWakeup cond) (hs : s.step op = some t) :
    t.Inv ∧ (t.NoLostWakeup cond ↔ s.NobodyMissed op) := by
  cases op with
  | lockCpu u forWrite =>
    simp only [CpuWaits.step] at hs
    split at hs
    · obtain rfl := Option.some.inj hs
      exact ⟨h, iff_of_true hl trivial⟩
    · obtain ⟨hm, hdata⟩ := Monitor.call_spec hs
      obtain ⟨hinv, hno⟩ := h.leaves hl hm fun w => hdata ▸ id
      exact ⟨hinv, iff_of_true hno trivial⟩
  | test u =>
    obtain ⟨hinv, hno⟩ := Monitor.test_keeps hl hs
    exact ⟨⟨hinv, h.disciplined.test hs⟩, iff_of_true hno trivial⟩
  | sleep u =>
    obtain ⟨hinv, hiff⟩ := h.tested.sleep hl hs
    refine ⟨⟨hinv, h.disciplined.sleep hs⟩, iff_of_true (hiff.mpr ?_) trivial⟩
    intro w hw howner
    exact absurd (h.disciplined u w hw) howner
  | wake u =>
    obtain ⟨hm, hdata⟩ := Monitor.wake_spec hs
    obtain ⟨hinv, hno⟩ := h.leaves hl hm fun w => hdata ▸ id
    exact ⟨hinv, iff_of_true hno trivial⟩
  | taken u sync =>
    have hs : s.found cond u (fun forWrite r => (r.lockCpuTaken sync forWrite).2) = some t := hs
    obtain ⟨forWrite, _, hfree, hm, hdata⟩ := Monitor.found_spec hs
    obtain ⟨hinv, hno⟩ := h.leaves hl hm fun w hw => cond_of_lockCpuTaken hfree (hdata ▸ hw)
    exact ⟨hinv, iff_of_true hno trivial⟩
  | expire u =>
    obtain ⟨w, g, hg, hm, hdata⟩ := Monitor.expire_spec hs
    obtain rfl := Option.some.inj hg
    obtain ⟨hinv, hno⟩ := h.leaves hl hm fun w => hdata ▸ id
    exact ⟨hinv, iff_of_true hno trivial⟩
  | unlockCpu sync =>
    simp only [CpuWaits.step] at hs
    split at hs
    next hless =>
      obtain rfl := Option.some.inj hs
      exact ⟨h, iff_of_true hl fun _ hno => by simp [hless] at hno⟩
    next hless =>
      have hless := eq_false_of_ne_true hless
      obtain ⟨howner, hinv, hiff⟩ := Monitor.locked_spec hs
      have hdis := h.disciplined.leaves (Monitor.locked_leaves hs)
      refine ⟨⟨hinv, hdis⟩, hiff.trans ((unlockCpu_iff hl hless).trans ?_)⟩
      exact ⟨fun hok _ _ => hok, fun hok => hok howner hless⟩
  | lockDevice forWrite =>
    simp only [CpuWaits.step] at hs
    split at hs
    · obtain rfl := Option.some.inj hs
      exact ⟨h, iff_of_true hl trivial⟩
    next hless =>
      have hless := eq_false_of_ne_true hless
      obtain ⟨hinv, hno⟩ := Monitor.locked_keeps hl hs fun w => cond_of_lockDeviceAccess hless
      have hdis := h.disciplined.leaves (Monitor.locked_leaves hs)
      exact ⟨⟨hinv, hdis⟩, iff_of_true hno trivial⟩
  | unlockDevice forWrite =>
    simp only [CpuWaits.step] at hs
    split at hs
    · obtain rfl := Option.some.inj hs
      exact ⟨h, iff_of_true hl trivial⟩
    · obtain ⟨hinv, hno, hdis⟩ := Monitor.updateAndNotify_spec hs
      exact ⟨⟨hinv, hdis h.disciplined⟩, iff_of_true hno trivial⟩
  | updateCopyFailCount n =>
    obtain rfl := Option.some.inj hs
    obtain ⟨hinv, hno⟩ := h.leaves hl (Monitor.write_leaves (·.updateCopyFailCount n)) fun w => id
    exact ⟨hinv, iff_of_true hno trivial⟩

theorem nobodyMissed_of_step_eq_none (hs : s.step op = none) : s.NobodyMissed op := by
  cases op with
  | unlockCpu sync =>
    intro howner hless
    simp [CpuWaits.step, Monitor.locked, howner, hless] at hs
  | _ => trivial

/-- In a run no thread sleeps on without a notification while its predicate is true, exactly
when every CPU lock that is given back leaves no such thread behind. -/
theorem no_lost_wakeup_iff (lockless cpuSyncNeeded : Bool) (ops : List (CpuWaitOp τ)) :
    Exec.Always step (Monitor.NoLostWakeup · cond) (create lockless cpuSyncNeeded) ops ↔
      Exec.Meets step NobodyMissed (create lockless cpuSyncNeeded) ops :=
  Exec.always_iff_meets (I := Inv) (Monitor.create_noLostWakeup _)
    ⟨Monitor.create_inv _, Monitor.create_disciplined _⟩
    (fun _ _ _ hI hP hs => hI.step hP hs) fun _ _ _ _ hs => nobodyMissed_of_step_eq_none hs

end Step

/-- Two writers get past the test of the mark; the second sleeps on after the first has
unlocked. -/
theorem second_writer_sleeps_on :
    ¬ Exec.Always step (Monitor.NoLostWakeup · cond) (create false false : CpuWaits ℕ)
      [.lockCpu 0 true, .lockCpu 1 true, .taken 0 .noError, .test 1, .sleep 1,
        .unlockCpu .noError] := by
  intro h
  have hlast := ((((((h.2 _ rfl).2 _ rfl).2 _ rfl).2 _ rfl).2 _ rfl).2 _ rfl)
  exact absurd (hlast 1 true rfl) (by decide)

end CpuWaits

end NNPIHost

import NNPIHost.HostRes.Locks

/-! # CPU accesses that the kernel knows of

The kernel has to be told when the CPU begins and ends to access a host resource, if some device
that the resource is mapped for needs it. Whether it does is found out when the resource is
mapped, which may be under a CPU lock, and the end of an access is told once only.
-/

namespace NNPIHost

/-- A host resource with the threads in `lock_cpu_access`, and how many accesses the kernel
takes to be going on. -/
structure CpuSyncState (τ : Type*) where
  res : HostRes
  waiting : List (τ × Bool)
  begun : ℤ

inductive CpuSyncOp (τ : Type*) where
  | lockCpu (t : τ) (forWrite : Bool)
  /-- The wait has ended with the predicate; `sync` is what `begin_cpu_access` returns. -/
  | acquire (t : τ) (forWrite : Bool) (sync : NNPError)
  | expire (t : τ) (forWrite : Bool)
  /-- `sync` is what `end_cpu_access` returns. -/
  | unlockCpu (sync : NNPError)
  | lockDevice (forWrite : Bool)
  | unlockDevice (forWrite : Bool)
  | updateCopyFailCount (n : ℤ)
  /-- `mapHostResource`, for a device that may need the CPU accesses told. -/
  | mapHostResource (syncNeeded : Bool)

namespace HostRes

def enableCpuSync (r : HostRes) : HostRes := { r with cpuSyncNeeded := true }

/-- Whether `lock_cpu_access` tells the kernel, and the kernel takes it. -/
def tellsBegin (r : HostRes) (sync : NNPError) : Bool :=
  !r.broken && r.cpuSyncNeeded && sync = .noError

/-- The same for `unlock_cpu_access`. -/
def tellsEnd (r : HostRes) (sync : NNPError) : Bool :=
  !r.lockless && r.cpuLocked ≠ 0 && r.cpuSyncNeeded && sync = .noError

/-- How many accesses the kernel should know of. -/
def access (r : HostRes) : ℤ := if r.cpuLocked ≠ 0 ∧ r.cpuSyncNeeded then 1 else 0

end HostRes

namespace CpuSyncState

variable {τ : Type*}

def create (lockless : Bool) : CpuSyncState τ := ⟨.create lockless false, [], 0⟩

def step [DecidableEq τ] (s : CpuSyncState τ) : CpuSyncOp τ → Option (CpuSyncState τ)
  | .lockCpu t w =>
      match s.res.lockCpuTest with
      | some _ => some s
      | none => some { s with waiting := (t, w) :: s.waiting }
  | .acquire t w sync =>
      if s.waiting.contains (t, w) ∧ s.res.cpuCond w then
        some { s with
          res := (s.res.lockCpuTaken sync w).2
          waiting := s.waiting.erase (t, w)
          begun := if s.res.tellsBegin sync then s.begun + 1 else s.begun }
      else none
  | .expire t w =>
      if s.waiting.contains (t, w) then some { s with waiting := s.waiting.erase (t, w) } else none
  | .unlockCpu sync =>
      some { s with
        res := (s.res.unlockCpuAccess sync).2
        begun := if s.res.tellsEnd sync then s.begun - 1 else s.begun }
  | .lockDevice w => some { s with res := (s.res.lockDeviceAccess w).2 }
  | .unlockDevice w => some { s with res := s.res.unlockDeviceAccess w }
  | .updateCopyFailCount n => some { s with res := s.res.updateCopyFailCount n }
  | .mapHostResource syncNeeded =>
      some (if syncNeeded then { s with res := s.res.enableCpuSync } else s)

/-- The kernel knows of the CPU accesses that are going on and of no others. -/
def Told (s : CpuSyncState τ) : Prop := s.begun = s.res.access

/-- No lock is taken over another one, the end of an access is told when it was begun, and a
resource is mapped for such a device only while it is not locked. -/
def Bracketed (s : CpuSyncState τ) : CpuSyncOp τ → Prop
  | .acquire t w sync => (t, w) ∈ s.waiting → s.res.cpuCond w = true →
      s.res.tellsBegin sync = true → s.res.cpuLocked = 0
  | .unlockCpu sync => s.res.lockless = false → s.res.cpuLocked ≠ 0 →
      s.res.cpuSyncNeeded = true → sync = .noError
  | .mapHostResource syncNeeded => syncNeeded = true → s.res.cpuSyncNeeded = false →
      s.res.cpuLocked = 0
  | _ => True

variable {s t : CpuSyncState τ}

theorem told_acquire_iff (h : s.Told) {w : Bool} {sync : NNPError} (waiting : List (τ × Bool)) :
    Told ⟨(s.res.lockCpuTaken sync w).2, waiting,
        if s.res.tellsBegin sync then s.begun + 1 else s.begun⟩ ↔
      (s.res.tellsBegin sync = true → s.res.cpuLocked = 0) := by
  have hmark : (if w = true then (-1 : ℤ) else 1) ≠ 0 := by cases w <;> decide
  have hbegun : s.begun = s.res.access := h
  cases hb : s.res.broken with
  | true =>
    simpa [Told, HostRes.lockCpuTaken, HostRes.tellsBegin, hb] using hbegun
  | false =>
    cases hc : s.res.cpuSyncNeeded with
    | false =>
      simp only [HostRes.access, hc, Bool.false_eq_true, and_false, if_false] at hbegun
      simp [Told, HostRes.lockCpuTaken, HostRes.tellsBegin, HostRes.access, hb, hc, hbegun]
    | true =>
      by_cases hsync : sync = .noError
      · simp only [Told, HostRes.lockCpuTaken, HostRes.tellsBegin, HostRes.access, hb, hc, hsync,
          hbegun, Bool.false_eq_true, if_false, if_true, Bool.not_false, decide_true,
          Bool.and_self, true_implies, hmark, ne_eq, not_false_eq_true, and_self, and_true]
        by_cases hzero : s.res.cpuLocked = 0 <;> simp [hzero]
      · simpa [Told, HostRes.lockCpuTaken, HostRes.tellsBegin, hb, hc, hsync] using hbegun

theorem access_unlockCpuAccess {r : HostRes} (hl : r.lockless = false) (sync : NNPError) :
    (r.unlockCpuAccess sync).2.access = 0 := by
  have hzero : (r.unlockCpuAccess sync).2.cpuLocked = 0 := by
    simp only [HostRes.unlockCpuAccess, hl, Bool.false_eq_true, if_false]
    rcases Int.lt_trichotomy r.cpuLocked 0 with hneg | hzero | hpos
    · simp [hneg]
    · simp [hzero]
    · simp [hpos, Int.lt_asymm hpos]
  simp [HostRes.access, hzero]

theorem told_unlockCpu_iff (h : s.Told) {sync : NNPError} :
    Told { s with
        res := (s.res.unlockCpuAccess sync).2
        begun := if s.res.tellsEnd sync then s.begun - 1 else s.begun } ↔
      s.Bracketed (.unlockCpu sync) := by
  have hbegun : s.begun = s.res.access := h
  cases hl : s.res.lockless with
  | true => simpa [Told, Bracketed, HostRes.unlockCpuAccess, HostRes.tellsEnd, hl] using hbegun
  | false =>
    simp only [Told, access_unlockCpuAccess hl]
    simp only [Bracketed, hbegun, hl, HostRes.access, HostRes.tellsEnd, Bool.not_false,
      Bool.true_and, true_implies]
    by_cases hzero : s.res.cpuLocked = 0
    · simp [hzero]
    · cases hc : s.res.cpuSyncNeeded with
      | false => simp
      | true => by_cases hsync : sync = .noError <;> simp [hzero, hsync]

theorem told_mapHostResource_iff (h : s.Told) {syncNeeded : Bool} :
    Told (if syncNeeded then { s with res := s.res.enableCpuSync } else s) ↔
      s.Bracketed (.mapHostResource syncNeeded) := by
  have hbegun : s.begun = s.res.access := h
  cases syncNeeded with
  | false => exact iff_of_true h nofun
  | true =>
    simp only [Told, Bracketed, if_true, hbegun, HostRes.access, HostRes.enableCpuSync,
      true_implies]
    by_cases hzero : s.res.cpuLocked = 0
    · simp [hzero]
    · cases hc : s.res.cpuSyncNeeded <;> simp [hzero]

theorem access_lockDeviceAccess (r : HostRes) (w : Bool) :
    (r.lockDeviceAccess w).2.access = r.access := by
  unfold HostRes.lockDeviceAccess
  split_ifs <;> rfl

theorem access_unlockDeviceAccess (r : HostRes) (w : Bool) :
    (r.unlockDeviceAccess w).access = r.access := by
  unfold HostRes.unlockDeviceAccess
  split <;> rfl

variable [DecidableEq τ] {op : CpuSyncOp τ}

theorem told_step_iff (h : s.Told) (hs : s.step op = some t) : t.Told ↔ s.Bracketed op := by
  cases op with
  | lockCpu u w =>
    simp only [step] at hs
    split at hs <;> obtain rfl := Option.some.inj hs <;> exact iff_of_true h trivial
  | acquire u w sync =>
    obtain ⟨⟨hu, hfree⟩, ⟨⟩⟩ := Option.ite_none_right_eq_some.mp hs
    refine (told_acquire_iff h _).trans ?_
    exact ⟨fun hok _ _ => hok, fun hok => hok (List.contains_iff_mem.mp hu) hfree⟩
  | expire u w =>
    obtain ⟨-, ⟨⟩⟩ := Option.ite_none_right_eq_some.mp hs
    exact iff_of_true h trivial
  | unlockCpu sync =>
    obtain rfl := Option.some.inj hs
    exact told_unlockCpu_iff h
  | lockDevice w =>
    obtain rfl := Option.some.inj hs
    exact iff_of_true (h.trans (access_lockDeviceAccess s.res w).symm) trivial
  | unlockDevice w =>
    obtain rfl := Option.some.inj hs
    exact iff_of_true (h.trans (access_unlockDeviceAccess s.res w).symm) trivial
  | updateCopyFailCount n =>
    obtain rfl := Option.some.inj hs
    exact iff_of_true h trivial
  | mapHostResource syncNeeded =>
    obtain rfl := Option.some.inj hs
    exact told_mapHostResource_iff h

theorem bracketed_of_step_eq_none (hs : s.step op = none) : s.Bracketed op := by
  cases op with
  | acquire u w sync =>
    intro hu hfree
    rw [step, if_pos ⟨List.contains_iff_mem.mpr hu, hfree⟩] at hs
    cases hs
  | unlockCpu sync => cases hs
  | mapHostResource syncNeeded => cases hs
  | _ => trivial

/-- For any threads, devices and order of steps, the kernel knows of the CPU accesses that are
going on and of no others, exactly while every access ends before another one begins, every
end that is told is taken, and nothing is mapped for a device that needs it under a CPU lock. -/
theorem told_iff_bracketed (lockless : Bool) (ops : List (CpuSyncOp τ)) :
    Exec.Always step Told (create lockless : CpuSyncState τ) ops ↔
      Exec.Meets step Bracketed (create lockless) ops :=
  Exec.always_iff_meets (I := fun _ => True) rfl trivial
    (fun _ _ _ _ h hs => ⟨trivial, told_step_iff h hs⟩)
    fun _ _ _ _ hs => bracketed_of_step_eq_none hs

end CpuSyncState

end NNPIHost

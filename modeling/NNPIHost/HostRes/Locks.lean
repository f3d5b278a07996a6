import NNPIHost.Exec.Run
import NNPIHost.Ipc.Events
import NNPIHost.Lock.ReadWrite

/-! # Locks of a host resource

The device and the host lock a host resource through one counter, and a CPU lock leaves a
mark besides. The mark is tested before the wait for the lock and set after it, so two
readers that wait behind a device writer both get in; the first unlock takes the mark away
and the second is refused.
-/

namespace NNPIHost

/-- The fields of `nnpiHostRes` that its locks use. -/
structure HostRes where
  lockless : Bool
  readers : ℤ
  cpuLocked : ℤ
  failedCopyOps : ℤ
  cpuSyncNeeded : Bool
  deriving DecidableEq, Repr

namespace HostRes

def create (lockless cpuSyncNeeded : Bool) : HostRes := ⟨lockless, 0, 0, 0, cpuSyncNeeded⟩

def broken (r : HostRes) : Bool := 0 < r.failedCopyOps

def updateCopyFailCount (r : HostRes) (n : ℤ) : HostRes :=
  { r with failedCopyOps := r.failedCopyOps + n }

/-- The tests of `lock_cpu_access` before it waits; `none` when it goes on to wait. -/
def lockCpuTest (r : HostRes) : Option NNPError :=
  if r.lockless then some .notSupported
  else if r.cpuLocked ≠ 0 then some .invalidArgument
  else none

/-- The predicate that `lock_cpu_access` waits for. -/
def cpuCond (r : HostRes) (forWrite : Bool) : Bool :=
  if forWrite then r.readers == 0 else 0 ≤ r.readers

/-- `lock_cpu_access` once its wait has ended with the predicate; `sync` is what
`begin_cpu_access` returns. -/
def lockCpuTaken (r : HostRes) (sync : NNPError) (forWrite : Bool) : NNPError × HostRes :=
  if r.broken then (.contextBroken, r)
  else
    let ret := if r.cpuSyncNeeded then sync else .noError
    if ret = .noError then
      (ret, { r with
        readers := if forWrite then -1 else r.readers + 1
        cpuLocked := if forWrite then -1 else 1 })
    else (ret, r)

/-- `unlock_cpu_access`; `sync` is what `end_cpu_access` returns. -/
def unlockCpuAccess (r : HostRes) (sync : NNPError) : NNPError × HostRes :=
  if r.lockless then (.notSupported, r)
  else
    let ret := if r.cpuSyncNeeded then sync else .noError
    if r.cpuLocked < 0 then (ret, { r with readers := 0, cpuLocked := 0 })
    else if 0 < r.cpuLocked then (ret, { r with readers := r.readers - 1, cpuLocked := 0 })
    else (.invalidArgument, r)

def lockDeviceAccess (r : HostRes) (forWrite : Bool) : NNPError × HostRes :=
  if r.lockless then (.noError, r)
  else if forWrite ∧ r.readers = 0 then (.noError, { r with readers := -1 })
  else if ¬ forWrite ∧ 0 ≤ r.readers then (.noError, { r with readers := r.readers + 1 })
  else (.deviceBusy, r)

def unlockDeviceAccess (r : HostRes) (forWrite : Bool) : HostRes :=
  if r.lockless then r
  else { r with readers := if forWrite then 0 else r.readers - 1 }

variable {r : HostRes} {forWrite : Bool}

theorem lockDeviceAccess_eq (h : r.lockless = false) (forWrite : Bool) :
    r.lockDeviceAccess forWrite =
      if Lock.free r.readers forWrite then
        (.noError, { r with readers := Lock.take r.readers forWrite })
      else (.deviceBusy, r) := by
  cases forWrite with
  | true => by_cases hr : r.readers = 0 <;> simp [lockDeviceAccess, h, hr, Lock.free, Lock.take]
  | false => by_cases hr : 0 ≤ r.readers <;> simp [lockDeviceAccess, h, hr, Lock.free, Lock.take]

theorem lockDeviceAccess_cases (h : r.lockless = false) (forWrite : Bool) :
    r.lockDeviceAccess forWrite = (.deviceBusy, r) ∨
      Lock.free r.readers forWrite = true ∧ r.lockDeviceAccess forWrite =
        (.noError, { r with readers := Lock.take r.readers forWrite }) := by
  rw [lockDeviceAccess_eq h]
  split
  next hf => exact .inr ⟨hf, rfl⟩
  next => exact .inl rfl

theorem unlockDeviceAccess_eq (h : r.lockless = false) (forWrite : Bool) :
    r.unlockDeviceAccess forWrite = { r with readers := Lock.release r.readers forWrite } := by
  simp [unlockDeviceAccess, h, Lock.release]

theorem lockDeviceAccess_lockless (r : HostRes) (forWrite : Bool) :
    (r.lockDeviceAccess forWrite).2.lockless = r.lockless := by
  unfold lockDeviceAccess
  split_ifs <;> rfl

theorem unlockDeviceAccess_lockless (r : HostRes) (forWrite : Bool) :
    (r.unlockDeviceAccess forWrite).lockless = r.lockless := by
  unfold unlockDeviceAccess
  split <;> rfl

theorem unlockDeviceAccess_lockDeviceAccess {r' : HostRes}
    (h : r.lockDeviceAccess forWrite = (.noError, r')) : r'.unlockDeviceAccess forWrite = r := by
  obtain ⟨lockless, readers, cpuLocked, failedCopyOps, cpuSyncNeeded⟩ := r
  cases lockless with
  | true =>
    obtain rfl := (Prod.mk.inj h).2
    rfl
  | false =>
    have hl : (⟨false, readers, cpuLocked, failedCopyOps, cpuSyncNeeded⟩ : HostRes).lockless =
      false := rfl
    rcases lockDeviceAccess_cases hl forWrite with hret | ⟨hfree, hret⟩ <;> rw [hret] at h
    · cases h
    · obtain rfl := (Prod.mk.inj h).2
      rw [unlockDeviceAccess_eq rfl, Lock.release_take hfree]

theorem lockCpuTaken_cases (r : HostRes) (forWrite : Bool) :
    r.lockCpuTaken .noError forWrite = (.contextBroken, r) ∨
      r.broken = false ∧ r.lockCpuTaken .noError forWrite =
        (.noError, { r with
          readers := Lock.take r.readers forWrite, cpuLocked := if forWrite then -1 else 1 }) := by
  cases hb : r.broken
  · exact .inr ⟨rfl, by simp [lockCpuTaken, hb, Lock.take]⟩
  · exact .inl (by simp [lockCpuTaken, hb])

end HostRes

/-- A host resource with the threads that wait for a CPU lock, the holders with their modes,
and the results of the CPU unlocks so far. -/
structure LockState (τ : Type*) where
  res : HostRes
  waiting : List (τ × Bool)
  cpu : List (τ × Bool)
  dev : List (τ × Bool)
  unlocks : List NNPError

inductive LockOp (τ : Type*) where
  | lockCpu (t : τ) (forWrite : Bool)
  | acquire (t : τ) (forWrite : Bool)
  | expire (t : τ) (forWrite : Bool)
  | unlockCpu (t : τ) (forWrite : Bool)
  | lockDevice (t : τ) (forWrite : Bool)
  | unlockDevice (t : τ) (forWrite : Bool)
  | updateCopyFailCount (n : ℤ)

namespace LockState

variable {τ : Type*}

def create (res : HostRes) : LockState τ := ⟨res, [], [], [], []⟩

/-- The modes in which the resource is held. -/
def holders (s : LockState τ) : List Bool := (s.cpu ++ s.dev).map Prod.snd

/-- The counter stands for the holders, a writer is alone, and no unlock was refused. -/
def Exclusive (s : LockState τ) : Prop :=
  Lock.Held s.res.readers s.holders ∧ ∀ ret ∈ s.unlocks, ret = .noError

instance (s : LockState τ) : Decidable s.Exclusive := inferInstanceAs (Decidable (_ ∧ _))

/-- An acquisition that gets the lock after its wait finds the CPU mark still clear. -/
def MarkClear (s : LockState τ) : LockOp τ → Prop
  | .acquire _ _ => s.res.broken = false → s.res.cpuLocked = 0
  | _ => True

instance (s : LockState τ) : DecidablePred s.MarkClear := fun op => by
  unfold MarkClear
  split <;> infer_instance

/-- Besides the counter, the mark tells the one CPU holder. -/
structure Inv (s : LockState τ) : Prop where
  lockless : s.res.lockless = false
  held : Lock.Held s.res.readers s.holders
  mark : s.cpu = [] ∧ s.res.cpuLocked = 0 ∨
    ∃ t w, s.cpu = [(t, w)] ∧ s.res.cpuLocked = if w then -1 else 1
  unlocks : ∀ ret ∈ s.unlocks, ret = .noError

variable {s t : LockState τ}

theorem create_inv (cpuSyncNeeded : Bool) :
    (create (.create false cpuSyncNeeded) : LockState τ).Inv :=
  ⟨rfl, .nil, .inl ⟨rfl, rfl⟩, nofun⟩

theorem unlockCpuAccess_of_inv (h : s.Inv) {o : τ × Bool} (hm : o ∈ s.cpu) :
    s.cpu = [o] ∧ s.res.unlockCpuAccess .noError =
      (.noError, { s.res with readers := Lock.release s.res.readers o.2, cpuLocked := 0 }) := by
  rcases h.mark with ⟨hnil, _⟩ | ⟨t, w, hcpu, hmark⟩
  · rw [hnil] at hm
    cases hm
  · rw [hcpu, List.mem_singleton] at hm
    subst hm
    refine ⟨hcpu, ?_⟩
    cases w <;> simp [HostRes.unlockCpuAccess, h.lockless, hmark, Lock.release]

variable [DecidableEq τ]

def step (s : LockState τ) : LockOp τ → Option (LockState τ)
  | .lockCpu t w =>
      match s.res.lockCpuTest with
      | some _ => some s
      | none => some { s with waiting := (t, w) :: s.waiting }
  | .acquire t w =>
      if (t, w) ∈ s.waiting ∧ s.res.cpuCond w then
        match s.res.lockCpuTaken .noError w with
        | (ret, res) => some { s with
            res, waiting := s.waiting.erase (t, w)
            cpu := if ret = .noError then (t, w) :: s.cpu else s.cpu }
      else none
  | .expire t w =>
      if (t, w) ∈ s.waiting then some { s with waiting := s.waiting.erase (t, w) } else none
  | .unlockCpu t w =>
      if (t, w) ∈ s.cpu then
        match s.res.unlockCpuAccess .noError with
        | (ret, res) => some { s with
            res, cpu := s.cpu.erase (t, w), unlocks := ret :: s.unlocks }
      else none
  | .lockDevice t w =>
      match s.res.lockDeviceAccess w with
      | (ret, res) => some { s with res, dev := if ret = .noError then (t, w) :: s.dev else s.dev }
  | .unlockDevice t w =>
      if (t, w) ∈ s.dev then
        some { s with res := s.res.unlockDeviceAccess w, dev := s.dev.erase (t, w) }
      else none
  | .updateCopyFailCount n => some { s with res := s.res.updateCopyFailCount n }

theorem Inv.step (h : s.Inv) {op : LockOp τ} (hok : s.MarkClear op) (hs : s.step op = some t) :
    t.Inv := by
  cases op with
  | lockCpu o w =>
    simp only [LockState.step] at hs
    split at hs <;> obtain rfl := Option.some.inj hs
    · exact h
    · exact ⟨h.lockless, h.held, h.mark, h.unlocks⟩
  | acquire o w =>
    simp only [LockState.step, Option.ite_none_right_eq_some] at hs
    obtain ⟨⟨_, hfree⟩, hs⟩ := hs
    obtain rfl := Option.some.inj hs
    rcases s.res.lockCpuTaken_cases w with hret | ⟨hbroken, hret⟩ <;> rw [hret]
    · exact ⟨h.lockless, h.held, h.mark, h.unlocks⟩
    · refine ⟨h.lockless, h.held.take hfree, .inr ⟨o, w, ?_, rfl⟩, h.unlocks⟩
      rcases h.mark with ⟨hnil, _⟩ | ⟨_, w', _, hmark⟩
      · simp [hnil]
      · have hzero : s.res.cpuLocked = 0 := hok hbroken
        rw [hmark] at hzero
        cases w' <;> cases hzero
  | expire o w =>
    simp only [LockState.step, Option.ite_none_right_eq_some] at hs
    obtain ⟨_, hs⟩ := hs
    obtain rfl := Option.some.inj hs
    exact ⟨h.lockless, h.held, h.mark, h.unlocks⟩
  | unlockCpu o w =>
    simp only [LockState.step, Option.ite_none_right_eq_some] at hs
    obtain ⟨hm, hs⟩ := hs
    obtain rfl := Option.some.inj hs
    obtain ⟨hcpu, hret⟩ := unlockCpuAccess_of_inv h hm
    have hheld := h.held
    rw [holders, hcpu] at hheld
    rw [hret]
    refine ⟨h.lockless, ?_, .inl ⟨by simp [hcpu], rfl⟩,
      List.forall_mem_cons.mpr ⟨rfl, h.unlocks⟩⟩
    simpa [holders, hcpu] using hheld.release
  | lockDevice o w =>
    simp only [LockState.step] at hs
    rcases HostRes.lockDeviceAccess_cases h.lockless w with hret | ⟨hfree, hret⟩ <;>
      rw [hret] at hs <;> obtain rfl := Option.some.inj hs
    · exact ⟨h.lockless, h.held, h.mark, h.unlocks⟩
    · have hp : ((o, w) :: (s.cpu ++ s.dev)).Perm (s.cpu ++ (o, w) :: s.dev) :=
        List.perm_middle.symm
      exact ⟨h.lockless, (h.held.take hfree).perm (hp.map Prod.snd), h.mark, h.unlocks⟩
  | unlockDevice o w =>
    simp only [LockState.step, Option.ite_none_right_eq_some] at hs
    obtain ⟨hm, hs⟩ := hs
    obtain rfl := Option.some.inj hs
    rw [HostRes.unlockDeviceAccess_eq h.lockless]
    refine ⟨h.lockless, ?_, h.mark, h.unlocks⟩
    refine Lock.Held.release (h.held.perm ?_)
    have hp : (s.cpu ++ s.dev).Perm ((o, w) :: (s.cpu ++ s.dev.erase (o, w))) :=
      ((List.perm_cons_erase hm).append_left s.cpu).trans List.perm_middle
    exact hp.map Prod.snd
  | updateCopyFailCount n =>
    obtain rfl := Option.some.inj hs
    exact ⟨h.lockless, h.held, h.mark, h.unlocks⟩

/-- As long as every CPU lock is taken with the mark still clear, the counter follows the
holders and no holder's unlock is refused, for any threads and any order of steps. -/
theorem locks_exclusive (cpuSyncNeeded : Bool) (ops : List (LockOp τ))
    (hm : Exec.Meets step MarkClear (create (.create false cpuSyncNeeded)) ops) :
    Exec.Always step Exclusive (create (.create false cpuSyncNeeded)) ops :=
  (Exec.always_of_invariant (create_inv cpuSyncNeeded)
    (fun _ _ _ h hok hs => h.step hok hs) hm).mono fun _ h => ⟨h.held, h.unlocks⟩

/-- Two readers behind a device writer: the second one's unlock is refused and leaves a read
lock behind. -/
theorem waiting_readers_break_unlock :
    ¬ Exec.Always step Exclusive (create (.create false false) : LockState ℕ)
      [.lockDevice 0 true, .lockCpu 1 false, .lockCpu 2 false, .unlockDevice 0 true,
        .acquire 1 false, .acquire 2 false, .unlockCpu 1 false, .unlockCpu 2 false] := by
  decide

theorem locks_exclusive_in_turn :
    Exec.Always step Exclusive (create (.create false true) : LockState ℕ)
      [.lockDevice 0 true, .lockCpu 1 false, .unlockDevice 0 true, .acquire 1 false,
        .lockDevice 0 false, .unlockCpu 1 false, .unlockDevice 0 false] :=
  locks_exclusive true _ (by decide)

end LockState

end NNPIHost

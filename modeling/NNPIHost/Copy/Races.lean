import NNPIHost.Copy.Command
import NNPIHost.Exec.Run
import NNPIHost.Lock.ReadWrite

/-! # Data races on a host resource

The card copies from or to a host resource between the message that schedules a copy and the
end of its execution, and a thread uses the resource between a CPU lock and its unlock. A lock
may be left behind, by a copy that has lost its mark or a reader whose unlock is refused, but
none is released early.
-/

namespace NNPIHost

open Lock

/-- Where an execution of a copy is on its way. -/
inductive CopyStage where
  | locked
  | marked
  /-- The card has the message and has not finished. -/
  | sent
  | unsent
  | ended (failed : Bool)
  /-- `postSchedule` has seen the mark. -/
  | found (failed : Bool)
  | unmarked
  deriving DecidableEq, Repr

/-- A host resource with the copies from and to it and the threads that use it. -/
structure HostAccess (τ : Type*) where
  res : HostRes
  copies : ℕ → CopyCommand
  attempts : List (ℕ × CopyStage)
  waiting : List (τ × Bool)
  cpu : List (τ × Bool)

inductive HostAccessOp (τ : Type*) where
  | lockHostres (c : ℕ)
  /-- The next step of an execution; `choice` is whether the message is written, or whether
  the copy fails. -/
  | advance (a : ℕ × CopyStage) (choice : Bool)
  | lockCpu (t : τ) (forWrite : Bool)
  | acquire (t : τ) (forWrite : Bool) (sync : NNPError)
  | expire (t : τ) (forWrite : Bool)
  | unlockCpu (t : τ) (forWrite : Bool) (sync : NNPError)
  | updateCopyFailCount (n : ℤ)

namespace HostAccess

variable {τ : Type*}

def create (isC2h : ℕ → Bool) (size : ℕ → ℕ) (hostresSize : ℕ) (cpuSyncNeeded : Bool) :
    HostAccess τ :=
  ⟨.create false cpuSyncNeeded, fun c => .create (isC2h c) (size c) hostresSize, [], [], []⟩

variable (s : HostAccess τ)

def setCopy (c : ℕ) (copy : CopyCommand) : HostAccess τ :=
  { s with copies := Function.update s.copies c copy }

def lockHostres (c : ℕ) : HostAccess τ :=
  match (s.copies c).lockHostres s.res with
  | (ret, res) => { s with
      res, attempts := if ret = .noError then (c, .locked) :: s.attempts else s.attempts }

/-- One step of an execution that has been taken out of the list. -/
def advance (c : ℕ) (choice : Bool) : CopyStage → HostAccess τ
  | .locked => { s.setCopy c (s.copies c).mark with attempts := (c, .marked) :: s.attempts }
  | .marked => { s with attempts := (c, if choice then .sent else .unsent) :: s.attempts }
  | .sent => { s with attempts := (c, .ended choice) :: s.attempts }
  | .unsent =>
      if (s.copies c).scheduled then { s with attempts := (c, .found false) :: s.attempts } else s
  | .ended failed =>
      if (s.copies c).scheduled then { s with attempts := (c, .found failed) :: s.attempts } else s
  | .found failed => { s.setCopy c (s.copies c).unmark with
      res := (s.copies c).countFailure s.res failed, attempts := (c, .unmarked) :: s.attempts }
  | .unmarked => { s with res := (s.copies c).unlockHostres s.res }

/-- The modes of the accesses that are going on, `true` for writing. -/
def accesses : List Bool :=
  (s.attempts.filter (·.2 = .sent)).map (fun a => (s.copies a.1).isC2h) ++ s.cpu.map Prod.snd

/-- Nobody else uses the resource while it is written. -/
def RaceFree : Prop := Compatible s.accesses

def step [DecidableEq τ] (s : HostAccess τ) : HostAccessOp τ → Option (HostAccess τ)
  | .lockHostres c => some (s.lockHostres c)
  | .advance a choice =>
      if a ∈ s.attempts then
        some ({ s with attempts := s.attempts.erase a }.advance a.1 choice a.2)
      else none
  | .lockCpu t w =>
      match s.res.lockCpuTest with
      | some _ => some s
      | none => some { s with waiting := (t, w) :: s.waiting }
  | .acquire t w sync =>
      if s.waiting.contains (t, w) ∧ s.res.cpuCond w then
        match s.res.lockCpuTaken sync w with
        | (ret, res) => some { s with
            res, waiting := s.waiting.erase (t, w)
            cpu := if ret = .noError then (t, w) :: s.cpu else s.cpu }
      else none
  | .expire t w =>
      if s.waiting.contains (t, w) then some { s with waiting := s.waiting.erase (t, w) } else none
  | .unlockCpu t w sync =>
      if s.cpu.contains (t, w) then
        some { s with res := (s.res.unlockCpuAccess sync).2, cpu := s.cpu.erase (t, w) }
      else none
  | .updateCopyFailCount n => some { s with res := s.res.updateCopyFailCount n }

/-- The modes of all who hold the lock, or wait to give it back. -/
def holders (isC2h : ℕ → Bool) (attempts : List (ℕ × CopyStage)) (cpu : List (τ × Bool)) :
    List Bool := attempts.map (fun a => isC2h a.1) ++ cpu.map Prod.snd

/-- The counter covers all holders, and the CPU mark is that of one of them. -/
structure Inv (isC2h : ℕ → Bool) (s : HostAccess τ) : Prop where
  lockless : s.res.lockless = false
  copies : ∀ c, (s.copies c).isD2d = false ∧ (s.copies c).isC2h = isC2h c
  covers : Covers s.res.readers (holders isC2h s.attempts s.cpu)
  write : s.res.cpuLocked < 0 → ∃ t, (t, true) ∈ s.cpu
  read : 0 < s.res.cpuLocked → ∃ t, (t, false) ∈ s.cpu

variable {s} {u : HostAccess τ} {isC2h : ℕ → Bool} {c : ℕ}

theorem Inv.raceFree (h : s.Inv isC2h) : s.RaceFree := by
  refine h.covers.compatible.subperm (List.Sublist.subperm ?_)
  have hmodes : (s.attempts.filter (·.2 = .sent)).map (fun a => (s.copies a.1).isC2h) =
      (s.attempts.filter (·.2 = .sent)).map fun a => isC2h a.1 :=
    List.map_congr_left fun a _ => (h.copies a.1).2
  rw [accesses, hmodes]
  exact (List.filter_sublist.map _).append_right _

theorem create_inv (size : ℕ → ℕ) (hostresSize : ℕ) (cpuSyncNeeded : Bool) :
    (create isC2h size hostresSize cpuSyncNeeded : HostAccess τ).Inv isC2h :=
  ⟨rfl, fun _ => ⟨rfl, rfl⟩, .nil, fun h => absurd h (Int.lt_irrefl _),
    fun h => absurd h (Int.lt_irrefl _)⟩

theorem Inv.lockHostres (h : s.Inv isC2h) (c : ℕ) : (s.lockHostres c).Inv isC2h := by
  obtain ⟨hd, hw⟩ := h.copies c
  have hlock : (s.copies c).lockHostres s.res = s.res.lockDeviceAccess (isC2h c) := by
    rw [CopyCommand.lockHostres, hd, hw]
    rfl
  rw [HostAccess.lockHostres, hlock]
  rcases HostRes.lockDeviceAccess_cases h.lockless (isC2h c) with hret | ⟨hfree, hret⟩ <;> rw [hret]
  · exact ⟨h.lockless, h.copies, h.covers, h.write, h.read⟩
  · exact ⟨h.lockless, h.copies, h.covers.take hfree, h.write, h.read⟩

theorem Inv.setCopy (h : s.Inv isC2h) {copy : CopyCommand}
    (hd : copy.isD2d = (s.copies c).isD2d) (hw : copy.isC2h = (s.copies c).isC2h) :
    (s.setCopy c copy).Inv isC2h := by
  refine ⟨h.lockless, fun d => ?_, h.covers, h.write, h.read⟩
  simp only [HostAccess.setCopy, Function.update_apply]
  split
  next hdc => exact hdc ▸ ⟨hd.trans (h.copies c).1, hw.trans (h.copies c).2⟩
  next => exact h.copies d

theorem Inv.updateCopyFailCount (h : s.Inv isC2h) (n : ℤ) :
    Inv isC2h { s with res := s.res.updateCopyFailCount n } :=
  ⟨h.lockless, h.copies, h.covers, h.write, h.read⟩

theorem Inv.countFailure (h : s.Inv isC2h) (c : ℕ) (failed : Bool) :
    Inv isC2h { s with res := (s.copies c).countFailure s.res failed } := by
  unfold CopyCommand.countFailure
  split
  · exact h.updateCopyFailCount 1
  · exact h

variable {stage : CopyStage}

theorem Inv.covers_erase (h : s.Inv isC2h) (ha : (c, stage) ∈ s.attempts) :
    Covers s.res.readers (isC2h c :: holders isC2h (s.attempts.erase (c, stage)) s.cpu) :=
  h.covers.perm (((List.perm_cons_erase ha).map _).append_right _)

theorem Inv.goOn (h : s.Inv isC2h) (ha : (c, stage) ∈ s.attempts) (next : CopyStage) :
    Inv isC2h { s with attempts := (c, next) :: s.attempts.erase (c, stage) } :=
  ⟨h.lockless, h.copies, h.covers_erase ha, h.write, h.read⟩

theorem Inv.leave (h : s.Inv isC2h) (ha : (c, stage) ∈ s.attempts) :
    Inv isC2h { s with attempts := s.attempts.erase (c, stage) } :=
  ⟨h.lockless, h.copies, (h.covers_erase ha).leave, h.write, h.read⟩

theorem Inv.find (h : s.Inv isC2h) (ha : (c, stage) ∈ s.attempts) (failed : Bool) :
    Inv isC2h (if (s.copies c).scheduled then
        { s with attempts := (c, .found failed) :: s.attempts.erase (c, stage) }
      else { s with attempts := s.attempts.erase (c, stage) }) := by
  split
  · exact h.goOn ha _
  · exact h.leave ha

theorem Inv.advance (h : s.Inv isC2h) (ha : (c, stage) ∈ s.attempts) (choice : Bool) :
    Inv isC2h ({ s with attempts := s.attempts.erase (c, stage) }.advance c choice stage) := by
  cases stage with
  | locked =>
    exact (h.goOn ha .marked).setCopy (CopyCommand.mark_isD2d _) (CopyCommand.mark_isC2h _)
  | marked => exact h.goOn ha _
  | sent => exact h.goOn ha _
  | unsent => exact h.find ha false
  | ended failed => exact h.find ha failed
  | found failed =>
    exact ((h.goOn ha .unmarked).countFailure c failed).setCopy rfl rfl
  | unmarked =>
    obtain ⟨hd, hw⟩ := h.copies c
    have hunlock : (s.copies c).unlockHostres s.res =
        { s.res with readers := release s.res.readers (isC2h c) } := by
      rw [CopyCommand.unlockHostres, hd, hw]
      exact HostRes.unlockDeviceAccess_eq h.lockless _
    simp only [HostAccess.advance, hunlock]
    exact ⟨h.lockless, h.copies, (h.covers_erase ha).release, h.write, h.read⟩

theorem lockCpuTaken_cases (r : HostRes) (sync : NNPError) (w : Bool) :
    (r.lockCpuTaken sync w).1 ≠ .noError ∧ (r.lockCpuTaken sync w).2 = r ∨
      r.lockCpuTaken sync w = (.noError, { r with
        readers := take r.readers w, cpuLocked := if w then -1 else 1 }) := by
  by_cases hb : r.broken = true
  · rw [HostRes.lockCpuTaken, if_pos hb]
    refine .inl ⟨?_, rfl⟩
    rintro ⟨⟩
  · by_cases hret : (if r.cpuSyncNeeded then sync else NNPError.noError) = .noError
    · simp [HostRes.lockCpuTaken, hb, hret, take]
    · simp [HostRes.lockCpuTaken, hb, hret]

theorem unlockCpuAccess_snd {r : HostRes} (hl : r.lockless = false) (sync : NNPError) :
    (r.unlockCpuAccess sync).2 =
      if r.cpuLocked < 0 then { r with readers := 0, cpuLocked := 0 }
      else if 0 < r.cpuLocked then { r with readers := r.readers - 1, cpuLocked := 0 }
      else r := by
  simp only [HostRes.unlockCpuAccess, hl, Bool.false_eq_true, if_false]
  repeat' split
  all_goals rfl

theorem Inv.acquire (h : s.Inv isC2h) {t : τ} {w : Bool} (hfree : s.res.cpuCond w = true)
    (waiting : List (τ × Bool)) (sync : NNPError) :
    Inv isC2h { s with
      res := (s.res.lockCpuTaken sync w).2
      waiting := waiting
      cpu := if (s.res.lockCpuTaken sync w).1 = .noError then (t, w) :: s.cpu else s.cpu } := by
  rcases lockCpuTaken_cases s.res sync w with ⟨hret, hres⟩ | hret
  · rw [if_neg hret, hres]
    exact ⟨h.lockless, h.copies, h.covers, h.write, h.read⟩
  · simp only [hret, if_true]
    refine ⟨h.lockless, h.copies, (h.covers.take hfree).perm ?_, fun hneg => ⟨t, ?_⟩,
      fun hpos => ⟨t, ?_⟩⟩
    · exact List.perm_middle.symm
    · cases w
      · cases hneg
      · exact List.mem_cons_self
    · cases w
      · exact List.mem_cons_self
      · cases hpos

theorem Inv.mode (h : s.Inv isC2h) {t : τ} {w : Bool} (ht : (t, w) ∈ s.cpu) :
    (s.res.cpuLocked < 0 → w = true) ∧ (0 < s.res.cpuLocked → w = false) := by
  have hmem : ∀ {t w}, (t, w) ∈ s.cpu → w ∈ holders isC2h s.attempts s.cpu := fun h =>
    List.mem_append_right _ (List.mem_map.mpr ⟨_, h, rfl⟩)
  constructor
  · intro hneg
    obtain ⟨t', ht'⟩ := h.write hneg
    rcases h.covers.compatible with hone | hnone
    · exact List.mem_singleton.mp (hone ▸ hmem ht)
    · exact absurd (hmem ht') hnone
  · intro hpos
    obtain ⟨t', ht'⟩ := h.read hpos
    rcases h.covers.compatible with hone | hnone
    · cases List.mem_singleton.mp (hone ▸ hmem ht')
    · exact Bool.eq_false_iff.mpr fun hw => hnone (hw ▸ hmem ht)

variable [DecidableEq τ]

theorem Inv.unlockCpu (h : s.Inv isC2h) {t : τ} {w : Bool} (ht : (t, w) ∈ s.cpu)
    (sync : NNPError) :
    Inv isC2h { s with
      res := (s.res.unlockCpuAccess sync).2, cpu := s.cpu.erase (t, w) } := by
  have hcovers : Covers s.res.readers (w :: holders isC2h s.attempts (s.cpu.erase (t, w))) :=
    h.covers.perm ((((List.perm_cons_erase ht).map Prod.snd).append_left _).trans
      List.perm_middle)
  obtain ⟨hwrite, hread⟩ := h.mode ht
  rw [unlockCpuAccess_snd h.lockless]
  split_ifs with hneg hpos
  · obtain rfl := hwrite hneg
    exact ⟨h.lockless, h.copies, hcovers.release, fun h => absurd h (Int.lt_irrefl _),
      fun h => absurd h (Int.lt_irrefl _)⟩
  · obtain rfl := hread hpos
    exact ⟨h.lockless, h.copies, hcovers.release, fun h => absurd h (Int.lt_irrefl _),
      fun h => absurd h (Int.lt_irrefl _)⟩
  · -- the unlock is refused, and the lock stays
    exact ⟨h.lockless, h.copies, hcovers.leave, fun h => absurd h hneg, fun h => absurd h hpos⟩

theorem Inv.step (h : s.Inv isC2h) {op : HostAccessOp τ} (hs : s.step op = some u) :
    u.Inv isC2h := by
  cases op with
  | lockHostres c =>
    obtain rfl := Option.some.inj hs
    exact h.lockHostres c
  | advance a choice =>
    obtain ⟨ha, ⟨⟩⟩ := Option.ite_none_right_eq_some.mp hs
    exact h.advance ha choice
  | lockCpu t w =>
    simp only [HostAccess.step] at hs
    split at hs <;> obtain rfl := Option.some.inj hs
    · exact h
    · exact ⟨h.lockless, h.copies, h.covers, h.write, h.read⟩
  | acquire t w sync =>
    obtain ⟨⟨-, hfree⟩, ⟨⟩⟩ := Option.ite_none_right_eq_some.mp hs
    exact h.acquire hfree _ sync
  | expire t w =>
    obtain ⟨-, ⟨⟩⟩ := Option.ite_none_right_eq_some.mp hs
    exact ⟨h.lockless, h.copies, h.covers, h.write, h.read⟩
  | unlockCpu t w sync =>
    obtain ⟨ht, ⟨⟩⟩ := Option.ite_none_right_eq_some.mp hs
    exact h.unlockCpu (List.contains_iff_mem.mp ht) sync
  | updateCopyFailCount n =>
    obtain rfl := Option.some.inj hs
    exact h.updateCopyFailCount n

/-- For any copies and threads and any order of their steps with the card's, no copy runs while
the resource is used in a way that conflicts with it, whatever locks are left behind. -/
theorem race_free (isC2h : ℕ → Bool) (size : ℕ → ℕ) (hostresSize : ℕ) (cpuSyncNeeded : Bool)
    (ops : List (HostAccessOp τ)) :
    Exec.Always step RaceFree (create isC2h size hostresSize cpuSyncNeeded : HostAccess τ) ops :=
  (Exec.always_of_preserved (create_inv size hostresSize cpuSyncNeeded)
    fun _ _ _ h hs => h.step hs).mono fun _ h => h.raceFree

/-- Two readers behind a copy to the host: the second one's lock stays, and the next copy to the
host is refused. -/
example : (Exec.run step (create (fun _ => true) (fun _ => 1) 1 false : HostAccess ℕ)
    [.lockHostres 0, .lockCpu 1 false, .lockCpu 2 false, .advance (0, .locked) true,
      .advance (0, .marked) true, .advance (0, .sent) false, .advance (0, .ended false) true,
      .advance (0, .found false) true, .advance (0, .unmarked) true, .acquire 1 false .noError,
      .acquire 2 false .noError, .unlockCpu 1 false .noError, .unlockCpu 2 false .noError,
      .lockHostres 1]).map (fun s => (s.res.readers, s.attempts, s.cpu)) = some (1, [], []) := by
  decide

end HostAccess

end NNPIHost

import NNPIHost.Copy.Command

/-! # Executions of a copy command

Threads schedule one copy and the card completes the executions. A copy keeps one mark
however often it is scheduled, so of two executions that share a read lock's mark only one
finds it at its end, and the other leaves its lock behind.
-/

namespace NNPIHost

/-- A copy with its host resource, the modes of the resource's other holders, and the number
of its executions at each point of their way. -/
structure CopyState where
  copy : CopyCommand
  res : HostRes
  others : List Bool
  tested : ℕ
  locked : ℕ
  marked : ℕ
  inFlight : ℕ
  unsent : ℕ
  /-- Those whose end has seen the mark, each with whether the copy failed. -/
  found : List Bool
  unmarked : ℕ
  /-- The device locks that the copy has taken and not released. -/
  held : ℕ
  deriving DecidableEq

inductive CopyOp where
  | schedule (canSchedule : Bool) (size : ℕ)
  | lock
  | mark
  | write (ok : Bool)
  | undo
  | complete (failed : Bool)
  | unmark (failed : Bool)
  | unlock
  | lockOther (forWrite : Bool)
  | unlockOther (forWrite : Bool)
  | updateCopyFailCount (n : ℤ)

namespace CopyState

def create (isC2h : Bool) (devresSize hostresSize : ℕ) (cpuSyncNeeded : Bool) : CopyState :=
  ⟨.create isC2h devresSize hostresSize, .create false cpuSyncNeeded, [], 0, 0, 0, 0, 0, [], 0, 0⟩

/-- The test of `postSchedule`: without the mark there is nothing left to do. -/
def find (s : CopyState) (failed : Bool) : CopyState :=
  if s.copy.scheduled then { s with found := failed :: s.found } else s

def step (s : CopyState) : CopyOp → Option CopyState
  | .schedule canSchedule size =>
      match s.copy.scheduleTest s.res canSchedule size with
      | some _ => some s
      | none => some { s with tested := s.tested + 1 }
  | .lock =>
      if 0 < s.tested then
        match s.copy.lockHostres s.res with
        | (ret, res) =>
          if ret = .noError then some { s with
            res, tested := s.tested - 1, locked := s.locked + 1, held := s.held + 1 }
          else some { s with res, tested := s.tested - 1 }
      else none
  | .mark =>
      if 0 < s.locked then
        some { s with copy := s.copy.mark, locked := s.locked - 1, marked := s.marked + 1 }
      else none
  | .write ok =>
      if 0 < s.marked then
        if ok then some { s with marked := s.marked - 1, inFlight := s.inFlight + 1 }
        else some { s with marked := s.marked - 1, unsent := s.unsent + 1 }
      else none
  | .undo =>
      if 0 < s.unsent then some ({ s with unsent := s.unsent - 1 }.find false) else none
  | .complete failed =>
      if 0 < s.inFlight then some ({ s with inFlight := s.inFlight - 1 }.find failed) else none
  | .unmark failed =>
      if failed ∈ s.found then some { s with
        copy := s.copy.unmark, res := s.copy.countFailure s.res failed
        found := s.found.erase failed, unmarked := s.unmarked + 1 }
      else none
  | .unlock =>
      if 0 < s.unmarked then some { s with
        res := s.copy.unlockHostres s.res, unmarked := s.unmarked - 1, held := s.held - 1 }
      else none
  | .lockOther w =>
      match s.res.lockDeviceAccess w with
      | (ret, res) =>
          if ret = .noError then some { s with res, others := w :: s.others } else some s
  | .unlockOther w =>
      if w ∈ s.others then
        some { s with res := s.res.unlockDeviceAccess w, others := s.others.erase w }
      else none
  | .updateCopyFailCount n => some { s with res := s.res.updateCopyFailCount n }

/-- The executions that have their lock, or wait to give it back, and have not completed. -/
def outstanding (s : CopyState) : ℕ :=
  s.locked + s.marked + s.inFlight + s.unsent + s.found.length + s.unmarked

def holders (s : CopyState) : List Bool := List.replicate s.held s.copy.isC2h ++ s.others

/-- The copy holds a lock for each outstanding execution, the counter of the resource stands
for these and the other holders, and it is back at zero when there are none. -/
structure LocksFollow (s : CopyState) : Prop where
  held_eq : s.held = s.outstanding
  held : Lock.Held s.res.readers s.holders
  free : s.outstanding = 0 → s.others = [] → s.res.readers = 0

/-- A completion, or a call whose message was not written, finds the copy's mark. -/
def FindsMark (s : CopyState) : CopyOp → Prop
  | .complete _ => 0 < s.inFlight → s.copy.scheduled = true
  | .undo => 0 < s.unsent → s.copy.scheduled = true
  | _ => True

instance (s : CopyState) : Decidable s.LocksFollow :=
  decidable_of_iff (s.held = s.outstanding ∧ Lock.Held s.res.readers s.holders ∧
    (s.outstanding = 0 → s.others = [] → s.res.readers = 0))
    ⟨fun ⟨a, b, c⟩ => ⟨a, b, c⟩, fun ⟨a, b, c⟩ => ⟨a, b, c⟩⟩

instance (s : CopyState) : DecidablePred s.FindsMark := fun op => by
  unfold FindsMark
  split <;> infer_instance

structure Inv (s : CopyState) : Prop where
  isD2d : s.copy.isD2d = false
  lockless : s.res.lockless = false
  held : Lock.Held s.res.readers s.holders

variable {s t : CopyState} {isC2h : Bool} {devresSize hostresSize : ℕ} {cpuSyncNeeded : Bool}

theorem create_inv : (create isC2h devresSize hostresSize cpuSyncNeeded).Inv :=
  ⟨rfl, rfl, .nil⟩

theorem create_locksFollow : (create isC2h devresSize hostresSize cpuSyncNeeded).LocksFollow :=
  ⟨rfl, .nil, fun _ _ => rfl⟩

theorem Inv.locksFollow_iff (h : s.Inv) : s.LocksFollow ↔ s.held = s.outstanding := by
  constructor
  · exact LocksFollow.held_eq
  · intro heq
    refine ⟨heq, h.held, fun hzero hothers => h.held.eq_zero_iff.mpr ?_⟩
    rw [holders, heq, hzero, hothers]
    rfl

/-- The end of an execution is still accounted for exactly when it finds the mark. -/
theorem Inv.find (h : s.Inv) (heq : s.held = s.outstanding + 1) (failed : Bool) :
    (s.find failed).Inv ∧ ((s.find failed).LocksFollow ↔ s.copy.scheduled = true) := by
  have hinv : (s.find failed).Inv := by
    unfold CopyState.find
    split
    · exact ⟨h.isD2d, h.lockless, h.held⟩
    · exact h
  refine ⟨hinv, hinv.locksFollow_iff.trans ?_⟩
  unfold CopyState.find outstanding
  unfold outstanding at heq
  split
  next hm => exact iff_of_true (by simp only [List.length_cons]; omega) hm
  next hm => exact iff_of_false (by omega) hm

/-- A step keeps the counter, and keeps the account exactly when it finds the mark. -/
theorem Inv.step (h : s.Inv) (hf : s.LocksFollow) {op : CopyOp} (hs : s.step op = some t) :
    t.Inv ∧ (t.LocksFollow ↔ s.FindsMark op) := by
  have heq := hf.held_eq
  unfold outstanding at heq
  -- All cases but the two ends of an execution only move it on.
  suffices hmove : t.Inv ∧ t.held = t.outstanding ∧ s.FindsMark op ∨
      t.Inv ∧ (t.LocksFollow ↔ s.FindsMark op) by
    rcases hmove with ⟨hinv, hheld, hok⟩ | hend
    · exact ⟨hinv, iff_of_true (hinv.locksFollow_iff.mpr hheld) hok⟩
    · exact hend
  cases op with
  | schedule canSchedule size =>
    simp only [CopyState.step] at hs
    split at hs <;> obtain rfl := Option.some.inj hs
    · exact .inl ⟨h, heq, trivial⟩
    · exact .inl ⟨⟨h.isD2d, h.lockless, h.held⟩, heq, trivial⟩
  | lock =>
    simp only [CopyState.step, Option.ite_none_right_eq_some] at hs
    obtain ⟨hpos, hs⟩ := hs
    rw [CopyCommand.lockHostres, h.isD2d] at hs
    rcases HostRes.lockDeviceAccess_cases h.lockless s.copy.isC2h with hret | ⟨hfree, hret⟩ <;>
      rw [if_neg Bool.false_ne_true, hret] at hs <;> obtain rfl := Option.some.inj hs
    · exact .inl ⟨⟨h.isD2d, h.lockless, h.held⟩, heq, trivial⟩
    · refine .inl ⟨⟨h.isD2d, h.lockless, h.held.take hfree⟩, ?_, trivial⟩
      simp only [outstanding]
      omega
  | mark =>
    simp only [CopyState.step, Option.ite_none_right_eq_some] at hs
    obtain ⟨hpos, hs⟩ := hs
    obtain rfl := Option.some.inj hs
    refine .inl ⟨⟨by simpa using h.isD2d, h.lockless, by simpa [holders] using h.held⟩, ?_, trivial⟩
    simp only [outstanding]
    omega
  | write ok =>
    simp only [CopyState.step, Option.ite_none_right_eq_some] at hs
    obtain ⟨hpos, hs⟩ := hs
    split at hs <;> obtain rfl := Option.some.inj hs <;>
      refine .inl ⟨⟨h.isD2d, h.lockless, h.held⟩, ?_, trivial⟩ <;> simp only [outstanding] <;> omega
  | undo =>
    simp only [CopyState.step, Option.ite_none_right_eq_some] at hs
    obtain ⟨hpos, hs⟩ := hs
    obtain rfl := Option.some.inj hs
    have hinv : Inv { s with unsent := s.unsent - 1 } := ⟨h.isD2d, h.lockless, h.held⟩
    obtain ⟨hinv, hiff⟩ := hinv.find (by simp only [outstanding]; omega) false
    exact .inr ⟨hinv, hiff.trans ⟨fun hm _ => hm, fun hok => hok hpos⟩⟩
  | complete failed =>
    simp only [CopyState.step, Option.ite_none_right_eq_some] at hs
    obtain ⟨hpos, hs⟩ := hs
    obtain rfl := Option.some.inj hs
    have hinv : Inv { s with inFlight := s.inFlight - 1 } := ⟨h.isD2d, h.lockless, h.held⟩
    obtain ⟨hinv, hiff⟩ := hinv.find (by simp only [outstanding]; omega) failed
    exact .inr ⟨hinv, hiff.trans ⟨fun hm _ => hm, fun hok => hok hpos⟩⟩
  | unmark failed =>
    simp only [CopyState.step, Option.ite_none_right_eq_some] at hs
    obtain ⟨hm, hs⟩ := hs
    obtain rfl := Option.some.inj hs
    have hinv : s.copy.unmark.isD2d = false ∧
        (s.copy.countFailure s.res failed).lockless = false := ⟨h.isD2d, by simpa using h.lockless⟩
    refine .inl ⟨⟨hinv.1, hinv.2, by simpa [holders] using h.held⟩, ?_, trivial⟩
    have hpos : 0 < s.found.length := List.length_pos_of_mem hm
    simp only [outstanding, List.length_erase_of_mem hm]
    omega
  | unlock =>
    simp only [CopyState.step, Option.ite_none_right_eq_some] at hs
    obtain ⟨hpos, hs⟩ := hs
    obtain rfl := Option.some.inj hs
    rw [CopyCommand.unlockHostres, h.isD2d, if_neg Bool.false_ne_true,
      HostRes.unlockDeviceAccess_eq h.lockless]
    refine .inl ⟨⟨h.isD2d, h.lockless, Lock.Held.release ?_⟩, ?_, trivial⟩
    · have hheld := h.held
      obtain ⟨n, hn⟩ : ∃ n, s.held = n + 1 := ⟨s.held - 1, by omega⟩
      rw [holders, hn, List.replicate_succ, List.cons_append] at hheld
      simpa [holders, hn] using hheld
    · simp only [outstanding]
      omega
  | lockOther w =>
    simp only [CopyState.step] at hs
    rcases HostRes.lockDeviceAccess_cases h.lockless w with hret | ⟨hfree, hret⟩ <;>
      rw [hret] at hs <;> obtain rfl := Option.some.inj hs
    · exact .inl ⟨h, heq, trivial⟩
    · have hp : (w :: s.holders).Perm (List.replicate s.held s.copy.isC2h ++ w :: s.others) :=
        List.perm_middle.symm
      exact .inl ⟨⟨h.isD2d, h.lockless, (h.held.take hfree).perm hp⟩, heq, trivial⟩
  | unlockOther w =>
    simp only [CopyState.step, Option.ite_none_right_eq_some] at hs
    obtain ⟨hm, hs⟩ := hs
    obtain rfl := Option.some.inj hs
    rw [HostRes.unlockDeviceAccess_eq h.lockless]
    have hp : s.holders.Perm (w :: (List.replicate s.held s.copy.isC2h ++ s.others.erase w)) :=
      ((List.perm_cons_erase hm).append_left _).trans List.perm_middle
    exact .inl ⟨⟨h.isD2d, h.lockless, (h.held.perm hp).release⟩, heq, trivial⟩
  | updateCopyFailCount n =>
    obtain rfl := Option.some.inj hs
    exact .inl ⟨⟨h.isD2d, h.lockless, h.held⟩, heq, trivial⟩

theorem findsMark_of_disabled {op : CopyOp} (hs : s.step op = none) : s.FindsMark op := by
  cases op with
  | complete failed =>
    intro hpos
    simp [CopyState.step, hpos] at hs
  | undo =>
    intro hpos
    simp [CopyState.step, hpos] at hs
  | _ => trivial

/-- In every state of a run the locks of a copy follow its executions, exactly when each
completion and each failed call of the run finds the mark. -/
theorem locks_follow_executions (isC2h : Bool) (devresSize hostresSize : ℕ) (cpuSyncNeeded : Bool)
    (ops : List CopyOp) :
    Exec.Always step LocksFollow (create isC2h devresSize hostresSize cpuSyncNeeded) ops ↔
      Exec.Meets step FindsMark (create isC2h devresSize hostresSize cpuSyncNeeded) ops :=
  Exec.always_iff_meets create_locksFollow create_inv (fun _ _ _ h hf hs => h.step hf hs)
    fun _ _ _ _ hs => findsMark_of_disabled hs

/-- The copy is marked while an execution that set the mark has not taken it away. -/
def MarkedWhile (s : CopyState) : Prop :=
  s.copy.scheduled = true ↔ 0 < s.marked + s.inFlight + s.unsent + s.found.length

theorem MarkedWhile.find (hm : s.copy.scheduled = true) (failed : Bool) :
    (s.find failed).MarkedWhile := by
  rw [CopyState.find, if_pos hm]
  exact iff_of_true hm (by simp only [List.length_cons]; omega)

theorem MarkedWhile.step (hm : s.MarkedWhile) (h : s.Inv) (hone : s.outstanding ≤ 1)
    {op : CopyOp} (hs : s.step op = some t) : t.MarkedWhile := by
  unfold outstanding at hone
  cases op with
  | mark =>
    simp only [CopyState.step, Option.ite_none_right_eq_some] at hs
    obtain ⟨hpos, hs⟩ := hs
    obtain rfl := Option.some.inj hs
    exact iff_of_true (by simp [CopyCommand.mark, h.isD2d]) (by simp only; omega)
  | write ok =>
    simp only [CopyState.step, Option.ite_none_right_eq_some] at hs
    obtain ⟨hpos, hs⟩ := hs
    have hset : s.copy.scheduled = true := hm.mpr (by omega)
    split at hs <;> obtain rfl := Option.some.inj hs <;>
      exact iff_of_true hset (by simp only; omega)
  | undo =>
    simp only [CopyState.step, Option.ite_none_right_eq_some] at hs
    obtain ⟨hpos, hs⟩ := hs
    obtain rfl := Option.some.inj hs
    have hset : s.copy.scheduled = true := hm.mpr (by omega)
    exact .find (s := { s with unsent := s.unsent - 1 }) hset false
  | complete failed =>
    simp only [CopyState.step, Option.ite_none_right_eq_some] at hs
    obtain ⟨hpos, hs⟩ := hs
    obtain rfl := Option.some.inj hs
    have hset : s.copy.scheduled = true := hm.mpr (by omega)
    exact .find (s := { s with inFlight := s.inFlight - 1 }) hset failed
  | unmark failed =>
    simp only [CopyState.step, Option.ite_none_right_eq_some] at hs
    obtain ⟨hmem, hs⟩ := hs
    obtain rfl := Option.some.inj hs
    have hpos : 0 < s.found.length := List.length_pos_of_mem hmem
    -- the only execution takes away the mark that it set
    refine iff_of_false (by simp) ?_
    simp only [List.length_erase_of_mem hmem]
    omega
  | schedule canSchedule size =>
    simp only [CopyState.step] at hs
    split at hs <;> obtain rfl := Option.some.inj hs <;> exact hm
  | lock =>
    simp only [CopyState.step, Option.ite_none_right_eq_some] at hs
    obtain ⟨_, hs⟩ := hs
    split at hs <;> obtain rfl := Option.some.inj hs <;> exact hm
  | lockOther w =>
    simp only [CopyState.step] at hs
    split at hs <;> obtain rfl := Option.some.inj hs <;> exact hm
  | unlock | unlockOther w =>
    simp only [CopyState.step, Option.ite_none_right_eq_some] at hs
    obtain ⟨_, hs⟩ := hs
    obtain rfl := Option.some.inj hs
    exact hm
  | updateCopyFailCount n =>
    obtain rfl := Option.some.inj hs
    exact hm

theorem step_isC2h {op : CopyOp} (hs : s.step op = some t) : t.copy.isC2h = s.copy.isC2h := by
  cases op <;> simp only [CopyState.step, CopyState.find] at hs <;>
    grind [CopyCommand.mark_isC2h, CopyCommand.unmark_isC2h]

/-- A device-to-host copy has the write lock, so it has one execution at a time and its locks
follow its executions in every run. -/
theorem c2h_locksFollow (devresSize hostresSize : ℕ) (cpuSyncNeeded : Bool) (ops : List CopyOp) :
    Exec.Always step LocksFollow (create true devresSize hostresSize cpuSyncNeeded) ops := by
  let I : CopyState → Prop := fun s =>
    s.Inv ∧ s.LocksFollow ∧ s.MarkedWhile ∧ s.copy.isC2h = true
  have hI : I (create true devresSize hostresSize cpuSyncNeeded) :=
    ⟨create_inv, create_locksFollow, by simp [MarkedWhile, create, CopyCommand.create], rfl⟩
  refine (Exec.always_of_preserved hI ?_).mono fun s h => h.2.1
  rintro s op t ⟨hinv, hf, hm, hc⟩ hs
  have hone : s.outstanding ≤ 1 := by
    have hheld := hinv.held
    rw [holders, hc] at hheld
    exact hf.held_eq ▸ hheld.writers_le_one
  have hok : s.FindsMark op := by
    cases op with
    | complete failed => exact fun hpos => hm.mpr (by omega)
    | undo => exact fun hpos => hm.mpr (by omega)
    | _ => trivial
  obtain ⟨hinv', hiff⟩ := hinv.step hf hs
  exact ⟨hinv', hiff.mpr hok, hm.step hinv hone hs, (step_isC2h hs).trans hc⟩

/-- A read-locked copy is scheduled twice before it completes: the second completion finds
no mark and one read lock stays. -/
theorem second_execution_keeps_lock :
    ¬ Exec.Always step LocksFollow (create false 64 64 false)
      [.schedule true 64, .lock, .mark, .write true, .schedule true 64, .lock, .mark, .write true,
        .complete false, .unmark false, .unlock, .complete false] := by
  decide

end CopyState

end NNPIHost

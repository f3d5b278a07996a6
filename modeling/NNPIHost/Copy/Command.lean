import NNPIHost.HostRes.Locks

/-! # Copy commands

A copy command locks its host resource for the device when it is scheduled and marks itself
as scheduled; whoever takes the mark away releases the lock.
-/

namespace NNPIHost

/-- The fields of `nnpiCopyCommand` that scheduling uses. `peerSize` is the size of the host
resource, or of the source of a copy between devices. -/
structure CopyCommand where
  isC2h : Bool
  isD2d : Bool
  devresSize : ℕ
  peerSize : ℕ
  scheduled : Bool
  deriving DecidableEq, Repr

namespace CopyCommand

def create (isC2h : Bool) (devresSize hostresSize : ℕ) : CopyCommand :=
  ⟨isC2h, false, devresSize, hostresSize, false⟩

def maxSize (c : CopyCommand) : ℕ := min c.devresSize c.peerSize

/-- The tests that `schedule` makes before it locks; `none` when it goes on.
`canSchedule` is what `wait_can_schedule` returns. -/
def scheduleTest (c : CopyCommand) (r : HostRes) (canSchedule : Bool) (size : ℕ) :
    Option NNPError :=
  let size := if size = 0 then c.maxSize else size
  if ¬ canSchedule then some .contextBroken
  else if c.peerSize < size ∨ c.devresSize < size then some .invalidArgument
  else if ¬ c.isD2d ∧ r.broken then some .hostresBroken
  else none

/-- `preSchedule` first locks the host resource. -/
def lockHostres (c : CopyCommand) (r : HostRes) : NNPError × HostRes :=
  if c.isD2d then (.noError, r) else r.lockDeviceAccess c.isC2h

/-- Once it has the lock it sets the mark. -/
def mark (c : CopyCommand) : CopyCommand := if c.isD2d then c else { c with scheduled := true }

/-- `postSchedule` first takes the mark away, if there is one. -/
def unmark (c : CopyCommand) : CopyCommand := { c with scheduled := false }

/-- `addFailedHostRes`, when `postSchedule` has an error list. -/
def countFailure (c : CopyCommand) (r : HostRes) (failed : Bool) : HostRes :=
  if ¬ c.isD2d ∧ failed then r.updateCopyFailCount 1 else r

/-- It then releases the lock. -/
def unlockHostres (c : CopyCommand) (r : HostRes) : HostRes :=
  if c.isD2d then r else r.unlockDeviceAccess c.isC2h

variable {c : CopyCommand} {r : HostRes}

@[simp] theorem unmark_scheduled (c : CopyCommand) : c.unmark.scheduled = false := rfl

@[simp] theorem mark_isD2d (c : CopyCommand) : c.mark.isD2d = c.isD2d := by
  cases h : c.isD2d <;> simp [mark, h]

@[simp] theorem unmark_isC2h (c : CopyCommand) : c.unmark.isC2h = c.isC2h := rfl

@[simp] theorem mark_isC2h (c : CopyCommand) : c.mark.isC2h = c.isC2h := by
  cases h : c.isD2d <;> simp [mark, h]

@[simp] theorem countFailure_readers (c : CopyCommand) (r : HostRes) (failed : Bool) :
    (c.countFailure r failed).readers = r.readers := by
  unfold countFailure
  split <;> rfl

@[simp] theorem countFailure_lockless (c : CopyCommand) (r : HostRes) (failed : Bool) :
    (c.countFailure r failed).lockless = r.lockless := by
  unfold countFailure
  split <;> rfl

end CopyCommand

end NNPIHost

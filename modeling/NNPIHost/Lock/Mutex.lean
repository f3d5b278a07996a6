import Mathlib.Data.Option.Basic
import Mathlib.Tactic.Common

/-! # Mutex discipline

A history of lock and unlock operations, the latest first, is disciplined when each of them
is allowed: a lock of a free mutex, an unlock by the thread that holds it.
-/

namespace NNPIHost.Lock

variable {τ : Type*} [DecidableEq τ]

inductive MutexEvent (τ : Type*) where
  | lock (t : τ)
  | unlock (t : τ)
  deriving DecidableEq

/-- The owner after a disciplined history. -/
def owner? : List (MutexEvent τ) → Option (Option τ)
  | [] => some none
  | .lock t :: es => if owner? es = some none then some (some t) else none
  | .unlock t :: es => if owner? es = some (some t) then some none else none

variable {es : List (MutexEvent τ)} {t : τ} {owner : Option τ}

theorem owner?_lock (h : owner? es = some none) : owner? (.lock t :: es) = some (some t) :=
  if_pos h

theorem owner?_unlock (h : owner? es = some owner) :
    owner? (.unlock t :: es) = some none ↔ owner = some t := by
  simp [owner?, h]

theorem owner?_cons_lock (h : owner? (.lock t :: es) = some owner) :
    owner? es = some none ∧ owner = some t := by
  rw [owner?] at h
  split at h
  next hfree => exact ⟨hfree, (Option.some.inj h).symm⟩
  next => cases h

theorem owner?_cons_unlock (h : owner? (.unlock t :: es) = some owner) :
    owner? es = some (some t) ∧ owner = none := by
  rw [owner?] at h
  split at h
  next hheld => exact ⟨hheld, (Option.some.inj h).symm⟩
  next => cases h

/-- In a disciplined history a thread has unlocked once for each time it locked, but for the
lock that it holds. -/
theorem count_lock_eq (h : owner? es = some owner) (t : τ) :
    es.count (.lock t) = es.count (.unlock t) + if owner = some t then 1 else 0 := by
  induction es generalizing owner with
  | nil =>
    obtain rfl := Option.some.inj h
    rfl
  | cons e es ih =>
    cases e with
    | lock u =>
      obtain ⟨hfree, rfl⟩ := owner?_cons_lock h
      have hcount := ih hfree
      simp [List.count_cons] at hcount ⊢
      omega
    | unlock u =>
      obtain ⟨hheld, rfl⟩ := owner?_cons_unlock h
      have hcount := ih hheld
      simp [List.count_cons] at hcount ⊢
      omega

end NNPIHost.Lock

import Mathlib.Data.Int.Notation
import Mathlib.Data.List.Basic
import Mathlib.Data.List.Perm.Subperm
import Mathlib.Tactic.Common

/-! # Read-write locks kept in one counter

A signed counter is zero when the lock is free, the number of readers, or minus one for a
writer. The holders are the modes in which the lock is held, `true` for writing. A holder that
forgets to release a lock leaves the counter higher than it need be. The counter then covers the
remaining holders, which are still compatible with each other.
-/

namespace NNPIHost.Lock

/-- A writer is the only holder. -/
def Compatible (hs : List Bool) : Prop := hs = [true] ∨ true ∉ hs

def counter (hs : List Bool) : ℤ := if true ∈ hs then -1 else hs.length

/-- The counter stands for holders that are compatible with each other. -/
def Held (n : ℤ) (hs : List Bool) : Prop := Compatible hs ∧ n = counter hs

instance (hs : List Bool) : Decidable (Compatible hs) := inferInstanceAs (Decidable (_ ∨ _))

instance (n : ℤ) (hs : List Bool) : Decidable (Held n hs) := inferInstanceAs (Decidable (_ ∧ _))

/-- Whether the lock can be taken at once. -/
def free (n : ℤ) (write : Bool) : Bool := if write then n == 0 else 0 ≤ n

def take (n : ℤ) (write : Bool) : ℤ := if write then -1 else n + 1

def release (n : ℤ) (write : Bool) : ℤ := if write then 0 else n - 1

variable {n : ℤ} {hs hs' : List Bool} {write : Bool}

theorem release_take (hf : free n write = true) : release (take n write) write = n := by
  cases write with
  | true =>
    obtain rfl : n = 0 := by simpa [free] using hf
    rfl
  | false => simp [release, take]

theorem free_of_take {w : Bool} (hf : free n write = true) (h : free (take n write) w = true) :
    free n w = true := by
  cases write <;> cases w <;> simp [free, take] at hf h ⊢ <;> omega

theorem Held.nil : Held 0 [] := ⟨.inr (List.not_mem_nil), rfl⟩

theorem Held.perm (h : Held n hs) (hp : hs.Perm hs') : Held n hs' := by
  obtain ⟨hc, hn⟩ := h
  constructor
  · rcases hc with rfl | hc
    · exact .inl (List.perm_singleton.mp hp.symm)
    · exact .inr fun hm => hc (hp.mem_iff.mpr hm)
  · simpa only [counter, hp.mem_iff, hp.length_eq] using hn

theorem Held.nonneg_iff (h : Held n hs) : 0 ≤ n ↔ true ∉ hs := by
  rw [h.2, counter]
  split
  next hm => exact iff_of_false (by omega) (not_not_intro hm)
  next hm => exact iff_of_true (by omega) hm

theorem Held.eq_zero_iff (h : Held n hs) : n = 0 ↔ hs = [] := by
  rw [h.2, counter]
  split
  next hm => exact iff_of_false (by omega) (List.ne_nil_of_mem hm)
  next hm => rw [Int.natCast_eq_zero, List.length_eq_zero_iff]

theorem Held.writers_le_one {k : ℕ} (h : Held n (List.replicate k true ++ hs)) : k ≤ 1 := by
  rcases h.1 with hone | hnone
  · have hlen := congrArg List.length hone
    rw [List.length_append, List.length_replicate, List.length_singleton] at hlen
    omega
  · cases k with
    | zero => exact Nat.zero_le 1
    | succ k => exact absurd (by simp) hnone

theorem Held.take (h : Held n hs) (hf : free n write = true) :
    Held (take n write) (write :: hs) := by
  cases write with
  | true =>
    obtain rfl : hs = [] := h.eq_zero_iff.mp (by simpa [free] using hf)
    exact ⟨.inl rfl, rfl⟩
  | false =>
    have hm : true ∉ hs := h.nonneg_iff.mp (by simpa [free] using hf)
    refine ⟨.inr (by simpa using hm), ?_⟩
    have hn := h.2
    simp only [counter, hm, if_false] at hn
    simp [Lock.take, counter, hm, hn]

theorem Held.release (h : Held n (write :: hs)) : Held (release n write) hs := by
  obtain ⟨hc, hn⟩ := h
  cases write with
  | true =>
    rcases hc with hc | hc
    · obtain rfl : hs = [] := (List.cons.inj hc).2
      exact Held.nil
    · exact absurd List.mem_cons_self hc
  | false =>
    rcases hc with hc | hc
    · cases (List.cons.inj hc).1
    · have hm : true ∉ hs := fun h => hc (List.mem_cons_of_mem _ h)
      refine ⟨.inr hm, ?_⟩
      simp only [counter, hc, if_false, List.length_cons] at hn
      simp [Lock.release, counter, hm, hn]

/-- The lock can be taken in all these modes at the same time. -/
def Admits (n : ℤ) (ws : List Bool) : Prop := ws = [] ∨ ws = [true] ∧ n = 0 ∨ true ∉ ws ∧ 0 ≤ n

/-- The counter once the lock has been taken in these modes. -/
def takes (n : ℤ) (ws : List Bool) : ℤ := if true ∈ ws then -1 else n + ws.length

variable {ws ws' : List Bool}

instance (n : ℤ) (ws : List Bool) : Decidable (Admits n ws) := inferInstanceAs (Decidable (_ ∨ _))

@[simp] theorem admits_nil (n : ℤ) : Admits n [] := .inl rfl

@[simp] theorem takes_nil (n : ℤ) : takes n [] = n := by simp [takes]

theorem Admits.perm (h : Admits n ws) (hp : ws.Perm ws') : Admits n ws' := by
  rcases h with rfl | ⟨rfl, hn⟩ | ⟨hm, hn⟩
  · exact .inl (List.nil_perm.mp hp)
  · exact .inr (.inl ⟨List.perm_singleton.mp hp.symm, hn⟩)
  · exact .inr (.inr ⟨fun h => hm (hp.mem_iff.mpr h), hn⟩)

theorem takes_perm (hp : ws.Perm ws') : takes n ws = takes n ws' := by
  simp only [takes, hp.mem_iff, hp.length_eq]

theorem admits_cons (h : Admits n ws) :
    Admits n (write :: ws) ↔ free (takes n ws) write = true := by
  rcases h with rfl | ⟨rfl, rfl⟩ | ⟨hm, hn⟩
  · cases write <;> simp [Admits, free]
  · cases write <;> simp [Admits, free, takes]
  · cases write with
    | true =>
      rcases ws with _ | ⟨w, ws⟩
      · simp [Admits, free]
      · simp only [Admits, free, takes, hm, if_false, if_true, List.length_cons]
        simp
        omega
    | false => simp [Admits, free, takes, hm, hn]; omega

theorem Admits.sublist (h : Admits n ws) (hs : ws'.Sublist ws) : Admits n ws' := by
  rcases h with rfl | ⟨rfl, hn⟩ | ⟨hm, hn⟩
  · exact .inl (List.sublist_nil.mp hs)
  · rcases List.sublist_singleton.mp hs with h | h
    · exact .inl h
    · exact .inr (.inl ⟨h, hn⟩)
  · exact .inr (.inr ⟨fun h => hm (hs.subset h), hn⟩)

theorem takes_cons (h : Admits n (write :: ws)) :
    takes n (write :: ws) = take (takes n ws) write := by
  cases write with
  | true => simp [takes, take]
  | false =>
    have hm : true ∉ ws := by
      rcases h with h | ⟨h, _⟩ | ⟨hm, _⟩
      · cases h
      · cases h
      · exact fun h => hm (List.mem_cons_of_mem _ h)
    simp [takes, take, hm]
    omega

theorem release_takes (h : Admits n (write :: ws)) :
    release (takes n (write :: ws)) write = takes n ws := by
  rw [takes_cons h, release_take ((admits_cons (h.sublist (List.sublist_cons_self ..))).mp h)]

theorem takes_eq_iff (h : Admits n ws) : takes n ws = n ↔ ws = [] := by
  rcases h with rfl | ⟨rfl, rfl⟩ | ⟨hm, _⟩
  · simp
  · simp [takes]
  · rw [takes, if_neg hm, ← List.length_eq_zero_iff]
    omega

section Covers

/-- The counter stands for these holders, and perhaps for others that are gone. -/
def Covers (n : ℤ) (hs : List Bool) : Prop := ∃ held, Held n held ∧ hs.Subperm held

variable {n : ℤ} {hs hs' : List Bool} {write : Bool}

theorem Compatible.subperm (h : Compatible hs) (hsub : hs'.Subperm hs) : Compatible hs' := by
  rcases h with rfl | h
  · rcases List.subperm_singleton_iff.mp hsub with rfl | rfl
    · exact .inr List.not_mem_nil
    · exact .inl rfl
  · exact .inr fun hm => h (hsub.subset hm)

namespace Covers

theorem nil : Covers 0 [] := ⟨[], .nil, .refl _⟩

theorem compatible (h : Covers n hs) : Compatible hs := by
  obtain ⟨held, hheld, hsub⟩ := h
  exact hheld.1.subperm hsub

theorem perm (h : Covers n hs) (hp : hs.Perm hs') : Covers n hs' := by
  obtain ⟨held, hheld, hsub⟩ := h
  exact ⟨held, hheld, hp.symm.subperm.trans hsub⟩

theorem leave (h : Covers n (write :: hs)) : Covers n hs := by
  obtain ⟨held, hheld, hsub⟩ := h
  exact ⟨held, hheld, (List.sublist_cons_self _ _).subperm.trans hsub⟩

theorem take (h : Covers n hs) (hf : free n write = true) :
    Covers (take n write) (write :: hs) := by
  obtain ⟨held, hheld, hsub⟩ := h
  exact ⟨write :: held, hheld.take hf, (List.subperm_cons _).mpr hsub⟩

theorem release (h : Covers n (write :: hs)) : Covers (release n write) hs := by
  obtain ⟨held, hheld, hsub⟩ := h
  have hp := List.perm_cons_erase (hsub.subset List.mem_cons_self)
  refine ⟨held.erase write, (hheld.perm hp).release, ?_⟩
  exact (List.subperm_cons _).mp (hsub.trans hp.subperm)

end Covers

end Covers

end NNPIHost.Lock

import Mathlib.Data.List.GetD
import Mathlib.Tactic.Common

/-! # Circular memory and bounded queues

A window is a run of cells of a memory of `S` cells that wraps at its end. Storing data in
the cells after a window extends it and leaves the window itself as it was. The bounded
queue keeps all that was ever written and the number of elements already taken.
-/

namespace NNPIHost.Fifo

variable {β : Type*}

/-- The cells of the circular memory from position `pos` on. -/
def window (mem : ℕ → β) (S pos len : ℕ) : List β :=
  (List.range len).map fun i => mem ((pos + i) % S)

/-- Write the data from position `pos` on, wrapping at the end of the memory. -/
def store (mem : ℕ → β) (S pos : ℕ) (xs : List β) : ℕ → β := fun j =>
  if j < S then xs.getD ((j + S - pos) % S) (mem j) else mem j

variable {mem : ℕ → β} {S pos : ℕ} {xs : List β}

@[simp] theorem length_window (len : ℕ) : (window mem S pos len).length = len := by
  simp [window]

theorem getElem_window {len i : ℕ} (h : i < (window mem S pos len).length) :
    (window mem S pos len)[i] = mem ((pos + i) % S) := by
  simp [window]

theorem window_add (m n : ℕ) :
    window mem S pos (m + n) = window mem S pos m ++ window mem S ((pos + m) % S) n := by
  simp [window, List.range_add, Nat.add_assoc]

theorem take_window {m n : ℕ} (h : m ≤ n) :
    (window mem S pos n).take m = window mem S pos m := by
  obtain ⟨k, rfl⟩ := Nat.exists_eq_add_of_le h
  rw [window_add]
  exact List.take_left' (length_window m)

theorem drop_window {m n : ℕ} (h : m ≤ n) :
    (window mem S pos n).drop m = window mem S ((pos + m) % S) (n - m) := by
  obtain ⟨k, rfl⟩ := Nat.exists_eq_add_of_le h
  rw [window_add, Nat.add_sub_cancel_left]
  exact List.drop_left' (length_window m)

theorem window_block {len : ℕ} (h : pos + len ≤ S) :
    window mem S pos len = (List.range len).map fun i => mem (pos + i) := by
  apply List.map_congr_left
  intro i hi
  rw [Nat.mod_eq_of_lt (by have := List.mem_range.mp hi; omega)]

theorem mod_distance {i : ℕ} (hp : pos < S) (hi : i < S) :
    ((pos + i) % S + S - pos) % S = i := by
  rcases Nat.lt_or_ge (pos + i) S with h | h
  · rw [Nat.mod_eq_of_lt h, show pos + i + S - pos = i + S by omega, Nat.add_mod_right,
      Nat.mod_eq_of_lt hi]
  · rw [Nat.mod_eq_sub_mod h, Nat.mod_eq_of_lt (show pos + i - S < S by omega),
      show pos + i - S + S - pos = i by omega, Nat.mod_eq_of_lt hi]

theorem store_at {i : ℕ} (hp : pos < S) (hi : i < S) :
    store mem S pos xs ((pos + i) % S) = xs.getD i (mem ((pos + i) % S)) := by
  rw [store, if_pos (Nat.mod_lt _ (by omega)), mod_distance hp hi]

theorem window_store {m : ℕ} (hp : pos < S) (hx : xs.length ≤ S) (hm : m ≤ xs.length) :
    window (store mem S pos xs) S pos m = xs.take m := by
  apply List.ext_getElem (by simp [hm])
  intro i hi _
  rw [length_window] at hi
  rw [getElem_window, store_at hp (by omega), List.getD_eq_getElem _ _ (by omega),
    List.getElem_take]

theorem window_store_of_le {len : ℕ} (hp : pos < S) (h : len + xs.length ≤ S) :
    window (store mem S ((pos + len) % S) xs) S pos len = window mem S pos len := by
  apply List.map_congr_left
  intro i hi
  have hi := List.mem_range.mp hi
  have hS : (pos + len) % S < S := Nat.mod_lt _ (by omega)
  have he : (pos + i) % S = ((pos + len) % S + (S - len + i)) % S := by
    rw [Nat.mod_add_mod, show pos + len + (S - len + i) = pos + i + S by omega,
      Nat.add_mod_right]
  rw [he, store_at hS (by omega), List.getD_eq_default _ _ (by omega)]

theorem window_positions_ne {len i j : ℕ} (hp : pos < S) (hi : i < len) (hj : len + j < S) :
    (pos + i) % S ≠ (pos + len + j) % S := by
  intro h
  have h₁ := mod_distance hp (show i < S by omega)
  have h₂ := mod_distance hp hj
  rw [show pos + (len + j) = pos + len + j by omega, ← h, h₁] at h₂
  omega

/-- A queue as the history of what was put in and the number of elements taken out. -/
structure Queue (β : Type*) where
  written : List β
  taken : ℕ

namespace Queue

def empty : Queue β := ⟨[], 0⟩

/-- The elements put in and not yet taken, oldest first. -/
def unread (q : Queue β) : List β := q.written.drop q.taken

inductive Op (β : Type*) where
  | put (xs : List β)
  | get (m : ℕ)

/-- Elements are put in while the capacity lasts and taken while there are any. -/
def step (capacity : ℕ) (q : Queue β) : Op β → Option (Queue β)
  | .put xs =>
      if q.unread.length + xs.length ≤ capacity then some { q with written := q.written ++ xs }
      else none
  | .get m => if m ≤ q.unread.length then some { q with taken := q.taken + m } else none

variable {q : Queue β}

/-- No more is taken than was written. -/
def Valid (q : Queue β) : Prop := q.taken ≤ q.written.length

theorem length_unread : q.unread.length = q.written.length - q.taken := by simp [unread]

theorem unread_put (h : q.Valid) (xs : List β) :
    unread { q with written := q.written ++ xs } = q.unread ++ xs :=
  List.drop_append_of_le_length h

theorem unread_get (m : ℕ) : unread { q with taken := q.taken + m } = q.unread.drop m := by
  simp [unread, List.drop_drop]

end Queue

end NNPIHost.Fifo

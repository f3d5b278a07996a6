import NNPIHost.Fifo.Circular
import NNPIHost.Memory.Block

/-! # Circular memory in two pieces

A window that wraps is read as the block up to the end of the memory and one from its start, and
stored in the same two pieces. One that does not wrap is a single block.
-/

namespace NNPIHost.Fifo

variable {β : Type*} {mem : ℕ → β} {S pos len : ℕ} {xs : List β}

theorem window_eq_read (h : pos + len ≤ S) : window mem S pos len = Memory.read mem pos len :=
  window_block h

theorem window_eq_read_append (hp : pos < S) (hge : S - pos ≤ len) (hle : len ≤ S) :
    window mem S pos len =
      Memory.read mem pos (S - pos) ++ Memory.read mem 0 (len - (S - pos)) := by
  obtain ⟨rest, rfl⟩ := Nat.exists_eq_add_of_le hge
  have hwrap : (pos + (S - pos)) % S = 0 := by
    rw [Nat.add_sub_of_le (Nat.le_of_lt hp), Nat.mod_self]
  rw [window_add, hwrap, window_eq_read (by omega), window_eq_read (by omega),
    Nat.add_sub_cancel_left]

theorem store_eq_write (h : pos + xs.length ≤ S) :
    store mem S pos xs = Memory.write mem pos xs := by
  funext j
  unfold store Memory.write
  split <;> split
  next hj hge =>
    have hmod : (j + S - pos) % S = j - pos := by
      rw [show j + S - pos = j - pos + S by omega, Nat.add_mod_right, Nat.mod_eq_of_lt (by omega)]
    rw [hmod]
  next hj hlt =>
    rw [Nat.mod_eq_of_lt (by omega), List.getD_eq_default _ _ (by omega)]
  next hj hge => rw [List.getD_eq_default _ _ (by omega)]
  next => rfl

theorem store_eq_write_write (hp : pos < S) (hge : S - pos ≤ xs.length) (hle : xs.length ≤ S) :
    store mem S pos xs =
      Memory.write (Memory.write mem pos (xs.take (S - pos))) 0 (xs.drop (S - pos)) := by
  funext j
  unfold store Memory.write
  rw [if_pos (Nat.zero_le j), Nat.sub_zero]
  split <;> split
  next hj hpj =>
    have hmod : (j + S - pos) % S = j - pos := by
      rw [show j + S - pos = j - pos + S by omega, Nat.add_mod_right, Nat.mod_eq_of_lt (by omega)]
    have hdrop : (xs.drop (S - pos)).length ≤ j := by
      rw [List.length_drop]
      omega
    rw [hmod, List.getD_eq_default (xs.drop _) _ hdrop]
    simp only [List.getD_eq_getElem?_getD, List.getElem?_take]
    rw [if_pos (by omega)]
  next hj hpj =>
    rw [Nat.mod_eq_of_lt (by omega)]
    simp only [List.getD_eq_getElem?_getD, List.getElem?_drop]
    rw [show S - pos + j = j + S - pos by omega]
  next hj hpj =>
    have hdrop : (xs.drop (S - pos)).length ≤ j := by
      rw [List.length_drop]
      omega
    have htake : (xs.take (S - pos)).length ≤ j - pos := by
      rw [List.length_take]
      omega
    rw [List.getD_eq_default (xs.drop _) _ hdrop, List.getD_eq_default (xs.take _) _ htake]
  next hj hpj => omega

end NNPIHost.Fifo

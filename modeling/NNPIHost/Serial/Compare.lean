import Mathlib.Data.Nat.ModEq
import Mathlib.Tactic.Common

/-! # Serial numbers

A serial number is a counter modulo `2 * M`. One serial number has reached another when it is
at most half of the cycle ahead of it. Between counters that are close enough this is their
order.
-/

namespace NNPIHost.Serial

/-- The distance on the cycle from one serial number to the next occurrence of another. -/
def dist (N a b : ℕ) : ℕ := (b + (N - a)) % N

/-- The serial number `b` is at most half of the cycle ahead of `a`. -/
def Reached (M b a : ℕ) : Prop := dist (2 * M) a b ≤ M

instance (M b a : ℕ) : Decidable (Reached M b a) := inferInstanceAs (Decidable (_ ≤ _))

/-- A counter is at most half a cycle behind another one, or less than half a cycle ahead of it,
not counting whole cycles. -/
def Comparable (M k c : ℕ) : Prop :=
  if k ≤ c then (c - k) % (2 * M) ≤ M else 0 < (k - c) % (2 * M) ∧ (k - c) % (2 * M) < M

instance (M k c : ℕ) : Decidable (Comparable M k c) := by
  unfold Comparable
  infer_instance

variable {M N a b c d k : ℕ}

theorem dist_add_right : dist N a ((b + d) % N) = (dist N a b + d) % N := by
  rw [dist, dist, Nat.mod_add_mod, Nat.mod_add_mod]
  congr 1
  omega

theorem dist_add (hN : 0 < N) : dist N (k % N) ((k + d) % N) = d % N := by
  have hself : dist N (k % N) (k % N) = 0 := by
    rw [dist, Nat.add_sub_of_le (Nat.mod_lt k hN).le, Nat.mod_self]
  rw [← Nat.mod_add_mod, dist_add_right, hself, Nat.zero_add]

theorem dist_of_le (h : c ≤ k) (hN : 0 < N) :
    dist N (k % N) (c % N) = (N - (k - c) % N) % N := by
  have hlt := Nat.mod_lt (k - c) hN
  have hcycle : k + (N - (k - c) % N) ≡ c [MOD N] := by
    calc k + (N - (k - c) % N) ≡ c + (k - c) + (N - (k - c) % N) [MOD N] := by
          rw [Nat.add_sub_of_le h]
      _ ≡ c + (k - c) % N + (N - (k - c) % N) [MOD N] :=
          ((Nat.mod_modEq _ _).symm.add_left _).add_right _
      _ ≡ c + N [MOD N] := by rw [Nat.add_assoc, Nat.add_sub_of_le hlt.le]
      _ ≡ c [MOD N] := Nat.add_modEq_right
  rw [show c % N = (k + (N - (k - c) % N)) % N from hcycle.symm, dist_add hN]

/-- The comparison of serial numbers is the order of the counters exactly when they are
comparable. -/
theorem reached_iff_le_iff (hM : 0 < M) :
    (Reached M (c % (2 * M)) (k % (2 * M)) ↔ k ≤ c) ↔ Comparable M k c := by
  have hN : 0 < 2 * M := by omega
  rcases Nat.lt_or_ge c k with hlt | hge
  · have hdist := dist_of_le hlt.le hN
    have hmod := Nat.mod_lt (k - c) hN
    rw [Reached, hdist, Comparable, if_neg (Nat.not_le.mpr hlt)]
    rcases Nat.eq_zero_or_pos ((k - c) % (2 * M)) with hz | hpos
    · rw [hz, Nat.sub_zero, Nat.mod_self]
      omega
    · rw [Nat.mod_eq_of_lt (by omega : 2 * M - (k - c) % (2 * M) < 2 * M)]
      omega
  · have hdist := dist_add hN (k := k) (d := c - k)
    rw [Nat.add_sub_of_le hge] at hdist
    rw [Reached, hdist, Comparable, if_pos hge]
    exact iff_true_right hge

/-- A counter that is less than half a cycle behind has not reached the other; one that is
ahead has reached it up to half a cycle later. -/
theorem reached_iff (hahead : c < k + 2 * M) (hbehind : k < c + M) :
    Reached M (c % (2 * M)) (k % (2 * M)) ↔ k ≤ c ∧ c ≤ k + M := by
  have hiff := reached_iff_le_iff (c := c) (k := k) (by omega : 0 < M)
  rcases Nat.lt_or_ge c k with hlt | hge
  · have hmod : (k - c) % (2 * M) = k - c := Nat.mod_eq_of_lt (by omega)
    rw [Comparable, if_neg (Nat.not_le.mpr hlt), hmod] at hiff
    rw [hiff.mpr (by omega)]
    omega
  · have hmod : (c - k) % (2 * M) = c - k := Nat.mod_eq_of_lt (by omega)
    rw [Comparable, if_pos hge, hmod] at hiff
    by_cases hfar : c ≤ k + M
    · rw [hiff.mpr (by omega)]
      omega
    · have hnot := fun hr => hfar (by have := hiff.mp (iff_of_true hr hge); omega)
      exact iff_of_false hnot fun h => hfar h.2

end NNPIHost.Serial

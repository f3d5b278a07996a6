import Mathlib.Data.Finset.Card
import Mathlib.Data.List.Basic
import Mathlib.Data.List.Range
import Mathlib.Logic.Function.Iterate
import NNPIHost.Exec.Run

/-! # Loops driven by a stream

A loop takes a label of a stream at each turn, what its environment does at that turn, and
ends at the first label that is not enabled. A measure that falls at every allowed turn ends
the loop; a turn that is not allowed and leads to states that the loop never leaves keeps it
from ending. A loop without an environment that stays among finitely many values for as many
turns as there are values comes to one of them twice, and goes round for ever.
-/

namespace NNPIHost.Exec

variable {σ α : Type*}

/-- The first labels of a stream. -/
def firsts (env : ℕ → α) (n : ℕ) : List α := (List.range n).map env

/-- The loop has ended after some number of turns. -/
def Ends (step : σ → α → Option σ) (env : ℕ → α) (s : σ) : Prop :=
  ∃ n, run step s (firsts env n) = none

variable {step : σ → α → Option σ} {ok : σ → α → Prop} {I J : σ → Prop} {env : ℕ → α}
  {s : σ} {as bs : List α} {n k : ℕ}

@[simp] theorem length_firsts : (firsts env n).length = n := by simp [firsts]

theorem firsts_add : firsts env (n + k) = firsts env n ++ firsts (fun i => env (n + i)) k := by
  simp only [firsts, List.range_add, List.map_append, List.map_map]
  rfl

theorem mem_firsts {a : α} (h : a ∈ firsts env n) : ∃ i, env i = a := by
  obtain ⟨i, _, hi⟩ := List.mem_map.mp h
  exact ⟨i, hi⟩

theorem run_append_eq_none (h : run step s as = none) : run step s (as ++ bs) = none := by
  induction as generalizing s with
  | nil => cases h
  | cons a as ih =>
    rw [List.cons_append, run, Option.bind_eq_none_iff]
    intro t ht
    exact ih ((Option.bind_eq_none_iff.mp h) t ht)

theorem Meets.append_left (h : Meets step ok s (as ++ bs)) : Meets step ok s as := by
  induction as generalizing s with
  | nil => trivial
  | cons a as ih => exact ⟨h.1, fun t ht => ih (h.2 t ht)⟩

theorem run_eq_none_of_lt {μ : σ → ℕ} (hI : I s)
    (hstep : ∀ s a t, I s → ok s a → step s a = some t → I t ∧ μ t < μ s)
    (hm : Meets step ok s as) (hlt : μ s < as.length) : run step s as = none := by
  induction as generalizing s with
  | nil => cases hlt
  | cons a as ih =>
    rw [run, Option.bind_eq_none_iff]
    intro t ht
    obtain ⟨hIt, hfall⟩ := hstep s a t hI hm.1 ht
    rw [List.length_cons] at hlt
    exact ih hIt (hm.2 t ht) (by omega)

theorem run_of_kept {fair : α → Prop} (hJ : J s)
    (hkeep : ∀ s a, fair a → J s → ∃ t, step s a = some t ∧ J t) (hfair : ∀ a ∈ as, fair a) :
    ∃ t, run step s as = some t := by
  induction as generalizing s with
  | nil => exact ⟨s, rfl⟩
  | cons a as ih =>
    obtain ⟨t, ht, hJt⟩ := hkeep s a (hfair a List.mem_cons_self) hJ
    obtain ⟨u, hu⟩ := ih hJt fun b hb => hfair b (List.mem_cons_of_mem a hb)
    exact ⟨u, Option.bind_eq_some_iff.mpr ⟨t, ht, hu⟩⟩

/-- A step that is not allowed leads where the loop goes on whatever comes. -/
theorem run_of_not_meets {fair : α → Prop}
    (hbad : ∀ s a, fair a → ¬ ok s a → ∃ t, step s a = some t ∧ J t)
    (hkeep : ∀ s a, fair a → J s → ∃ t, step s a = some t ∧ J t)
    (hfair : ∀ a ∈ as, fair a) (hm : ¬ Meets step ok s as) : ∃ t, run step s as = some t := by
  induction as generalizing s with
  | nil => exact absurd trivial hm
  | cons a as ih =>
    have hrest : ∀ b ∈ as, fair b := fun b hb => hfair b (List.mem_cons_of_mem a hb)
    by_cases hok : ok s a
    · obtain ⟨t, ht, hm⟩ : ∃ t, step s a = some t ∧ ¬ Meets step ok t as := by
        by_contra hnone
        push Not at hnone
        exact hm ⟨hok, hnone⟩
      obtain ⟨u, hu⟩ := ih hrest hm
      exact ⟨u, Option.bind_eq_some_iff.mpr ⟨t, ht, hu⟩⟩
    · obtain ⟨t, ht, hJ⟩ := hbad s a (hfair a List.mem_cons_self) hok
      obtain ⟨u, hu⟩ := run_of_kept hJ hkeep hrest
      exact ⟨u, Option.bind_eq_some_iff.mpr ⟨t, ht, hu⟩⟩

theorem Ends.meets {fair : α → Prop} (h : Ends step env s)
    (hbad : ∀ s a, fair a → ¬ ok s a → ∃ t, step s a = some t ∧ J t)
    (hkeep : ∀ s a, fair a → J s → ∃ t, step s a = some t ∧ J t)
    (hfair : ∀ i, fair (env i)) (k : ℕ) : Meets step ok s (firsts env k) := by
  by_contra hm
  obtain ⟨n, hn⟩ := h
  have hlong : ¬ Meets step ok s (firsts env (n + k)) := by
    rw [Nat.add_comm, firsts_add]
    exact mt Meets.append_left hm
  have hall : ∀ a ∈ firsts env (n + k), fair a := by
    intro a ha
    obtain ⟨i, rfl⟩ := mem_firsts ha
    exact hfair i
  obtain ⟨t, ht⟩ := run_of_not_meets hbad hkeep hall hlong
  rw [firsts_add, run_append_eq_none hn] at ht
  cases ht

section Orbit

open Function

variable {f : α → α} {S : Finset α} {x : α}

theorem exists_iterate_eq (h : ∀ k ≤ S.card, f^[k] x ∈ S) :
    ∃ i j, i < j ∧ j ≤ S.card ∧ f^[i] x = f^[j] x := by
  have hcard : S.card < (Finset.range (S.card + 1)).card := by
    rw [Finset.card_range]
    exact Nat.lt_succ_self _
  have hmaps : Set.MapsTo (fun k => f^[k] x) (Finset.range (S.card + 1)) S := by
    intro k hk
    exact h k (Nat.le_of_lt_succ (Finset.mem_range.mp hk))
  obtain ⟨i, hi, j, hj, hne, heq⟩ :=
    Finset.exists_ne_map_eq_of_card_lt_of_maps_to hcard hmaps
  rw [Finset.mem_range, Nat.lt_succ_iff] at hi hj
  rcases Nat.lt_or_gt_of_ne hne with hlt | hlt
  · exact ⟨i, j, hlt, hj, heq⟩
  · exact ⟨j, i, hlt, hi, heq.symm⟩

/-- An orbit that has not left the set after that many steps never leaves it. -/
theorem iterate_mem_of_card (h : ∀ k ≤ S.card, f^[k] x ∈ S) (k : ℕ) : f^[k] x ∈ S := by
  obtain ⟨i, j, hij, hj, heq⟩ := exists_iterate_eq h
  induction k using Nat.strong_induction_on with
  | _ k ih =>
    rcases Nat.lt_or_ge S.card k with hk | hk
    · have hback : f^[k] x = f^[k - j + i] x := by
        rw [iterate_add_apply, heq, ← iterate_add_apply]
        congr 2
        omega
      rw [hback]
      exact ih _ (by omega)
    · exact h k hk

end Orbit

end NNPIHost.Exec

import Mathlib.Logic.Function.Basic
import Mathlib.Tactic.Common

/-! # Descriptor numbers

The kernel gives a component of a process, and the rest of the process, numbers that are not in
use, and may give out a number again once it is closed. A component that closes only numbers it
holds closes each of them once before it is given the number again.
-/

namespace NNPIHost.Kernel

inductive Holder where
  | component
  | rest
  deriving DecidableEq, Repr

/-- Who holds each number, how often the component closed it since it was last given the number,
and the numbers that it closed without holding them. -/
structure Descriptors where
  holder : ℕ → Option Holder
  closes : ℕ → Option ℕ
  strays : List ℕ

namespace Descriptors

def init : Descriptors := ⟨fun _ => none, fun _ => none, []⟩

variable (d : Descriptors) (fd : ℕ)

def give : Descriptors :=
  { d with
    holder := Function.update d.holder fd (some .component)
    closes := Function.update d.closes fd (some 0) }

def openRest : Descriptors := { d with holder := Function.update d.holder fd (some .rest) }

def closeRest : Descriptors := { d with holder := Function.update d.holder fd none }

/-- The component closes a number, whoever holds it. -/
def close : Descriptors where
  holder := Function.update d.holder fd none
  closes := Function.update d.closes fd ((d.closes fd).map (· + 1))
  strays := if d.holder fd = some .component then d.strays else fd :: d.strays

/-- The component has closed only what it held, and every number once since it got it, unless it
holds it still. -/
structure ClosedOnce : Prop where
  own : d.strays = []
  unclosed : ∀ fd n, d.holder fd = some .component → d.closes fd = some n → n = 0
  once : ∀ fd n, d.holder fd ≠ some .component → d.closes fd = some n → n = 1

variable {d fd}

@[simp] theorem give_holder : (d.give fd).holder = Function.update d.holder fd (some .component) :=
  rfl

@[simp] theorem close_holder : (d.close fd).holder = Function.update d.holder fd none := rfl

theorem init_closedOnce : init.ClosedOnce where
  own := rfl
  unclosed := by simp [init]
  once := by simp [init]

theorem ClosedOnce.give (h : d.ClosedOnce) : (d.give fd).ClosedOnce := by
  refine ⟨h.own, fun fd' n hheld hn => ?_, fun fd' n hnot hn => ?_⟩ <;>
    by_cases heq : fd' = fd
  · subst heq
    simp only [Descriptors.give, Function.update_self, Option.some.injEq] at hn
    exact hn.symm
  · simp only [Descriptors.give, Function.update_of_ne heq] at hheld hn
    exact h.unclosed fd' n hheld hn
  · subst heq
    exact absurd (Function.update_self ..) hnot
  · simp only [Descriptors.give, Function.update_of_ne heq] at hnot hn
    exact h.once fd' n hnot hn

theorem ClosedOnce.setRest (h : d.ClosedOnce) {o : Option Holder}
    (hfd : d.holder fd ≠ some .component) (ho : o ≠ some .component) :
    ({ d with holder := Function.update d.holder fd o } : Descriptors).ClosedOnce := by
  refine ⟨h.own, fun fd' n hheld hn => ?_, fun fd' n hnot hn => ?_⟩ <;>
    by_cases heq : fd' = fd
  · subst heq
    exact absurd ((Function.update_self ..).symm.trans hheld) ho
  · exact h.unclosed fd' n ((Function.update_of_ne heq ..).symm.trans hheld) hn
  · subst heq
    exact h.once fd' n hfd hn
  · exact h.once fd' n (fun hheld => hnot ((Function.update_of_ne heq ..).trans hheld)) hn

/-- A close is sound exactly when the component holds the number. -/
theorem ClosedOnce.close_iff (h : d.ClosedOnce) :
    (d.close fd).ClosedOnce ↔ d.holder fd = some .component := by
  constructor
  · intro hc
    by_contra hne
    have hown := hc.own
    simp [close, if_neg hne] at hown
  · intro hheld
    refine ⟨by simp [close, hheld, h.own], fun fd' n hheld' hn => ?_, fun fd' n hnot hn => ?_⟩ <;>
      by_cases heq : fd' = fd
    · subst heq
      simp [close] at hheld'
    · simp only [close, Function.update_of_ne heq] at hheld' hn
      exact h.unclosed fd' n hheld' hn
    · subst heq
      simp only [close, Function.update_self, Option.map_eq_some_iff] at hn
      obtain ⟨k, hk, rfl⟩ := hn
      rw [h.unclosed fd' k hheld hk]
    · simp only [close, Function.update_of_ne heq] at hnot hn
      exact h.once fd' n hnot hn

end Descriptors

end NNPIHost.Kernel

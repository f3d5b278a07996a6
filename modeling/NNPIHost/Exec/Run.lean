import Mathlib.Data.Option.Basic
import Mathlib.Tactic.Common

/-! # Runs of labelled machines

A machine is a partial step function: a label that is not enabled in a state has no
successor. `Always` states a property of every state a run visits, `Meets` a condition on
the state before every step. Invariants are carried from one to the other by induction on
the labels.
-/

namespace NNPIHost.Exec

variable {σ α : Type*}

/-- Execute the labels in order, failing when one of them is not enabled. -/
def run (step : σ → α → Option σ) : σ → List α → Option σ
  | s, [] => some s
  | s, a :: as => (step s a).bind fun t => run step t as

/-- Every state visited by the run of the labels has the property. -/
def Always (step : σ → α → Option σ) (P : σ → Prop) : σ → List α → Prop
  | s, [] => P s
  | s, a :: as => P s ∧ ∀ t, step s a = some t → Always step P t as

/-- Every step of the run is taken in a state in which the condition allows its label. -/
def Meets (step : σ → α → Option σ) (ok : σ → α → Prop) : σ → List α → Prop
  | _, [] => True
  | s, a :: as => ok s a ∧ ∀ t, step s a = some t → Meets step ok t as

instance decidableForallSome (o : Option σ) (P : σ → Prop) [∀ s, Decidable (P s)] :
    Decidable (∀ t, o = some t → P t) :=
  match o with
  | none => .isTrue (by rintro _ ⟨⟩)
  | some s => decidable_of_iff (P s) (by simp)

instance decidableAlways (step : σ → α → Option σ) (P : σ → Prop) [∀ s, Decidable (P s)] :
    ∀ (s : σ) (as : List α), Decidable (Always step P s as)
  | s, [] => inferInstanceAs (Decidable (P s))
  | s, a :: as =>
      have := fun t => decidableAlways step P t as
      inferInstanceAs (Decidable (P s ∧ ∀ t, step s a = some t → Always step P t as))

instance decidableMeets (step : σ → α → Option σ) (ok : σ → α → Prop)
    [∀ s a, Decidable (ok s a)] : ∀ (s : σ) (as : List α), Decidable (Meets step ok s as)
  | _, [] => .isTrue trivial
  | s, a :: as =>
      have := fun t => decidableMeets step ok t as
      inferInstanceAs (Decidable (ok s a ∧ ∀ t, step s a = some t → Meets step ok t as))

variable {τ β : Type*} {step : σ → α → Option σ} {P Q I : σ → Prop} {ok : σ → α → Prop}
  {s t : σ} {as bs : List α}

theorem Always.head (h : Always step P s as) : P s := by
  cases as with
  | nil => exact h
  | cons a as => exact h.1

theorem Always.mono (hPQ : ∀ s, P s → Q s) (h : Always step P s as) : Always step Q s as := by
  induction as generalizing s with
  | nil => exact hPQ s h
  | cons a as ih => exact ⟨hPQ s h.1, fun t ht => ih (h.2 t ht)⟩

theorem Always.last (h : Always step P s as) (hr : run step s as = some t) : P t := by
  induction as generalizing s with
  | nil => exact Option.some.inj hr ▸ h
  | cons a as ih =>
    obtain ⟨u, hu, hr⟩ := Option.bind_eq_some_iff.mp hr
    exact ih (h.2 u hu) hr

theorem Meets.of_forall_mem (h : ∀ a ∈ as, ∀ s, ok s a) : Meets step ok s as := by
  induction as generalizing s with
  | nil => trivial
  | cons a as ih =>
    obtain ⟨ha, has⟩ := List.forall_mem_cons.mp h
    exact ⟨ha s, fun _ _ => ih has⟩

theorem Meets.of_forall (h : ∀ s a, ok s a) : Meets step ok s as :=
  .of_forall_mem fun a _ s => h s a

theorem always_of_invariant (hI : I s)
    (hstep : ∀ s a t, I s → ok s a → step s a = some t → I t)
    (hm : Meets step ok s as) : Always step I s as := by
  induction as generalizing s with
  | nil => exact hI
  | cons a as ih => exact ⟨hI, fun t ht => ih (hstep s a t hI hm.1 ht) (hm.2 t ht)⟩

theorem Meets.of_invariant {ok' : σ → α → Prop} (hI : I s)
    (hstep : ∀ s a t, I s → ok s a → step s a = some t → I t)
    (himp : ∀ s a, I s → ok s a → ok' s a) (hm : Meets step ok s as) : Meets step ok' s as := by
  induction as generalizing s with
  | nil => trivial
  | cons a as ih =>
    exact ⟨himp s a hI hm.1, fun t ht => ih (hstep s a t hI hm.1 ht) (hm.2 t ht)⟩

/-- What holds in the last state of a run, and of a state when it holds of the next one, held
from the start on. -/
theorem Meets.of_last (hI : I s) (hstep : ∀ s a t, I s → step s a = some t → I t)
    (hback : ∀ s a t, I s → step s a = some t → P t → P s ∧ ok s a)
    (hr : run step s as = some t) (hP : P t) : P s ∧ Meets step ok s as := by
  induction as generalizing s with
  | nil => exact ⟨Option.some.inj hr ▸ hP, trivial⟩
  | cons a as ih =>
    obtain ⟨u, hu, hr⟩ := Option.bind_eq_some_iff.mp hr
    obtain ⟨hPu, hm⟩ := ih (hstep s a u hI hu) hr
    obtain ⟨hPs, hok⟩ := hback s a u hI hu hPu
    exact ⟨hPs, hok, fun v hv => by rwa [← Option.some.inj (hu.symm.trans hv)]⟩

/-- When a property of the next state means that of the state and the condition of the step, in
the last state of a run it means that of the first and the conditions of all steps. -/
theorem last_iff_meets
    (hstep : ∀ s, ∀ a ∈ as, ∀ t, step s a = some t → (P t ↔ P s ∧ ok s a))
    (hr : run step s as = some t) : P t ↔ P s ∧ Meets step ok s as := by
  induction as generalizing s with
  | nil =>
    obtain rfl := Option.some.inj hr
    exact (and_iff_left trivial).symm
  | cons a as ih =>
    obtain ⟨u, hu, hr⟩ := Option.bind_eq_some_iff.mp hr
    have hlast := ih (fun s b hb => hstep s b (List.mem_cons_of_mem a hb)) hr
    have hfirst := hstep s a List.mem_cons_self u hu
    simp only [Meets, hu, Option.some.injEq, forall_eq']
    rw [hlast, hfirst, and_assoc]

theorem run_of_invariant (hI : I s)
    (hstep : ∀ s a, I s → ok s a → ∃ t, step s a = some t ∧ I t)
    (hm : Meets step ok s as) : ∃ t, run step s as = some t ∧ I t := by
  induction as generalizing s with
  | nil => exact ⟨s, rfl, hI⟩
  | cons a as ih =>
    obtain ⟨t, ht, hIt⟩ := hstep s a hI hm.1
    obtain ⟨u, hu, hIu⟩ := ih hIt (hm.2 t ht)
    exact ⟨u, Option.bind_eq_some_iff.mpr ⟨t, ht, hu⟩, hIu⟩

theorem always_of_preserved (hI : I s) (hstep : ∀ s a t, I s → step s a = some t → I t) :
    Always step I s as := by
  have hm : Meets step (fun _ _ => True) s as := .of_forall fun _ _ => trivial
  exact always_of_invariant hI (fun s a t hI _ => hstep s a t hI) hm

/-- When each step from a good state leads to a good state exactly if its condition holds,
a run stays good exactly if all its steps meet the condition. -/
theorem always_iff_meets (hP : P s) (hI : I s)
    (hstep : ∀ s a t, I s → P s → step s a = some t → I t ∧ (P t ↔ ok s a))
    (hdis : ∀ s a, I s → P s → step s a = none → ok s a) :
    Always step P s as ↔ Meets step ok s as := by
  induction as generalizing s with
  | nil => exact iff_of_true hP trivial
  | cons a as ih =>
    cases ht : step s a with
    | none =>
      simp only [Always, Meets, ht, reduceCtorEq, false_implies, implies_true, and_true]
      exact iff_of_true hP (hdis s a hI hP ht)
    | some t =>
      obtain ⟨hIt, hPt⟩ := hstep s a t hI hP ht
      simp only [Always, Meets, ht, Option.some.injEq, forall_eq']
      constructor
      · rintro ⟨_, h⟩
        exact ⟨hPt.mp h.head, (ih (hPt.mpr (hPt.mp h.head)) hIt).mp h⟩
      · rintro ⟨hok, h⟩
        exact ⟨hP, (ih (hPt.mpr hok) hIt).mpr h⟩

/-- The machine without the steps that the environment is assumed not to take. -/
def restrict (ok : σ → α → Prop) [∀ s a, Decidable (ok s a)] (step : σ → α → Option σ)
    (s : σ) (a : α) : Option σ := if ok s a then step s a else none

theorem restrict_eq_some [∀ s a, Decidable (ok s a)] {a : α} :
    restrict ok step s a = some t ↔ ok s a ∧ step s a = some t := Option.ite_none_right_eq_some

theorem run_append (hr : run step s as = some t) : run step s (as ++ bs) = run step t bs := by
  induction as generalizing s with
  | nil => exact Option.some.inj hr ▸ rfl
  | cons a as ih =>
    obtain ⟨u, hu, hr⟩ := Option.bind_eq_some_iff.mp hr
    rw [List.cons_append, run, hu, Option.bind_some, ih hr]

theorem meets_iff_meets {ok' : σ → α → Prop} (hI : I s)
    (hiff : ∀ s a, I s → (ok s a ↔ ok' s a))
    (hstep : ∀ s a t, I s → ok' s a → step s a = some t → I t) :
    Meets step ok s as ↔ Meets step ok' s as := by
  induction as generalizing s with
  | nil => exact Iff.rfl
  | cons a as ih =>
    simp only [Meets, hiff s a hI]
    exact and_congr_right fun hok => forall₂_congr fun t ht => ih (hstep s a t hI hok ht)

/-- A forward simulation under a condition on the steps of the concrete machine: from
related states an allowed step is matched by the abstract step of the translated label. -/
def Simulates (step : σ → α → Option σ) (ok : σ → α → Prop) (abs : τ → β → Option τ)
    (lab : α → β) (R : σ → τ → Prop) : Prop :=
  ∀ s x a t, R s x → ok s a → step s a = some t → ∃ y, abs x (lab a) = some y ∧ R t y

theorem Simulates.run {abs : τ → β → Option τ} {lab : α → β} {R : σ → τ → Prop} {x : τ}
    (hsim : Simulates step ok abs lab R) (hR : R s x) (hm : Meets step ok s as)
    (hr : run step s as = some t) : ∃ y, run abs x (as.map lab) = some y ∧ R t y := by
  induction as generalizing s x with
  | nil =>
    obtain rfl := Option.some.inj hr
    exact ⟨x, rfl, hR⟩
  | cons a as ih =>
    obtain ⟨u, hu, hr⟩ := Option.bind_eq_some_iff.mp hr
    obtain ⟨y, hy, hRy⟩ := hsim s x a u hR hm.1 hu
    obtain ⟨z, hz, hRz⟩ := ih hRy (hm.2 u hu) hr
    exact ⟨z, Option.bind_eq_some_iff.mpr ⟨y, hy, hz⟩, hRz⟩

end NNPIHost.Exec

import Mathlib.Data.List.Basic
import Mathlib.Tactic.Common

/-! # Fences between commands

Commands and fences pass through a pipeline. Commands may overtake what stands before them, but
a fence stays behind the commands that it stands for, so that these are done when it comes out.
-/

namespace NNPIHost.Fifo

/-- What is in the pipeline. A fence that was given up is lost. -/
inductive Item (α ι : Type*) where
  | command (a : α)
  | fence (i : ι)
  | lost (i : ι)
  deriving DecidableEq, Repr

variable {α ι : Type*} {covers covers' : ι → α → Prop} {done done' : α → Prop}
  {l l' : List (Item α ι)} {a : α} {i : ι}

/-- When a fence comes out, the commands that it covers are done or came out before it. -/
def Fenced (covers : ι → α → Prop) : (α → Prop) → List (Item α ι) → Prop
  | _, [] => True
  | done, .command a :: l => Fenced covers (fun b => done b ∨ b = a) l
  | done, .fence i :: l => (∀ a, covers i a → done a) ∧ Fenced covers done l
  | done, .lost _ :: l => Fenced covers done l

theorem Fenced.mono (h : Fenced covers done l) (hd : ∀ a, done a → done' a)
    (hc : ∀ i, .fence i ∈ l → ∀ a, covers' i a → covers i a) : Fenced covers' done' l := by
  induction l generalizing done done' with
  | nil => trivial
  | cons x l ih =>
    have htail : ∀ i, .fence i ∈ l → ∀ a, covers' i a → covers i a :=
      fun i hi => hc i (List.mem_cons_of_mem _ hi)
    cases x with
    | command b => exact ih h (fun a ha => ha.imp_left (hd a)) htail
    | fence i =>
      refine ⟨fun a ha => hd a (h.1 a ?_), ih h.2 hd htail⟩
      exact hc i List.mem_cons_self a ha
    | lost i => exact ih h hd htail

theorem fenced_append : Fenced covers done (l ++ l') ↔
    Fenced covers done l ∧ Fenced covers (fun a => done a ∨ .command a ∈ l) l' := by
  have hcongr : ∀ {d d' : α → Prop}, (∀ a, d a ↔ d' a) →
      (Fenced covers d l' ↔ Fenced covers d' l') := fun h =>
    ⟨fun hf => hf.mono (fun a => (h a).mp) fun _ _ _ => id,
      fun hf => hf.mono (fun a => (h a).mpr) fun _ _ _ => id⟩
  induction l generalizing done with
  | nil =>
    refine Iff.trans ?_ (iff_of_eq (true_and _)).symm
    exact hcongr fun a => (or_iff_left List.not_mem_nil).symm
  | cons x l ih =>
    cases x with
    | command b =>
      refine (@ih fun a => done a ∨ a = b).trans (and_congr_right fun _ => hcongr ?_)
      intro a
      simp only [List.mem_cons, Item.command.injEq, or_assoc]
    | fence i =>
      refine (and_congr_right fun _ => ih).trans (and_assoc.symm.trans ?_)
      refine and_congr_right fun _ => ?_
      apply hcongr
      intro a
      simp only [List.mem_cons, reduceCtorEq, false_or]
    | lost i =>
      refine ih.trans (and_congr_right fun _ => hcongr ?_)
      intro a
      simp only [List.mem_cons, reduceCtorEq, false_or]

variable {l₁ l₂ : List (Item α ι)}

theorem Fenced.overtake (h : Fenced covers done (l ++ (l₁ ++ .command a :: l₂))) :
    Fenced covers done (l ++ .command a :: (l₁ ++ l₂)) := by
  obtain ⟨h, h'⟩ := fenced_append.mp h
  obtain ⟨h₁, h₂⟩ := fenced_append.mp h'
  refine fenced_append.mpr ⟨h, fenced_append.mpr ⟨?_, ?_⟩⟩
  · exact h₁.mono (fun _ => .inl) fun _ _ _ => id
  · refine Fenced.mono h₂ ?_ fun _ _ _ => id
    rintro b ((hb | hb) | rfl)
    · exact .inl (.inl hb)
    · exact .inr hb
    · exact .inl (.inr rfl)

theorem Fenced.giveUp (h : Fenced covers done (l ++ (l₁ ++ .fence i :: l₂))) :
    Fenced covers done (l ++ .lost i :: (l₁ ++ l₂)) := by
  obtain ⟨h, h'⟩ := fenced_append.mp h
  obtain ⟨h₁, h₂⟩ := fenced_append.mp h'
  exact fenced_append.mpr ⟨h, fenced_append.mpr ⟨h₁, h₂.2⟩⟩

theorem Fenced.add_fence (h : Fenced covers done l)
    (hi : ∀ a, covers i a → done a ∨ .command a ∈ l) : Fenced covers done (l ++ [.fence i]) :=
  fenced_append.mpr ⟨h, hi, trivial⟩

theorem Fenced.add_command (h : Fenced covers done l) (a : α) :
    Fenced covers done (l ++ [.command a]) := fenced_append.mpr ⟨h, trivial⟩

/-- The fences in the pipeline. -/
def fences : List (Item α ι) → List ι
  | [] => []
  | .fence i :: l => i :: fences l
  | _ :: l => fences l

theorem fences_append (l l' : List (Item α ι)) : fences (l ++ l') = fences l ++ fences l' := by
  induction l with
  | nil => rfl
  | cons x l ih => cases x <;> simp [fences, ih]

theorem mem_fences : i ∈ fences l ↔ .fence i ∈ l := by
  induction l with
  | nil => simp [fences]
  | cons x l ih => cases x <;> simp [fences, ih]

end NNPIHost.Fifo

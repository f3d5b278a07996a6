import Mathlib.Algebra.Group.Nat.Defs
import Mathlib.Tactic.Common

/-! # Data in chunks

A source delivers its data chunk by chunk. Chunks that are written one after the other cover a
range without a gap, and each of them holds its part of the data.
-/

namespace NNPIHost.Chunks

variable {σ β : Type*} {R : σ → List β → σ → Prop} {st st' st'' : σ} {xs ys : List (List β)}

/-- The source goes from one state to another by delivering the chunks. -/
def Delivers (R : σ → List β → σ → Prop) : σ → List (List β) → σ → Prop
  | st, [], st' => st = st'
  | st, c :: cs, st' => ∃ u, R st c u ∧ Delivers R u cs st'

theorem delivers_append :
    Delivers R st (xs ++ ys) st'' ↔ ∃ st', Delivers R st xs st' ∧ Delivers R st' ys st'' := by
  induction xs generalizing st with
  | nil => simp [Delivers]
  | cons c cs ih =>
    simp only [List.cons_append, Delivers, ih]
    constructor
    · rintro ⟨u, hu, st', hcs, hys⟩
      exact ⟨st', ⟨u, hu, hcs⟩, hys⟩
    · rintro ⟨st', ⟨u, hu, hcs⟩, hys⟩
      exact ⟨u, hu, st', hcs, hys⟩

theorem Delivers.snoc {c : List β} (h : Delivers R st xs st') (hc : R st' c st'') :
    Delivers R st (xs ++ [c]) st'' := delivers_append.mpr ⟨st', h, st'', hc, rfl⟩

theorem Delivers.left_eq {left : σ → List β}
    (hR : ∀ st c st', R st c st' → left st = c ++ left st') (h : Delivers R st xs st') :
    left st = xs.flatten ++ left st' := by
  induction xs generalizing st with
  | nil =>
    obtain rfl : st = st' := h
    rfl
  | cons c cs ih =>
    obtain ⟨u, hu, hcs⟩ := h
    rw [hR _ _ _ hu, ih hcs, List.flatten_cons, List.append_assoc]

/-- Chunks with their places that follow each other from an offset on. -/
def Contiguous : ℕ → List (ℕ × List β) → Prop
  | _, [] => True
  | off, (a, c) :: rest => a = off ∧ Contiguous (off + c.length) rest

variable {off a : ℕ} {c : List β} {ps qs : List (ℕ × List β)}

theorem contiguous_append : Contiguous off (ps ++ qs) ↔
    Contiguous off ps ∧ Contiguous (off + (ps.flatMap Prod.snd).length) qs := by
  induction ps generalizing off with
  | nil => simp [Contiguous]
  | cons p ps ih =>
    obtain ⟨a, c⟩ := p
    simp only [List.cons_append, Contiguous, ih, List.flatMap_cons, List.length_append, and_assoc,
      Nat.add_assoc]

theorem Contiguous.slice {data : List β} (h : Contiguous off ps)
    (hdata : ps.flatMap Prod.snd <+: data) (hp : (a, c) ∈ ps) :
    off ≤ a ∧ (data.drop (a - off)).take c.length = c := by
  induction ps generalizing off data with
  | nil => cases hp
  | cons p ps ih =>
    obtain ⟨b, d⟩ := p
    obtain ⟨rfl, hrest⟩ := h
    obtain ⟨tail, rfl⟩ := hdata
    rcases List.mem_cons.mp hp with heq | hp
    · obtain ⟨rfl, rfl⟩ := Prod.mk.inj heq
      refine ⟨Nat.le_refl a, ?_⟩
      simp [List.flatMap_cons, List.append_assoc]
    · obtain ⟨hle, htake⟩ := ih hrest (List.prefix_append _ tail) hp
      refine ⟨Nat.le_trans (Nat.le_add_right b d.length) hle, ?_⟩
      have hsplit : a - b = d.length + (a - (b + d.length)) := by omega
      rw [List.flatMap_cons, List.append_assoc, hsplit, ← List.drop_drop, List.drop_left, htake]

end NNPIHost.Chunks

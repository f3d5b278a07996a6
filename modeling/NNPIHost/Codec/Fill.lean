import Mathlib.Data.List.Basic
import Mathlib.Tactic.Common

/-! # Filling pages with pieces

Pieces that may not be split are put into pages one after the other. A page takes the longest
prefix of the pieces that fits; the next page starts with the first piece that does not.
-/

namespace NNPIHost.Fill

variable {β : Type*} {p : List β} {ps qs : List (List β)} {cap off room : ℕ}

/-- The bytes of the pieces that fit in the room, and the pieces from the first on that does
not. -/
def fill : List (List β) → ℕ → List β × List (List β)
  | [], _ => ([], [])
  | p :: ps, room =>
      if room < p.length then ([], p :: ps)
      else
        match fill ps (room - p.length) with
        | (bs, rest) => (p ++ bs, rest)

@[simp] theorem fill_nil (room : ℕ) : fill ([] : List (List β)) room = ([], []) := rfl

theorem fill_cons_of_lt (ps : List (List β)) (h : room < p.length) :
    fill (p :: ps) room = ([], p :: ps) := if_pos h

theorem fill_cons_of_le (ps : List (List β)) (h : p.length ≤ room) :
    fill (p :: ps) room = (p ++ (fill ps (room - p.length)).1, (fill ps (room - p.length)).2) :=
  if_neg (Nat.not_lt.mpr h)

theorem fill_flatten (ps : List (List β)) (room : ℕ) :
    (fill ps room).1 ++ (fill ps room).2.flatten = ps.flatten := by
  induction ps generalizing room with
  | nil => rfl
  | cons p ps ih =>
    by_cases h : room < p.length
    · rw [fill_cons_of_lt ps h]
      rfl
    · rw [fill_cons_of_le ps (Nat.not_lt.mp h), List.append_assoc, ih, List.flatten_cons]

theorem length_fill_le (ps : List (List β)) (room : ℕ) : (fill ps room).1.length ≤ room := by
  induction ps generalizing room with
  | nil => exact Nat.zero_le _
  | cons p ps ih =>
    by_cases h : room < p.length
    · rw [fill_cons_of_lt ps h]
      exact Nat.zero_le _
    · have hps := ih (room - p.length)
      rw [fill_cons_of_le ps (Nat.not_lt.mp h), List.length_append]
      omega

theorem fill_append_of_nil (qs : List (List β)) (h : (fill ps room).2 = []) :
    fill (ps ++ qs) room =
      ((fill ps room).1 ++ (fill qs (room - (fill ps room).1.length)).1,
        (fill qs (room - (fill ps room).1.length)).2) := by
  induction ps generalizing room with
  | nil => rfl
  | cons p ps ih =>
    by_cases hp : room < p.length
    · rw [fill_cons_of_lt ps hp] at h
      cases h
    · have hp := Nat.not_lt.mp hp
      rw [fill_cons_of_le ps hp] at h ⊢
      simp only [List.cons_append, fill_cons_of_le (ps ++ qs) hp, ih h, List.append_assoc,
        List.length_append, Nat.sub_sub]

theorem fill_append_of_ne_nil (qs : List (List β)) (h : (fill ps room).2 ≠ []) :
    fill (ps ++ qs) room = ((fill ps room).1, (fill ps room).2 ++ qs) := by
  induction ps generalizing room with
  | nil => exact absurd rfl h
  | cons p ps ih =>
    by_cases hp : room < p.length
    · rw [fill_cons_of_lt ps hp, List.cons_append, fill_cons_of_lt (ps ++ qs) hp]
    · have hp := Nat.not_lt.mp hp
      rw [fill_cons_of_le ps hp] at h ⊢
      rw [List.cons_append, fill_cons_of_le (ps ++ qs) hp, ih h]

theorem fill_zero (h : ∀ p ∈ ps, p ≠ []) : fill ps 0 = ([], ps) := by
  cases ps with
  | nil => rfl
  | cons p ps =>
    have hp : p ≠ [] := h p List.mem_cons_self
    exact fill_cons_of_lt ps (List.length_pos_of_ne_nil hp)

theorem fill_ne_nil (hne : ps ≠ []) (h : ∀ p ∈ ps, p ≠ [] ∧ p.length ≤ room) :
    (fill ps room).1 ≠ [] := by
  cases ps with
  | nil => exact absurd rfl hne
  | cons p ps =>
    obtain ⟨hp, hle⟩ := h p List.mem_cons_self
    rw [fill_cons_of_le ps hle]
    exact List.append_ne_nil_of_left_ne_nil hp _

theorem length_fill_snd_le (ps : List (List β)) (room : ℕ) :
    (fill ps room).2.length ≤ ps.length := by
  induction ps generalizing room with
  | nil => exact Nat.le_refl _
  | cons p ps ih =>
    by_cases h : room < p.length
    · exact Nat.le_of_eq (congrArg (·.2.length) (fill_cons_of_lt ps h))
    · rw [fill_cons_of_le ps (Nat.not_lt.mp h)]
      exact Nat.le_succ_of_le (ih _)

theorem length_fill_snd_lt (hne : ps ≠ []) (h : ∀ p ∈ ps, p.length ≤ room) :
    (fill ps room).2.length < ps.length := by
  cases ps with
  | nil => exact absurd rfl hne
  | cons p ps =>
    rw [fill_cons_of_le ps (h p List.mem_cons_self)]
    exact Nat.lt_succ_of_le (length_fill_snd_le ps _)

/-- The offset in its page at which the last piece ends, from an offset in the first page. -/
def endOffset (cap : ℕ) : ℕ → List (List β) → ℕ
  | off, [] => off
  | off, p :: ps => endOffset cap (if off + p.length ≤ cap then off + p.length else p.length) ps

theorem endOffset_eq (hoff : off ≤ cap) (h : ∀ p ∈ ps, p.length ≤ cap) :
    endOffset cap off ps =
      if (fill ps (cap - off)).2 = [] then off + (fill ps (cap - off)).1.length
      else endOffset cap 0 (fill ps (cap - off)).2 := by
  induction ps generalizing off with
  | nil => rfl
  | cons p ps ih =>
    obtain ⟨hp, hps⟩ := List.forall_mem_cons.mp h
    by_cases hfit : off + p.length ≤ cap
    · have hroom : p.length ≤ cap - off := by omega
      have hrest := ih hfit hps
      rw [show cap - (off + p.length) = cap - off - p.length by omega] at hrest
      rw [endOffset, if_pos hfit, hrest, fill_cons_of_le ps hroom, List.length_append,
        Nat.add_assoc]
    · have hroom : cap - off < p.length := by omega
      rw [fill_cons_of_lt ps hroom, if_neg (List.cons_ne_nil p ps), endOffset, endOffset,
        if_neg hfit, Nat.zero_add, if_pos hp]

end NNPIHost.Fill

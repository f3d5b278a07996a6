import Mathlib.Data.List.Basic

/-! # Places after a filter

Where the elements that a filter leaves come to stand: an element keeps its place when nothing
before it is taken out, and moves forward otherwise.
-/

namespace NNPIHost.Store

variable {α : Type*} {l : List α} {p : α → Bool} {i j : ℕ} {a : α}

theorem getElem?_filter_take (ha : l[j]? = some a) (hp : p a = true) :
    (l.filter p)[((l.take j).filter p).length]? = some a := by
  obtain ⟨hj, rfl⟩ := List.getElem?_eq_some_iff.mp ha
  have hsplit : l.filter p = (l.take j).filter p ++ l[j] :: (l.drop (j + 1)).filter p := by
    conv_lhs => rw [← List.take_append_drop j l, List.drop_eq_getElem_cons hj]
    rw [List.filter_append, List.filter_cons_of_pos hp]
  rw [hsplit, List.getElem?_append_right (Nat.le_refl _), Nat.sub_self]
  rfl

theorem exists_of_getElem?_filter (ha : (l.filter p)[i]? = some a) :
    ∃ j, l[j]? = some a ∧ p a = true ∧ ((l.take j).filter p).length = i := by
  induction l generalizing i with
  | nil => cases ha
  | cons b l ih =>
    cases hb : p b with
    | true =>
      rw [List.filter_cons_of_pos hb] at ha
      cases i with
      | zero =>
        obtain rfl := Option.some.inj ha
        exact ⟨0, rfl, hb, rfl⟩
      | succ i =>
        obtain ⟨j, hj, hp, hlen⟩ := ih ha
        refine ⟨j + 1, hj, hp, ?_⟩
        rw [List.take_succ_cons, List.filter_cons_of_pos hb, List.length_cons, hlen]
    | false =>
      have hnot : ¬ p b = true := by rw [hb]; exact Bool.false_ne_true
      rw [List.filter_cons_of_neg hnot] at ha
      obtain ⟨j, hj, hp, hlen⟩ := ih ha
      exact ⟨j + 1, hj, hp, by rw [List.take_succ_cons, List.filter_cons_of_neg hnot, hlen]⟩

/-- An element keeps its place exactly when nothing before it is taken out. -/
theorem length_filter_take_eq_iff (hj : j ≤ l.length) :
    ((l.take j).filter p).length = j ↔ ∀ i < j, ∀ b, l[i]? = some b → p b = true := by
  have hlen : (l.take j).length = j := List.length_take_of_le hj
  have hall : ((l.take j).filter p).length = (l.take j).length ↔ ∀ b ∈ l.take j, p b = true :=
    List.length_filter_eq_length_iff
  rw [hlen] at hall
  rw [hall]
  constructor
  · intro h i hi b hb
    apply h b
    exact List.mem_of_getElem? ((List.getElem?_take_of_lt hi).trans hb)
  · intro h b hb
    obtain ⟨i, hi⟩ := List.getElem?_of_mem hb
    have hij : i < j := by
      have hlt := (List.getElem?_eq_some_iff.mp hi).1
      omega
    exact h i hij b ((List.getElem?_take_of_lt hij).symm.trans hi)

end NNPIHost.Store

import Mathlib.Data.Nat.Notation

/-! # Rows of elements that go one of two ways

An element goes one of two ways, or stays. A row is a sequence of elements that go, without one
that stays between them. Grouping by way closes a group at an element of the other way; where
that element opens no group of its own, the pairs of one way that share a group are those that
go the way of the first element of their row.
-/

namespace NNPIHost.Store

/-- The way of the first element of the row that an element is in. -/
def rowWay (first : Option Bool) (way : Option Bool) : Option Bool :=
  way.map fun w => first.getD w

/-- The way of the open group behind an element. An element of the other way closes the group
and is in none. -/
def groupWay (group : Option Bool) (way : Option Bool) : Option Bool :=
  way.bind fun w => if group = some (!w) then none else some w

/-- The way of the row before a position. -/
def rowWayAt (ways : List (Option Bool)) (i : ℕ) : Option Bool := (ways.take i).foldl rowWay none

/-- The way of the group that is open before a position. -/
def groupWayAt (ways : List (Option Bool)) (i : ℕ) : Option Bool :=
  (ways.take i).foldl groupWay none

/-- Two neighbours that go one way. -/
def SameWay (ways : List (Option Bool)) (i : ℕ) (w : Bool) : Prop :=
  ways[i]? = some (some w) ∧ ways[i + 1]? = some (some w)

variable {ways : List (Option Bool)} {way : Option Bool} {i : ℕ} {w : Bool}

theorem rowWayAt_succ (h : ways[i]? = some way) :
    rowWayAt ways (i + 1) = rowWay (rowWayAt ways i) way := by
  rw [rowWayAt, List.take_add_one, h, List.foldl_append]
  rfl

theorem groupWayAt_succ (h : ways[i]? = some way) :
    groupWayAt ways (i + 1) = groupWay (groupWayAt ways i) way := by
  rw [groupWayAt, List.take_add_one, h, List.foldl_append]
  rfl

/-- The group and the row go one way, or no group is open behind an element that goes against
its row. -/
def Agree (ways : List (Option Bool)) (i : ℕ) : Prop :=
  groupWayAt ways i = rowWayAt ways i ∨
    ∃ j w, i = j + 1 ∧ groupWayAt ways i = none ∧ rowWayAt ways i = some w ∧
      ways[j]? = some (some (!w))

/-- Group and row agree as long as every pair shares its group or goes the way of its row. -/
theorem agree (h : ∀ i w, SameWay ways i w →
    groupWayAt ways (i + 1) = some w ∨ rowWayAt ways (i + 1) = some w) (hi : i ≤ ways.length) :
    Agree ways i := by
  induction i with
  | zero => exact .inl rfl
  | succ i ih =>
    have hlt : i < ways.length := Nat.lt_of_succ_le hi
    have hway := List.getElem?_eq_getElem hlt
    have hgroup := groupWayAt_succ hway
    have hrow := rowWayAt_succ hway
    cases hw : ways[i] with
    | none =>
      rw [hw] at hgroup hrow
      exact .inl (hgroup.trans hrow.symm)
    | some w =>
      rw [hw] at hway hgroup hrow
      rcases ih (Nat.le_of_succ_le hi) with heq | ⟨j, v, rfl, hnone, hv, hj⟩
      · cases hv : rowWayAt ways i with
        | none =>
          rw [heq, hv] at hgroup
          rw [hv] at hrow
          exact .inl (hgroup.trans hrow.symm)
        | some v =>
          rw [heq, hv] at hgroup
          rw [hv] at hrow
          by_cases hwv : w = v
          · subst hwv
            exact .inl (by rw [hgroup, hrow]; simp [groupWay, rowWay])
          · obtain rfl : w = !v := Bool.eq_not_of_ne hwv
            exact .inr ⟨i, v, rfl, by rw [hgroup]; simp [groupWay], by rw [hrow]; rfl, hway⟩
      · rw [hnone] at hgroup
        rw [hv] at hrow
        by_cases hwv : w = v
        · subst hwv
          exact .inl (by rw [hgroup, hrow]; simp [groupWay, rowWay])
        · -- a second element against the row would be in a pair outside of every group
          obtain rfl : w = !v := Bool.eq_not_of_ne hwv
          rcases h j (!v) ⟨hj, hway⟩ with hpair | hpair
          · rw [hnone] at hpair
            cases hpair
          · rw [hv] at hpair
            cases v <;> cases hpair

/-- All pairs share their group exactly when all of them go the way of their row. -/
theorem pairs_grouped_iff :
    (∀ i w, SameWay ways i w → groupWayAt ways (i + 1) = some w) ↔
      ∀ i w, SameWay ways i w → rowWayAt ways (i + 1) = some w := by
  have hlt {i w} (hp : SameWay ways i w) : i + 1 ≤ ways.length :=
    Nat.succ_le_of_lt (List.getElem?_eq_some_iff.mp hp.1).1
  constructor
  · intro h i w hp
    rcases agree (fun i w hp => .inl (h i w hp)) (hlt hp) with heq | ⟨j, v, -, hnone, -⟩
    · rw [← heq, h i w hp]
    · rw [h i w hp] at hnone
      cases hnone
  · intro h i w hp
    rcases agree (fun i w hp => .inr (h i w hp)) (hlt hp) with heq | ⟨j, v, hj, -, hv, hway⟩
    · rw [heq, h i w hp]
    · obtain rfl : i = j := Nat.succ.inj hj
      rw [h i w hp] at hv
      obtain rfl : w = v := Option.some.inj hv
      rw [hp.1] at hway
      cases w <;> cases hway

end NNPIHost.Store

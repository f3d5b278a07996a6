import Mathlib.Order.RelClasses
import Mathlib.Tactic.Common

/-! # Search trees over a comparison

A map that is given only a comparison of its keys keeps its entries in a tree in which they
stand in order, and takes two keys for the same when neither is less than the other. If the
comparison is a strict weak order, a search finds the entry of every key that counts as the one
that it was stored under, whatever the shape of the tree.
-/

namespace NNPIHost.Store

variable {κ ν : Type*}

inductive SearchTree (κ ν : Type*) where
  | leaf
  | node (left : SearchTree κ ν) (entry : κ × ν) (right : SearchTree κ ν)

namespace SearchTree

/-- The entries from left to right. -/
def entries : SearchTree κ ν → List (κ × ν)
  | .leaf => []
  | .node left e right => left.entries ++ e :: right.entries

variable (lt : κ → κ → Prop)

/-- Every entry has a key less than the keys of the entries after it. -/
def Sorted (t : SearchTree κ ν) : Prop := t.entries.Pairwise fun e e' => lt e.1 e'.1

variable [DecidableRel lt]

/-- The first entry whose key is not less than the given one. -/
def lowerBound (k : κ) : SearchTree κ ν → Option (κ × ν)
  | .leaf => none
  | .node left e right =>
      if lt e.1 k then right.lowerBound k else some ((left.lowerBound k).getD e)

/-- The entry whose key counts as the given one. -/
def find? (k : κ) (t : SearchTree κ ν) : Option (κ × ν) :=
  match t.lowerBound lt k with
  | none => none
  | some e => if lt k e.1 then none else some e

variable {lt} {t : SearchTree κ ν} {k : κ} {e : κ × ν}

theorem lowerBound_eq [IsTrans κ lt] (hs : t.Sorted lt) :
    t.lowerBound lt k = t.entries.find? fun e => ¬ lt e.1 k := by
  induction t with
  | leaf => rfl
  | node left e right ihl ihr =>
    obtain ⟨hleft, hright, hacross⟩ := List.pairwise_append.mp hs
    rw [lowerBound, entries, List.find?_append, ihl hleft, ihr hright.of_cons]
    split
    next hlt =>
      -- The entries on the left are less than the key too.
      have hnone : left.entries.find? (fun e => ¬ lt e.1 k) = none := by
        apply List.find?_eq_none.mpr
        intro a ha
        have hae := hacross a ha e List.mem_cons_self
        simpa using IsTrans.trans _ _ _ hae hlt
      rw [hnone, Option.none_or, List.find?_cons_of_neg (by simpa using hlt)]
    next hge =>
      rw [List.find?_cons_of_pos (by simpa using hge)]
      cases left.entries.find? fun e => ¬ lt e.1 k <;> rfl

theorem lt_of_lt_of_incomp [IsStrictWeakOrder κ lt] {a b c : κ} (hab : lt a b)
    (hbc : ¬ lt b c ∧ ¬ lt c b) : lt a c := by
  by_contra hac
  by_cases hca : lt c a
  · exact hbc.2 (IsTrans.trans _ _ _ hca hab)
  · exact (IsStrictWeakOrder.incomp_trans a c b ⟨hac, hca⟩ hbc.symm).1 hab

theorem Sorted.find?_eq [IsStrictWeakOrder κ lt] (hs : t.Sorted lt) (he : e ∈ t.entries)
    (hk : ¬ lt e.1 k ∧ ¬ lt k e.1) : t.find? lt k = some e := by
  obtain ⟨before, after, hsplit⟩ := List.append_of_mem he
  have hbefore : before.find? (fun e => ¬ lt e.1 k) = none := by
    apply List.find?_eq_none.mpr
    intro a ha
    rw [Sorted, hsplit] at hs
    have hae := (List.pairwise_append.mp hs).2.2 a ha e List.mem_cons_self
    simpa using lt_of_lt_of_incomp hae hk
  have hfirst : t.lowerBound lt k = some e := by
    rw [lowerBound_eq hs, hsplit, List.find?_append, hbefore, Option.none_or]
    exact List.find?_cons_of_pos (by simpa using hk.1)
  rw [find?, hfirst]
  exact if_neg hk.2

end SearchTree

end NNPIHost.Store

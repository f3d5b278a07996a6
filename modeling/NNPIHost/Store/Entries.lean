import Mathlib.Data.List.Nodup
import Mathlib.Data.List.Perm.Basic
import Mathlib.Logic.Function.Basic
import Mathlib.Tactic.Common

/-! # Entries of tables and lists

A table is a function of its keys, and a record changes the entry of its key. Records with
different keys change different entries, so a list of them with no key twice can be read back
from the table in any order. Each slot of a list holds some things, and when one slot changes,
the others hold what they held. Of the tokens that are taken, each is in use for one thing. A
token may pass from one use to another; it is given back only with its use.
-/

namespace NNPIHost.Store

section Keyed

variable {κ ν ρ : Type*} [DecidableEq κ] (key : ρ → κ) (put : ν → ρ → ν)

/-- Put a record into the entry of its key. -/
def update (T : κ → ν) (r : ρ) : κ → ν := Function.update T (key r) (put (T (key r)) r)

def updates (T : κ → ν) (rs : List ρ) : κ → ν := rs.foldl (update key put) T

variable {key put} {T : κ → ν} {rs : List ρ}

theorem updates_of_ne {k : κ} (h : ∀ r ∈ rs, key r ≠ k) : updates key put T rs k = T k := by
  induction rs generalizing T with
  | nil => rfl
  | cons r rs ih =>
    obtain ⟨hr, hrs⟩ := List.forall_mem_cons.mp h
    exact (ih hrs).trans (Function.update_of_ne (Ne.symm hr) _ _)

theorem updates_of_mem (hnd : (rs.map key).Nodup) {r : ρ} (hr : r ∈ rs) :
    updates key put T rs (key r) = put (T (key r)) r := by
  induction rs generalizing T with
  | nil => cases hr
  | cons r' rs ih =>
    obtain ⟨hnot, hnd⟩ := List.nodup_cons.mp hnd
    rcases List.mem_cons.mp hr with rfl | hr
    · have hne : ∀ r' ∈ rs, key r' ≠ key r := fun r' hr' he =>
        hnot (he ▸ List.mem_map_of_mem hr')
      exact (updates_of_ne hne).trans (Function.update_self ..)
    · have hne : key r ≠ key r' := fun he => hnot (he ▸ List.mem_map_of_mem hr)
      rw [updates, List.foldl_cons, ← updates, ih hnd hr, update, Function.update_of_ne hne]

end Keyed

section Slots

variable {α β : Type*} {slots : List α} {n : ℕ} {a : α}

theorem exists_perm_set (h : slots[n]? = some a) (b : α) (f : α → List β) :
    ∃ rest, (slots.flatMap f).Perm (f a ++ rest) ∧
      ((slots.set n b).flatMap f).Perm (f b ++ rest) := by
  obtain ⟨hn, rfl⟩ := List.getElem?_eq_some_iff.mp h
  have hslots : slots = slots.take n ++ slots[n] :: slots.drop (n + 1) := by
    rw [List.getElem_cons_drop, List.take_append_drop]
  refine ⟨(slots.take n).flatMap f ++ (slots.drop (n + 1)).flatMap f, ?_, ?_⟩
  · conv_lhs => rw [hslots]
    rw [List.flatMap_append, List.flatMap_cons]
    exact List.perm_append_comm_assoc ..
  · rw [List.set_eq_take_append_cons_drop, if_pos hn, List.flatMap_append, List.flatMap_cons]
    exact List.perm_append_comm_assoc ..

end Slots

section Tokens

variable {α : Type*} {uses uses' taken : List α} {a : α}

structure Leased (uses taken : List α) : Prop where
  perm : uses.Perm taken
  nodup : taken.Nodup

namespace Leased

theorem nil : Leased ([] : List α) [] := ⟨.nil, .nil⟩

theorem nodup_uses (h : Leased uses taken) : uses.Nodup := h.perm.nodup_iff.mpr h.nodup

theorem mem_iff (h : Leased uses taken) : a ∈ uses ↔ a ∈ taken := h.perm.mem_iff

theorem move (h : Leased uses taken) (hp : uses'.Perm uses) : Leased uses' taken :=
  ⟨hp.trans h.perm, h.nodup⟩

theorem take (h : Leased uses taken) (ha : a ∉ taken) (hp : uses'.Perm (a :: uses)) :
    Leased uses' (a :: taken) := ⟨hp.trans (h.perm.cons a), List.nodup_cons.mpr ⟨ha, h.nodup⟩⟩

theorem not_twice (h : Leased uses taken) (hp : uses'.Perm (a :: uses)) :
    ¬ (uses'.Nodup ∧ ∀ b ∈ uses', b ∈ taken) := by
  rintro ⟨hnodup, hsub⟩
  obtain ⟨hnew, -⟩ := List.nodup_cons.mp (hp.nodup_iff.mp hnodup)
  exact hnew (h.mem_iff.mpr (hsub a (hp.mem_iff.mpr List.mem_cons_self)))

variable [DecidableEq α]

theorem giveBack (h : Leased uses taken) (hp : uses.Perm (a :: uses')) :
    Leased uses' (taken.erase a) := by
  refine ⟨?_, h.nodup.erase a⟩
  have herase : (a :: uses').Perm (a :: taken.erase a) := by
    refine (hp.symm.trans h.perm).trans (List.perm_cons_erase ?_)
    exact h.mem_iff.mp (hp.mem_iff.mpr List.mem_cons_self)
  exact herase.cons_inv

theorem not_giveBack (h : Leased uses taken) (ha : a ∈ uses') :
    ¬ ∀ b ∈ uses', b ∈ taken.erase a := fun hsub =>
  (h.nodup.mem_erase_iff.mp (hsub a ha)).1 rfl

end Leased

end Tokens

end NNPIHost.Store

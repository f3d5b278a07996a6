import NNPIHost.Ida.Allocator

/-! # Ids in use

An object takes its id when its creation begins, keeps it while it is being created and as
long as it exists, and gives it back at the end. When every creation ends well, the ids that
are outstanding are those of the objects, whole or on their way.
-/

namespace NNPIHost

/-- An allocator with the ids of the objects that are being created and of those that exist. -/
structure IdUse where
  ids : IDAState
  creating : Finset ℕ
  live : Finset ℕ

namespace IdUse

def create (maxId : ℕ) : IdUse := ⟨.create maxId, ∅, ∅⟩

variable (u : IdUse)

/-- Nothing happens when there is no id left. -/
def begin : Option (ℕ × IdUse) :=
  u.ids.ida.alloc.map fun (id, ida) =>
    (id, ⟨⟨ida, insert id u.ids.outstanding⟩, insert id u.creating, u.live⟩)

/-- The object is there now. -/
def finish (id : ℕ) : IdUse :=
  { u with creating := u.creating.erase id, live := insert id u.live }

/-- The creation is given up, and the id is not given back. -/
def abandon (id : ℕ) : IdUse := { u with creating := u.creating.erase id }

/-- The object is gone, and its id is given back. -/
def release (id : ℕ) : IdUse :=
  { u with
    ids := ⟨u.ids.ida.free id, u.ids.outstanding.erase id⟩
    live := u.live.erase id }

/-- The outstanding ids are those of the objects. -/
structure Inv (max : ℕ) (u : IdUse) : Prop where
  ids : u.ids.Inv max
  used : u.ids.outstanding = u.creating ∪ u.live
  disjoint : Disjoint u.creating u.live

variable {u} {v : IdUse} {max id : ℕ}

theorem create_inv (max : ℕ) : (create max).Inv max :=
  ⟨IDAState.create_inv max, rfl, Finset.disjoint_empty_right _⟩

theorem Inv.begin (h : u.Inv max) (hmax : max < 2 ^ 32 - 1) (hb : u.begin = some (id, v)) :
    v.Inv max := by
  obtain ⟨⟨id', ida⟩, ha, heq⟩ := Option.map_eq_some_iff.mp hb
  obtain ⟨rfl, rfl⟩ := Prod.mk.inj heq
  have hstep : u.ids.step .alloc = some ⟨ida, insert id' u.ids.outstanding⟩ := by
    simp only [IDAState.step, ha]
  have hnew : id' ∉ u.ids.outstanding :=
    ((h.ids.free id').mp (IDA.alloc_spec h.ids.ranges ha).1.1).2
  rw [h.used, Finset.notMem_union] at hnew
  refine ⟨h.ids.step hmax hstep, ?_, ?_⟩
  · rw [h.used, Finset.insert_union]
  · exact Finset.disjoint_insert_left.mpr ⟨hnew.2, h.disjoint⟩

theorem Inv.finish (h : u.Inv max) (hid : id ∈ u.creating) : (u.finish id).Inv max where
  ids := h.ids
  used := by
    ext n
    have hn := congrArg (n ∈ ·) h.used
    simp only [Finset.mem_union, eq_iff_iff] at hn
    simp only [IdUse.finish, hn, Finset.mem_union, Finset.mem_erase, Finset.mem_insert]
    by_cases hne : n = id
    · simp [hne, hid]
    · simp [hne]
  disjoint := by
    refine Finset.disjoint_insert_right.mpr ⟨Finset.notMem_erase _ _, ?_⟩
    exact h.disjoint.mono_left (Finset.erase_subset _ _)

theorem Inv.release (h : u.Inv max) (hmax : max < 2 ^ 32 - 1) (hid : id ∈ u.live) :
    (u.release id).Inv max := by
  have hout : id ∈ u.ids.outstanding := by
    rw [h.used]
    exact Finset.mem_union_right _ hid
  have hstep : u.ids.step (.free id) =
      some ⟨u.ids.ida.free id, u.ids.outstanding.erase id⟩ := if_pos hout
  have hnot : id ∉ u.creating := Finset.disjoint_right.mp h.disjoint hid
  refine ⟨h.ids.step hmax hstep, ?_, h.disjoint.mono_right (Finset.erase_subset _ _)⟩
  simp only [IdUse.release, h.used, Finset.erase_union_distrib, Finset.erase_eq_of_notMem hnot]

theorem Inv.nonempty (h : u.Inv max) (hpos : 0 < u.ids.ida.getNumAlloc) :
    (u.creating ∪ u.live).Nonempty := by
  rw [← h.used, ← Finset.card_pos, ← h.ids.count]
  exact hpos

end IdUse

end NNPIHost

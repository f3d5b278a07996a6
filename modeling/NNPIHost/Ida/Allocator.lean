import Mathlib.Data.Finset.Card
import NNPIHost.Exec.Run
import NNPIHost.Store.Ranges

/-! # The id allocator

`nnpiIDA` keeps the free ids as an ordered map from the first to the last id of each range.
An allocation takes the first id of the first range; a freed id is joined to a range next to
it, or makes a range of its own. Ids are 32-bit words.
-/

namespace NNPIHost

open Store

/-- The fields of `nnpiIDA`. -/
structure IDA where
  freeRanges : OrderedMap ℕ ℕ
  numAlloc : ℕ

namespace IDA

def create (maxId : ℕ) : IDA := ⟨.singleton 0 maxId, 0⟩

def alloc (s : IDA) : Option (ℕ × IDA) :=
  match s.freeRanges.entries with
  | [] => none
  | (first, last) :: _ =>
      let ranges := if first < last then s.freeRanges.insert (first + 1) last else s.freeRanges
      some (first, ⟨ranges.erase first, (s.numAlloc + 1) % 2 ^ 32⟩)

/-- The loop ends at the first range that the id comes just before or just after. -/
def free (s : IDA) (id : ℕ) : IDA :=
  let next := (id + 1) % 2 ^ 32
  let prev := (id + (2 ^ 32 - 1)) % 2 ^ 32
  let numAlloc := (s.numAlloc + (2 ^ 32 - 1)) % 2 ^ 32
  match s.freeRanges.entries.find? fun r => r.1 = next ∨ r.2 = prev with
  | some r =>
      if r.1 = next then ⟨(s.freeRanges.insert id r.2).erase r.1, numAlloc⟩
      else ⟨s.freeRanges.insert r.1 id, numAlloc⟩
  | none => ⟨s.freeRanges.insert id id, numAlloc⟩

def getNumAlloc (s : IDA) : ℕ := s.numAlloc

variable {s t : IDA} {max id n : ℕ}

theorem alloc_eq_none (h : s.freeRanges.Separated max) :
    s.alloc = none ↔ ∀ n, ¬ s.freeRanges.Covers n := by
  cases hm : s.freeRanges.entries with
  | nil => simp [alloc, hm, OrderedMap.Covers, ← OrderedMap.mem_entries]
  | cons r es =>
    simp only [alloc, hm, reduceCtorEq, false_iff, not_forall, not_not]
    exact ⟨r.1, (h.isLeast hm).1⟩

theorem alloc_spec (h : s.freeRanges.Separated max) (ha : s.alloc = some (id, t)) :
    IsLeast {n | s.freeRanges.Covers n} id ∧ t.freeRanges.Separated max ∧
      (∀ n, t.freeRanges.Covers n ↔ s.freeRanges.Covers n ∧ n ≠ id) ∧
      t.numAlloc = (s.numAlloc + 1) % 2 ^ 32 := by
  cases hm : s.freeRanges.entries with
  | nil => simp [alloc, hm] at ha
  | cons r es =>
    obtain ⟨hsep, hcov⟩ := h.drop_least hm
    simp only [alloc, hm, Option.some.injEq, Prod.mk.injEq] at ha
    obtain ⟨rfl, rfl⟩ := ha
    exact ⟨h.isLeast hm, hsep, hcov, rfl⟩

theorem free_spec (h : s.freeRanges.Separated max) (hmax : max < 2 ^ 32 - 1) (hid : id ≤ max)
    (hn : ¬ s.freeRanges.Covers id) :
    (s.free id).freeRanges.Separated max ∧
      (∀ n, (s.free id).freeRanges.Covers n ↔ n = id ∨ s.freeRanges.Covers n) ∧
      (s.free id).numAlloc = (s.numAlloc + (2 ^ 32 - 1)) % 2 ^ 32 := by
  unfold free
  dsimp only
  split
  next r hfind =>
    have hr : r ∈ s.freeRanges := List.mem_of_find?_eq_some hfind
    have hcond : r.1 = (id + 1) % 2 ^ 32 ∨ r.2 = (id + (2 ^ 32 - 1)) % 2 ^ 32 := by
      simpa using List.find?_some hfind
    have hbound := h.bounded r hr
    split
    next hnext =>
      obtain ⟨hsep, hcov⟩ := h.join_next hn hr (by omega)
      exact ⟨hsep, hcov, rfl⟩
    next hnext =>
      obtain ⟨hsep, hcov⟩ := h.join_prev hn hid hr (by omega)
      exact ⟨hsep, hcov, rfl⟩
  next =>
    obtain ⟨hsep, hcov⟩ := h.add hn hid
    exact ⟨hsep, hcov, rfl⟩

end IDA

/-- An allocator with the ids that it has handed out and that were not freed. -/
structure IDAState where
  ida : IDA
  outstanding : Finset ℕ

inductive IDAOp where
  | alloc
  | free (id : ℕ)

namespace IDAState

def create (maxId : ℕ) : IDAState := ⟨.create maxId, ∅⟩

/-- Only ids that are outstanding are freed. -/
def step (s : IDAState) : IDAOp → Option IDAState
  | .alloc =>
      match s.ida.alloc with
      | none => some s
      | some (id, ida) => some ⟨ida, insert id s.outstanding⟩
  | .free id =>
      if id ∈ s.outstanding then some ⟨s.ida.free id, s.outstanding.erase id⟩ else none

/-- What an allocator shows of the set of free ids of `[0, max]`, those that are not
outstanding. -/
structure Refined (max : ℕ) (s : IDAState) : Prop where
  ranges : s.ida.freeRanges.Separated max
  free : ∀ n, s.ida.freeRanges.Covers n ↔ n ≤ max ∧ n ∉ s.outstanding
  fails : s.ida.alloc = none ↔ s.outstanding = Finset.range (max + 1)
  least : ∀ id ida, s.ida.alloc = some (id, ida) →
    IsLeast {n | n ≤ max ∧ n ∉ s.outstanding} id
  freed : ∀ id ∈ s.outstanding, ∀ n,
    (s.ida.free id).freeRanges.Covers n ↔ n = id ∨ s.ida.freeRanges.Covers n
  count : s.ida.getNumAlloc = s.outstanding.card

/-- The outstanding ids are those of `[0, max]` that are not free. -/
structure Inv (max : ℕ) (s : IDAState) : Prop where
  ranges : s.ida.freeRanges.Separated max
  free : ∀ n, s.ida.freeRanges.Covers n ↔ n ≤ max ∧ n ∉ s.outstanding
  within : s.outstanding ⊆ Finset.range (max + 1)
  count : s.ida.numAlloc = s.outstanding.card

variable {s t : IDAState} {op : IDAOp} {max id : ℕ}

theorem create_inv (max : ℕ) : (create max).Inv max where
  ranges := .singleton
  free n := OrderedMap.covers_singleton.trans (by simp [create])
  within := by simp [create]
  count := rfl

theorem Inv.le_max (h : s.Inv max) (hid : id ∈ s.outstanding) : id ≤ max :=
  Nat.lt_succ_iff.mp (Finset.mem_range.mp (h.within hid))

theorem Inv.not_free (h : s.Inv max) (hid : id ∈ s.outstanding) :
    ¬ s.ida.freeRanges.Covers id := fun hc => ((h.free id).mp hc).2 hid

theorem Inv.card_le (h : s.Inv max) : s.outstanding.card ≤ max + 1 :=
  (Finset.card_le_card h.within).trans_eq (Finset.card_range _)

theorem Inv.refined (h : s.Inv max) (hmax : max < 2 ^ 32 - 1) : s.Refined max where
  ranges := h.ranges
  free := h.free
  fails := by
    rw [IDA.alloc_eq_none h.ranges]
    simp only [h.free, not_and, not_not]
    constructor
    · intro hall
      apply h.within.antisymm
      exact fun n hn => hall n (Nat.lt_succ_iff.mp (Finset.mem_range.mp hn))
    · intro heq n hn
      exact heq ▸ Finset.mem_range.mpr (Nat.lt_succ_iff.mpr hn)
  least id ida ha := by simpa only [h.free] using (IDA.alloc_spec h.ranges ha).1
  freed id hid := (IDA.free_spec h.ranges hmax (h.le_max hid) (h.not_free hid)).2.1
  count := h.count

theorem Inv.step (h : s.Inv max) (hmax : max < 2 ^ 32 - 1) (hs : s.step op = some t) :
    t.Inv max := by
  have hcard := h.card_le
  cases op with
  | alloc =>
    simp only [IDAState.step] at hs
    split at hs
    next => exact Option.some.inj hs ▸ h
    next id ida ha =>
      obtain rfl := Option.some.inj hs
      obtain ⟨hleast, hsep, hcov, hnum⟩ := IDA.alloc_spec h.ranges ha
      obtain ⟨hle, hnot⟩ := (h.free id).mp hleast.1
      have hin : insert id s.outstanding ⊆ Finset.range (max + 1) :=
        Finset.insert_subset (Finset.mem_range.mpr (by omega)) h.within
      have hcard' := (Finset.card_le_card hin).trans_eq (Finset.card_range _)
      rw [Finset.card_insert_of_notMem hnot] at hcard'
      refine ⟨hsep, fun n => ?_, hin, ?_⟩
      · rw [hcov, h.free, Finset.mem_insert, not_or]
        tauto
      · rw [hnum, h.count, Finset.card_insert_of_notMem hnot]
        exact Nat.mod_eq_of_lt (by omega)
  | free id =>
    simp only [IDAState.step, Option.ite_none_right_eq_some] at hs
    obtain ⟨hid, hs⟩ := hs
    obtain rfl := Option.some.inj hs
    have hle := h.le_max hid
    obtain ⟨hsep, hcov, hnum⟩ := IDA.free_spec h.ranges hmax hle (h.not_free hid)
    have hpos := Finset.card_pos.mpr ⟨id, hid⟩
    refine ⟨hsep, fun n => ?_, (Finset.erase_subset _ _).trans h.within, ?_⟩
    · rw [hcov, h.free, Finset.mem_erase]
      by_cases hn : n = id
      · simp [hn, hle]
      · simp [hn]
    · rw [hnum, h.count, Finset.card_erase_of_mem hid]
      omega

/-- For every history of allocations and frees, the allocator is the set of the ids that are
not outstanding: it hands out the least of them, fails exactly when there is none, and counts
the others. -/
theorem refines_free_set (maxId : ℕ) (hmax : maxId < 2 ^ 32 - 1) (ops : List IDAOp) :
    Exec.Always step (Refined maxId) (create maxId) ops :=
  (Exec.always_of_preserved (create_inv maxId) fun _ _ _ h hs => h.step hmax hs).mono
    fun _ h => h.refined hmax

theorem refines_free_set_mixed :
    Exec.Always step (Refined 5) (create 5)
      [.alloc, .alloc, .alloc, .free 1, .free 0, .alloc, .free 2] :=
  refines_free_set 5 (by decide) _

end IDAState

end NNPIHost

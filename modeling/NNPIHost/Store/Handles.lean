import Mathlib.Data.Finset.Card
import NNPIHost.Store.Ordered

/-! # Maps of handles

A new object gets the first number from its address on that is not in use. A map of so many
entries cannot have all of one number more, so the search ends, and taking the object out again
leaves the map as it was.
-/

namespace NNPIHost.Store.OrderedMap

variable {κ ν : Type*} [LinearOrder κ]

/-- The first number from `k` on that is not a key, when at most `fuel` come before it. -/
def freshKey (m : OrderedMap ℕ ν) : ℕ → ℕ → ℕ
  | 0, k => k
  | fuel + 1, k => if k ∈ m.keys then freshKey m fuel (k + 1) else k

/-- The handle of a new object, and the map with it. -/
def makeHandle (m : OrderedMap ℕ ν) (addr : ℕ) (obj : ν) : ℕ × OrderedMap ℕ ν :=
  (m.freshKey m.entries.length addr, m.insert (m.freshKey m.entries.length addr) obj)

theorem mem_keys_of_freshKey_mem {m : OrderedMap ℕ ν} {fuel k : ℕ}
    (h : m.freshKey fuel k ∈ m.keys) : ∀ i ≤ fuel, k + i ∈ m.keys := by
  induction fuel generalizing k with
  | zero =>
    intro i hi
    obtain rfl := Nat.le_zero.mp hi
    exact h
  | succ fuel ih =>
    rw [freshKey] at h
    split at h
    next hk =>
      rintro (_ | i) hi
      · exact hk
      · rw [Nat.add_comm i 1, ← Nat.add_assoc]
        exact ih h i (Nat.le_of_succ_le_succ hi)
    next hk => exact absurd h hk

theorem freshKey_notMem (m : OrderedMap ℕ ν) (k : ℕ) :
    m.freshKey m.entries.length k ∉ m.keys := by
  intro h
  have hall := mem_keys_of_freshKey_mem h
  have hsub : (Finset.range (m.entries.length + 1)).image (k + ·) ⊆ m.keys.toFinset := by
    intro n hn
    obtain ⟨i, hi, rfl⟩ := Finset.mem_image.mp hn
    exact List.mem_toFinset.mpr (hall i (Nat.le_of_lt_succ (Finset.mem_range.mp hi)))
  have hcard := Finset.card_le_card hsub
  rw [Finset.card_image_of_injective _ (fun _ _ heq => Nat.add_left_cancel heq), Finset.card_range,
    List.toFinset_card_of_nodup m.nodup_keys, keys, List.length_map] at hcard
  exact Nat.not_succ_le_self _ hcard

variable {m : OrderedMap κ ν} {k k' : κ} {v : ν}

theorem mem_keys_insert : k' ∈ (m.insert k v).keys ↔ k' = k ∨ k' ∈ m.keys := by
  by_cases hk : k' = k
  · simp only [mem_keys, mem_insert, hk, true_or, iff_true]
    exact ⟨v, .inl rfl⟩
  · simp [mem_keys, hk]

theorem mem_keys_erase : k' ∈ (m.erase k).keys ↔ k' ∈ m.keys ∧ k' ≠ k := by
  simp only [mem_keys, mem_erase, exists_and_right]

theorem find?_insert : (m.insert k v).find? k' = if k' = k then some v else m.find? k' := by
  split
  next hk => exact find?_eq_some.mpr (mem_insert.mpr (.inl (by rw [hk])))
  next hk =>
    ext v'
    simp only [find?_eq_some, mem_insert, Prod.mk.injEq, hk, false_and, false_or, ne_eq,
      not_false_eq_true, and_true]

/-- A new entry taken out again. -/
theorem erase_insert (hk : k ∉ m.keys) : (m.insert k v).erase k = m := by
  apply ext_mem
  intro e
  have hne : e ∈ m → e.1 ≠ k := fun he heq => hk (mem_keys.mpr ⟨e.2, heq ▸ he⟩)
  simp only [mem_erase, mem_insert]
  constructor
  · rintro ⟨rfl | ⟨he, _⟩, hne⟩
    · exact absurd rfl hne
    · exact he
  · intro he
    exact ⟨.inr ⟨he, hne he⟩, hne he⟩

theorem insert_keys_ne (hk : k ∉ m.keys) : (m.insert k v).keys ≠ m.keys :=
  fun heq => hk (heq ▸ mem_keys_insert.mpr (.inl rfl))

end NNPIHost.Store.OrderedMap

import Mathlib.Algebra.Group.Nat.Defs
import Mathlib.Data.Nat.Basic
import Mathlib.Order.Bounds.Defs
import NNPIHost.Store.Ordered

/-! # Sets of numbers as ranges

A map from the first to the last number of each range stands for the set of the numbers in
its ranges. The ranges are separated when none is empty and no two of them meet.
-/

namespace NNPIHost.Store.OrderedMap

/-- The number is in one of the ranges. -/
def Covers (m : OrderedMap ℕ ℕ) (n : ℕ) : Prop := ∃ r ∈ m, r.1 ≤ n ∧ n ≤ r.2

/-- Ranges of numbers up to `max` that are not empty and do not meet. -/
structure Separated (max : ℕ) (m : OrderedMap ℕ ℕ) : Prop where
  bounded : ∀ r ∈ m, r.1 ≤ r.2 ∧ r.2 ≤ max
  apart : ∀ r ∈ m, ∀ r' ∈ m, r.1 < r'.1 → r.2 < r'.1

variable {max : ℕ} {m : OrderedMap ℕ ℕ} {r r' : ℕ × ℕ} {a b n : ℕ}

theorem Separated.singleton : Separated max (singleton 0 max) where
  bounded := by simp
  apart := by simp

theorem covers_singleton : (singleton 0 max).Covers n ↔ n ≤ max := by
  simp [Covers]

theorem Separated.erase (h : Separated max m) : Separated max (m.erase a) where
  bounded r hr := h.bounded r (mem_erase.mp hr).1
  apart r hr r' hr' := h.apart r (mem_erase.mp hr).1 r' (mem_erase.mp hr').1

theorem Separated.covers_erase (h : Separated max m) (hr : r ∈ m) :
    (m.erase r.1).Covers n ↔ m.Covers n ∧ ¬ (r.1 ≤ n ∧ n ≤ r.2) := by
  constructor
  · rintro ⟨r', hr', hle⟩
    obtain ⟨hr', hne⟩ := mem_erase.mp hr'
    refine ⟨⟨r', hr', hle⟩, fun hin => ?_⟩
    rcases Nat.lt_or_gt_of_ne hne with hlt | hlt
    · have := h.apart r' hr' r hr hlt
      omega
    · have := h.apart r hr r' hr' hlt
      omega
  · rintro ⟨⟨r', hr', hle⟩, hout⟩
    exact ⟨r', mem_erase.mpr ⟨hr', fun he => hout (eq_of_key_eq hr' hr he ▸ hle)⟩, hle⟩

theorem Separated.insert (h : Separated max m) (hab : a ≤ b) (hb : b ≤ max)
    (hout : ∀ r ∈ m, r.1 ≠ a → r.2 < a ∨ b < r.1) : Separated max (m.insert a b) where
  bounded := by
    intro r hr
    rcases mem_insert.mp hr with rfl | ⟨hr, _⟩
    · exact ⟨hab, hb⟩
    · exact h.bounded r hr
  apart := by
    intro r hr r' hr' hlt
    rcases mem_insert.mp hr with rfl | ⟨hr, hne⟩ <;>
      rcases mem_insert.mp hr' with rfl | ⟨hr', hne'⟩
    · exact absurd hlt (lt_irrefl _)
    · have := hout r' hr' hne'
      have := h.bounded r' hr'
      omega
    · have := hout r hr hne
      have := h.bounded r hr
      omega
    · exact h.apart r hr r' hr' hlt

theorem covers_insert : (m.insert a b).Covers n ↔ (a ≤ n ∧ n ≤ b) ∨ (m.erase a).Covers n := by
  simp only [Covers, mem_insert, mem_erase]
  constructor
  · rintro ⟨r, rfl | hr, hle⟩
    · exact .inl hle
    · exact .inr ⟨r, hr, hle⟩
  · rintro (hle | ⟨r, hr, hle⟩)
    · exact ⟨(a, b), .inl rfl, hle⟩
    · exact ⟨r, .inr hr, hle⟩

theorem Separated.covers_key (h : Separated max m) (ha : a ∈ m.keys) : m.Covers a := by
  obtain ⟨b, hb⟩ := mem_keys.mp ha
  exact ⟨(a, b), hb, le_rfl, (h.bounded _ hb).1⟩

theorem Separated.covers_insert (h : Separated max m) (ha : ¬ m.Covers a) :
    (m.insert a b).Covers n ↔ (a ≤ n ∧ n ≤ b) ∨ m.Covers n := by
  rw [OrderedMap.covers_insert, erase_of_not_mem (mt h.covers_key ha)]

theorem Separated.isLeast (h : Separated max m) {es : List (ℕ × ℕ)}
    (hm : m.entries = r :: es) : IsLeast {n | m.Covers n} r.1 := by
  have hr : r ∈ m := mem_entries.mp (hm ▸ List.mem_cons_self)
  refine ⟨⟨r, hr, le_rfl, (h.bounded r hr).1⟩, ?_⟩
  rintro n ⟨r', hr', hle⟩
  rcases head_le hm hr' with rfl | hlt
  · exact hle.1
  · exact hlt.le.trans hle.1

theorem side_of_not_covers (ha : ¬ m.Covers a) (hr : r ∈ m) : r.2 < a ∨ a < r.1 := by
  by_contra hin
  exact ha ⟨r, hr, by omega⟩

theorem Separated.drop_least (h : Separated max m) {es : List (ℕ × ℕ)}
    (hm : m.entries = r :: es) :
    Separated max ((if r.1 < r.2 then m.insert (r.1 + 1) r.2 else m).erase r.1) ∧
      ∀ n, ((if r.1 < r.2 then m.insert (r.1 + 1) r.2 else m).erase r.1).Covers n ↔
        m.Covers n ∧ n ≠ r.1 := by
  have hr : r ∈ m := mem_entries.mp (hm ▸ List.mem_cons_self)
  have hbound := h.bounded r hr
  have hcov := fun n => h.covers_erase (n := n) hr
  split
  next hlt =>
    have hrest : ∀ r' ∈ m.erase r.1, r'.1 ≠ r.1 + 1 → r'.2 < r.1 + 1 ∨ r.2 < r'.1 := by
      intro r' hr' _
      obtain ⟨hr', hne⟩ := mem_erase.mp hr'
      rcases head_le hm hr' with rfl | hlt
      · exact absurd rfl hne
      · exact .inr (h.apart _ hr _ hr' hlt)
    have hout : ¬ (m.erase r.1).Covers (r.1 + 1) := by
      rw [hcov]
      exact fun hc => hc.2 ⟨Nat.le_succ _, hlt⟩
    rw [erase_insert_of_ne (Nat.succ_ne_self r.1)]
    refine ⟨h.erase.insert hlt hbound.2 hrest, fun n => ?_⟩
    rw [h.erase.covers_insert hout, hcov]
    constructor
    · rintro (hin | ⟨hc, hnot⟩)
      · exact ⟨⟨r, hr, by omega⟩, by omega⟩
      · exact ⟨hc, by omega⟩
    · rintro ⟨hc, hne⟩
      by_cases hin : r.1 ≤ n ∧ n ≤ r.2
      · exact .inl (by omega)
      · exact .inr ⟨hc, hin⟩
  next hge =>
    refine ⟨h.erase, fun n => (hcov n).trans (and_congr_right fun hc => ?_)⟩
    have hfirst := (h.isLeast hm).2 hc
    omega

theorem Separated.join_next (h : Separated max m) (ha : ¬ m.Covers a) (hr : r ∈ m)
    (hnext : r.1 = a + 1) :
    Separated max ((m.insert a r.2).erase r.1) ∧
      ∀ n, ((m.insert a r.2).erase r.1).Covers n ↔ n = a ∨ m.Covers n := by
  have hbound := h.bounded r hr
  have hcov := fun n => h.covers_erase (n := n) hr
  have hout : ¬ (m.erase r.1).Covers a := fun hc => ha ((hcov a).mp hc).1
  have hrest : ∀ r' ∈ m.erase r.1, r'.1 ≠ a → r'.2 < a ∨ r.2 < r'.1 := by
    intro r' hr' _
    obtain ⟨hr', hne⟩ := mem_erase.mp hr'
    rcases side_of_not_covers ha hr' with hlt | hlt
    · exact .inl hlt
    · exact .inr (h.apart r hr r' hr' (by omega))
  rw [erase_insert_of_ne (by omega)]
  refine ⟨h.erase.insert (by omega) hbound.2 hrest, fun n => ?_⟩
  rw [h.erase.covers_insert hout, hcov]
  constructor
  · rintro (hin | ⟨hc, _⟩)
    · rcases Nat.eq_or_lt_of_le hin.1 with rfl | hlt
      · exact .inl rfl
      · exact .inr ⟨r, hr, by omega⟩
    · exact .inr hc
  · rintro (rfl | hc)
    · exact .inl ⟨le_rfl, by omega⟩
    · by_cases hin : r.1 ≤ n ∧ n ≤ r.2
      · exact .inl (by omega)
      · exact .inr ⟨hc, hin⟩

theorem Separated.join_prev (h : Separated max m) (ha : ¬ m.Covers a) (hmax : a ≤ max)
    (hr : r ∈ m) (hprev : r.2 + 1 = a) :
    Separated max (m.insert r.1 a) ∧ ∀ n, (m.insert r.1 a).Covers n ↔ n = a ∨ m.Covers n := by
  have hbound := h.bounded r hr
  have hrest : ∀ r' ∈ m, r'.1 ≠ r.1 → r'.2 < r.1 ∨ a < r'.1 := by
    intro r' hr' hne
    rcases Nat.lt_or_gt_of_ne hne with hlt | hlt
    · exact .inl (h.apart r' hr' r hr hlt)
    · have := h.apart r hr r' hr' hlt
      rcases side_of_not_covers ha hr' with hlt' | hlt'
      · have := h.bounded r' hr'
        omega
      · exact .inr hlt'
  refine ⟨h.insert (by omega) hmax hrest, fun n => ?_⟩
  rw [OrderedMap.covers_insert, h.covers_erase hr]
  constructor
  · rintro (hin | ⟨hc, _⟩)
    · rcases Nat.eq_or_lt_of_le hin.2 with rfl | hlt
      · exact .inl rfl
      · exact .inr ⟨r, hr, by omega⟩
    · exact .inr hc
  · rintro (rfl | hc)
    · exact .inl ⟨by omega, le_rfl⟩
    · by_cases hin : r.1 ≤ n ∧ n ≤ r.2
      · exact .inl (by omega)
      · exact .inr ⟨hc, hin⟩

theorem Separated.add (h : Separated max m) (ha : ¬ m.Covers a) (hmax : a ≤ max) :
    Separated max (m.insert a a) ∧ ∀ n, (m.insert a a).Covers n ↔ n = a ∨ m.Covers n := by
  refine ⟨h.insert le_rfl hmax fun r hr _ => side_of_not_covers ha hr, fun n => ?_⟩
  rw [h.covers_insert ha]
  exact or_congr_left (by omega)

end NNPIHost.Store.OrderedMap

import Mathlib.Data.Finset.Card
import NNPIHost.Store.Ranges

/-! # Ranges that are not adjacent

Separated ranges of which none ends just before another one starts are the longest ranges of
their set: the set alone gives their number, and a set without gaps is a single range.
-/

namespace NNPIHost.Store.OrderedMap

/-- No range ends just before another one starts. -/
def Coalesced (m : OrderedMap ℕ ℕ) : Prop := ∀ r ∈ m, ∀ r' ∈ m, r.2 + 1 ≠ r'.1

variable {max : ℕ} {m : OrderedMap ℕ ℕ} {r r' : ℕ × ℕ} {es : List (ℕ × ℕ)} {a b n : ℕ}

theorem Coalesced.singleton : (singleton 0 max).Coalesced := by
  intro r _ r' hr'
  obtain rfl := mem_singleton.mp hr'
  exact Nat.succ_ne_zero r.2

theorem Coalesced.erase (h : m.Coalesced) : (m.erase a).Coalesced :=
  fun r hr r' hr' => h r (mem_erase.mp hr).1 r' (mem_erase.mp hr').1

theorem Coalesced.insert (h : m.Coalesced) (hab : a ≤ b)
    (hout : ∀ r ∈ m, r.1 ≠ a → r.2 + 1 ≠ a ∧ b + 1 ≠ r.1) : (m.insert a b).Coalesced := by
  intro r hr r' hr'
  rcases mem_insert.mp hr with rfl | ⟨hr, hne⟩ <;>
    rcases mem_insert.mp hr' with rfl | ⟨hr', hne'⟩
  · exact ne_of_gt (Nat.lt_succ_of_le hab)
  · exact (hout r' hr' hne').2
  · exact (hout r hr hne).1
  · exact h r hr r' hr'

theorem Coalesced.not_covers_prev (h : m.Coalesced) (hs : Separated max m) (hr : r ∈ m)
    (hn : n + 1 = r.1) : ¬ m.Covers n := by
  rintro ⟨r', hr', hle⟩
  have hlt := hs.apart r' hr' r hr (by omega)
  exact h r' hr' r hr (by omega)

theorem Coalesced.not_covers_next (h : m.Coalesced) (hs : Separated max m) (hr : r ∈ m) :
    ¬ m.Covers (r.2 + 1) := by
  rintro ⟨r', hr', hle⟩
  have hbound := hs.bounded r hr
  rcases Nat.lt_trichotomy r'.1 r.1 with hlt | heq | hlt
  · have := hs.apart r' hr' r hr hlt
    omega
  · obtain rfl := eq_of_key_eq hr' hr heq
    omega
  · have := hs.apart r hr r' hr' hlt
    exact h r hr r' hr' (by omega)

theorem Separated.covers_before (hs : Separated max m) (ha : ¬ m.Covers (n + 1)) :
    m.Covers n ↔ ∃ r ∈ m, r.2 = n := by
  constructor
  · rintro ⟨r, hr, hle⟩
    rcases side_of_not_covers ha hr with hlt | hlt
    · exact ⟨r, hr, by omega⟩
    · omega
  · rintro ⟨r, hr, rfl⟩
    exact ⟨r, hr, (hs.bounded r hr).1, le_rfl⟩

theorem Separated.covers_after (hs : Separated max m) (ha : ¬ m.Covers n) :
    m.Covers (n + 1) ↔ ∃ r ∈ m, r.1 = n + 1 := by
  constructor
  · rintro ⟨r, hr, hle⟩
    rcases side_of_not_covers ha hr with hlt | hlt
    · omega
    · exact ⟨r, hr, by omega⟩
  · rintro ⟨r, hr, heq⟩
    exact ⟨r, hr, heq.le, heq ▸ (hs.bounded r hr).1⟩

theorem Coalesced.step (h : m.Coalesced) (hs : Separated max m) (hr : r ∈ m)
    (hn : n ≤ r.2) (hc : m.Covers (n + 1)) : n + 1 ≤ r.2 := by
  by_contra hlt
  obtain rfl : n = r.2 := by omega
  exact h.not_covers_next hs hr hc

/-- A number of the set that comes just after another one does not start a range, so a set
without gaps is one range. -/
theorem Coalesced.eq_singleton (h : m.Coalesced) (hs : Separated max m)
    (hall : ∀ n, m.Covers n ↔ n ≤ max) : m.entries = [(0, max)] := by
  obtain ⟨r, hr, hle⟩ := (hall 0).mpr (Nat.zero_le _)
  have hbound := hs.bounded r hr
  have hlast : ∀ n ≤ max, n ≤ r.2 := by
    intro n
    induction n with
    | zero => exact fun _ => Nat.zero_le _
    | succ n ih =>
      intro hn
      exact h.step hs hr (ih (Nat.le_of_succ_le hn)) ((hall _).mpr hn)
  have hmax := hlast max le_rfl
  obtain rfl : r = (0, max) := Prod.ext (by omega) (by omega)
  have heq : m = .singleton 0 max := by
    apply ext_mem
    intro r'
    rw [mem_singleton]
    constructor
    · intro hr'
      rcases Nat.eq_zero_or_pos r'.1 with hz | hpos
      · exact eq_of_key_eq hr' hr hz
      · have := hs.apart _ hr r' hr' hpos
        have := hs.bounded r' hr'
        omega
    · rintro rfl
      exact hr
  rw [heq, OrderedMap.singleton]

/-- There are no more ranges than numbers up to the bound that are outside of the set, and one
more: every range but the first has such a number before it. -/
theorem Coalesced.length_le (h : m.Coalesced) (hs : Separated max m) {out : Finset ℕ}
    (hout : ∀ n ≤ max, ¬ m.Covers n → n ∈ out) : m.entries.length ≤ out.card + 1 := by
  cases hm : m.entries with
  | nil => exact Nat.zero_le _
  | cons r es =>
    have hsorted := m.sorted
    rw [hm] at hsorted
    have hpos : ∀ r' ∈ es, 0 < r'.1 := fun r' hr' =>
      Nat.lt_of_le_of_lt (Nat.zero_le _) (List.rel_of_pairwise_cons hsorted hr')
    have hnd : (es.map fun r' => r'.1 - 1).Nodup := by
      refine List.pairwise_map.mpr (hsorted.of_cons.imp_of_mem ?_)
      intro r₁ r₂ h₁ h₂ hlt
      have := hpos r₁ h₁
      omega
    have hsub : (es.map fun r' => r'.1 - 1).toFinset ⊆ out := by
      intro n hn
      obtain ⟨r', hr', rfl⟩ := List.mem_map.mp (List.mem_toFinset.mp hn)
      have hmem : r' ∈ m := mem_entries.mp (hm ▸ List.mem_cons_of_mem r hr')
      have := hpos r' hr'
      have := hs.bounded r' hmem
      exact hout _ (by omega) (h.not_covers_prev hs hmem (by omega))
    have hcard := Finset.card_le_card hsub
    rw [List.toFinset_card_of_nodup hnd, List.length_map] at hcard
    exact Nat.succ_le_succ hcard

theorem Coalesced.drop_least (h : m.Coalesced) (hs : Separated max m)
    (hm : m.entries = r :: es) :
    ((if r.1 < r.2 then m.insert (r.1 + 1) r.2 else m).erase r.1).Coalesced := by
  have hr : r ∈ m := mem_entries.mp (hm ▸ List.mem_cons_self)
  split
  next hlt =>
    rw [erase_insert_of_ne (Nat.succ_ne_self r.1)]
    refine h.erase.insert hlt fun r' hr' _ => ?_
    obtain ⟨hr', hne⟩ := mem_erase.mp hr'
    rcases head_le hm hr' with rfl | hfirst
    · exact absurd rfl hne
    · have := hs.bounded r' hr'
      exact ⟨by omega, h r hr r' hr'⟩
  next => exact h.erase

/-- A number that joins the range after it leaves the ranges apart exactly when no range ends
before the number. -/
theorem Coalesced.join_next (h : m.Coalesced) (hs : Separated max m) (hr : r ∈ m)
    (hnext : r.1 = a + 1) :
    ((m.insert a r.2).erase r.1).Coalesced ↔ ∀ r' ∈ m, r'.2 + 1 ≠ a := by
  have hbound := hs.bounded r hr
  rw [erase_insert_of_ne (by omega)]
  constructor
  · intro hc r' hr' heq
    have hlt := hs.bounded r' hr'
    refine hc r' ?_ (a, r.2) (mem_insert.mpr (.inl rfl)) heq
    exact mem_insert.mpr (.inr ⟨mem_erase.mpr ⟨hr', by omega⟩, by omega⟩)
  · intro hprev
    refine h.erase.insert (by omega) fun r' hr' _ => ?_
    have hr' := (mem_erase.mp hr').1
    exact ⟨hprev r' hr', h r hr r' hr'⟩

/-- A number that joins the range before it leaves the ranges apart exactly when no range
starts after the number. -/
theorem Coalesced.join_prev (h : m.Coalesced) (hs : Separated max m) (hr : r ∈ m)
    (hprev : r.2 + 1 = a) :
    (m.insert r.1 a).Coalesced ↔ ∀ r' ∈ m, r'.1 ≠ a + 1 := by
  have hbound := hs.bounded r hr
  constructor
  · intro hc r' hr' heq
    refine hc (r.1, a) (mem_insert.mpr (.inl rfl)) r' ?_ heq.symm
    exact mem_insert.mpr (.inr ⟨hr', by omega⟩)
  · intro hnext
    refine h.insert (by omega) fun r' hr' _ => ⟨?_, (hnext r' hr').symm⟩
    exact h r' hr' r hr

theorem Coalesced.add (h : m.Coalesced) (hprev : ∀ r ∈ m, r.2 + 1 ≠ a)
    (hnext : ∀ r ∈ m, r.1 ≠ a + 1) : (m.insert a a).Coalesced :=
  h.insert le_rfl fun r hr _ => ⟨hprev r hr, (hnext r hr).symm⟩

end NNPIHost.Store.OrderedMap

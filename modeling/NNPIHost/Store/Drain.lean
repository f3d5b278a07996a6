import NNPIHost.Store.Ordered

/-! # Draining an ordered map

A loop calls an operation on the first key of a map until the map is empty. A call that fails
leaves the map as it was, and the loop tries the same key again, so the loop ends exactly when
every entry goes at some call.
-/

namespace NNPIHost.Store

variable {κ ν : Type*} [LinearOrder κ]

/-- The least key of a map. -/
def OrderedMap.first? (m : OrderedMap κ ν) : Option κ := m.entries.head?.map Prod.fst

/-- The loop, for at most the given number of calls. `call k n` is the call on the key `k`
after `n` earlier ones, and `tries` counts these. -/
def drain (call : κ → ℕ → OrderedMap κ ν → OrderedMap κ ν) :
    ℕ → (κ → ℕ) → OrderedMap κ ν → Option (OrderedMap κ ν)
  | 0, _, m => if m.first?.isNone then some m else none
  | fuel + 1, tries, m =>
      match m.first? with
      | none => some m
      | some k => drain call fuel (Function.update tries k (tries k + 1)) (call k (tries k) m)

/-- A call takes the entry of its key away, or it changes nothing. -/
def Takes (call : κ → ℕ → OrderedMap κ ν → OrderedMap κ ν) (goes : κ → ν → ℕ → Prop) : Prop :=
  ∀ k v n m, (k, v) ∈ m → (goes k v n → call k n m = m.erase k) ∧ (¬ goes k v n → call k n m = m)

/-- The loop ends. -/
def Drains (call : κ → ℕ → OrderedMap κ ν → OrderedMap κ ν) (tries : κ → ℕ)
    (m : OrderedMap κ ν) : Prop := ∃ fuel, (drain call fuel tries m).isSome = true

variable {call : κ → ℕ → OrderedMap κ ν → OrderedMap κ ν} {goes : κ → ν → ℕ → Prop}
  {tries : κ → ℕ} {m : OrderedMap κ ν} {k : κ} {v : ν}

theorem first?_eq_none : m.first? = none ↔ m.entries = [] := by
  rw [OrderedMap.first?, Option.map_eq_none_iff, List.head?_eq_none_iff]

theorem mem_of_first? (h : m.first? = some k) : ∃ v, (k, v) ∈ m := by
  obtain ⟨e, he, rfl⟩ := Option.map_eq_some_iff.mp h
  exact ⟨e.2, List.mem_of_mem_head? he⟩

theorem length_erase_lt (h : (k, v) ∈ m) : (m.erase k).entries.length < m.entries.length :=
  List.length_filter_lt_length_iff_exists.mpr ⟨(k, v), h, by simp⟩

theorem drain_mono {fuel fuel' : ℕ} (hle : fuel ≤ fuel') {m' : OrderedMap κ ν}
    (h : drain call fuel tries m = some m') : drain call fuel' tries m = some m' := by
  induction fuel generalizing tries m fuel' with
  | zero =>
    rw [drain, Option.ite_none_right_eq_some, Option.isNone_iff_eq_none] at h
    obtain ⟨hnone, hm⟩ := h
    obtain rfl := Option.some.inj hm
    cases fuel' <;> simp [drain, hnone]
  | succ fuel ih =>
    obtain ⟨fuel', rfl⟩ : ∃ n, fuel' = n + 1 := ⟨fuel' - 1, by omega⟩
    rw [drain] at h ⊢
    split at h
    next => exact h
    next => exact ih (by omega) h

theorem Drains.eventually (h : Drains call tries m) :
    ∃ fuel m', ∀ fuel', fuel ≤ fuel' → drain call fuel' tries m = some m' := by
  obtain ⟨fuel, h⟩ := h
  obtain ⟨m', hm'⟩ := Option.isSome_iff_exists.mp h
  exact ⟨fuel, m', fun fuel' hle => drain_mono hle hm'⟩

theorem drains_iff (hk : m.first? = some k) :
    Drains call tries m ↔
      Drains call (Function.update tries k (tries k + 1)) (call k (tries k) m) := by
  constructor
  · rintro ⟨_ | fuel, h⟩
    · simp [drain, hk] at h
    · refine ⟨fuel, ?_⟩
      simpa [drain, hk] using h
  · rintro ⟨fuel, h⟩
    refine ⟨fuel + 1, ?_⟩
    simpa [drain, hk] using h

theorem drains_of_first?_eq_none (h : m.first? = none) : Drains call tries m :=
  ⟨0, by simp [drain, h]⟩

/-- While the first entry stays, so does everything else. -/
theorem goes_of_drains (ht : Takes call goes) (h : Drains call tries m) (hm : (k, v) ∈ m) :
    ∃ n, tries k ≤ n ∧ goes k v n := by
  obtain ⟨fuel, h⟩ := h
  induction fuel generalizing tries m with
  | zero =>
    rw [drain] at h
    split at h
    next hnone =>
      have hemp := first?_eq_none.mp (Option.isNone_iff_eq_none.mp hnone)
      rw [← OrderedMap.mem_entries, hemp] at hm
      cases hm
    next => cases h
  | succ fuel ih =>
    rw [drain] at h
    split at h
    next hnone =>
      rw [← OrderedMap.mem_entries, first?_eq_none.mp hnone] at hm
      cases hm
    next k' hk' =>
      obtain ⟨v', hv'⟩ := mem_of_first? hk'
      obtain ⟨htake, hstay⟩ := ht k' v' (tries k') m hv'
      by_cases hkk : k = k'
      · subst hkk
        obtain rfl : v = v' := congrArg Prod.snd (OrderedMap.eq_of_key_eq hm hv' rfl)
        by_cases hgo : goes k v (tries k)
        · exact ⟨_, le_rfl, hgo⟩
        · rw [hstay hgo] at h
          obtain ⟨n, hn, hgo'⟩ := ih hm h
          rw [Function.update_self] at hn
          exact ⟨n, Nat.le_of_succ_le hn, hgo'⟩
      · have hm' : (k, v) ∈ call k' (tries k') m := by
          by_cases hgo : goes k' v' (tries k')
          · rw [htake hgo]
            exact OrderedMap.mem_erase.mpr ⟨hm, hkk⟩
          · rwa [hstay hgo]
        obtain ⟨n, hn, hgo⟩ := ih hm' h
        rw [Function.update_of_ne hkk] at hn
        exact ⟨n, hn, hgo⟩

theorem drains_of_erase (ht : Takes call goes) (hk : m.first? = some k) (hm : (k, v) ∈ m)
    (herase : ∀ tries', (∀ k', k' ≠ k → tries' k' = tries k') → Drains call tries' (m.erase k))
    {n : ℕ} (hn : tries k ≤ n) (hgo : goes k v n) : Drains call tries m := by
  obtain ⟨d, rfl⟩ := Nat.exists_eq_add_of_le hn
  induction d generalizing tries with
  | zero =>
    rw [drains_iff hk, (ht k v (tries k) m hm).1 hgo]
    exact herase _ fun k' hne => Function.update_of_ne hne _ _
  | succ d ih =>
    rw [drains_iff hk]
    by_cases hnow : goes k v (tries k)
    · rw [(ht k v _ m hm).1 hnow]
      exact herase _ fun k' hne => Function.update_of_ne hne _ _
    · rw [(ht k v _ m hm).2 hnow]
      refine ih (fun tries' hsame => herase tries' fun k' hne => ?_) ?_ ?_
      · rw [hsame k' hne, Function.update_of_ne hne]
      · rw [Function.update_self]
        omega
      · rw [Function.update_self]
        exact (by omega : tries k + (d + 1) = tries k + 1 + d) ▸ hgo

/-- The loop ends exactly when every entry goes at some call that is still to come. -/
theorem drains_iff_goes (ht : Takes call goes) :
    Drains call tries m ↔ ∀ k v, (k, v) ∈ m → ∃ n, tries k ≤ n ∧ goes k v n := by
  refine ⟨fun h k v hm => goes_of_drains ht h hm, fun h => ?_⟩
  induction hlen : m.entries.length using Nat.strong_induction_on generalizing m tries with
  | _ len ih =>
    cases hk : m.first? with
    | none => exact drains_of_first?_eq_none hk
    | some k =>
      obtain ⟨v, hm⟩ := mem_of_first? hk
      obtain ⟨n, hn, hgo⟩ := h k v hm
      refine drains_of_erase ht hk hm (fun tries' hsame => ?_) hn hgo
      refine ih _ (hlen ▸ length_erase_lt hm) (fun k' v' hm' => ?_) rfl
      obtain ⟨hm', hne⟩ := OrderedMap.mem_erase.mp hm'
      rw [hsame k' hne]
      exact h k' v' hm'

end NNPIHost.Store

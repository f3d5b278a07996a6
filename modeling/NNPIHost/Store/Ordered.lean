import Mathlib.Data.List.Nodup
import Mathlib.Order.Lattice
import Mathlib.Tactic.Common

/-! # Ordered maps

A map is a list of entries sorted by their keys, so every key has at most one entry and the
first entry has the least key. Assigning to a key replaces its entry or adds one.
-/

namespace NNPIHost.Store

variable {κ ν : Type*} [LinearOrder κ]

/-- Entries with strictly increasing keys. -/
structure OrderedMap (κ ν : Type*) [LinearOrder κ] where
  entries : List (κ × ν)
  sorted : entries.Pairwise fun e e' => e.1 < e'.1

/-- The entry of a key put into a list of entries, in place of any that was there. -/
def putEntry (k : κ) (v : ν) : List (κ × ν) → List (κ × ν)
  | [] => [(k, v)]
  | e :: es =>
      if k < e.1 then (k, v) :: e :: es
      else if k = e.1 then (k, v) :: es
      else e :: putEntry k v es

theorem mem_putEntry {k : κ} {v : ν} {es : List (κ × ν)}
    (hs : es.Pairwise fun e e' => e.1 < e'.1) {e : κ × ν} :
    e ∈ putEntry k v es ↔ e = (k, v) ∨ e ∈ es ∧ e.1 ≠ k := by
  induction es with
  | nil => simp [putEntry]
  | cons e' es ih =>
    obtain ⟨hlt, hs⟩ := List.pairwise_cons.mp hs
    rw [putEntry]
    split_ifs with hk heq
    · have hne : ∀ e ∈ e' :: es, e.1 ≠ k := by
        rintro e (_ | ⟨_, he⟩)
        · exact ne_of_gt hk
        · exact ne_of_gt (hk.trans (hlt e he))
      grind
    · have hne : ∀ e ∈ es, e.1 ≠ k := fun e he => heq ▸ ne_of_gt (hlt e he)
      grind
    · grind

theorem sorted_putEntry {k : κ} {v : ν} {es : List (κ × ν)}
    (hs : es.Pairwise fun e e' => e.1 < e'.1) :
    (putEntry k v es).Pairwise fun e e' => e.1 < e'.1 := by
  induction es with
  | nil => simp [putEntry]
  | cons e' es ih =>
    obtain ⟨hlt, htail⟩ := List.pairwise_cons.mp hs
    rw [putEntry]
    split_ifs with hk heq
    · refine List.pairwise_cons.mpr ⟨?_, hs⟩
      rintro e (_ | ⟨_, he⟩)
      · exact hk
      · exact hk.trans (hlt e he)
    · exact List.pairwise_cons.mpr ⟨fun e he => heq ▸ hlt e he, htail⟩
    · refine List.pairwise_cons.mpr ⟨fun e he => ?_, ih htail⟩
      rcases (mem_putEntry htail).mp he with rfl | ⟨he, _⟩
      · exact lt_of_le_of_ne (not_lt.mp hk) (Ne.symm heq)
      · exact hlt e he

namespace OrderedMap

instance : Membership (κ × ν) (OrderedMap κ ν) := ⟨fun m e => e ∈ m.entries⟩

def empty : OrderedMap κ ν := ⟨[], .nil⟩

def singleton (k : κ) (v : ν) : OrderedMap κ ν := ⟨[(k, v)], List.pairwise_singleton _ _⟩

def insert (m : OrderedMap κ ν) (k : κ) (v : ν) : OrderedMap κ ν :=
  ⟨putEntry k v m.entries, sorted_putEntry m.sorted⟩

def erase (m : OrderedMap κ ν) (k : κ) : OrderedMap κ ν :=
  ⟨m.entries.filter (·.1 ≠ k), m.sorted.filter _⟩

def find? (m : OrderedMap κ ν) (k : κ) : Option ν :=
  (m.entries.find? (·.1 = k)).map Prod.snd

/-- The value of a key is changed by a function that may also take it away. -/
def alter (m : OrderedMap κ ν) (k : κ) (f : ν → Option ν) : OrderedMap κ ν :=
  match m.find? k with
  | none => m
  | some v =>
      match f v with
      | none => m.erase k
      | some v' => m.insert k v'

/-- The keys that have an entry, in order. -/
def keys (m : OrderedMap κ ν) : List κ := m.entries.map Prod.fst

variable {m : OrderedMap κ ν} {k : κ} {v : ν} {e e' : κ × ν}

@[simp] theorem mem_entries : e ∈ m.entries ↔ e ∈ m := .rfl

@[simp] theorem not_mem_empty : e ∉ (empty : OrderedMap κ ν) := List.not_mem_nil

@[simp] theorem mem_singleton : e ∈ singleton k v ↔ e = (k, v) := List.mem_singleton

@[simp] theorem mem_insert : e ∈ m.insert k v ↔ e = (k, v) ∨ e ∈ m ∧ e.1 ≠ k :=
  mem_putEntry m.sorted

@[simp] theorem mem_erase : e ∈ m.erase k ↔ e ∈ m ∧ e.1 ≠ k :=
  List.mem_filter.trans (by simp)

theorem nodup_keys (m : OrderedMap κ ν) : m.keys.Nodup :=
  List.pairwise_map.mpr (m.sorted.imp ne_of_lt)

theorem eq_of_key_eq (he : e ∈ m) (he' : e' ∈ m) (hk : e.1 = e'.1) : e = e' :=
  List.inj_on_of_nodup_map m.nodup_keys he he' hk

theorem find?_eq_some : m.find? k = some v ↔ (k, v) ∈ m := by
  rw [find?, Option.map_eq_some_iff]
  constructor
  · rintro ⟨e, he, rfl⟩
    obtain rfl : e.1 = k := by simpa using List.find?_some he
    exact List.mem_of_find?_eq_some he
  · intro hm
    cases he : m.entries.find? (·.1 = k) with
    | none => simpa using List.find?_eq_none.mp he _ hm
    | some e =>
      have hk : e.1 = k := by simpa using List.find?_some he
      exact ⟨e, rfl, congrArg Prod.snd (eq_of_key_eq (List.mem_of_find?_eq_some he) hm hk)⟩

theorem mem_alter {f : ν → Option ν} :
    e ∈ m.alter k f ↔ e ∈ m ∧ e.1 ≠ k ∨ e.1 = k ∧ ∃ v, (k, v) ∈ m ∧ f v = some e.2 := by
  obtain ⟨a, b⟩ := e
  rw [alter]
  cases hk : m.find? k with
  | none =>
    have hnot : ∀ v, (k, v) ∉ m := fun v hv => by simp [find?_eq_some.mpr hv] at hk
    have hne : (a, b) ∈ m → a ≠ k := fun ha he => hnot b (he ▸ ha)
    simp only [hnot, false_and, exists_false, and_false, or_false]
    exact ⟨fun ha => ⟨ha, hne ha⟩, And.left⟩
  | some v =>
    have hv := find?_eq_some.mp hk
    have huniq : ∀ v', (k, v') ∈ m ↔ v' = v := fun v' =>
      ⟨fun hv' => congrArg Prod.snd (eq_of_key_eq hv' hv rfl), fun h => h ▸ hv⟩
    simp only [huniq, exists_eq_left]
    cases hf : f v with
    | none => simp
    | some v' =>
      simp only [mem_insert, Prod.mk.injEq, Option.some.injEq]
      grind

theorem mem_keys : k ∈ m.keys ↔ ∃ v, (k, v) ∈ m := by
  simp [keys]

theorem find?_eq_none : m.find? k = none ↔ k ∉ m.keys := by
  rw [mem_keys, ← not_iff_not, not_not, ← ne_eq, Option.ne_none_iff_exists']
  simp only [find?_eq_some]

theorem ext_mem {m m' : OrderedMap κ ν} (h : ∀ e, e ∈ m ↔ e ∈ m') : m = m' := by
  have hnd : ∀ m : OrderedMap κ ν, m.entries.Nodup := fun m => List.Nodup.of_map _ m.nodup_keys
  have hperm := (List.perm_ext_iff_of_nodup (hnd m) (hnd m')).mpr h
  have heq : m.entries = m'.entries :=
    hperm.eq_of_pairwise (fun e e' _ _ hlt hlt' => absurd hlt (not_lt_of_gt hlt')) m.sorted
      m'.sorted
  cases m
  cases m'
  congr

theorem erase_of_not_mem (h : k ∉ m.keys) : m.erase k = m := by
  apply ext_mem
  intro e
  exact mem_erase.trans ⟨And.left, fun hr => ⟨hr, fun he => h (mem_keys.mpr ⟨e.2, he ▸ hr⟩)⟩⟩

theorem erase_insert_of_ne {k' : κ} (hk : k ≠ k') :
    (m.insert k v).erase k' = (m.erase k').insert k v := by
  apply ext_mem
  rintro ⟨a, b⟩
  simp only [mem_erase, mem_insert, Prod.mk.injEq]
  grind

theorem head_le {es : List (κ × ν)} (hm : m.entries = e :: es) (he' : e' ∈ m) :
    e' = e ∨ e.1 < e'.1 := by
  have hs := m.sorted
  rw [hm] at hs
  rcases List.mem_cons.mp (hm ▸ he' : e' ∈ e :: es) with rfl | he'
  · exact .inl rfl
  · exact .inr (List.rel_of_pairwise_cons hs he')

end OrderedMap

end NNPIHost.Store

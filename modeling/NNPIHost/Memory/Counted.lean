import Mathlib.Data.Fintype.EquivFin
import Mathlib.Data.Finset.Sort
import Mathlib.Logic.Relation
import Mathlib.Order.WellFounded
import NNPIHost.Store.Handles

/-! # Objects counted by their references

An object lives while a root or a live object refers to it. Dropping the last reference to an
object destroys it: its destructor runs, and its own references are dropped next. Counting alone
does not find objects that refer to one another in a circle: what lives is what a root or a circle
reaches.
-/

namespace NNPIHost.Memory

open Relation Store

variable {κ α β : Type*} [LinearOrder κ] (refs : α → List κ) (dtor : OrderedMap κ α → α → β)

/-- All references held by the objects. -/
def allRefs (m : OrderedMap κ α) : List κ := m.entries.flatMap fun e => refs e.2

/-- A live object refers to another. -/
def Refers (m : OrderedMap κ α) (x y : κ) : Prop := ∃ o, (x, o) ∈ m ∧ y ∈ refs o

/-- The objects that live are those that something refers to, a root or an object. -/
def Kept (roots : List κ) (m : OrderedMap κ α) : Prop :=
  ∀ x, x ∈ m.keys ↔ x ∈ roots ∨ x ∈ allRefs refs m

/-- Drop the references in turn. The last one to an object destroys it, and its own are dropped
before the others. The objects destroyed are listed in order, with what their destructors did. -/
def dropAll (roots : List κ) :
    ℕ → OrderedMap κ α → List κ → OrderedMap κ α × List (κ × β)
  | 0, m, _ => (m, [])
  | _ + 1, m, [] => (m, [])
  | fuel + 1, m, x :: xs =>
      if x ∈ roots ∨ x ∈ xs ∨ x ∈ allRefs refs m then dropAll roots fuel m xs
      else
        match m.find? x with
        | none => dropAll roots fuel m xs
        | some o =>
            let r := dropAll roots fuel (m.erase x) (refs o ++ xs)
            (r.1, (x, dtor m o) :: r.2)

/-- The number of references there are to drop at most. -/
def dropCost (m : OrderedMap κ α) (pending : List κ) : ℕ :=
  pending.length + (allRefs refs m).length

/-- The objects and those destroyed, after the pending references are dropped. -/
def drop (roots : List κ) (m : OrderedMap κ α) (pending : List κ) :
    OrderedMap κ α × List (κ × β) :=
  dropAll refs dtor roots (dropCost refs m pending) m pending

variable {refs} {dtor} {m : OrderedMap κ α} {roots pending : List κ} {x y z : κ} {o : α}

theorem mem_allRefs : y ∈ allRefs refs m ↔ ∃ x, Refers refs m x y := by
  simp only [allRefs, List.mem_flatMap, Refers, Prod.exists, OrderedMap.mem_entries]

theorem mem_allRefs_erase (hx : (x, o) ∈ m) :
    y ∈ allRefs refs m ↔ y ∈ refs o ∨ y ∈ allRefs refs (m.erase x) := by
  simp only [mem_allRefs, Refers, OrderedMap.mem_erase]
  constructor
  · rintro ⟨w, o', hw, hy⟩
    by_cases hwx : w = x
    · subst hwx
      cases OrderedMap.eq_of_key_eq hw hx rfl
      exact .inl hy
    · exact .inr ⟨w, o', ⟨hw, hwx⟩, hy⟩
  · rintro (hy | ⟨w, o', ⟨hw, -⟩, hy⟩)
    · exact ⟨x, o, hx, hy⟩
    · exact ⟨w, o', hw, hy⟩

theorem length_allRefs_erase (hx : (x, o) ∈ m) :
    (refs o).length + (allRefs refs (m.erase x)).length ≤ (allRefs refs m).length := by
  have hperm := List.filter_append_perm (fun e : κ × α => decide (e.1 = x)) m.entries
  have hlen := (hperm.flatMap_right fun e => refs e.2).length_eq
  have hmem : (x, o) ∈ m.entries.filter fun e => decide (e.1 = x) :=
    List.mem_filter.mpr ⟨hx, decide_eq_true rfl⟩
  have hle : (refs o).length ≤
      ((m.entries.filter fun e => decide (e.1 = x)).flatMap fun e => refs e.2).length := by
    obtain ⟨l, l', hl⟩ := List.append_of_mem hmem
    rw [hl]
    simp only [List.flatMap_append, List.flatMap_cons, List.length_append]
    omega
  have herase : (m.erase x).entries = m.entries.filter fun e => !decide (e.1 = x) := by
    simp only [OrderedMap.erase, ne_eq, decide_not]
  rw [List.flatMap_append, List.length_append] at hlen
  rw [allRefs, allRefs, herase]
  omega

theorem dropCost_erase (hx : (x, o) ∈ m) :
    dropCost refs (m.erase x) (refs o ++ pending) < dropCost refs m (x :: pending) := by
  have hle : (refs o).length + _ ≤ (allRefs refs m).length := length_allRefs_erase hx
  simp only [dropCost, List.length_append, List.length_cons]
  omega

theorem refers_erase : Refers refs (m.erase x) y z ↔ Refers refs m y z ∧ y ≠ x := by
  simp only [Refers, OrderedMap.mem_erase]
  constructor
  · rintro ⟨o, ⟨hy, hne⟩, hz⟩
    exact ⟨⟨o, hy, hz⟩, hne⟩
  · rintro ⟨⟨o, hy, hz⟩, hne⟩
    exact ⟨o, ⟨hy, hne⟩, hz⟩

/-- What dropping references does: the objects left are kept by what else refers to them, the
others are destroyed once each, after all that refers to them. A destructor runs while everything
that its object refers to lives. -/
structure Dropped (refs : α → List κ) (dtor : OrderedMap κ α → α → β) (roots : List κ)
    (m : OrderedMap κ α) (r : OrderedMap κ α × List (κ × β)) : Prop where
  kept : Kept refs roots r.1
  left : ∀ e, e ∈ r.1 ↔ e ∈ m ∧ e.1 ∉ r.2.map Prod.fst
  lived : ∀ x ∈ r.2.map Prod.fst, x ∈ m.keys
  once : (r.2.map Prod.fst).Nodup
  after : ∀ l x l', r.2.map Prod.fst = l ++ x :: l' → ∀ y, Refers refs m y x → y ∈ l
  ran : ∀ e ∈ r.2, ∃ roots' m' o, Kept refs roots' m' ∧ (∀ e', e' ∈ m' → e' ∈ m) ∧
    (e.1, o) ∈ m' ∧ e.2 = dtor m' o

theorem Dropped.refl (h : Kept refs roots m) : Dropped refs dtor roots m (m, []) where
  kept := h
  left e := by simp
  lived _ hx := absurd hx List.not_mem_nil
  once := .nil
  after l x l' hl := absurd hl.symm (by simp)
  ran _ he := absurd he List.not_mem_nil

theorem Dropped.cons {r : OrderedMap κ α × List (κ × β)} {roots' : List κ}
    (hk : Kept refs roots' m) (hx : (x, o) ∈ m) (hnot : x ∉ allRefs refs m)
    (h : Dropped refs dtor roots (m.erase x) r) :
    Dropped refs dtor roots m (r.1, (x, dtor m o) :: r.2) := by
  have hne : ∀ y ∈ r.2.map Prod.fst, y ≠ x := fun y hy =>
    (OrderedMap.mem_keys_erase.mp (h.lived y hy)).2
  refine ⟨h.kept, ?_, ?_, ?_, ?_, ?_⟩
  · intro e
    rw [h.left e, OrderedMap.mem_erase, List.map_cons, List.mem_cons, not_or, and_assoc]
  · rintro y (_ | ⟨_, hy⟩)
    · exact OrderedMap.mem_keys.mpr ⟨o, hx⟩
    · exact (OrderedMap.mem_keys_erase.mp (h.lived y hy)).1
  · exact List.nodup_cons.mpr ⟨fun hy => hne x hy rfl, h.once⟩
  · rintro (_ | ⟨w, l⟩) z l' hl y hyz
    · obtain ⟨rfl, -⟩ := List.cons.inj hl
      exact absurd (mem_allRefs.mpr ⟨y, hyz⟩) hnot
    · obtain ⟨rfl, htail⟩ := List.cons.inj hl
      by_cases hy : y = x
      · exact hy ▸ List.mem_cons_self
      · exact List.mem_cons_of_mem _ (h.after l z l' htail y (refers_erase.mpr ⟨hyz, hy⟩))
  · intro e he
    rcases List.mem_cons.mp he with rfl | he
    · exact ⟨roots', m, o, hk, fun _ => id, hx, rfl⟩
    · obtain ⟨roots', m', o', hk', hsub, ho', hd⟩ := h.ran e he
      exact ⟨roots', m', o', hk', fun e' he' => (OrderedMap.mem_erase.mp (hsub e' he')).1, ho', hd⟩

theorem Kept.erase (h : Kept refs (roots ++ x :: pending) m) (hx : (x, o) ∈ m)
    (hnot : ¬ (x ∈ roots ∨ x ∈ pending ∨ x ∈ allRefs refs m)) :
    Kept refs (roots ++ (refs o ++ pending)) (m.erase x) := by
  intro y
  have hy := h y
  have hself : y ∈ refs o → y ≠ x := fun hm hyx =>
    hnot (.inr (.inr ((mem_allRefs_erase hx).mpr (.inl (hyx ▸ hm)))))
  have hother : y ∈ allRefs refs (m.erase x) → y ≠ x := fun hm hyx =>
    hnot (.inr (.inr ((mem_allRefs_erase hx).mpr (.inr (hyx ▸ hm)))))
  rw [mem_allRefs_erase hx] at hy
  rw [OrderedMap.mem_keys_erase, hy]
  simp only [List.mem_append, List.mem_cons]
  by_cases hyx : y = x
  · subst hyx
    grind
  · grind

theorem dropped_dropAll {fuel : ℕ} (h : Kept refs (roots ++ pending) m)
    (hfuel : dropCost refs m pending ≤ fuel) :
    Dropped refs dtor roots m (dropAll refs dtor roots fuel m pending) := by
  induction fuel generalizing m pending with
  | zero =>
    have hnil : pending = [] := List.length_eq_zero_iff.mp (by rw [dropCost] at hfuel; omega)
    subst hnil
    rw [List.append_nil] at h
    exact .refl h
  | succ fuel ih =>
    cases pending with
    | nil =>
      rw [List.append_nil] at h
      exact .refl h
    | cons x xs =>
      have hcost : dropCost refs m xs ≤ fuel := by
        simp only [dropCost, List.length_cons] at hfuel ⊢
        omega
      rw [dropAll]
      split
      next hx =>
        refine ih ?_ hcost
        intro y
        rw [h y]
        simp only [List.mem_append, List.mem_cons]
        grind
      next hx =>
        split
        next hnone =>
          refine absurd ((h x).mpr (.inl ?_)) (OrderedMap.find?_eq_none.mp hnone)
          exact List.mem_append_right _ List.mem_cons_self
        next o ho =>
          have hmem := OrderedMap.find?_eq_some.mp ho
          have hdrop := ih (h.erase hmem hx)
            (Nat.le_of_lt_succ ((dropCost_erase hmem).trans_le hfuel))
          exact hdrop.cons h hmem fun hall => hx (.inr (.inr hall))

theorem mem_of_mem_dropAll {fuel : ℕ} {e : κ × α}
    (he : e ∈ (dropAll refs dtor roots fuel m pending).1) : e ∈ m := by
  induction fuel generalizing m pending with
  | zero => exact he
  | succ fuel ih =>
    cases pending with
    | nil => exact he
    | cons x xs =>
      rw [dropAll] at he
      split at he
      · exact ih he
      · split at he
        · exact ih he
        · exact (OrderedMap.mem_erase.mp (ih he)).1

theorem mem_dropAll_of_circle {C : κ → Prop} {fuel : ℕ} {e : κ × α}
    (hC : ∀ x, C x → ∃ y, C y ∧ Refers refs m y x) (he : e ∈ m) (hCe : C e.1) :
    e ∈ (dropAll refs dtor roots fuel m pending).1 := by
  induction fuel generalizing m pending with
  | zero => exact he
  | succ fuel ih =>
    cases pending with
    | nil => exact he
    | cons x xs =>
      rw [dropAll]
      split
      · exact ih hC he
      next hx =>
        split
        · exact ih hC he
        · have hne : ∀ y, C y → y ≠ x := by
            rintro y hy rfl
            obtain ⟨z, -, hz⟩ := hC y hy
            exact hx (.inr (.inr (mem_allRefs.mpr ⟨z, hz⟩)))
          refine ih (fun y hy => ?_) (OrderedMap.mem_erase.mpr ⟨he, hne _ hCe⟩)
          obtain ⟨z, hz, hzy⟩ := hC y hy
          exact ⟨z, hz, refers_erase.mpr ⟨hzy, hne z hz⟩⟩

theorem dropped_drop (h : Kept refs (roots ++ pending) m) :
    Dropped refs dtor roots m (drop refs dtor roots m pending) :=
  dropped_dropAll h le_rfl

theorem Refers.live (h : Kept refs roots m) (hxy : Refers refs m x y) :
    x ∈ m.keys ∧ y ∈ m.keys := by
  obtain ⟨o, hx, hy⟩ := hxy
  exact ⟨OrderedMap.mem_keys.mpr ⟨o, hx⟩, (h y).mpr (.inr (mem_allRefs.mpr ⟨x, o, hx, hy⟩))⟩

theorem Kept.reach (h : Kept refs roots m) (hx : x ∈ m.keys)
    (hxy : ReflTransGen (Refers refs m) x y) : y ∈ m.keys := by
  induction hxy with
  | refl => exact hx
  | tail _ hyz _ => exact (hyz.live h).2

theorem Kept.live_iff (h : Kept refs roots m) :
    x ∈ m.keys ↔ ∃ y, (y ∈ roots ∨ TransGen (Refers refs m) y y) ∧
      ReflTransGen (Refers refs m) y x := by
  constructor
  · intro hx
    by_contra hnot
    let lost := {x // x ∈ m.keys ∧ ¬ ∃ y, (y ∈ roots ∨ TransGen (Refers refs m) y y) ∧
      ReflTransGen (Refers refs m) y x}
    have : Finite lost :=
      Finite.of_injective (fun x : lost => (⟨x.1, x.2.1⟩ : {x // x ∈ m.keys}))
        fun a b hab => Subtype.ext (congrArg (fun x : {x // x ∈ m.keys} => x.1) hab)
    let before : lost → lost → Prop := fun a b => TransGen (Refers refs m) a.1 b.1
    have : IsTrans lost before := ⟨fun _ _ _ => TransGen.trans⟩
    have : Std.Irrefl before := ⟨fun a ha => a.2.2 ⟨a.1, .inr ha, .refl⟩⟩
    have hwf : WellFounded before := Finite.wellFounded_of_trans_of_irrefl before
    -- a lost object that no lost object comes before has nothing that refers to it
    obtain ⟨⟨a, ha, hlost⟩, -, hmin⟩ := hwf.has_min Set.univ ⟨⟨x, hx, hnot⟩, trivial⟩
    rcases (h a).mp ha with hroot | hall
    · exact hlost ⟨a, .inl hroot, .refl⟩
    · obtain ⟨w, hw⟩ := mem_allRefs.mp hall
      refine hmin ⟨w, (hw.live h).1, ?_⟩ trivial (.single hw)
      rintro ⟨y, hy, hyw⟩
      exact hlost ⟨y, hy, hyw.tail hw⟩
  · rintro ⟨y, hroot | hcycle, hyx⟩
    · exact h.reach ((h y).mpr (.inl hroot)) hyx
    · obtain ⟨z, hyz, -⟩ := TransGen.head'_iff.mp hcycle
      exact h.reach (hyz.live h).1 hyx

omit [LinearOrder κ] in
theorem exists_not_lt_of_cycle {r : κ → κ → Prop} (rank : κ → ℕ) (h : TransGen r x x) :
    ∃ y z, r y z ∧ ¬ rank z < rank y ∧ ReflTransGen r z x := by
  by_contra hall
  push Not at hall
  have hlt : ∀ {y}, TransGen r y x → rank x < rank y := by
    intro y hyx
    induction hyx using TransGen.head_induction_on with
    | single hyx => exact lt_of_not_ge fun hle => hall _ _ hyx hle .refl
    | head hyz hzx ih =>
      exact ih.trans (lt_of_not_ge fun hle => hall _ _ hyz hle hzx.to_reflTransGen)
  exact absurd (hlt h) (lt_irrefl _)

/-- What lives is what the roots reach, and what the holders of references reach that do not
lead down. -/
theorem Kept.live_iff_of_rank (h : Kept refs roots m) (rank : κ → ℕ) :
    x ∈ m.keys ↔ ∃ y, (y ∈ roots ∨ ∃ z, Refers refs m y z ∧ ¬ rank z < rank y) ∧
      ReflTransGen (Refers refs m) y x := by
  constructor
  · intro hx
    obtain ⟨y, hroot | hcycle, hyx⟩ := h.live_iff.mp hx
    · exact ⟨y, .inl hroot, hyx⟩
    · obtain ⟨a, b, hab, hnot, hby⟩ := exists_not_lt_of_cycle rank hcycle
      exact ⟨a, .inr ⟨b, hab, hnot⟩, .head hab (hby.trans hyx)⟩
  · rintro ⟨y, hroot | ⟨z, hyz, -⟩, hyx⟩
    · exact h.reach ((h y).mpr (.inl hroot)) hyx
    · exact h.reach (hyz.live h).1 hyx

theorem Kept.congr {roots' : List κ} (h : Kept refs roots m) (hr : ∀ x, x ∈ roots' ↔ x ∈ roots) :
    Kept refs roots' m := fun x => by rw [h x, hr x]

theorem Kept.hold (h : Kept refs roots m) (hx : x ∈ m.keys) : Kept refs (x :: roots) m := by
  intro y
  rw [List.mem_cons, or_assoc, ← h y]
  exact ⟨.inr, fun hy => hy.elim (fun heq => heq ▸ hx) id⟩

theorem mem_allRefs_insert :
    y ∈ allRefs refs (m.insert x o) ↔ y ∈ refs o ∨ y ∈ allRefs refs (m.erase x) := by
  have hx : (x, o) ∈ m.insert x o := OrderedMap.mem_insert.mpr (.inl rfl)
  rw [mem_allRefs_erase hx]
  have herase : (m.insert x o).erase x = m.erase x := by
    apply OrderedMap.ext_mem
    intro e
    simp only [OrderedMap.mem_erase, OrderedMap.mem_insert]
    grind
  rw [herase]

theorem Kept.insert_new (h : Kept refs roots m) (hx : x ∉ m.keys)
    (ho : ∀ y ∈ refs o, y = x ∨ y ∈ m.keys) : Kept refs (x :: roots) (m.insert x o) := by
  intro y
  have hy := h y
  have hin := ho y
  rw [OrderedMap.mem_keys_insert, mem_allRefs_insert, OrderedMap.erase_of_not_mem hx,
    List.mem_cons]
  grind

theorem Kept.insert_old {o' : α} (h : Kept refs roots m) (hx : (x, o) ∈ m)
    (ho : ∀ y ∈ refs o', y ∈ m.keys) : Kept refs (roots ++ refs o) (m.insert x o') := by
  intro y
  have hy := h y
  have hin := ho y
  have hkey : x ∈ m.keys := OrderedMap.mem_keys.mpr ⟨o, hx⟩
  rw [mem_allRefs_erase hx] at hy
  rw [OrderedMap.mem_keys_insert, mem_allRefs_insert, List.mem_append]
  grind

theorem Dropped.mem_keys {r : OrderedMap κ α × List (κ × β)} (h : Dropped refs dtor roots m r) :
    x ∈ r.1.keys ↔ x ∈ m.keys ∧ x ∉ r.2.map Prod.fst := by
  simp only [OrderedMap.mem_keys, h.left, exists_and_right]

theorem Dropped.find? {r : OrderedMap κ α × List (κ × β)} (h : Dropped refs dtor roots m r)
    (hx : x ∈ r.1.keys) : r.1.find? x = m.find? x := by
  obtain ⟨o, ho⟩ := OrderedMap.mem_keys.mp hx
  rw [OrderedMap.find?_eq_some.mpr ho, OrderedMap.find?_eq_some.mpr ((h.left _).mp ho).1]

theorem Dropped.reach_mem {r : OrderedMap κ α × List (κ × β)} {l l' : List κ}
    (h : Dropped refs dtor roots m r) (hl : r.2.map Prod.fst = l ++ y :: l')
    (hxy : TransGen (Refers refs m) x y) : x ∈ l := by
  induction hxy generalizing l l' with
  | single hxy => exact h.after l _ l' hl x hxy
  | tail _ hyz ih =>
    obtain ⟨l₁, l₂, hl₁⟩ := List.append_of_mem (h.after l _ l' hl _ hyz)
    have hx : _ ∈ l₁ := ih (by rw [hl, hl₁, List.append_assoc]; rfl)
    exact hl₁ ▸ List.mem_append_left _ hx

/-- A circle of references is never destroyed. -/
theorem Dropped.not_mem_of_cycle {r : OrderedMap κ α × List (κ × β)}
    (h : Dropped refs dtor roots m r) (hx : TransGen (Refers refs m) x x) :
    x ∉ r.2.map Prod.fst := by
  intro hmem
  obtain ⟨l, l', hl⟩ := List.append_of_mem hmem
  have honce := h.once
  rw [hl] at honce
  exact (List.nodup_append.mp honce).2.2 x (h.reach_mem hl hx) x List.mem_cons_self rfl

end NNPIHost.Memory

import NNPIHost.Ida.Allocator
import NNPIHost.Store.Coalesced

/-! # The ranges of the id allocator

`free` joins an id to one range next to it and is done. When the ids on both sides of it are
free, the two ranges stay two that are adjacent, and later frees do not join them either.
-/

namespace NNPIHost

open Store

namespace IDA

variable {s : IDA} {max id : ℕ}

/-- A match of the loop that is next to the id only where 32-bit words wrap around. -/
structure NoWrap (s : IDA) (id : ℕ) : Prop where
  last : id = 2 ^ 32 - 1 → ¬ s.freeRanges.Covers 0
  first : id = 0 → s.freeRanges.Covers (2 ^ 32 - 1) → s.freeRanges.Covers 1

/-- What a free does to the ranges: the id joins the range after it, or the range before it,
or makes a range of its own where there is neither. -/
inductive Freed (m : OrderedMap ℕ ℕ) (id : ℕ) : OrderedMap ℕ ℕ → Prop where
  | next (r : ℕ × ℕ) (hr : r ∈ m) (h : r.1 = id + 1) : Freed m id ((m.insert id r.2).erase r.1)
  | prev (r : ℕ × ℕ) (hr : r ∈ m) (h : r.2 + 1 = id) : Freed m id (m.insert r.1 id)
  | alone (hprev : ∀ r ∈ m, r.2 + 1 ≠ id) (hnext : ∀ r ∈ m, r.1 ≠ id + 1) :
      Freed m id (m.insert id id)

/-- The range that starts at 1 is the first one when 0 is not free, so the loop ends there. -/
theorem find_one (h : s.freeRanges.Separated max) (hn : ¬ s.freeRanges.Covers 0)
    (hc : s.freeRanges.Covers 1) {p : ℕ × ℕ → Bool} (hp : ∀ b, p (1, b) = true) {r : ℕ × ℕ}
    (hf : s.freeRanges.entries.find? p = some r) : r.1 = 1 := by
  cases hm : s.freeRanges.entries with
  | nil => simp [hm] at hf
  | cons r' es =>
    have hr' : r' ∈ s.freeRanges := OrderedMap.mem_entries.mp (hm ▸ List.mem_cons_self)
    have hle := (h.isLeast hm).2 hc
    have hpos : r'.1 ≠ 0 := fun hz => hn ⟨r', hr', hz.le, Nat.zero_le _⟩
    obtain ⟨a, b⟩ := r'
    obtain rfl : a = 1 := by
      dsimp only at hle hpos
      omega
    rw [hm, List.find?_cons_of_pos (hp b)] at hf
    exact congrArg Prod.fst (Option.some.inj hf).symm

theorem free_freed (h : s.freeRanges.Separated max) (hmax : max < 2 ^ 32) (hid : id ≤ max)
    (hn : ¬ s.freeRanges.Covers id) (hw : s.NoWrap id) :
    Freed s.freeRanges id (s.free id).freeRanges := by
  unfold free
  dsimp only
  split
  next r hfind =>
    have hr : r ∈ s.freeRanges := List.mem_of_find?_eq_some hfind
    have hcond : r.1 = (id + 1) % 2 ^ 32 ∨ r.2 = (id + (2 ^ 32 - 1)) % 2 ^ 32 := by
      simpa using List.find?_some hfind
    have hbound := h.bounded r hr
    split
    next hnext =>
      refine .next r hr ?_
      rcases Nat.lt_or_ge id (2 ^ 32 - 1) with hlt | hge
      · omega
      · have hzero := hw.last (by omega)
        exact absurd ⟨r, hr, by omega, Nat.zero_le _⟩ hzero
    next hnext =>
      refine .prev r hr ?_
      rcases Nat.eq_zero_or_pos id with rfl | hpos
      · have hlast : s.freeRanges.Covers (2 ^ 32 - 1) := ⟨r, hr, by omega, by omega⟩
        have hone := hw.first rfl hlast
        exact absurd (find_one h hn hone (by simp) hfind) hnext
      · omega
  next hnone =>
    have hnot : ∀ r ∈ s.freeRanges,
        ¬ (r.1 = (id + 1) % 2 ^ 32 ∨ r.2 = (id + (2 ^ 32 - 1)) % 2 ^ 32) := by
      simpa using hnone
    constructor
    · intro r hr heq
      exact hnot r hr (.inr (by omega))
    · intro r hr heq
      have := h.bounded r hr
      exact hnot r hr (.inl (by omega))

variable {m m' : OrderedMap ℕ ℕ}

theorem Freed.separated (hf : Freed m id m') (h : m.Separated max) (hid : id ≤ max)
    (hn : ¬ m.Covers id) :
    m'.Separated max ∧ ∀ n, m'.Covers n ↔ n = id ∨ m.Covers n := by
  cases hf with
  | next r hr hnext => exact h.join_next hn hr hnext
  | prev r hr hprev => exact h.join_prev hn hid hr hprev
  | alone => exact h.add hn hid

/-- The ranges stay apart exactly when not both numbers next to the id are free. -/
theorem Freed.coalesced (hf : Freed m id m') (h : m.Separated max) (hc : m.Coalesced) :
    m'.Coalesced ↔ ¬ ((∃ r ∈ m, r.2 + 1 = id) ∧ ∃ r ∈ m, r.1 = id + 1) := by
  cases hf with
  | next r hr hnext =>
    rw [hc.join_next h hr hnext]
    have hex : ∃ r ∈ m, r.1 = id + 1 := ⟨r, hr, hnext⟩
    simp only [hex, and_true, not_exists, not_and, ne_eq]
  | prev r hr hprev =>
    rw [hc.join_prev h hr hprev]
    have hex : ∃ r ∈ m, r.2 + 1 = id := ⟨r, hr, hprev⟩
    simp only [hex, true_and, not_exists, not_and, ne_eq]
  | alone hprev hnext =>
    refine iff_of_true (hc.add hprev hnext) ?_
    rintro ⟨⟨r, hr, heq⟩, _⟩
    exact hprev r hr heq

end IDA

namespace IDAState

variable {s t : IDAState} {op : IDAOp} {max id n : ℕ}

/-- The ranges are never adjacent, so there are at most as many as the outstanding ids and one
more, and a single one when no id is outstanding. -/
structure Coalesced (max : ℕ) (s : IDAState) : Prop where
  apart : ∀ r ∈ s.ida.freeRanges, ∀ r' ∈ s.ida.freeRanges, r.2 + 1 ≠ r'.1
  few : s.ida.freeRanges.entries.length ≤ s.outstanding.card + 1
  whole : s.outstanding = ∅ → s.ida.freeRanges.entries = [(0, max)]

def IsFree (max : ℕ) (s : IDAState) (n : ℕ) : Prop := n ≤ max ∧ n ∉ s.outstanding

/-- Of the ids next to one that is freed, not both are free. For the largest word, neither is
the id free that 32-bit arithmetic takes for one next to it. -/
def JoinsOne (max : ℕ) (s : IDAState) : IDAOp → Prop
  | .alloc => True
  | .free id => id ∈ s.outstanding →
      ¬ (0 < id ∧ s.IsFree max (id - 1) ∧ s.IsFree max (id + 1)) ∧
        (id = 2 ^ 32 - 1 → ¬ s.IsFree max 0) ∧
        (id = 0 → s.IsFree max (2 ^ 32 - 1) → s.IsFree max 1)

instance (max n : ℕ) (s : IDAState) : Decidable (s.IsFree max n) :=
  inferInstanceAs (Decidable (_ ∧ _))

instance (max : ℕ) (s : IDAState) : ∀ op, Decidable (JoinsOne max s op)
  | .alloc => .isTrue trivial
  | .free id => inferInstanceAs (Decidable (id ∈ s.outstanding → _))

/-- The ranges are separated, and hold the ids that are not outstanding. -/
structure Shape (max : ℕ) (s : IDAState) : Prop where
  ranges : s.ida.freeRanges.Separated max
  free : ∀ n, s.ida.freeRanges.Covers n ↔ s.IsFree max n
  within : ∀ n ∈ s.outstanding, n ≤ max

theorem create_shape (max : ℕ) : (create max).Shape max where
  ranges := .singleton
  free n := OrderedMap.covers_singleton.trans (by simp [IsFree, create])
  within := by simp [create]

theorem Shape.coalesced_iff (h : s.Shape max) :
    s.Coalesced max ↔ s.ida.freeRanges.Coalesced := by
  constructor
  · exact Coalesced.apart
  · intro hc
    refine ⟨hc, hc.length_le h.ranges fun n hn hnot => ?_, fun hempty => ?_⟩
    · by_contra hout
      exact hnot ((h.free n).mpr ⟨hn, hout⟩)
    · refine hc.eq_singleton h.ranges fun n => (h.free n).trans ?_
      simp [IsFree, hempty]

theorem Shape.not_free (h : s.Shape max) (hid : id ∈ s.outstanding) :
    ¬ s.ida.freeRanges.Covers id := fun hc => ((h.free id).mp hc).2 hid

theorem Shape.alloc (h : s.Shape max) (hs : s.step .alloc = some t) :
    t.Shape max ∧ (s.ida.freeRanges.Coalesced → t.ida.freeRanges.Coalesced) := by
  simp only [IDAState.step] at hs
  split at hs
  next =>
    obtain rfl := Option.some.inj hs
    exact ⟨h, id⟩
  next id ida ha =>
    obtain rfl := Option.some.inj hs
    obtain ⟨hleast, hsep, hcov, _⟩ := IDA.alloc_spec h.ranges ha
    have hid := (h.free id).mp hleast.1
    refine ⟨⟨hsep, fun n => ?_, ?_⟩, fun hc => ?_⟩
    · simp only [hcov, h.free, IsFree, Finset.mem_insert, not_or]
      tauto
    · rintro n hn
      rcases Finset.mem_insert.mp hn with rfl | hn
      · exact hid.1
      · exact h.within n hn
    · cases hm : s.ida.freeRanges.entries with
      | nil => simp [IDA.alloc, hm] at ha
      | cons r es =>
        simp only [IDA.alloc, hm, Option.some.injEq, Prod.mk.injEq] at ha
        obtain ⟨rfl, rfl⟩ := ha
        exact hc.drop_least h.ranges hm

/-- Without a match where the words wrap around, a free keeps the shape, and ranges that are not
adjacent exactly when not both ids next to it are free. -/
theorem Shape.freed (h : s.Shape max) (hmax : max < 2 ^ 32) (hid : id ∈ s.outstanding)
    (hw : s.ida.NoWrap id) (hs : s.step (.free id) = some t) :
    t.Shape max ∧ (s.ida.freeRanges.Coalesced → (t.ida.freeRanges.Coalesced ↔
      ¬ (0 < id ∧ s.IsFree max (id - 1) ∧ s.IsFree max (id + 1)))) := by
  simp only [IDAState.step, hid, if_true, Option.some.injEq] at hs
  obtain rfl := hs
  have hle := h.within id hid
  have hnot := h.not_free hid
  have hf := IDA.free_freed h.ranges hmax hle hnot hw
  obtain ⟨hsep, hcov⟩ := hf.separated h.ranges hle hnot
  refine ⟨⟨hsep, fun n => ?_, fun n hn => h.within n (Finset.mem_of_mem_erase hn)⟩, fun hc => ?_⟩
  · simp only [hcov, h.free, IsFree, Finset.mem_erase]
    by_cases hn : n = id
    · simp [hn, hle]
    · simp [hn]
  · rw [hf.coalesced h.ranges hc, ← h.ranges.covers_after hnot, h.free]
    refine not_congr ?_
    rw [← and_assoc]
    refine and_congr_left' ?_
    cases id with
    | zero => simp
    | succ n =>
      rw [Nat.add_sub_cancel, ← h.free, h.ranges.covers_before hnot]
      simp

theorem Shape.noWrap_iff (h : s.Shape max) :
    s.ida.NoWrap id ↔ (id = 2 ^ 32 - 1 → ¬ s.IsFree max 0) ∧
      (id = 0 → s.IsFree max (2 ^ 32 - 1) → s.IsFree max 1) := by
  simp only [← h.free]
  exact ⟨fun hw => ⟨hw.last, hw.first⟩, fun hw => ⟨hw.1, hw.2⟩⟩

theorem Shape.noWrap (h : s.Shape max) (hmax : max < 2 ^ 32 - 1) (hid : id ∈ s.outstanding) :
    s.ida.NoWrap id where
  last heq := absurd (h.within id hid) (by omega)
  first _ hc := absurd ((h.free _).mp hc).1 (by omega)

theorem Shape.step (h : s.Shape max) (hmax : max < 2 ^ 32) (hok : JoinsOne max s op)
    (hs : s.step op = some t) :
    t.Shape max ∧ (s.ida.freeRanges.Coalesced → t.ida.freeRanges.Coalesced) := by
  cases op with
  | alloc => exact h.alloc hs
  | free id =>
    have hid : id ∈ s.outstanding := by
      simp only [IDAState.step, Option.ite_none_right_eq_some] at hs
      exact hs.1
    obtain ⟨hboth, hwrap⟩ := hok hid
    obtain ⟨ht, hc⟩ := h.freed hmax hid (h.noWrap_iff.mpr hwrap) hs
    exact ⟨ht, fun hs => (hc hs).mpr hboth⟩

theorem Shape.step_iff (h : s.Shape max) (hmax : max < 2 ^ 32 - 1) (hs : s.step op = some t)
    (hc : s.ida.freeRanges.Coalesced) :
    t.Shape max ∧ (t.ida.freeRanges.Coalesced ↔ JoinsOne max s op) := by
  cases op with
  | alloc =>
    obtain ⟨ht, hco⟩ := h.alloc hs
    exact ⟨ht, iff_of_true (hco hc) trivial⟩
  | free id =>
    have hid : id ∈ s.outstanding := by
      simp only [IDAState.step, Option.ite_none_right_eq_some] at hs
      exact hs.1
    have hw := h.noWrap hmax hid
    obtain ⟨ht, hco⟩ := h.freed (by omega) hid hw hs
    refine ⟨ht, (hco hc).trans ?_⟩
    simp only [JoinsOne, hid, true_implies]
    exact (and_iff_left (h.noWrap_iff.mp hw)).symm

/-- While of the ids next to a freed one not both are free, no two ranges become adjacent, and
for every largest id below the largest word only then. -/
theorem coalesced_while_joins_one (maxId : ℕ) (hmax : maxId < 2 ^ 32) (ops : List IDAOp) :
    (Exec.Meets step (JoinsOne maxId) (create maxId) ops →
        Exec.Always step (Coalesced maxId) (create maxId) ops) ∧
      (maxId < 2 ^ 32 - 1 → Exec.Always step (Coalesced maxId) (create maxId) ops →
        Exec.Meets step (JoinsOne maxId) (create maxId) ops) := by
  have hinit := create_shape maxId
  have hone : (create maxId).ida.freeRanges.Coalesced := OrderedMap.Coalesced.singleton
  constructor
  · intro hm
    have hall : Exec.Always step (fun s => s.Shape maxId ∧ s.ida.freeRanges.Coalesced)
        (create maxId) ops := by
      refine Exec.always_of_invariant ⟨hinit, hone⟩ ?_ hm
      rintro s op t ⟨h, hc⟩ hok hs
      obtain ⟨ht, hco⟩ := h.step hmax hok hs
      exact ⟨ht, hco hc⟩
    exact hall.mono fun s hs => hs.1.coalesced_iff.mpr hs.2
  · intro hlt
    refine (Exec.always_iff_meets (hinit.coalesced_iff.mpr hone) hinit ?_ ?_).mp
    · intro s op t h hc hs
      obtain ⟨ht, hco⟩ := h.step_iff hlt hs (h.coalesced_iff.mp hc)
      exact ⟨ht, ht.coalesced_iff.trans hco⟩
    · intro s op _ _ hs
      cases op with
      | alloc => trivial
      | free id =>
        simp only [IDAState.step, ite_eq_right_iff, reduceCtorEq, imp_false] at hs
        exact fun hid => absurd hid hs

theorem coalesced_while_joins_one_mixed :
    Exec.Always step (Coalesced 5) (create 5)
        [.alloc, .alloc, .alloc, .free 2, .free 1, .free 0] ∧
      Exec.Meets step (JoinsOne 5) (create 5) [.alloc, .alloc, .alloc, .free 0] := by
  have hlong := coalesced_while_joins_one 5 (by decide)
    [.alloc, .alloc, .alloc, .free 2, .free 1, .free 0]
  have hshort := coalesced_while_joins_one 5 (by decide) [.alloc, .alloc, .alloc, .free 0]
  exact ⟨hlong.1 (by decide), hshort.2 (by decide) (hshort.1 (by decide))⟩

/-- The id 1 is the last to be freed, and the ranges 0 to 1 and 2 to 5 are left. -/
theorem not_coalesced_after_free_between :
    ¬ ∀ maxId < 2 ^ 32, ∀ ops : List IDAOp,
      Exec.Always step (Coalesced maxId) (create maxId) ops := by
  intro hall
  obtain ⟨t, ht, hmem⟩ : ∃ t, Exec.run step (create 5)
      [.alloc, .alloc, .alloc, .free 0, .free 2, .free 1] = some t ∧
        t.ida.freeRanges.entries = [(0, 1), (2, 5)] := ⟨_, rfl, rfl⟩
  have hc := (hall 5 (by decide) [.alloc, .alloc, .alloc, .free 0, .free 2, .free 1]).last ht
  have hin : ∀ r ∈ [(0, 1), (2, 5)], r ∈ t.ida.freeRanges := fun r hr =>
    OrderedMap.mem_entries.mp (hmem ▸ hr)
  exact hc.apart (0, 1) (hin _ (by simp)) (2, 5) (hin _ (by simp)) rfl

end IDAState

end NNPIHost

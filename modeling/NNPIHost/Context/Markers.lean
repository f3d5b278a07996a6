import Mathlib.Data.List.Count
import NNPIHost.Context.SyncPoint
import NNPIHost.Exec.Run

/-! # Markers

`createMarker` takes the next sync point and sends its sequence number to the card, which answers
with the sequence numbers of completed markers. A marker is waited for by comparing it with the
last completed sync point. A call whose message is not written has taken a sync point as well, so
that the comparison depends on the calls and not on the markers that were issued.
-/

namespace NNPIHost

/-- A call of `createMarker`, which returns its marker if the message was written. -/
structure MarkerCall where
  syncSeq : UInt16
  marker : UInt32
  written : Bool

/-- The sync points of a context, with the history of its markers. A marker is named by its place
among the calls of `createMarker`. -/
structure MarkerState where
  syncPoint : SyncPoint
  lastCompleted : SyncPoint
  calls : List MarkerCall
  /-- The markers that the card completed, the last one first. -/
  completed : List ℕ

inductive MarkerOp where
  | createMarker (written : Bool)
  | syncDone (i : ℕ)

namespace MarkerState

def create : MarkerState := ⟨.zero, .zero, [], []⟩

def createMarker (s : MarkerState) (written : Bool) : MarkerState :=
  let p := s.syncPoint.inc
  { s with syncPoint := p, calls := s.calls ++ [⟨p.val, p.getMarker, written⟩] }

/-- The marker that a call returned. -/
def marker? (s : MarkerState) (i : ℕ) : Option UInt32 :=
  (s.calls[i]?).bind fun c => if c.written then some c.marker else none

/-- The sequence number that the card got from a call. -/
def syncSeq? (s : MarkerState) (i : ℕ) : Option UInt16 :=
  (s.calls[i]?).bind fun c => if c.written then some c.syncSeq else none

/-- `response_handler`, for a marker that the card has completed. -/
def syncDone (s : MarkerState) (i : ℕ) (val : UInt16) : MarkerState :=
  { s with lastCompleted := s.lastCompleted.set val, completed := i :: s.completed }

/-- The completion test of `waitMarker`. -/
def reached (s : MarkerState) (marker : UInt32) : Bool :=
  s.lastCompleted.ge (.ofMarker marker)

def step (s : MarkerState) : MarkerOp → Option MarkerState
  | .createMarker written => some (s.createMarker written)
  | .syncDone i => (s.syncSeq? i).map (s.syncDone i)

/-- The number of the last completed marker, counting all calls from one. -/
def lastNumber (s : MarkerState) : ℕ :=
  match s.completed with
  | [] => 0
  | i :: _ => i + 1

/-- How many markers were issued by the calls from one on. -/
def issuedSince (s : MarkerState) (n : ℕ) : ℕ := (s.calls.drop n).countP (·.written)

/-- Markers complete in the order of their calls, and fewer than `2 ^ 16` are issued after the
last completed one. -/
def InWindow (s : MarkerState) : MarkerOp → Prop
  | .createMarker written => written = true → s.issuedSince s.lastNumber + 1 < 2 ^ 16
  | .syncDone i => s.lastNumber ≤ i

instance (s : MarkerState) (op : MarkerOp) : Decidable (s.InWindow op) := by
  unfold InWindow
  split <;> infer_instance

/-- The marker of the call was issued, and fewer than `2 ^ 16` were issued after it. -/
def Recent (s : MarkerState) (i : ℕ) : Prop :=
  (s.marker? i).isSome ∧ s.issuedSince (i + 1) < 2 ^ 16

/-- The test of every recent marker tells whether it or a later one has completed. -/
def Exact (s : MarkerState) : Prop :=
  ∀ i marker, s.marker? i = some marker → s.issuedSince (i + 1) < 2 ^ 16 →
    (s.reached marker = true ↔ ∃ j ∈ s.completed, i ≤ j)

/-- How far the last completed sync point is ahead of that of a call, on the cycle. -/
def ahead (s : MarkerState) (i : ℕ) : ℕ :=
  Serial.dist (2 * 2 ^ 16) ((i + 1) % (2 * 2 ^ 16)) s.lastCompleted.pos

variable {s t : MarkerState} {op : MarkerOp} {i j n : ℕ} {marker : UInt32} {val : UInt16}
  {w : Bool}

theorem marker?_eq_some :
    s.marker? i = some marker ↔ ∃ c, s.calls[i]? = some c ∧ c.written ∧ c.marker = marker := by
  simp [marker?, Option.bind_eq_some_iff]

theorem syncSeq?_eq_some :
    s.syncSeq? i = some val ↔ ∃ c, s.calls[i]? = some c ∧ c.written ∧ c.syncSeq = val := by
  simp [syncSeq?, Option.bind_eq_some_iff]

theorem lt_of_marker? (h : s.marker? i = some marker) : i < s.calls.length := by
  obtain ⟨c, hc, _⟩ := marker?_eq_some.mp h
  exact (List.getElem?_eq_some_iff.mp hc).1

theorem lt_of_syncSeq? (h : s.syncSeq? i = some val) : i < s.calls.length := by
  obtain ⟨c, hc, _⟩ := syncSeq?_eq_some.mp h
  exact (List.getElem?_eq_some_iff.mp hc).1

theorem Recent.lt (h : s.Recent i) : i < s.calls.length := by
  obtain ⟨marker, hm⟩ := Option.isSome_iff_exists.mp h.1
  exact lt_of_marker? hm

@[simp] theorem length_createMarker :
    (s.createMarker w).calls.length = s.calls.length + 1 := by
  simp [createMarker]

theorem marker?_createMarker (w : Bool) (hi : i < s.calls.length) :
    (s.createMarker w).marker? i = s.marker? i := by
  simp [marker?, createMarker, List.getElem?_append_left hi]

theorem issuedSince_createMarker (hn : n ≤ s.calls.length) :
    (s.createMarker w).issuedSince n = s.issuedSince n + w.toNat := by
  have hlen : n - s.calls.length = 0 := by omega
  simp only [issuedSince, createMarker, List.drop_append, hlen, List.drop_zero, List.countP_append]
  cases w <;> rfl

theorem issuedSince_le (h : n ≤ i) : s.issuedSince i ≤ s.issuedSince n := by
  obtain ⟨k, rfl⟩ := Nat.exists_eq_add_of_le h
  rw [issuedSince, issuedSince, ← List.drop_drop]
  exact (List.drop_sublist _ _).countP_le

/-- The sync points of the calls are their numbers modulo the cycle. -/
structure Labelled (s : MarkerState) : Prop where
  syncPoint : s.syncPoint.pos = s.calls.length % (2 * 2 ^ 16)
  marker : ∀ i c, s.calls[i]? = some c →
    (SyncPoint.ofMarker c.marker).pos = (i + 1) % (2 * 2 ^ 16)
  syncSeq : ∀ i c, s.calls[i]? = some c → c.syncSeq.toNat = (i + 1) % 2 ^ 16

/-- Markers complete in order; of the last completed sync point only the sequence number is
known. -/
structure Numbered (s : MarkerState) : Prop extends s.Labelled where
  lastCompleted : s.lastCompleted.pos % 2 ^ 16 = s.lastNumber % 2 ^ 16
  order : ∀ j ∈ s.completed, j < s.lastNumber
  issued : s.lastNumber ≤ s.calls.length

/-- The last completed sync point is on the same turn of the cycle as its number. -/
def Aligned (s : MarkerState) : Prop := s.lastCompleted.pos = s.lastNumber % (2 * 2 ^ 16)

theorem create_labelled : create.Labelled where
  syncPoint := rfl
  marker := by simp [create]
  syncSeq := by simp [create]

theorem create_numbered : create.Numbered where
  toLabelled := create_labelled
  lastCompleted := rfl
  order := by simp [create]
  issued := le_rfl

theorem Labelled.createMarker (h : s.Labelled) : (s.createMarker w).Labelled := by
  have hpos : s.syncPoint.inc.pos = (s.calls.length + 1) % (2 * 2 ^ 16) := by
    rw [SyncPoint.pos_inc, h.syncPoint, Nat.mod_add_mod]
  have hnew : ∀ i c, (s.createMarker w).calls[i]? = some c →
      s.calls[i]? = some c ∨
        i = s.calls.length ∧ c = ⟨s.syncPoint.inc.val, s.syncPoint.inc.getMarker, w⟩ := by
    intro i c hc
    rcases Nat.lt_trichotomy i s.calls.length with hi | rfl | hi
    · exact .inl (by simpa [MarkerState.createMarker, List.getElem?_append_left hi] using hc)
    · simp only [MarkerState.createMarker, List.getElem?_concat_length, Option.some.injEq] at hc
      exact .inr ⟨rfl, hc.symm⟩
    · rw [List.getElem?_eq_none (by simp; omega)] at hc
      cases hc
  refine ⟨by rw [length_createMarker]; exact hpos, fun i c hc => ?_, fun i c hc => ?_⟩
  · rcases hnew i c hc with hc | ⟨rfl, rfl⟩
    · exact h.marker i c hc
    · rw [SyncPoint.ofMarker_getMarker, hpos]
  · rcases hnew i c hc with hc | ⟨rfl, rfl⟩
    · exact h.syncSeq i c hc
    · have hval : s.syncPoint.inc.val.toNat = s.syncPoint.inc.pos % 2 ^ 16 :=
        SyncPoint.toNat_val _
      rw [hval, hpos, Nat.mod_mul_left_mod]

theorem Labelled.step (h : s.Labelled) (hs : s.step op = some t) : t.Labelled := by
  cases op with
  | createMarker w =>
    obtain rfl := Option.some.inj hs
    exact h.createMarker
  | syncDone j =>
    obtain ⟨val, _, rfl⟩ := Option.map_eq_some_iff.mp hs
    exact ⟨h.syncPoint, h.marker, h.syncSeq⟩

theorem Labelled.syncSeq_eq (h : s.Labelled) (hval : s.syncSeq? i = some val) :
    val = .ofNat (i + 1) := by
  obtain ⟨c, hc, _, rfl⟩ := syncSeq?_eq_some.mp hval
  rw [← UInt16.toNat_inj, h.syncSeq i c hc, UInt16.toNat_ofNat']

theorem Labelled.val_marker (h : s.Labelled) (hm : s.marker? i = some marker) :
    (SyncPoint.ofMarker marker).val = .ofNat (i + 1) := by
  obtain ⟨c, hc, _, rfl⟩ := marker?_eq_some.mp hm
  rw [← UInt16.toNat_inj, SyncPoint.toNat_val, h.marker i c hc, UInt16.toNat_ofNat',
    Nat.mod_mul_left_mod]

theorem Numbered.createMarker (h : s.Numbered) : (s.createMarker w).Numbered := by
  refine ⟨h.toLabelled.createMarker, h.lastCompleted, h.order, ?_⟩
  rw [length_createMarker]
  exact h.issued.trans (Nat.le_succ _)

theorem Numbered.pos_syncDone (h : s.Numbered) (hval : s.syncSeq? j = some val)
    (hle : s.lastNumber ≤ j) :
    (s.syncDone j val).lastCompleted.pos =
      (s.lastCompleted.pos + (j + 1 - s.lastNumber) % 2 ^ 16) % (2 * 2 ^ 16) := by
  obtain ⟨c, hc, _, rfl⟩ := syncSeq?_eq_some.mp hval
  have hlast := h.lastCompleted
  have hseq := h.syncSeq _ c hc
  exact SyncPoint.pos_set (Nat.mod_lt _ (by decide)) (by omega)

theorem Numbered.syncDone (h : s.Numbered) (hval : s.syncSeq? j = some val)
    (hle : s.lastNumber ≤ j) : (s.syncDone j val).Numbered := by
  have hlast := h.lastCompleted
  refine ⟨⟨h.syncPoint, h.marker, h.syncSeq⟩, ?_, ?_, lt_of_syncSeq? hval⟩
  · change _ = (j + 1) % 2 ^ 16
    rw [h.pos_syncDone hval hle]
    omega
  · rintro i (_ | ⟨_, hi⟩)
    · exact Nat.lt_succ_self _
    · exact (h.order i hi).trans (Nat.lt_succ_of_le hle)

theorem Aligned.syncDone (ha : s.Aligned) (h : s.Numbered) (hval : s.syncSeq? j = some val)
    (hle : s.lastNumber ≤ j) (hnear : (j + 1 - s.lastNumber) % (2 * 2 ^ 16) < 2 ^ 16) :
    (s.syncDone j val).Aligned := by
  have hpos := h.pos_syncDone hval hle
  rw [Aligned] at ha ⊢
  rw [hpos, ha]
  change _ = (j + 1) % (2 * 2 ^ 16)
  omega

theorem Numbered.le_lastNumber (h : s.Numbered) :
    i + 1 ≤ s.lastNumber ↔ ∃ j ∈ s.completed, i ≤ j := by
  constructor
  · intro hle
    unfold lastNumber at hle
    split at hle
    next => omega
    next j js hjs => exact ⟨j, hjs ▸ List.mem_cons_self, by omega⟩
  · rintro ⟨j, hj, hle⟩
    have := h.order j hj
    omega

theorem Numbered.reached_eq (h : s.Numbered) (hm : s.marker? i = some marker) :
    s.reached marker = true ↔ s.ahead i ≤ 2 ^ 16 := by
  obtain ⟨c, hc, _, rfl⟩ := marker?_eq_some.mp hm
  rw [reached, SyncPoint.ge_iff, h.marker i c hc]
  rfl

/-- The tests are exact when the numbers of the markers are comparable with the last completed
one. -/
theorem Numbered.exact_iff (h : s.Numbered) (ha : s.Aligned) :
    s.Exact ↔ ∀ i, s.Recent i → Serial.Comparable (2 ^ 16) (i + 1) s.lastNumber := by
  have hone {i : ℕ} {marker : UInt32} (hm : s.marker? i = some marker) :
      (s.reached marker = true ↔ ∃ j ∈ s.completed, i ≤ j) ↔
        Serial.Comparable (2 ^ 16) (i + 1) s.lastNumber := by
    rw [h.reached_eq hm, ← h.le_lastNumber, ahead, ha]
    exact Serial.reached_iff_le_iff (by decide)
  constructor
  · rintro hex i ⟨hsome, hrecent⟩
    obtain ⟨marker, hm⟩ := Option.isSome_iff_exists.mp hsome
    exact (hone hm).mp (hex i marker hm hrecent)
  · intro hcomp i marker hm hrecent
    exact (hone hm).mpr (hcomp i ⟨hm ▸ rfl, hrecent⟩)

/-- Fewer than `2 ^ 16` markers are issued after the last completed one. -/
structure InOrder (s : MarkerState) : Prop extends s.Numbered where
  outstanding : s.issuedSince s.lastNumber < 2 ^ 16

theorem create_inOrder : create.InOrder := ⟨create_numbered, by decide⟩

theorem InOrder.createMarker (h : s.InOrder) (hok : s.InWindow (.createMarker w)) :
    (s.createMarker w).InOrder := by
  refine ⟨h.toNumbered.createMarker, ?_⟩
  have hout := h.outstanding
  have hsum := issuedSince_createMarker (w := w) h.issued
  change (s.createMarker w).issuedSince s.lastNumber < _
  cases w with
  | false => exact hsum ▸ hout
  | true => exact hsum ▸ hok rfl

theorem InOrder.syncDone (h : s.InOrder) (hval : s.syncSeq? j = some val)
    (hle : s.lastNumber ≤ j) : (s.syncDone j val).InOrder := by
  have hlater : s.issuedSince (j + 1) ≤ s.issuedSince s.lastNumber := issuedSince_le (by omega)
  exact ⟨h.toNumbered.syncDone hval hle, hlater.trans_lt h.outstanding⟩

theorem InOrder.near (h : s.InOrder) (ha : s.Aligned) (hex : s.Exact)
    (hval : s.syncSeq? j = some val) (hle : s.lastNumber ≤ j) :
    (j + 1 - s.lastNumber) % (2 * 2 ^ 16) < 2 ^ 16 := by
  obtain ⟨c, hc, hwritten, _⟩ := syncSeq?_eq_some.mp hval
  have hm : s.marker? j = some c.marker := marker?_eq_some.mpr ⟨c, hc, hwritten, rfl⟩
  have hlater : s.issuedSince (j + 1) ≤ s.issuedSince s.lastNumber := issuedSince_le (by omega)
  have hcomp := (h.exact_iff ha).mp hex j ⟨hm ▸ rfl, hlater.trans_lt h.outstanding⟩
  rw [Serial.Comparable, if_neg (by omega)] at hcomp
  exact hcomp.2

end MarkerState

end NNPIHost

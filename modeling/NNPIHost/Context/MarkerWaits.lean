import Mathlib.Data.Finset.Basic
import NNPIHost.Context.CriticalError
import NNPIHost.Context.Markers

/-! # Waiting for markers

A wait for a marker ends when its sync point is reached or its sequence number is among the failed
ones. It looks for the number then, and takes it out of the set. The set knows the 16 bits of the
number only, and one entry serves one wait.
-/

namespace NNPIHost

/-- The report of a failure, or the erasure of its number by a wait. -/
structure FailureEvent where
  marker : ℕ
  reported : Bool

/-- The fields of a context that waits for markers use. The accesses of a wait are steps of their
own, because the end of another wait that timed out can unlock the queue between them. -/
structure MarkerWaits where
  markers : MarkerState
  failedSyncPoints : Finset UInt16
  /-- The markers of the waits that have ended and are about to look for a failure. -/
  found : List ℕ
  /-- Those of the waits that have found one and are about to erase it. -/
  erasing : List ℕ
  /-- The markers that the card reported as failed. -/
  failed : List ℕ
  /-- The markers that a wait has looked for a failure of. -/
  looked : List ℕ
  /-- What was inserted and erased, the last one first. -/
  events : List FailureEvent
  /-- What waits return, from the moment when it is determined. -/
  returned : List (ℕ × NNPError)

inductive MarkerWaitOp where
  | createMarker (written : Bool)
  | syncDone (i : ℕ)
  | syncFailed (i : ℕ)
  | waitFound (i : ℕ)
  | waitExpired (i : ℕ)
  | waitFind (i : ℕ)
  | waitErase (i : ℕ)

namespace MarkerWaits

open EventReport

def create : MarkerWaits := ⟨.create, ∅, [], [], [], [], [], []⟩

/-- The failure test of `waitMarker`. -/
def hasFailed (s : MarkerWaits) (marker : UInt32) : Prop :=
  (SyncPoint.ofMarker marker).val ∈ s.failedSyncPoints

instance (s : MarkerWaits) (marker : UInt32) : Decidable (s.hasFailed marker) :=
  inferInstanceAs (Decidable (_ ∈ _))

/-- The predicate of `waitMarker`; `critical` is the recorded error of the context. -/
def cond (s : MarkerWaits) (critical : EventReport) (marker : UInt32) : Prop :=
  s.markers.reached marker ∨ s.hasFailed marker ∨ (critical.broken ∧ ¬ critical.aborted)

instance (s : MarkerWaits) (critical : EventReport) (marker : UInt32) :
    Decidable (s.cond critical marker) := inferInstanceAs (Decidable (_ ∨ _))

/-- What `waitMarker` returns when its wait is over. -/
def waitResult (s : MarkerWaits) (critical : EventReport) (marker : UInt32) (found : Bool) :
    NNPError :=
  if ¬ found then .timedOut
  else if critical.broken then .contextBroken
  else if s.hasFailed marker then .brokenMarker
  else .noError

/-- The steps on a context that is not broken. -/
def step (s : MarkerWaits) : MarkerWaitOp → Option MarkerWaits
  | .createMarker written => some { s with markers := s.markers.createMarker written }
  | .syncDone i => (s.markers.step (.syncDone i)).map fun m => { s with markers := m }
  | .syncFailed i =>
      (s.markers.syncSeq? i).map fun val => { s with
        failedSyncPoints := insert val s.failedSyncPoints
        failed := i :: s.failed
        events := ⟨i, true⟩ :: s.events }
  | .waitFound i =>
      (s.markers.marker? i).bind fun marker =>
        if s.cond zero marker then some { s with found := i :: s.found } else none
  | .waitExpired i =>
      (s.markers.marker? i).bind fun marker =>
        if s.cond zero marker then none
        else some { s with returned := (i, s.waitResult zero marker false) :: s.returned }
  | .waitFind i =>
      (s.markers.marker? i).bind fun marker =>
        if i ∈ s.found then
          let ret := s.waitResult zero marker true
          some { s with
            found := s.found.erase i
            erasing := if ret = .brokenMarker then i :: s.erasing else s.erasing
            looked := i :: s.looked
            returned := (i, ret) :: s.returned }
        else none
  | .waitErase i =>
      (s.markers.marker? i).bind fun marker =>
        if i ∈ s.erasing then some { s with
          erasing := s.erasing.erase i
          failedSyncPoints := s.failedSyncPoints.erase (SyncPoint.ofMarker marker).val
          events := ⟨i, false⟩ :: s.events }
        else none

/-- Only failed markers were reported as broken, and no failed one as completed. -/
def Truthful (s : MarkerWaits) : Prop :=
  ∀ r ∈ s.returned, (r.2 = .brokenMarker → r.1 ∈ s.failed) ∧ (r.1 ∈ s.failed → r.2 ≠ .noError)

instance (s : MarkerWaits) : Decidable s.Truthful := inferInstanceAs (Decidable (∀ r ∈ _, _))

/-- The two calls sent the same 16 bits. -/
def sameSeq (i j : ℕ) : Bool := i % 2 ^ 16 = j % 2 ^ 16

/-- The last report or erasure for a marker with the same 16 bits. -/
def lastEvent (s : MarkerWaits) (i : ℕ) : Option FailureEvent :=
  s.events.find? fun e => sameSeq e.marker i

/-- A wait for a marker with the same 16 bits has erased them after the last report. -/
def Erased (s : MarkerWaits) (i : ℕ) : Prop := ∃ e ∈ s.lastEvent i, e.reported = false

/-- No failure is reported after a wait has looked for it. When a wait for a failed marker looks,
no other wait has erased its 16 bits, and when a wait for another marker looks, the failures of
markers with the same 16 bits have been erased. -/
def FailureKnown (s : MarkerWaits) : MarkerWaitOp → Prop
  | .syncFailed i => (s.markers.syncSeq? i).isSome → i ∉ s.failed → i ∉ s.looked
  | .waitFind i => (s.markers.marker? i).isSome → i ∈ s.found →
      (i ∈ s.failed → ¬ s.Erased i) ∧
      (i ∉ s.failed → ∀ j ∈ s.failed, sameSeq j i → s.Erased i)
  | _ => True

/-- The set of failed numbers is that of the reports that are not erased. -/
structure Inv (s : MarkerWaits) : Prop where
  labelled : s.markers.Labelled
  failed : ∀ i, i ∈ s.failed ↔ ⟨i, true⟩ ∈ s.events
  numbers : ∀ i, .ofNat (i + 1) ∈ s.failedSyncPoints ↔ ∃ e ∈ s.lastEvent i, e.reported = true
  looked : ∀ i ∈ s.looked, (i, .noError) ∈ s.returned ∨ (i, .brokenMarker) ∈ s.returned
  returned : ∀ i, (i, .noError) ∈ s.returned → i ∈ s.looked

variable {s t : MarkerWaits} {op : MarkerWaitOp} {i j : ℕ} {marker : UInt32} {val : UInt16}

theorem create_inv : create.Inv :=
  ⟨MarkerState.create_labelled, by simp [create], by simp [create, lastEvent], nofun, nofun⟩

theorem waitResult_zero :
    s.waitResult zero marker true = if s.hasFailed marker then .brokenMarker else .noError := by
  simp [waitResult]

theorem ofNat_succ_eq_iff : UInt16.ofNat (i + 1) = .ofNat (j + 1) ↔ sameSeq j i = true := by
  rw [← UInt16.toNat_inj, UInt16.toNat_ofNat', UInt16.toNat_ofNat', sameSeq, decide_eq_true_iff]
  omega

theorem lastEvent_cons {e : FailureEvent} (h : t.events = e :: s.events) :
    t.lastEvent i = if sameSeq e.marker i then some e else s.lastEvent i := by
  rw [lastEvent, h, List.find?_cons]
  cases hseq : sameSeq e.marker i
  · simp [lastEvent]
  · simp

theorem sameSeq_refl : sameSeq i i = true := by simp [sameSeq]

theorem Inv.hasFailed_iff (h : s.Inv) (hm : s.markers.marker? i = some marker) :
    s.hasFailed marker ↔ ∃ e ∈ s.lastEvent i, e.reported = true := by
  rw [hasFailed, h.labelled.val_marker hm]
  exact h.numbers i

/-- A failed marker with the same 16 bits leaves a last event, a report or an erasure. -/
theorem Inv.erased_iff (h : s.Inv) (hm : s.markers.marker? i = some marker) (hj : j ∈ s.failed)
    (hseq : sameSeq j i = true) : s.Erased i ↔ ¬ s.hasFailed marker := by
  have hsome : (s.lastEvent i).isSome :=
    List.find?_isSome.mpr ⟨⟨j, true⟩, (h.failed j).mp hj, hseq⟩
  obtain ⟨e, he⟩ := Option.isSome_iff_exists.mp hsome
  rw [h.hasFailed_iff hm, Erased, he]
  simp

/-- A number that is in the set was reported for a marker with the same 16 bits. -/
theorem Inv.exists_failed (h : s.Inv) (hm : s.markers.marker? i = some marker)
    (hfail : s.hasFailed marker) : ∃ j ∈ s.failed, sameSeq j i = true := by
  obtain ⟨⟨j, _⟩, he, rfl⟩ := (h.hasFailed_iff hm).mp hfail
  exact ⟨j, (h.failed j).mpr (List.mem_of_find?_eq_some he), (List.find?_some he :)⟩

theorem Inv.hasFailed_iff_mem (h : s.Inv) (hm : s.markers.marker? i = some marker) :
    (s.hasFailed marker ↔ i ∈ s.failed) ↔
      (i ∈ s.failed → ¬ s.Erased i) ∧
        (i ∉ s.failed → ∀ j ∈ s.failed, sameSeq j i → s.Erased i) := by
  by_cases hi : i ∈ s.failed
  · simp [hi, h.erased_iff hm hi sameSeq_refl]
  · simp only [hi, iff_false, false_imp_iff, true_and, not_false_eq_true, true_imp_iff]
    constructor
    · intro hno j hj hseq
      exact (h.erased_iff hm hj hseq).mpr hno
    · intro herased hfail
      obtain ⟨j, hj, hseq⟩ := h.exists_failed hm hfail
      exact (h.erased_iff hm hj hseq).mp (herased j hj hseq) hfail

theorem Inv.syncFailed (h : s.Inv) (hval : s.markers.syncSeq? i = some val) :
    Inv { s with
      failedSyncPoints := insert val s.failedSyncPoints
      failed := i :: s.failed
      events := ⟨i, true⟩ :: s.events } := by
  refine ⟨h.labelled, by simp [h.failed], fun j => ?_, h.looked, h.returned⟩
  rw [lastEvent_cons (s := s) rfl, Finset.mem_insert, h.labelled.syncSeq_eq hval,
    ofNat_succ_eq_iff, h.numbers]
  split <;> simp [*]

theorem Inv.waitErase (h : s.Inv) (hm : s.markers.marker? i = some marker) :
    Inv { s with
      erasing := s.erasing.erase i
      failedSyncPoints := s.failedSyncPoints.erase (SyncPoint.ofMarker marker).val
      events := ⟨i, false⟩ :: s.events } := by
  refine ⟨h.labelled, by simp [h.failed], fun j => ?_, h.looked, h.returned⟩
  rw [lastEvent_cons (s := s) rfl, Finset.mem_erase, h.labelled.val_marker hm, ne_eq,
    ofNat_succ_eq_iff, h.numbers]
  split <;> simp [*]

theorem Inv.returns (h : s.Inv) {ret : NNPError} {l : List ℕ}
    (hevents : t.events = s.events) (hfailed : t.failed = s.failed)
    (hnumbers : t.failedSyncPoints = s.failedSyncPoints)
    (hmarkers : t.markers = s.markers) (hreturned : t.returned = (i, ret) :: s.returned)
    (hlooked : t.looked = l ++ s.looked)
    (hret : (l = [i] ∧ (ret = .noError ∨ ret = .brokenMarker)) ∨
      (l = [] ∧ ret ≠ .noError)) : t.Inv := by
  refine ⟨hmarkers ▸ h.labelled, by rw [hevents, hfailed]; exact h.failed, fun j => ?_, ?_, ?_⟩
  · have hsame : t.lastEvent j = s.lastEvent j := by rw [lastEvent, hevents]; rfl
    rw [hnumbers, hsame]
    exact h.numbers j
  · intro j hj
    rw [hlooked, List.mem_append] at hj
    simp only [hreturned, List.mem_cons, Prod.mk.injEq]
    rcases hj with hj | hj
    · rcases hret with ⟨rfl, hret⟩ | ⟨rfl, _⟩
      · obtain rfl := List.mem_singleton.mp hj
        exact hret.imp (fun h => .inl ⟨rfl, h.symm⟩) fun h => .inl ⟨rfl, h.symm⟩
      · cases hj
    · exact (h.looked j hj).imp .inr .inr
  · intro j hj
    rw [hreturned, List.mem_cons, Prod.mk.injEq] at hj
    rw [hlooked, List.mem_append]
    rcases hj with ⟨rfl, hok⟩ | hj
    · rcases hret with ⟨rfl, _⟩ | ⟨_, hno⟩
      · exact .inl (List.mem_singleton_self _)
      · exact absurd hok.symm hno
    · exact .inr (h.returned j hj)

theorem Inv.step (h : s.Inv) (hs : s.step op = some t) : t.Inv := by
  cases op with
  | createMarker written =>
    obtain rfl := Option.some.inj hs
    exact ⟨h.labelled.createMarker, h.failed, h.numbers, h.looked, h.returned⟩
  | syncDone i =>
    obtain ⟨m, hm, rfl⟩ := Option.map_eq_some_iff.mp hs
    exact ⟨h.labelled.step hm, h.failed, h.numbers, h.looked, h.returned⟩
  | syncFailed i =>
    obtain ⟨val, hval, rfl⟩ := Option.map_eq_some_iff.mp hs
    exact h.syncFailed hval
  | waitFound i =>
    obtain ⟨marker, _, hs⟩ := Option.bind_eq_some_iff.mp hs
    obtain ⟨_, hs⟩ := Option.ite_none_right_eq_some.mp hs
    obtain rfl := Option.some.inj hs
    exact ⟨h.labelled, h.failed, h.numbers, h.looked, h.returned⟩
  | waitExpired i =>
    obtain ⟨marker, _, hs⟩ := Option.bind_eq_some_iff.mp hs
    obtain ⟨_, hs⟩ := Option.ite_none_left_eq_some.mp hs
    obtain rfl := Option.some.inj hs
    exact h.returns rfl rfl rfl rfl rfl (List.nil_append _).symm (.inr ⟨rfl, nofun⟩)
  | waitFind i =>
    obtain ⟨marker, _, hs⟩ := Option.bind_eq_some_iff.mp hs
    obtain ⟨_, hs⟩ := Option.ite_none_right_eq_some.mp hs
    obtain rfl := Option.some.inj hs
    refine h.returns rfl rfl rfl rfl rfl (l := [i]) rfl (.inl ⟨rfl, ?_⟩)
    rw [waitResult_zero]
    split
    · exact .inr rfl
    · exact .inl rfl
  | waitErase i =>
    obtain ⟨marker, hm, hs⟩ := Option.bind_eq_some_iff.mp hs
    obtain ⟨_, hs⟩ := Option.ite_none_right_eq_some.mp hs
    obtain rfl := Option.some.inj hs
    exact h.waitErase hm

theorem Inv.truthful_syncFailed (h : s.Inv) (ht : s.Truthful)
    (hs : s.step (.syncFailed i) = some t) : t.Truthful ↔ s.FailureKnown (.syncFailed i) := by
  obtain ⟨val, hval, rfl⟩ := Option.map_eq_some_iff.mp hs
  simp only [FailureKnown, hval, Option.isSome_some, true_imp_iff]
  constructor
  · intro ht' hnew hlooked
    rcases h.looked i hlooked with hr | hr
    · exact (ht' _ hr).2 List.mem_cons_self rfl
    · exact hnew ((ht _ hr).1 rfl)
  · intro hok r hr
    refine ⟨fun hb => List.mem_cons_of_mem _ ((ht r hr).1 hb), fun hf hno => ?_⟩
    by_cases hold : r.1 ∈ s.failed
    · exact (ht r hr).2 hold hno
    · obtain hi : r.1 = i := (List.mem_cons.mp hf).resolve_right hold
      exact hok (hi ▸ hold) (h.returned i (hi ▸ hno ▸ hr))

theorem Inv.truthful_waitFind (h : s.Inv) (ht : s.Truthful)
    (hs : s.step (.waitFind i) = some t) : t.Truthful ↔ s.FailureKnown (.waitFind i) := by
  obtain ⟨marker, hm, hs⟩ := Option.bind_eq_some_iff.mp hs
  obtain ⟨hfound, hs⟩ := Option.ite_none_right_eq_some.mp hs
  obtain rfl := Option.some.inj hs
  simp only [FailureKnown, hm, hfound, Option.isSome_some, true_imp_iff,
    ← h.hasFailed_iff_mem hm]
  simp only [Truthful, List.forall_mem_cons, waitResult_zero]
  refine (and_iff_left ht).trans ?_
  by_cases hf : s.hasFailed marker <;> simp [hf]

/-- A step keeps the results true exactly if it meets the condition. -/
theorem Inv.truthful_step (h : s.Inv) (ht : s.Truthful) (hs : s.step op = some t) :
    t.Truthful ↔ s.FailureKnown op := by
  cases op with
  | createMarker written =>
    obtain rfl := Option.some.inj hs
    exact iff_of_true ht trivial
  | syncDone i =>
    obtain ⟨m, _, rfl⟩ := Option.map_eq_some_iff.mp hs
    exact iff_of_true ht trivial
  | syncFailed i => exact h.truthful_syncFailed ht hs
  | waitFound i =>
    obtain ⟨marker, _, hs⟩ := Option.bind_eq_some_iff.mp hs
    obtain ⟨_, hs⟩ := Option.ite_none_right_eq_some.mp hs
    obtain rfl := Option.some.inj hs
    exact iff_of_true ht trivial
  | waitExpired i =>
    obtain ⟨marker, _, hs⟩ := Option.bind_eq_some_iff.mp hs
    obtain ⟨_, hs⟩ := Option.ite_none_left_eq_some.mp hs
    obtain rfl := Option.some.inj hs
    exact iff_of_true (List.forall_mem_cons.mpr ⟨⟨nofun, fun _ => nofun⟩, ht⟩) trivial
  | waitFind i => exact h.truthful_waitFind ht hs
  | waitErase i =>
    obtain ⟨marker, _, hs⟩ := Option.bind_eq_some_iff.mp hs
    obtain ⟨_, hs⟩ := Option.ite_none_right_eq_some.mp hs
    obtain rfl := Option.some.inj hs
    exact iff_of_true ht trivial

theorem failureKnown_of_disabled (hs : s.step op = none) : s.FailureKnown op := by
  cases op with
  | syncFailed i =>
    intro hval
    obtain ⟨val, hval⟩ := Option.isSome_iff_exists.mp hval
    simp [MarkerWaits.step, hval] at hs
  | waitFind i =>
    intro hm hfound
    obtain ⟨marker, hm⟩ := Option.isSome_iff_exists.mp hm
    simp [MarkerWaits.step, hm, hfound] at hs
  | _ => trivial

/-- In every run, `waitMarker` reports failed markers and only those as broken, exactly when each
failure is reported before a wait looks for it, a wait for a failed marker looks before its 16
bits are erased, and a wait for a marker that has not failed looks after the failures of others
with the same 16 bits are erased. -/
theorem verdicts_truthful (ops : List MarkerWaitOp) :
    Exec.Always step Truthful create ops ↔ Exec.Meets step FailureKnown create ops :=
  Exec.always_iff_meets (I := Inv) (by simp [Truthful, create]) create_inv
    (fun _ _ _ h ht hs => ⟨h.step hs, h.truthful_step ht hs⟩)
    fun _ _ _ _ hs => failureKnown_of_disabled hs

/-- The second wait for a failed marker reports success once a later marker has completed. -/
theorem second_wait_succeeds :
    ¬ Exec.Always step Truthful create
      [.createMarker true, .createMarker true, .syncFailed 0, .syncDone 1, .waitFound 0,
        .waitFind 0, .waitErase 0, .waitFound 0, .waitFind 0] := by
  decide

end MarkerWaits

end NNPIHost

import NNPIHost.Context.MarkerWaits
import NNPIHost.Fifo.Fences

/-! # Waiting for all commands

`nnpdrvFinish` creates a marker and waits for it. Its sync message is written after those of the
commands before it, the card answers it when these have completed, and one thread of the host
handles what the card reports in the order in which it was sent.
-/

namespace NNPIHost

namespace MarkerState

/-- Fewer than `2 ^ 16` calls, failed ones as well, separate the last one from the last completed
marker. -/
structure Window (s : MarkerState) : Prop extends s.Numbered where
  aligned : s.Aligned
  near : s.calls.length < s.lastNumber + 2 ^ 16

variable {s : MarkerState} {i : ℕ} {marker : UInt32} {val : UInt16} {written : Bool}

theorem create_window : create.Window := ⟨create_numbered, rfl, by decide⟩

theorem Window.createMarker (h : s.Window)
    (hok : s.calls.length + 1 < s.lastNumber + 2 ^ 16) : (s.createMarker written).Window :=
  ⟨h.toNumbered.createMarker, h.aligned, by rw [length_createMarker]; exact hok⟩

theorem Window.syncDone (h : s.Window) (hval : s.syncSeq? i = some val)
    (hle : s.lastNumber ≤ i) : (s.syncDone i val).Window := by
  have hlt := lt_of_syncSeq? hval
  have hnear := h.near
  have hmod : (i + 1 - s.lastNumber) % (2 * 2 ^ 16) = i + 1 - s.lastNumber :=
    Nat.mod_eq_of_lt (by omega)
  refine ⟨h.toNumbered.syncDone hval hle, h.aligned.syncDone h.toNumbered hval hle (by omega), ?_⟩
  change s.calls.length < i + 1 + 2 ^ 16
  omega

theorem Window.reached_iff (h : s.Window) (hm : s.marker? i = some marker)
    (hi : s.lastNumber < i + 1 + 2 * 2 ^ 16) :
    s.reached marker = true ↔ i + 1 ≤ s.lastNumber ∧ s.lastNumber ≤ i + 1 + 2 ^ 16 := by
  have hlt := lt_of_marker? hm
  have hnear := h.near
  rw [h.reached_eq hm, ahead, h.aligned]
  exact Serial.reached_iff hi (by omega)

end MarkerState

open EventReport Fifo

/-- A context with its channel. Commands and markers are named by their numbers. -/
structure FinishState where
  waits : MarkerWaits
  /-- How many commands were written. -/
  scheduled : ℕ
  /-- For each call of `createMarker`, how many commands were written before it. -/
  limits : List ℕ
  /-- What was written and is not answered yet. -/
  onCard : List (Item ℕ ℕ)
  /-- What the card has reported and the response thread has not read yet. -/
  toHost : List (Item ℕ ℕ)
  /-- The commands whose completion was handled. -/
  handled : List ℕ

inductive FinishOp where
  | schedule (written : Bool)
  | createMarker (written : Bool)
  /-- The card completes a command. -/
  | complete (n : ℕ)
  /-- The card answers the marker that nothing is left before. -/
  | answer
  /-- The card fails to create a sync. -/
  | refuse (i : ℕ)
  /-- The response thread handles a message. -/
  | handle
  | waitFound (i : ℕ)
  | waitExpired (i : ℕ)
  | waitFind (i : ℕ)
  | waitErase (i : ℕ)

namespace FinishState

def create : FinishState := ⟨.create, 0, [], [], [], []⟩

variable (s : FinishState)

def markers : MarkerState := s.waits.markers

def schedule (written : Bool) : FinishState :=
  if written then
    { s with scheduled := s.scheduled + 1, onCard := s.onCard ++ [.command s.scheduled] }
  else s

def createMarker (written : Bool) : FinishState :=
  { s with
    waits := { s.waits with markers := s.markers.createMarker written }
    limits := s.limits ++ [s.scheduled]
    onCard := if written then s.onCard ++ [.fence s.markers.calls.length] else s.onCard }

def report (sent got : Item ℕ ℕ) : Option FinishState :=
  if sent ∈ s.onCard then
    some { s with onCard := s.onCard.erase sent, toHost := s.toHost ++ [got] }
  else none

def answer : Option FinishState :=
  match s.onCard with
  | .fence i :: l => some { s with onCard := l, toHost := s.toHost ++ [.fence i] }
  | _ => none

def handle : Option FinishState :=
  match s.toHost with
  | [] => none
  | .command n :: l => some { s with toHost := l, handled := n :: s.handled }
  | .fence i :: l =>
      (s.waits.step (.syncDone i)).map fun w => { s with waits := w, toHost := l }
  | .lost i :: l =>
      (s.waits.step (.syncFailed i)).map fun w => { s with waits := w, toHost := l }

/-- A step of a wait. -/
def wait (op : MarkerWaitOp) : Option FinishState :=
  (s.waits.step op).map fun w => { s with waits := w }

def step : FinishOp → Option FinishState
  | .schedule written => some (s.schedule written)
  | .createMarker written => some (s.createMarker written)
  | .complete n => s.report (.command n) (.command n)
  | .answer => s.answer
  | .refuse i => s.report (.fence i) (.lost i)
  | .handle => s.handle
  | .waitFound i => s.wait (.waitFound i)
  | .waitExpired i => s.wait (.waitExpired i)
  | .waitFind i => s.wait (.waitFind i)
  | .waitErase i => s.wait (.waitErase i)

/-- Fewer than `2 ^ 16` calls of `createMarker`, failed ones as well, are ahead of the last
completed marker, and the predicate that has ended a wait is still true when the wait looks for a
failure. -/
def InWindow (s : FinishState) : FinishOp → Prop
  | .createMarker _ => s.markers.calls.length + 1 < s.markers.lastNumber + 2 ^ 16
  | .waitFind i => ∀ marker, s.markers.marker? i = some marker → s.waits.cond zero marker
  | _ => True

instance (s : FinishState) (op : FinishOp) : Decidable (s.InWindow op) := by
  unfold InWindow
  split <;> infer_instance

/-- The commands that were written before a marker. -/
def Covers (limits : List ℕ) (i n : ℕ) : Prop := ∃ limit, limits[i]? = some limit ∧ n < limit

/-- A wait that ends well ends after all commands before its marker were handled. -/
def Barrier : Prop :=
  ∀ i, (i, .noError) ∈ s.waits.returned → ∀ n, Covers s.limits i n → n ∈ s.handled

/-- When all is answered and read, every recent marker passes its test unless it failed. -/
def Answered : Prop :=
  s.onCard = [] → s.toHost = [] → ∀ i marker, s.markers.marker? i = some marker →
    s.markers.calls.length ≤ i + 2 ^ 16 → i ∉ s.waits.failed → s.markers.reached marker = true

/-- What is under way from the host to the card and back. -/
def pipeline : List (Item ℕ ℕ) := s.toHost ++ s.onCard

/-- The order of the messages, and what has become of commands and markers. -/
structure Inv (s : FinishState) : Prop where
  window : s.markers.Window
  limits : s.limits.length = s.markers.calls.length
  sorted : s.limits.Pairwise (· ≤ ·)
  le_scheduled : ∀ limit ∈ s.limits, limit ≤ s.scheduled
  fenced : Fenced (Covers s.limits) (· ∈ s.handled) s.pipeline
  commands : ∀ n < s.scheduled, n ∈ s.handled ∨ .command n ∈ s.pipeline
  completed : ∀ i ∈ s.markers.completed, ∀ n, Covers s.limits i n → n ∈ s.handled
  returned : ∀ i, (i, .noError) ∈ s.waits.returned →
    i < s.markers.calls.length ∧ ∀ n, Covers s.limits i n → n ∈ s.handled
  order : (fences s.pipeline).Pairwise (· < ·)
  bounds : ∀ i, .fence i ∈ s.pipeline → s.markers.lastNumber ≤ i ∧ i < s.markers.calls.length
  answers : ∀ i marker, s.markers.marker? i = some marker → i < s.markers.lastNumber ∨
    .fence i ∈ s.pipeline ∨ .lost i ∈ s.pipeline ∨ i ∈ s.waits.failed

variable {s} {t : FinishState}

theorem create_inv : create.Inv where
  window := MarkerState.create_window
  limits := rfl
  sorted := .nil
  le_scheduled := by simp [create]
  fenced := trivial
  commands := by simp [create]
  completed := by simp [create, markers, MarkerWaits.create, MarkerState.create]
  returned := by simp [create, MarkerWaits.create]
  order := .nil
  bounds := by simp [create, pipeline]
  answers := by simp [create, markers, MarkerWaits.create, MarkerState.create, MarkerState.marker?]

theorem Inv.schedule (h : s.Inv) (written : Bool) : (s.schedule written).Inv := by
  cases written with
  | false => exact h
  | true =>
    have hpipe : (s.schedule true).pipeline = s.pipeline ++ [.command s.scheduled] :=
      (List.append_assoc _ _ _).symm
    refine ⟨h.window, h.limits, h.sorted, ?_, ?_, ?_, h.completed, h.returned, ?_, ?_, ?_⟩
    · exact fun limit hl => Nat.le_succ_of_le (h.le_scheduled limit hl)
    · rw [hpipe]
      exact h.fenced.add_command _
    · intro n hn
      rw [hpipe, List.mem_append]
      rcases Nat.lt_succ_iff_lt_or_eq.mp hn with hn | rfl
      · exact (h.commands n hn).imp_right .inl
      · exact .inr (.inr List.mem_cons_self)
    · rw [hpipe, fences_append]
      simpa [fences] using h.order
    · intro i hi
      rw [hpipe, List.mem_append] at hi
      exact h.bounds i (hi.resolve_right (by simp))
    · intro i marker hm
      rw [hpipe]
      simp only [List.mem_append]
      exact (h.answers i marker hm).imp_right (Or.imp .inl (Or.imp_left .inl))

theorem covers_append {limits : List ℕ} {limit i n : ℕ} (hi : i < limits.length) :
    Covers (limits ++ [limit]) i n ↔ Covers limits i n := by
  simp only [Covers, List.getElem?_append_left hi]

theorem Inv.createMarker (h : s.Inv) {written : Bool} (hok : s.InWindow (.createMarker written)) :
    (s.createMarker written).Inv := by
  have hlen : (s.createMarker written).markers.calls.length = s.markers.calls.length + 1 :=
    MarkerState.length_createMarker
  have hcovers : ∀ i n, i < s.markers.calls.length →
      Covers (s.createMarker written).limits i n → Covers s.limits i n := by
    intro i n hi hn
    exact (covers_append (h.limits.symm ▸ hi)).mp hn
  have hpipe : (s.createMarker written).pipeline =
      s.pipeline ++ if written then [.fence s.markers.calls.length] else [] := by
    cases written
    · exact (List.append_nil _).symm
    · exact (List.append_assoc _ _ _).symm
  have hold : Fenced (Covers (s.createMarker written).limits) (· ∈ s.handled) s.pipeline :=
    h.fenced.mono (fun _ => id) fun i hi n => hcovers i n (h.bounds i hi).2
  refine ⟨h.window.createMarker hok, ?_, ?_, ?_, ?_, ?_, ?_, ?_, ?_, ?_, ?_⟩
  · rw [hlen, ← h.limits]
    exact List.length_append
  · refine List.pairwise_append.mpr ⟨h.sorted, List.pairwise_singleton _ _, ?_⟩
    intro limit hl limit' hl'
    obtain rfl := List.mem_singleton.mp hl'
    exact h.le_scheduled limit hl
  · exact List.forall_mem_append.mpr ⟨h.le_scheduled, by simp [FinishState.createMarker]⟩
  · rw [hpipe]
    cases written with
    | false => exact (List.append_nil s.pipeline).symm ▸ hold
    | true =>
      refine hold.add_fence ?_
      -- the new marker stands for all commands so far
      rintro n ⟨limit, hl, hn⟩
      simp only [FinishState.createMarker, ← h.limits, List.getElem?_concat_length,
        Option.some.injEq] at hl
      exact h.commands n (hl ▸ hn)
  · intro n hn
    rw [hpipe, List.mem_append]
    exact (h.commands n hn).imp_right .inl
  · intro i hi n hn
    have hlt := (h.window.order i hi).trans_le h.window.issued
    exact h.completed i hi n (hcovers i n hlt hn)
  · intro i hi
    obtain ⟨hlt, hdone⟩ := h.returned i hi
    exact ⟨hlen ▸ hlt.trans (Nat.lt_succ_self _), fun n hn => hdone n (hcovers i n hlt hn)⟩
  · rw [hpipe, fences_append]
    refine List.pairwise_append.mpr ⟨h.order, ?_, ?_⟩
    · cases written <;> simp [fences]
    · intro i hi j hj
      have hlt := (h.bounds i (mem_fences.mp hi)).2
      cases written <;> simp [fences] at hj
      exact hj ▸ hlt
  · intro i hi
    rw [hpipe, List.mem_append] at hi
    rw [hlen]
    rcases hi with hi | hi
    · exact (h.bounds i hi).imp_right (Nat.lt_succ_of_lt ·)
    · cases written <;> simp at hi
      subst hi
      exact ⟨h.window.issued, Nat.lt_succ_self _⟩
  · intro i marker hm
    rw [hpipe]
    simp only [List.mem_append]
    rcases Nat.lt_succ_iff_lt_or_eq.mp (hlen ▸ MarkerState.lt_of_marker? hm) with hi | rfl
    · rw [show (s.createMarker written).markers.marker? i = s.markers.marker? i from
        MarkerState.marker?_createMarker written hi] at hm
      exact (h.answers i marker hm).imp_right (Or.imp .inl (Or.imp_left .inl))
    · obtain ⟨c, hc, hwritten, -⟩ := MarkerState.marker?_eq_some.mp hm
      simp only [FinishState.createMarker, markers, MarkerState.createMarker,
        List.getElem?_concat_length, Option.some.injEq] at hc
      obtain rfl : written = true := by
        subst hc
        exact hwritten
      exact .inr (.inl (.inr List.mem_cons_self))

/-- The messages under way may change as long as nothing is lost and the order is kept. -/
theorem Inv.moved (h : s.Inv) {onCard toHost : List (Item ℕ ℕ)}
    (hfenced : Fenced (Covers s.limits) (· ∈ s.handled) (toHost ++ onCard))
    (hcommands : ∀ n, .command n ∈ s.pipeline → .command n ∈ toHost ++ onCard)
    (horder : (fences (toHost ++ onCard)).Sublist (fences s.pipeline))
    (hfences : ∀ i, .fence i ∈ s.pipeline ∨ .lost i ∈ s.pipeline →
      .fence i ∈ toHost ++ onCard ∨ .lost i ∈ toHost ++ onCard) :
    Inv { s with onCard := onCard, toHost := toHost } where
  window := h.window
  limits := h.limits
  sorted := h.sorted
  le_scheduled := h.le_scheduled
  fenced := hfenced
  commands := fun n hn => (h.commands n hn).imp_right (hcommands n)
  completed := h.completed
  returned := h.returned
  order := h.order.sublist horder
  bounds := fun i hi => h.bounds i (mem_fences.mp (horder.subset (mem_fences.mpr hi)))
  answers := by
    intro i marker hm
    rcases h.answers i marker hm with hlt | hf | hl | hfail
    · exact .inl hlt
    · exact .inr (or_assoc.mp (.inl (hfences i (.inl hf))))
    · exact .inr (or_assoc.mp (.inl (hfences i (.inr hl))))
    · exact .inr (.inr (.inr hfail))

theorem Inv.report {sent got : Item ℕ ℕ} (h : s.Inv) (hs : s.report sent got = some t)
    (hgot : (∃ n, sent = .command n ∧ got = .command n) ∨
      ∃ i, sent = .fence i ∧ got = .lost i) : t.Inv := by
  obtain ⟨hmem, ⟨⟩⟩ := Option.ite_none_right_eq_some.mp hs
  obtain ⟨l₁, l₂, -, heq, herase⟩ := List.exists_erase_eq hmem
  have hpipe : s.pipeline = s.toHost ++ (l₁ ++ sent :: l₂) := by rw [pipeline, heq]
  have hnew : s.toHost ++ [got] ++ s.onCard.erase sent = s.toHost ++ got :: (l₁ ++ l₂) := by
    rw [herase, List.append_assoc, List.singleton_append]
  have hfenced := hpipe ▸ h.fenced
  rcases hgot with ⟨n, rfl, rfl⟩ | ⟨i, rfl, rfl⟩
  · apply h.moved <;> simp only [hnew, hpipe]
    · exact hfenced.overtake
    · simp only [List.mem_append, List.mem_cons]
      tauto
    · simp only [fences_append, fences]
      exact List.Sublist.refl _
    · simp only [List.mem_append, List.mem_cons, reduceCtorEq, false_or]
      exact fun _ => id
  · apply h.moved <;> simp only [hnew, hpipe]
    · exact hfenced.giveUp
    · simp only [List.mem_append, List.mem_cons, reduceCtorEq, false_or]
      exact fun _ => id
    · simp only [fences_append, fences]
      exact ((List.sublist_cons_self _ _).append_left _).append_left _
    · simp only [List.mem_append, List.mem_cons, Item.fence.injEq, Item.lost.injEq, reduceCtorEq,
        false_or]
      tauto

theorem Inv.answer (h : s.Inv) (hs : s.answer = some t) : t.Inv := by
  unfold FinishState.answer at hs
  split at hs
  next i l hl =>
    obtain rfl := Option.some.inj hs
    have hpipe : s.toHost ++ [.fence i] ++ l = s.pipeline := by
      rw [pipeline, hl, List.append_assoc, List.singleton_append]
    refine h.moved (hpipe ▸ h.fenced) ?_ ?_ ?_ <;> rw [hpipe]
    · exact fun _ => id
    · exact fun _ => id
  next => cases hs

variable {x : Item ℕ ℕ} {l : List (Item ℕ ℕ)}

theorem pipeline_of_toHost (hl : s.toHost = x :: l) : s.pipeline = x :: (l ++ s.onCard) := by
  rw [pipeline, hl, List.cons_append]

theorem mem_of_toHost {y : Item ℕ ℕ} (hl : s.toHost = x :: l) :
    y ∈ s.pipeline ↔ y = x ∨ y ∈ l ++ s.onCard := by
  rw [pipeline_of_toHost hl, List.mem_cons]

theorem Inv.handleCommand {n : ℕ} (h : s.Inv) (hl : s.toHost = .command n :: l) :
    Inv { s with toHost := l, handled := n :: s.handled } := by
  have hfenced := pipeline_of_toHost hl ▸ h.fenced
  have horder := pipeline_of_toHost hl ▸ h.order
  refine ⟨h.window, h.limits, h.sorted, h.le_scheduled, ?_, ?_, ?_, ?_, horder, ?_, ?_⟩
  · refine Fenced.mono hfenced ?_ fun _ _ _ => id
    rintro m (hm | rfl)
    · exact List.mem_cons_of_mem _ hm
    · exact List.mem_cons_self
  · intro m hm
    rcases h.commands m hm with hm | hm
    · exact .inl (List.mem_cons_of_mem _ hm)
    · rcases (mem_of_toHost hl).mp hm with hm | hm
      · exact .inl (Item.command.inj hm ▸ List.mem_cons_self)
      · exact .inr hm
  · exact fun i hi m hm => List.mem_cons_of_mem _ (h.completed i hi m hm)
  · exact fun i hi => (h.returned i hi).imp_right fun hd m hm => List.mem_cons_of_mem _ (hd m hm)
  · exact fun i hi => h.bounds i ((mem_of_toHost hl).mpr (.inr hi))
  · intro i marker hm
    have hanswers := h.answers i marker hm
    simp only [mem_of_toHost hl, reduceCtorEq, false_or] at hanswers
    exact hanswers

theorem Inv.syncDone {i : ℕ} {val : UInt16} (h : s.Inv) (hl : s.toHost = .fence i :: l)
    (hval : s.markers.syncSeq? i = some val) :
    Inv { s with
      waits := { s.waits with markers := s.markers.syncDone i val }
      toHost := l } := by
  have hfenced := pipeline_of_toHost hl ▸ h.fenced
  have horder := pipeline_of_toHost hl ▸ h.order
  have hle := (h.bounds i ((mem_of_toHost hl).mpr (.inl rfl))).1
  refine ⟨h.window.syncDone hval hle, h.limits, h.sorted, h.le_scheduled, hfenced.2, ?_, ?_,
    h.returned, horder.of_cons, ?_, ?_⟩
  · intro n hn
    refine (h.commands n hn).imp_right fun hn => ((mem_of_toHost hl).mp hn).resolve_left ?_
    rintro ⟨⟩
  · rintro j (_ | ⟨_, hj⟩) n hn
    · exact hfenced.1 n hn
    · exact h.completed j hj n hn
  · intro j hj
    exact ⟨List.rel_of_pairwise_cons horder (mem_fences.mpr hj),
      (h.bounds j ((mem_of_toHost hl).mpr (.inr hj))).2⟩
  · intro j marker hm
    have hanswers := h.answers j marker hm
    simp only [mem_of_toHost hl, Item.fence.injEq, reduceCtorEq, false_or] at hanswers
    rcases hanswers with hlt | (rfl | hf) | hrest
    · exact .inl (Nat.lt_succ_of_le (hlt.le.trans hle))
    · exact .inl (Nat.lt_succ_self _)
    · exact .inr (.inl hf)
    · exact .inr (.inr hrest)

theorem Inv.syncFailed {i : ℕ} {val : UInt16} (h : s.Inv) (hl : s.toHost = .lost i :: l) :
    Inv { s with
      waits := { s.waits with
        failedSyncPoints := insert val s.waits.failedSyncPoints
        failed := i :: s.waits.failed
        events := ⟨i, true⟩ :: s.waits.events }
      toHost := l } := by
  have hfenced := pipeline_of_toHost hl ▸ h.fenced
  have horder := pipeline_of_toHost hl ▸ h.order
  refine ⟨h.window, h.limits, h.sorted, h.le_scheduled, hfenced, ?_, h.completed, h.returned,
    horder, ?_, ?_⟩
  · intro n hn
    refine (h.commands n hn).imp_right fun hn => ((mem_of_toHost hl).mp hn).resolve_left ?_
    rintro ⟨⟩
  · exact fun j hj => h.bounds j ((mem_of_toHost hl).mpr (.inr hj))
  · intro j marker hm
    have hanswers := h.answers j marker hm
    simp only [mem_of_toHost hl, Item.lost.injEq, reduceCtorEq, false_or] at hanswers
    rcases hanswers with hlt | hf | (rfl | hlost) | hfail
    · exact .inl hlt
    · exact .inr (.inl hf)
    · exact .inr (.inr (.inr List.mem_cons_self))
    · exact .inr (.inr (.inl hlost))
    · exact .inr (.inr (.inr (List.mem_cons_of_mem _ hfail)))

theorem Inv.handle (h : s.Inv) (hs : s.handle = some t) : t.Inv := by
  unfold FinishState.handle at hs
  split at hs
  next => cases hs
  next n l hl =>
    obtain rfl := Option.some.inj hs
    exact h.handleCommand hl
  next i l hl =>
    obtain ⟨w, hw, rfl⟩ := Option.map_eq_some_iff.mp hs
    obtain ⟨m, hm, rfl⟩ := Option.map_eq_some_iff.mp hw
    obtain ⟨val, hval, rfl⟩ := Option.map_eq_some_iff.mp hm
    exact h.syncDone hl hval
  next i l hl =>
    obtain ⟨m, hm, rfl⟩ := Option.map_eq_some_iff.mp hs
    obtain ⟨val, -, rfl⟩ := Option.map_eq_some_iff.mp hm
    exact h.syncFailed hl

theorem Inv.reached {i : ℕ} {marker : UInt32} (h : s.Inv)
    (hm : s.markers.marker? i = some marker) (hr : s.markers.reached marker = true) (n : ℕ)
    (hn : Covers s.limits i n) : n ∈ s.handled := by
  have hle : i + 1 ≤ s.markers.lastNumber := by
    by_contra hlt
    exact hlt ((h.window.reached_iff hm (by omega)).mp hr).1
  -- a later marker stands for at least as many commands
  obtain ⟨j, hj, hij⟩ := h.window.le_lastNumber.mp hle
  obtain ⟨limit, hl, hn⟩ := hn
  have hjlt : j < s.limits.length := h.limits ▸ (h.window.order j hj).trans_le h.window.issued
  have hmono : limit ≤ s.limits[j] := by
    obtain ⟨hi, rfl⟩ := List.getElem?_eq_some_iff.mp hl
    rcases hij.lt_or_eq with hlt | rfl
    · exact List.pairwise_iff_getElem.mp h.sorted i j hi hjlt hlt
    · exact le_rfl
  exact h.completed j hj n ⟨_, List.getElem?_eq_getElem hjlt, hn.trans_le hmono⟩

theorem Inv.waits (h : s.Inv) {w : MarkerWaits} (hmarkers : w.markers = s.markers)
    (hfailed : w.failed = s.waits.failed)
    (hreturned : ∀ i, (i, .noError) ∈ w.returned → (i, .noError) ∈ s.waits.returned ∨
      ∃ marker, s.markers.marker? i = some marker ∧ s.markers.reached marker = true) :
    Inv { s with waits := w } := by
  have hm : FinishState.markers { s with waits := w } = s.markers := hmarkers
  refine ⟨hm ▸ h.window, hm ▸ h.limits, h.sorted, h.le_scheduled, h.fenced, h.commands,
    hm ▸ h.completed, ?_, h.order, hm ▸ h.bounds, hm ▸ hfailed ▸ h.answers⟩
  intro i hi
  rw [hm]
  rcases hreturned i hi with hold | ⟨marker, hi, hr⟩
  · exact h.returned i hold
  · exact ⟨MarkerState.lt_of_marker? hi, h.reached hi hr⟩

theorem Inv.waitFind {i : ℕ} (h : s.Inv) (hok : s.InWindow (.waitFind i))
    (hs : s.wait (.waitFind i) = some t) : t.Inv := by
  obtain ⟨w, hw, rfl⟩ := Option.map_eq_some_iff.mp hs
  obtain ⟨marker, hm, hw⟩ := Option.bind_eq_some_iff.mp hw
  obtain ⟨_, hw⟩ := Option.ite_none_right_eq_some.mp hw
  obtain rfl := Option.some.inj hw
  refine h.waits rfl rfl fun j hj => ?_
  rcases List.mem_cons.mp hj with hj | hj
  · obtain ⟨rfl, hret⟩ := Prod.mk.inj hj
    rw [MarkerWaits.waitResult_zero] at hret
    split at hret
    · cases hret
    next hno =>
      rcases hok marker hm with hr | hf | ⟨hb, _⟩
      · exact .inr ⟨marker, hm, hr⟩
      · exact absurd hf hno
      · cases hb
  · exact .inl hj

theorem Inv.step {op : FinishOp} (h : s.Inv) (hs : Exec.restrict InWindow step s op = some t) :
    t.Inv := by
  obtain ⟨hok, hs⟩ := Exec.restrict_eq_some.mp hs
  cases op with
  | schedule written =>
    obtain rfl := Option.some.inj hs
    exact h.schedule written
  | createMarker written =>
    obtain rfl := Option.some.inj hs
    exact h.createMarker hok
  | complete n => exact h.report hs (.inl ⟨n, rfl, rfl⟩)
  | answer => exact h.answer hs
  | refuse i => exact h.report hs (.inr ⟨i, rfl, rfl⟩)
  | handle => exact h.handle hs
  | waitFound i =>
    obtain ⟨w, hw, rfl⟩ := Option.map_eq_some_iff.mp hs
    obtain ⟨marker, _, hw⟩ := Option.bind_eq_some_iff.mp hw
    obtain ⟨_, hw⟩ := Option.ite_none_right_eq_some.mp hw
    obtain rfl := Option.some.inj hw
    exact h.waits rfl rfl fun _ => .inl
  | waitExpired i =>
    obtain ⟨w, hw, rfl⟩ := Option.map_eq_some_iff.mp hs
    obtain ⟨marker, _, hw⟩ := Option.bind_eq_some_iff.mp hw
    obtain ⟨_, hw⟩ := Option.ite_none_left_eq_some.mp hw
    obtain rfl := Option.some.inj hw
    exact h.waits rfl rfl fun j hj => .inl ((List.mem_cons.mp hj).resolve_left nofun)
  | waitFind i => exact h.waitFind hok hs
  | waitErase i =>
    obtain ⟨w, hw, rfl⟩ := Option.map_eq_some_iff.mp hs
    obtain ⟨marker, _, hw⟩ := Option.bind_eq_some_iff.mp hw
    obtain ⟨_, hw⟩ := Option.ite_none_right_eq_some.mp hw
    obtain rfl := Option.some.inj hw
    exact h.waits rfl rfl fun _ => .inl

theorem Inv.answered (h : s.Inv) : s.Answered := by
  intro honCard htoHost i marker hm hrecent hfailed
  have hpipe : s.pipeline = [] := by rw [pipeline, honCard, htoHost, List.append_nil]
  have hanswers := h.answers i marker hm
  simp only [hpipe, List.not_mem_nil, hfailed, or_false] at hanswers
  have hissued := h.window.issued
  exact (h.window.reached_iff hm (by omega)).mpr ⟨hanswers, by omega⟩

/-- In every run with fewer than `2 ^ 16` calls of `createMarker` ahead of the last completed
marker, a wait that ends well ends after the commands before its marker, and no answer is missed. -/
theorem wait_is_barrier (ops : List FinishOp) :
    Exec.Always (Exec.restrict InWindow step) (fun s => s.Barrier ∧ s.Answered) create ops :=
  (Exec.always_of_preserved create_inv fun _ _ _ h hs => h.step hs).mono fun _ h =>
    ⟨fun i hi => (h.returned i hi).2, h.answered⟩

end FinishState

end NNPIHost

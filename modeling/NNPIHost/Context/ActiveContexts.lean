import NNPIHost.Exec.Run

/-! # The list of active contexts

`s_active_contexts` points to the set of the context channels that there are; whoever kills all
contexts or waits for them looks there. A channel that is destroyed takes itself out of the set
it was put in, which it has kept a pointer to, and then resets `s_active_contexts` if it sees
that set empty. The set is another one by then when a second channel left in between and a third
one came.
-/

namespace NNPIHost

/-- A channel with the set that it was put in. -/
structure ActiveRef where
  chan : ℕ
  set : ℕ
  deriving DecidableEq, Repr

/-- A call of `wait_all`. `active` is what it loaded, and `present` the channels that there were
at that time. -/
structure WaitAllCall where
  thread : ℕ
  active : Option ℕ
  present : List ActiveRef
  deriving DecidableEq, Repr

/-- The context channels, each with the number of a set. -/
structure ContextSets where
  /-- How many sets were made. -/
  made : ℕ
  /-- `s_active_contexts`. -/
  active : Option ℕ
  /-- `m_context_chans` of all sets. -/
  listed : List ActiveRef
  /-- The channels and their `m_active_ref`, up to their destruction. -/
  chans : List ActiveRef
  /-- The channels that are between the two parts of `remove`. -/
  leaving : List ActiveRef
  /-- The calls of `destroy`, with what they loaded and whether they have cleared it. -/
  destroying : List (ℕ × ℕ × Bool)
  waiting : List WaitAllCall
  deriving DecidableEq, Repr

inductive ContextSetsOp where
  | add (chan : ℕ)
  /-- The first line of `remove`. -/
  | erase (chan set : ℕ)
  /-- The rest of `remove`. -/
  | reset (chan set : ℕ)
  /-- `destroy` loads `s_active_contexts`. -/
  | destroy (thread : ℕ)
  | clear (thread set : ℕ)
  | resetAll (thread set : ℕ)
  /-- `wait_all` loads `s_active_contexts`. -/
  | waitAll (thread : ℕ)
  /-- `wait_all` returns. -/
  | waited (call : WaitAllCall)

namespace ContextSets

/-- Before the first channel. -/
def start : ContextSets := ⟨0, none, [], [], [], [], []⟩

variable (s : ContextSets)

/-- `m_context_chans.size() == 0` for one set. -/
def isEmpty (g : ℕ) : Bool := s.listed.all fun p => p.set != g

/-- A call of `wait_all` goes on when there was no set, or its set is empty. -/
def goesOn (call : WaitAllCall) : Prop := ∀ g ∈ call.active, s.isEmpty g = true

instance (call : WaitAllCall) : Decidable (s.goesOn call) :=
  inferInstanceAs (Decidable (∀ _ ∈ _, _))

def add (chan : ℕ) : ContextSets :=
  let g := s.active.getD s.made
  { s with
    made := if s.active.isSome then s.made else s.made + 1
    active := some g
    listed := ⟨chan, g⟩ :: s.listed
    chans := ⟨chan, g⟩ :: s.chans }

def erase (p : ActiveRef) : ContextSets :=
  { s with
    listed := s.listed.filter (· ≠ p)
    chans := s.chans.filter (· ≠ p)
    leaving := p :: s.leaving }

def reset (p : ActiveRef) : ContextSets :=
  { s with
    active := if s.isEmpty p.set then none else s.active
    leaving := s.leaving.erase p }

def clear (t g : ℕ) : ContextSets :=
  { s with
    listed := s.listed.filter fun p => p.set ≠ g
    destroying := (t, g, true) :: s.destroying.erase (t, g, false) }

/-- The address of a channel is not used again before its destructor has ended. -/
def step : ContextSetsOp → Option ContextSets
  | .add chan =>
      if chan ∉ (s.chans ++ s.leaving).map ActiveRef.chan then some (s.add chan) else none
  | .erase chan g => if ⟨chan, g⟩ ∈ s.chans then some (s.erase ⟨chan, g⟩) else none
  | .reset chan g => if ⟨chan, g⟩ ∈ s.leaving then some (s.reset ⟨chan, g⟩) else none
  | .destroy t =>
      some { s with destroying := (s.active.toList.map fun g => (t, g, false)) ++ s.destroying }
  | .clear t g => if (t, g, false) ∈ s.destroying then some (s.clear t g) else none
  | .resetAll t g =>
      if (t, g, true) ∈ s.destroying then
        some { s with active := none, destroying := s.destroying.erase (t, g, true) }
      else none
  | .waitAll t => some { s with waiting := ⟨t, s.active, s.chans⟩ :: s.waiting }
  | .waited call =>
      if call ∈ s.waiting ∧ s.goesOn call then
        some { s with waiting := s.waiting.erase call }
      else none

/-- Every channel is in the set that `s_active_contexts` points to. -/
def Listed : Prop := ∀ p ∈ s.chans, p ∈ s.listed ∧ s.active = some p.set

/-- A call of `wait_all` that can return finds none of its channels any more. -/
def Waited : Prop := ∀ call ∈ s.waiting, s.goesOn call → ∀ p ∈ call.present, p ∉ s.chans

/-- A channel that finds its set empty is the last channel, and nobody clears a set with
channels in it. -/
def LeavesNone : ContextSetsOp → Prop
  | .reset chan g => ⟨chan, g⟩ ∈ s.leaving → s.isEmpty g = true → s.chans = []
  | .clear t g => (t, g, false) ∈ s.destroying → ∀ p ∈ s.chans, p.set ≠ g
  | .resetAll t g => (t, g, true) ∈ s.destroying → s.chans = []
  | _ => True

instance (op : ContextSetsOp) : Decidable (s.LeavesNone op) := by
  cases op <;> unfold LeavesNone <;> infer_instance

variable {s} {t : ContextSets}

theorem isEmpty_iff {g : ℕ} : s.isEmpty g = true ↔ ∀ p ∈ s.listed, p.set ≠ g := by
  simp [isEmpty, List.all_eq_true]

/-- What holds whatever is cleared. -/
structure Inv (s : ContextSets) : Prop where
  chans : ∀ p ∈ s.listed, p ∈ s.chans
  present : ∀ call ∈ s.waiting, ∀ p ∈ call.present, call.active = some p.set

theorem Inv.waited (h : s.Inv) (hl : s.Listed) : s.Waited := by
  intro call hcall hgo p hp hchan
  have hempty := isEmpty_iff.mp (hgo p.set (h.present call hcall p hp))
  exact hempty p (hl p hchan).1 rfl

theorem Listed.add (hl : s.Listed) (c : ℕ) : (s.add c).Listed := by
  have hset : ∀ p ∈ s.chans, some p.set = some (s.active.getD s.made) := by
    intro p hp
    rw [(hl p hp).2, Option.getD_some]
  rintro p hp
  rcases List.mem_cons.mp hp with rfl | hp
  · exact ⟨List.mem_cons_self, rfl⟩
  · exact ⟨List.mem_cons_of_mem _ (hl p hp).1, (hset p hp).symm⟩

theorem Listed.erase (hl : s.Listed) (p : ActiveRef) : (s.erase p).Listed := by
  rintro q hq
  obtain ⟨hq, hne⟩ := List.mem_filter.mp hq
  exact ⟨List.mem_filter.mpr ⟨(hl q hq).1, hne⟩, (hl q hq).2⟩

theorem listed_reset_iff (hl : s.Listed) (p : ActiveRef) :
    (s.reset p).Listed ↔ (s.isEmpty p.set = true → s.chans = []) := by
  constructor
  · intro h hempty
    apply List.eq_nil_iff_forall_not_mem.mpr
    intro q hq
    have hactive : (if s.isEmpty p.set then none else s.active) = some q.set := (h q hq).2
    rw [if_pos hempty] at hactive
    cases hactive
  · intro h q hq
    have hne : ¬ s.isEmpty p.set = true := fun hempty => List.ne_nil_of_mem hq (h hempty)
    exact ⟨(hl q hq).1, (if_neg hne).trans (hl q hq).2⟩

theorem listed_clear_iff (hl : s.Listed) (t g : ℕ) :
    (s.clear t g).Listed ↔ ∀ p ∈ s.chans, p.set ≠ g := by
  constructor
  · intro h p hp
    exact of_decide_eq_true (List.mem_filter.mp (h p hp).1).2
  · intro h p hp
    exact ⟨List.mem_filter.mpr ⟨(hl p hp).1, decide_eq_true (h p hp)⟩, (hl p hp).2⟩

theorem Inv.step {op : ContextSetsOp} (h : s.Inv) (hl : s.Listed) (hs : s.step op = some t) :
    t.Inv := by
  cases op with
  | add c =>
    obtain ⟨-, ⟨⟩⟩ := Option.ite_none_right_eq_some.mp hs
    constructor
    · intro p hp
      rcases List.mem_cons.mp hp with rfl | hp
      · exact List.mem_cons_self
      · exact List.mem_cons_of_mem _ (h.chans p hp)
    · exact h.present
  | erase c g =>
    obtain ⟨-, ⟨⟩⟩ := Option.ite_none_right_eq_some.mp hs
    constructor
    · intro p hp
      obtain ⟨hp, hne⟩ := List.mem_filter.mp hp
      exact List.mem_filter.mpr ⟨h.chans p hp, hne⟩
    · exact h.present
  | reset c g =>
    obtain ⟨-, ⟨⟩⟩ := Option.ite_none_right_eq_some.mp hs
    exact ⟨h.chans, h.present⟩
  | destroy u =>
    obtain rfl := Option.some.inj hs
    exact ⟨h.chans, h.present⟩
  | clear u g =>
    obtain ⟨-, ⟨⟩⟩ := Option.ite_none_right_eq_some.mp hs
    exact ⟨fun p hp => h.chans p (List.mem_filter.mp hp).1, h.present⟩
  | resetAll u g =>
    obtain ⟨-, ⟨⟩⟩ := Option.ite_none_right_eq_some.mp hs
    exact ⟨h.chans, h.present⟩
  | waitAll u =>
    obtain rfl := Option.some.inj hs
    refine ⟨h.chans, ?_⟩
    intro call hcall p hp
    rcases List.mem_cons.mp hcall with rfl | hcall
    · exact (hl p hp).2
    · exact h.present call hcall p hp
  | waited call =>
    obtain ⟨-, ⟨⟩⟩ := Option.ite_none_right_eq_some.mp hs
    exact ⟨h.chans, fun call hcall => h.present call (List.mem_of_mem_erase hcall)⟩

theorem listed_step_iff {op : ContextSetsOp} (hl : s.Listed) (hs : s.step op = some t) :
    t.Listed ↔ s.LeavesNone op := by
  cases op with
  | add c =>
    obtain ⟨-, ⟨⟩⟩ := Option.ite_none_right_eq_some.mp hs
    exact iff_of_true (hl.add c) trivial
  | erase c g =>
    obtain ⟨-, ⟨⟩⟩ := Option.ite_none_right_eq_some.mp hs
    exact iff_of_true (hl.erase ⟨c, g⟩) trivial
  | reset c g =>
    obtain ⟨hmem, ⟨⟩⟩ := Option.ite_none_right_eq_some.mp hs
    exact (listed_reset_iff hl ⟨c, g⟩).trans ⟨fun h _ => h, fun h => h hmem⟩
  | destroy u =>
    obtain rfl := Option.some.inj hs
    exact iff_of_true hl trivial
  | clear u g =>
    obtain ⟨hmem, ⟨⟩⟩ := Option.ite_none_right_eq_some.mp hs
    exact (listed_clear_iff hl u g).trans ⟨fun h _ => h, fun h => h hmem⟩
  | resetAll u g =>
    obtain ⟨hmem, ⟨⟩⟩ := Option.ite_none_right_eq_some.mp hs
    refine Iff.trans ?_ ⟨fun h _ => h, fun h => h hmem⟩
    constructor
    · intro h
      apply List.eq_nil_iff_forall_not_mem.mpr
      rintro p hp
      cases (h p hp).2
    · intro h p hp
      exact absurd h (List.ne_nil_of_mem hp)
  | waitAll u =>
    obtain rfl := Option.some.inj hs
    exact iff_of_true hl trivial
  | waited call =>
    obtain ⟨-, ⟨⟩⟩ := Option.ite_none_right_eq_some.mp hs
    exact iff_of_true hl trivial

theorem leavesNone_of_step_eq_none {op : ContextSetsOp} (hs : s.step op = none) :
    s.LeavesNone op := by
  cases op with
  | reset c g =>
    intro hmem
    rw [step, if_pos hmem] at hs
    cases hs
  | clear u g =>
    intro hmem
    rw [step, if_pos hmem] at hs
    cases hs
  | resetAll u g =>
    intro hmem
    rw [step, if_pos hmem] at hs
    cases hs
  | _ => trivial

/-- In every interleaving, every channel is found through `s_active_contexts`, and a call of
`wait_all` returns only when the channels that there were are gone, exactly while a channel that
finds its set empty is the last one and no set is cleared under its channels. -/
theorem listed_and_waited_iff (ops : List ContextSetsOp) :
    Exec.Always step (fun s => s.Listed ∧ s.Waited) start ops ↔
      Exec.Meets step LeavesNone start ops := by
  have hinv : start.Inv := ⟨fun p hp => absurd hp List.not_mem_nil,
    fun c hc => absurd hc List.not_mem_nil⟩
  have hlisted : start.Listed := fun p hp => absurd hp List.not_mem_nil
  refine Exec.always_iff_meets ⟨hlisted, hinv.waited hlisted⟩ hinv ?_ fun s a _ _ hs =>
    leavesNone_of_step_eq_none hs
  intro s a t hi hp hs
  have ht := hi.step hp.1 hs
  refine ⟨ht, Iff.trans ?_ (listed_step_iff hp.1 hs)⟩
  exact ⟨And.left, fun hl => ⟨hl, ht.waited hl⟩⟩

/-- Two channels leave, the first of them sees the set empty, and a third one comes before the
second looks: it is in no list then. -/
example : (Exec.run step start [.add 1, .add 2, .erase 1 0, .erase 2 0, .reset 1 0, .add 3,
    .reset 2 0]).map (fun s => (s.chans, s.active)) = some ([⟨3, 1⟩], none) := by
  decide

end ContextSets

end NNPIHost

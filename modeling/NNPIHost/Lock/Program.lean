import Mathlib.Logic.Function.Basic
import Mathlib.Tactic.Common

/-! # Programs that lock and wait

A program locks and unlocks mutexes, changes and reads shared data, and waits on condition
variables. A system runs one program at a time in each of its threads, one operation of one
thread after another. Under a discipline each program keeps the mutexes it holds in a list.
-/

namespace NNPIHost.Lock

variable {π μ δ : Type*}

/-- A program over mutexes and shared data. Every mutex has one condition variable. -/
inductive Program (μ δ : Type*) where
  | done
  | lock (m : μ) (k : Program μ δ)
  | unlock (m : μ) (k : Program μ δ)
  /-- Waits until the condition holds, and then holds the mutex. -/
  | wait (m : μ) (cond : δ → Bool) (k : Program μ δ)
  /-- Wakes the threads that sleep at the condition variable. -/
  | notify (m : μ) (k : Program μ δ)
  | update (f : δ → δ) (k : Program μ δ)
  | read (k : δ → Program μ δ)
  /-- What the environment decides. -/
  | choose (k : Bool → Program μ δ)

/-- When a program may take a mutex, depending on those it holds, and whether it may wait. -/
structure Discipline (μ : Type*) where
  takes : List μ → μ → Prop
  waits : Prop

namespace Program

/-- The mutex that the next operation takes. -/
def wants : Program μ δ → Option μ
  | .lock m _ | .wait m _ _ => some m
  | _ => none

/-- The program takes and releases mutexes as the discipline allows, and ends with none. -/
def Follows [DecidableEq μ] (D : Discipline μ) : List μ → Program μ δ → Prop
  | held, .done => held = []
  | held, .lock m k => m ∉ held ∧ D.takes held m ∧ k.Follows D (m :: held)
  | held, .wait m _ k => D.waits ∧ m ∉ held ∧ D.takes held m ∧ k.Follows D (m :: held)
  | held, .unlock m k => m ∈ held ∧ k.Follows D (held.erase m)
  | held, .notify _ k | held, .update _ k => k.Follows D held
  | held, .read k => ∀ d, (k d).Follows D held
  | held, .choose k => ∀ b, (k b).Follows D held

variable [DecidableEq μ] {D : Discipline μ} {held : List μ} {c : Program μ δ} {m : μ}

theorem Follows.of_wants (h : c.Follows D held) (hw : c.wants = some m) :
    m ∉ held ∧ D.takes held m := by
  cases c with
  | lock n k =>
    obtain rfl := Option.some.inj hw
    exact ⟨h.1, h.2.1⟩
  | wait n cond k =>
    obtain rfl := Option.some.inj hw
    exact ⟨h.2.1, h.2.2.1⟩
  | _ => cases hw

end Program

inductive Mode where
  | running
  /-- Found a mutex locked. -/
  | blocked
  /-- Sleeps at a condition variable, with its mutex released. -/
  | asleep
  deriving DecidableEq

structure Thread (μ δ : Type*) where
  code : Program μ δ
  mode : Mode

structure System (π μ δ : Type*) where
  data : δ
  owner : μ → Option π
  thread : π → Thread μ δ

inductive Turn (π μ δ : Type*) where
  /-- A thread that is done gets its next program. -/
  | start (p : π) (c : Program μ δ)
  /-- A thread wakes up without having been notified. -/
  | wake (p : π)
  | run (p : π) (choice : Bool)

namespace System

open Function (update)

variable [DecidableEq π] [DecidableEq μ]

/-- Every thread is done and every mutex free. -/
def init (d : δ) : System π μ δ := ⟨d, fun _ => none, fun _ => ⟨.done, .running⟩⟩

variable (s : System π μ δ)

def goOn (p : π) (k : Program μ δ) : System π μ δ :=
  { s with thread := update s.thread p ⟨k, .running⟩ }

def setMode (p : π) (mode : Mode) : System π μ δ :=
  { s with thread := update s.thread p ⟨(s.thread p).code, mode⟩ }

def setOwner (m : μ) (o : Option π) : System π μ δ := { s with owner := update s.owner m o }

def setData (d : δ) : System π μ δ := { s with data := d }

def wakeAll (m : μ) : System π μ δ :=
  { s with thread := fun q =>
      if (s.thread q).mode = .asleep ∧ (s.thread q).code.wants = some m then
        ⟨(s.thread q).code, .running⟩
      else s.thread q }

/-- The next operation of a thread that is not asleep. -/
def run (p : π) (choice : Bool) : Option (System π μ δ) :=
  match (s.thread p).code with
  | .done => none
  | .lock m k =>
      some (if s.owner m = none then (s.setOwner m (some p)).goOn p k else s.setMode p .blocked)
  | .wait m cond k =>
      some (if s.owner m ≠ none then s.setMode p .blocked
        else if cond s.data then (s.setOwner m (some p)).goOn p k
        else s.setMode p .asleep)
  | .unlock m k => some ((s.setOwner m none).goOn p k)
  | .notify m k => some ((s.wakeAll m).goOn p k)
  | .update f k => some ((s.setData (f s.data)).goOn p k)
  | .read k => some (s.goOn p (k s.data))
  | .choose k => some (s.goOn p (k choice))

def step : Turn π μ δ → Option (System π μ δ)
  | .start p c =>
      match (s.thread p).code with
      | .done => some (s.goOn p c)
      | _ => none
  | .wake p => if (s.thread p).mode = .asleep then some (s.setMode p .running) else none
  | .run p choice => if (s.thread p).mode = .asleep then none else s.run p choice

/-- The next operation of the thread finds its condition false. -/
def FallsAsleep (p : π) : Prop :=
  match (s.thread p).code with
  | .wait m cond _ => s.owner m = none ∧ cond s.data = false
  | _ => False

/-- Nothing changes for the other threads, but that some wake up. -/
structure Frame (s t : System π μ δ) (p : π) : Prop where
  code : ∀ q, q ≠ p → (t.thread q).code = (s.thread q).code
  mode : ∀ q, q ≠ p → (t.thread q).mode = .running ∨ (t.thread q).mode = (s.thread q).mode
  owner : ∀ q, q ≠ p → ∀ m, t.owner m = some q ↔ s.owner m = some q

/-- What a thread holds and still has to do accords with its discipline. -/
structure Holds (s : System π μ δ) (D : Discipline μ) (p : π) (held : List μ) : Prop where
  follows : (s.thread p).code.Follows D held
  nodup : held.Nodup
  owner : ∀ m, s.owner m = some p ↔ m ∈ held
  asleep : (s.thread p).mode = .asleep → D.waits ∧ (s.thread p).code.wants ≠ none

/-- The next operation of the thread finds nothing in its way. -/
def Unhindered (s : System π μ δ) (p : π) : Prop :=
  (∀ m, (s.thread p).code.wants = some m → s.owner m = none) ∧ ¬ s.FallsAsleep p

/-- The thread went on with a program that its discipline allows for what it now holds. -/
def GoesOn (D : Discipline μ) (s t : System π μ δ) (p : π) : Prop :=
  ∃ u k held, t = u.goOn p k ∧ Frame s u p ∧ k.Follows D held ∧ held.Nodup ∧
    ∀ m, u.owner m = some p ↔ m ∈ held

/-- Every thread follows its discipline. -/
def Inv (D : π → Discipline μ) (s : System π μ δ) : Prop := ∀ p, ∃ held, s.Holds (D p) p held

variable {s} {t : System π μ δ} {p q : π} {m : μ} {k : Program μ δ} {D : π → Discipline μ}
  {held held' : List μ}

omit [DecidableEq μ] in
@[simp] theorem goOn_thread_self : (s.goOn p k).thread p = ⟨k, .running⟩ := by simp [goOn]

omit [DecidableEq μ] in
@[simp] theorem setMode_thread_self {mode : Mode} :
    (s.setMode p mode).thread p = ⟨(s.thread p).code, mode⟩ := by simp [setMode]

omit [DecidableEq μ] in
@[simp] theorem setMode_owner {mode : Mode} : (s.setMode p mode).owner = s.owner := rfl

omit [DecidableEq μ] in
theorem Frame.goOn (h : Frame s t p) : Frame s (t.goOn p k) p where
  code q hq := by simpa [System.goOn, hq] using h.code q hq
  mode q hq := by simpa [System.goOn, hq] using h.mode q hq
  owner := h.owner

omit [DecidableEq μ] in
theorem Frame.setMode (mode : Mode) : Frame s (s.setMode p mode) p where
  code q hq := by simp [System.setMode, hq]
  mode q hq := by simp [System.setMode, hq]
  owner _ _ _ := Iff.rfl

omit [DecidableEq π] [DecidableEq μ] in
theorem Frame.refl : Frame s s p := ⟨fun _ _ => rfl, fun _ _ => .inr rfl, fun _ _ _ => Iff.rfl⟩

omit [DecidableEq π] [DecidableEq μ] in
theorem Frame.setData (d : δ) : Frame s (s.setData d) p :=
  ⟨fun _ _ => rfl, fun _ _ => .inr rfl, fun _ _ _ => Iff.rfl⟩

omit [DecidableEq π] in
theorem Frame.setOwner {o : Option π} (ho : o = none ∨ o = some p)
    (hm : s.owner m = none ∨ s.owner m = some p) : Frame s (s.setOwner m o) p where
  code _ _ := rfl
  mode _ _ := .inr rfl
  owner q hq n := by
    simp only [System.setOwner, Function.update_apply]
    split
    next heq => grind
    next => rfl

omit [DecidableEq π] in
theorem Frame.wakeAll (m : μ) : Frame s (s.wakeAll m) p where
  code q _ := by
    dsimp only [System.wakeAll]
    split <;> rfl
  mode q _ := by
    dsimp only [System.wakeAll]
    split
    · exact .inl rfl
    · exact .inr rfl
  owner _ _ _ := Iff.rfl

omit [DecidableEq π] in
theorem init_inv (d : δ) : Inv D (init d : System π μ δ) :=
  fun _ => ⟨[], rfl, .nil, fun _ => by simp [init], nofun⟩

theorem Inv.frame (h : Inv D s) (hf : Frame s t p) (hp : t.Holds (D p) p held) : Inv D t := by
  intro q
  by_cases hq : q = p
  · exact ⟨held, hq ▸ hp⟩
  · obtain ⟨heldq, hfollows, hnodup, howner, hasleep⟩ := h q
    refine ⟨heldq, hf.code q hq ▸ hfollows, hnodup, fun m => (hf.owner q hq m).trans (howner m), ?_⟩
    intro hmode
    rw [hf.code q hq]
    refine hasleep ?_
    rcases hf.mode q hq with hrun | hsame
    · cases hrun.symm.trans hmode
    · exact hsame ▸ hmode

theorem Holds.goOn (hfollows : k.Follows (D p) held) (hnodup : held.Nodup)
    (howner : ∀ m, t.owner m = some p ↔ m ∈ held) : (t.goOn p k).Holds (D p) p held where
  follows := by simpa using hfollows
  nodup := hnodup
  owner := howner
  asleep := by simp

theorem Inv.goOn (h : Inv D s) (hf : Frame s t p) (hfollows : k.Follows (D p) held)
    (hnodup : held.Nodup) (howner : ∀ m, t.owner m = some p ↔ m ∈ held) :
    Inv D (t.goOn p k) :=
  h.frame hf.goOn (.goOn hfollows hnodup howner)

theorem Inv.setMode {mode : Mode} (h : Inv D s)
    (hmode : mode = .asleep → (D p).waits ∧ (s.thread p).code.wants ≠ none) :
    Inv D (s.setMode p mode) := by
  obtain ⟨held, hp⟩ := h p
  have hholds : (s.setMode p mode).Holds (D p) p held :=
    ⟨by simpa using hp.follows, hp.nodup, hp.owner, by simpa using hmode⟩
  exact h.frame (.setMode mode) hholds

omit [DecidableEq π] in
theorem Holds.take {D : Discipline μ} (h : s.Holds D p held) (n : μ) :
    (s.setOwner m (some p)).owner n = some p ↔ n ∈ m :: held := by
  have howner := h.owner n
  simp only [System.setOwner, Function.update_apply, List.mem_cons]
  split
  next heq => simp [heq]
  next hne => simpa [hne] using howner

omit [DecidableEq π] in
theorem Holds.release {D : Discipline μ} (h : s.Holds D p held) (n : μ) :
    (s.setOwner m none).owner n = some p ↔ n ∈ held.erase m := by
  have howner := h.owner n
  simp only [System.setOwner, Function.update_apply, h.nodup.mem_erase_iff]
  split
  next heq => simp [heq]
  next hne => simpa [hne] using howner

omit [DecidableEq π] [DecidableEq μ] in
theorem not_fallsAsleep (h : (s.thread p).code.wants = none) : ¬ s.FallsAsleep p := by
  unfold FallsAsleep
  split
  next hcode =>
    rw [hcode] at h
    cases h
  next => exact not_false

omit [DecidableEq π] in
theorem Holds.fallsAsleep {D : Discipline μ} (h : s.Holds D p held) (hf : s.FallsAsleep p) :
    D.waits ∧ (s.thread p).code.wants ≠ none := by
  refine ⟨?_, fun hwants => not_fallsAsleep hwants hf⟩
  have hfollows := h.follows
  unfold FallsAsleep at hf
  split at hf
  next hcode =>
    rw [hcode] at hfollows
    exact hfollows.1
  next => exact hf.elim

omit [DecidableEq π] [DecidableEq μ] in
theorem unhindered_of_wants (h : (s.thread p).code.wants = none) : s.Unhindered p :=
  ⟨by simp [h], not_fallsAsleep h⟩

/-- An operation finds the mutex that it takes locked, or its condition false; else the thread
goes on with what is left of its program. -/
theorem Inv.run_cases (h : Inv D s) {choice : Bool} (hs : s.run p choice = some t) :
    (¬ s.FallsAsleep p ∧ t = s.setMode p .blocked) ∨
    ((∀ m, (s.thread p).code.wants = some m → s.owner m = none) ∧ s.FallsAsleep p ∧
      t = s.setMode p .asleep) ∨
    (s.Unhindered p ∧ s.GoesOn (D p) t p) := by
  obtain ⟨held, hp⟩ := h p
  have hfollows := hp.follows
  have hgo {u : System π μ δ} {k : Program μ δ} {held : List μ} (hf : Frame s u p)
      (hk : k.Follows (D p) held) (hnodup : held.Nodup)
      (howner : ∀ m, u.owner m = some p ↔ m ∈ held) : s.GoesOn (D p) (u.goOn p k) p :=
    ⟨u, k, held, rfl, hf, hk, hnodup, howner⟩
  have htake {m : μ} {k : Program μ δ} (hm : s.owner m = none) (hnot : m ∉ held)
      (hk : k.Follows (D p) (m :: held)) :
      s.GoesOn (D p) ((s.setOwner m (some p)).goOn p k) p :=
    hgo (.setOwner (.inr rfl) (.inl hm)) hk (List.nodup_cons.mpr ⟨hnot, hp.nodup⟩) hp.take
  have hthrough {c : Program μ δ} (hcode : (s.thread p).code = c) (hc : c.wants = none) :
      s.Unhindered p := unhindered_of_wants (hcode ▸ hc)
  unfold System.run at hs
  split at hs
  next => cases hs
  next m k hcode =>
    rw [hcode] at hfollows
    obtain rfl := Option.some.inj hs
    have hawake : ¬ s.FallsAsleep p := by simp [FallsAsleep, hcode]
    split
    next hm =>
      refine .inr (.inr ⟨⟨?_, hawake⟩, htake hm hfollows.1 hfollows.2.2⟩)
      simp [hcode, Program.wants, hm]
    next => exact .inl ⟨hawake, rfl⟩
  next m cond k hcode =>
    rw [hcode] at hfollows
    obtain rfl := Option.some.inj hs
    split
    next hm => exact .inl ⟨by simp [FallsAsleep, hcode, hm], rfl⟩
    next hm =>
      rw [not_not] at hm
      have hfree : ∀ n, (s.thread p).code.wants = some n → s.owner n = none := by
        simp [hcode, Program.wants, hm]
      split
      next hcond =>
        refine .inr (.inr ⟨⟨hfree, ?_⟩, htake hm hfollows.2.1 hfollows.2.2.2⟩)
        simp [FallsAsleep, hcode, hcond]
      next hcond => exact .inr (.inl ⟨hfree, by simp [FallsAsleep, hcode, hm, hcond], rfl⟩)
  next m k hcode =>
    rw [hcode] at hfollows
    obtain rfl := Option.some.inj hs
    have hm := (hp.owner m).mpr hfollows.1
    exact .inr (.inr ⟨hthrough hcode rfl, hgo (.setOwner (.inl rfl) (.inr hm)) hfollows.2
      (hp.nodup.erase m) hp.release⟩)
  next m k hcode =>
    rw [hcode] at hfollows
    obtain rfl := Option.some.inj hs
    exact .inr (.inr ⟨hthrough hcode rfl, hgo (.wakeAll m) hfollows hp.nodup hp.owner⟩)
  next f k hcode =>
    rw [hcode] at hfollows
    obtain rfl := Option.some.inj hs
    exact .inr (.inr ⟨hthrough hcode rfl, hgo (.setData _) hfollows hp.nodup hp.owner⟩)
  next k hcode =>
    rw [hcode] at hfollows
    obtain rfl := Option.some.inj hs
    exact .inr (.inr ⟨hthrough hcode rfl, hgo .refl (hfollows _) hp.nodup hp.owner⟩)
  next k hcode =>
    rw [hcode] at hfollows
    obtain rfl := Option.some.inj hs
    exact .inr (.inr ⟨hthrough hcode rfl, hgo .refl (hfollows _) hp.nodup hp.owner⟩)

theorem Inv.run (h : Inv D s) {choice : Bool} (hs : s.run p choice = some t) : Inv D t := by
  rcases h.run_cases hs with ⟨_, rfl⟩ | ⟨_, hfalls, rfl⟩ | ⟨_, u, k, held, rfl, hf, hk⟩
  · exact h.setMode nofun
  · obtain ⟨held, hp⟩ := h p
    exact h.setMode fun _ => hp.fallsAsleep hfalls
  · exact h.goOn hf hk.1 hk.2.1 hk.2.2

/-- The turns that start a program start one that follows the discipline of its thread. -/
def Allowed (D : π → Discipline μ) : Turn π μ δ → Prop
  | .start p c => c.Follows (D p) []
  | _ => True

theorem Inv.step (h : Inv D s) {a : Turn π μ δ} (ha : Allowed D a) (hs : s.step a = some t) :
    Inv D t := by
  cases a with
  | start p c =>
    simp only [System.step] at hs
    split at hs
    next hcode =>
      obtain ⟨held, hp⟩ := h p
      have hnil := hp.follows
      rw [hcode] at hnil
      obtain rfl : held = [] := hnil
      exact Option.some.inj hs ▸ h.goOn .refl ha .nil hp.owner
    next => cases hs
  | wake p =>
    simp only [System.step, Option.ite_none_right_eq_some] at hs
    exact Option.some.inj hs.2 ▸ h.setMode nofun
  | run p choice =>
    simp only [System.step] at hs
    split at hs
    next => cases hs
    next => exact h.run hs

end System

end NNPIHost.Lock

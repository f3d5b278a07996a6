import Mathlib.Logic.Function.Basic
import Mathlib.Tactic.Common

/-! # Monitors

Data that a mutex guards, with one condition variable. A thread tests a predicate of the data
with the mutex locked, and falls asleep when it is false, which unlocks the mutex. A notification
wakes all sleepers, and they test again. Wake-ups are lost by changes of the data that make the
predicate of a sleeper true and do not notify.
-/

namespace NNPIHost

open Function (update update_self update_of_ne)

/-- Where a thread is in a wait for a predicate. -/
inductive Place (ω : Type*) where
  | away
  /-- It is about to lock the mutex and test the predicate. -/
  | trying (w : ω)
  /-- The predicate was false, and the thread is about to fall asleep. -/
  | tested (w : ω)
  /-- `notified` tells whether there was a notification since the thread fell asleep. -/
  | asleep (w : ω) (notified : Bool)

def Place.notify {ω : Type*} : Place ω → Place ω
  | .asleep w _ => .asleep w true
  | p => p

structure Monitor (τ ω δ : Type*) where
  data : δ
  /-- The thread that has the mutex locked between its test and its sleep. -/
  owner : Option τ
  place : τ → Place ω

namespace Monitor

variable {τ ω δ : Type*} (m : Monitor τ ω δ)

def create (data : δ) : Monitor τ ω δ := ⟨data, none, fun _ => .away⟩

/-- A change of the data with the mutex locked. -/
def locked (f : δ → δ) : Option (Monitor τ ω δ) :=
  if m.owner = none then some { m with data := f m.data } else none

def updateAndNotify (f : δ → δ) : Option (Monitor τ ω δ) :=
  if m.owner = none then some { m with data := f m.data, place := fun t => (m.place t).notify }
  else none

/-- A change of the data without the mutex. -/
def write (f : δ → δ) : Monitor τ ω δ := { m with data := f m.data }

/-- Unlock the mutex, whoever has it locked. -/
def free : Monitor τ ω δ := { m with owner := none }

section Threads

variable [DecidableEq τ] (cond : ω → δ → Bool) (t : τ)

def move (p : Place ω) : Monitor τ ω δ := { m with place := update m.place t p }

def call (w : ω) : Option (Monitor τ ω δ) :=
  match m.place t with
  | .away => some (m.move t (.trying w))
  | _ => none

/-- The thread locks the mutex and finds its predicate false. -/
def test : Option (Monitor τ ω δ) :=
  match m.place t with
  | .trying w =>
      if m.owner = none ∧ cond w m.data = false then
        some ({ m with owner := some t }.move t (.tested w))
      else none
  | _ => none

/-- The thread locks the mutex, finds its predicate true, changes the data and unlocks it. -/
def found (f : ω → δ → δ) : Option (Monitor τ ω δ) :=
  match m.place t with
  | .trying w =>
      if m.owner = none ∧ cond w m.data = true then
        some ({ m with data := f w m.data }.move t .away)
      else none
  | _ => none

/-- The time of the thread's wait is over, and its predicate is still false. There is no change
of the data for a wait without a timeout. -/
def expire (f : ω → Option (δ → δ)) : Option (Monitor τ ω δ) :=
  match m.place t with
  | .trying w =>
      if m.owner = none ∧ cond w m.data = false then
        (f w).map fun g => { m with data := g m.data }.move t .away
      else none
  | _ => none

/-- Falling asleep unlocks the mutex. -/
def sleep : Option (Monitor τ ω δ) :=
  match m.place t with
  | .tested w => some ({ m with owner := none }.move t (.asleep w false))
  | _ => none

/-- A sleeper wakes up, after a notification, at the end of its time or for no reason. -/
def wake : Option (Monitor τ ω δ) :=
  match m.place t with
  | .asleep w _ => some (m.move t (.trying w))
  | _ => none

end Threads

variable (cond : ω → δ → Bool)

/-- The predicate of a thread that nobody has notified since its last test is false. -/
def NoLostWakeup : Prop := ∀ t w, m.place t = .asleep w false → cond w m.data = false

/-- All sleepers have been notified. -/
def NoneAsleep : Prop := ∀ t w, m.place t ≠ .asleep w false

/-- While the mutex is locked, the predicate that was false is still false. -/
def Inv : Prop :=
  ∀ t w, m.place t = .tested w → m.owner = some t → cond w m.data = false

/-- Nobody unlocks the mutex while a thread that locked it is about to fall asleep. -/
def Disciplined : Prop := ∀ t w, m.place t = .tested w → m.owner = some t

variable {m} {m' : Monitor τ ω δ} {cond}

theorem create_inv (data : δ) : (create data : Monitor τ ω δ).Inv cond := nofun

theorem create_noLostWakeup (data : δ) : (create data : Monitor τ ω δ).NoLostWakeup cond := nofun

theorem create_disciplined (data : δ) : (create data : Monitor τ ω δ).Disciplined := nofun

/-- Nobody takes or leaves the mutex, and threads at most go away or try again. -/
structure Leaves (m m' : Monitor τ ω δ) : Prop where
  owner : m'.owner = m.owner
  place : ∀ t, m'.place t = m.place t ∨ m'.place t = .away ∨ ∃ w, m'.place t = .trying w

theorem write_leaves (f : δ → δ) : m.Leaves (m.write f) := ⟨rfl, fun _ => .inl rfl⟩

theorem Leaves.tested {t : τ} {w : ω} (h : m.Leaves m') (ht : m'.place t = .tested w) :
    m.place t = .tested w := by
  rcases h.place t with hp | hp | ⟨v, hp⟩ <;> rw [hp] at ht
  · exact ht
  · cases ht
  · cases ht

theorem Leaves.asleep {t : τ} {w : ω} (h : m.Leaves m') (ht : m'.place t = .asleep w false) :
    m.place t = .asleep w false := by
  rcases h.place t with hp | hp | ⟨v, hp⟩ <;> rw [hp] at ht
  · exact ht
  · cases ht
  · cases ht

theorem Inv.leaves (h : m.Inv cond) (hl : m.NoLostWakeup cond) (hm : m.Leaves m')
    (hdata : ∀ w, cond w m'.data = true → cond w m.data = true) :
    m'.Inv cond ∧ m'.NoLostWakeup cond := by
  have hfalse (w : ω) (hw : cond w m.data = false) : cond w m'.data = false := by
    rw [← Bool.not_eq_true] at hw ⊢
    exact mt (hdata w) hw
  constructor
  · intro t w ht howner
    exact hfalse w (h t w (hm.tested ht) (hm.owner ▸ howner))
  · intro t w ht
    exact hfalse w (hl t w (hm.asleep ht))

theorem Disciplined.leaves (h : m.Disciplined) (hm : m.Leaves m') : m'.Disciplined :=
  fun t w ht => hm.owner ▸ h t w (hm.tested ht)

theorem locked_leaves {f : δ → δ} (hs : m.locked f = some m') : m.Leaves m' := by
  obtain ⟨_, hs⟩ := Option.ite_none_right_eq_some.mp hs
  exact Option.some.inj hs ▸ write_leaves f

theorem locked_spec {f : δ → δ} (hs : m.locked f = some m') :
    m.owner = none ∧ m'.Inv cond ∧
      (m'.NoLostWakeup cond ↔ ∀ t w, m.place t = .asleep w false → cond w (f m.data) = false) := by
  obtain ⟨ho, hs⟩ := Option.ite_none_right_eq_some.mp hs
  obtain rfl := Option.some.inj hs
  refine ⟨ho, fun t w _ howner => ?_, Iff.rfl⟩
  rw [ho] at howner
  cases howner

theorem locked_keeps {f : δ → δ} (hl : m.NoLostWakeup cond) (hs : m.locked f = some m')
    (hf : ∀ w, cond w (f m.data) = true → cond w m.data = true) :
    m'.Inv cond ∧ m'.NoLostWakeup cond := by
  obtain ⟨_, hinv, hiff⟩ := locked_spec hs
  refine ⟨hinv, hiff.mpr fun t w ht => ?_⟩
  have hw := hl t w ht
  rw [← Bool.not_eq_true] at hw ⊢
  exact mt (hf w) hw

theorem not_asleep_notify {p : Place ω} {w : ω} : p.notify ≠ .asleep w false := by
  cases p <;> simp [Place.notify]

theorem tested_of_notify {p : Place ω} {w : ω} (h : p.notify = .tested w) : p = .tested w := by
  cases p <;> simp_all [Place.notify]

theorem updateAndNotify_spec {f : δ → δ} (hs : m.updateAndNotify f = some m') :
    m'.Inv cond ∧ m'.NoLostWakeup cond ∧ (m.Disciplined → m'.Disciplined) := by
  obtain ⟨ho, hs⟩ := Option.ite_none_right_eq_some.mp hs
  obtain rfl := Option.some.inj hs
  refine ⟨fun t w _ howner => ?_, fun t w ht => ?_, fun h t w ht => ?_⟩
  · rw [ho] at howner
    cases howner
  · exact absurd ht not_asleep_notify
  · exact h t w (tested_of_notify ht)

theorem free_spec : m.free.Inv cond ∧ (m.free.NoLostWakeup cond ↔ m.NoLostWakeup cond) :=
  ⟨fun _ _ _ howner => (nomatch howner), Iff.rfl⟩

section Threads

variable [DecidableEq τ] {t : τ} {w : ω}

@[simp] theorem move_self (p : Place ω) : (m.move t p).place t = p := update_self ..

theorem move_place (p : Place ω) (u : τ) :
    (m.move t p).place u = m.place u ∨ (m.move t p).place u = p := by
  by_cases hu : u = t
  · rw [hu]
    exact .inr (move_self p)
  · exact .inl (update_of_ne hu ..)

theorem move_away_leaves (data : δ) : m.Leaves ({ m with data }.move t .away) :=
  ⟨rfl, fun u => (move_place .away u).imp_right .inl⟩

theorem move_trying_leaves (w : ω) : m.Leaves (m.move t (.trying w)) :=
  ⟨rfl, fun u => (move_place (.trying w) u).imp_right fun hu => .inr ⟨w, hu⟩⟩

theorem call_spec (hs : m.call t w = some m') : m.Leaves m' ∧ m'.data = m.data := by
  unfold call at hs
  split at hs
  · obtain rfl := Option.some.inj hs
    exact ⟨move_trying_leaves w, rfl⟩
  · cases hs

theorem wake_spec (hs : m.wake t = some m') : m.Leaves m' ∧ m'.data = m.data := by
  unfold wake at hs
  split at hs
  · obtain rfl := Option.some.inj hs
    exact ⟨move_trying_leaves _, rfl⟩
  · cases hs

theorem found_spec {f : ω → δ → δ} (hs : m.found cond t f = some m') :
    ∃ w, m.place t = .trying w ∧ cond w m.data = true ∧ m.Leaves m' ∧ m'.data = f w m.data := by
  unfold found at hs
  split at hs
  next w hw =>
    obtain ⟨⟨_, htrue⟩, hs⟩ := Option.ite_none_right_eq_some.mp hs
    obtain rfl := Option.some.inj hs
    exact ⟨w, hw, htrue, move_away_leaves _, rfl⟩
  · cases hs

theorem expire_spec {f : ω → Option (δ → δ)} (hs : m.expire cond t f = some m') :
    ∃ w g, f w = some g ∧ m.Leaves m' ∧ m'.data = g m.data := by
  unfold expire at hs
  split at hs
  next w _ =>
    obtain ⟨_, hs⟩ := Option.ite_none_right_eq_some.mp hs
    obtain ⟨g, hg, rfl⟩ := Option.map_eq_some_iff.mp hs
    exact ⟨w, g, hg, move_away_leaves _, rfl⟩
  · cases hs

theorem test_spec (hs : m.test cond t = some m') :
    ∃ w, m.owner = none ∧ cond w m.data = false ∧
      m' = { m with owner := some t }.move t (.tested w) := by
  unfold test at hs
  split at hs
  next w _ =>
    obtain ⟨⟨ho, hfalse⟩, hs⟩ := Option.ite_none_right_eq_some.mp hs
    exact ⟨w, ho, hfalse, (Option.some.inj hs).symm⟩
  · cases hs

theorem sleep_spec (hs : m.sleep t = some m') :
    ∃ w, m.place t = .tested w ∧ m' = { m with owner := none }.move t (.asleep w false) := by
  unfold sleep at hs
  split at hs
  next w hw => exact ⟨w, hw, (Option.some.inj hs).symm⟩
  · cases hs

theorem test_keeps (hl : m.NoLostWakeup cond) (hs : m.test cond t = some m') :
    m'.Inv cond ∧ m'.NoLostWakeup cond := by
  obtain ⟨w, _, hfalse, rfl⟩ := test_spec hs
  constructor
  · intro u v hu howner
    obtain rfl : t = u := Option.some.inj howner
    obtain rfl := Place.tested.inj ((move_self _).symm.trans hu)
    exact hfalse
  · intro u v hu
    rcases move_place (.tested w) u with hp | hp
    · exact hl u v (hp.symm.trans hu)
    · cases hp.symm.trans hu

theorem Disciplined.test (h : m.Disciplined) (hs : m.test cond t = some m') :
    m'.Disciplined := by
  obtain ⟨w, howner, _, rfl⟩ := test_spec hs
  intro u v hu
  by_cases hut : u = t
  · rw [hut]
    rfl
  · have hold : m.owner = some u := h u v ((update_of_ne hut ..).symm.trans hu)
    rw [howner] at hold
    cases hold

theorem Inv.sleep (h : m.Inv cond) (hl : m.NoLostWakeup cond) (hs : m.sleep t = some m') :
    m'.Inv cond ∧ (m'.NoLostWakeup cond ↔
      ∀ w, m.place t = .tested w → m.owner ≠ some t → cond w m.data = false) := by
  obtain ⟨w, hw, rfl⟩ := sleep_spec hs
  refine ⟨fun _ _ _ howner => (nomatch howner), fun hl' v hv _ => ?_, fun hok u v hu => ?_⟩
  · obtain rfl := Place.tested.inj (hw.symm.trans hv)
    exact hl' t w (move_self _)
  · rcases move_place (.asleep w false) u with hp | hp
    · exact hl u v (hp.symm.trans hu)
    · obtain ⟨rfl, _⟩ := Place.asleep.inj (hp.symm.trans hu)
      by_cases howner : m.owner = some t
      · exact h t w hw howner
      · exact hok w hw howner

theorem Disciplined.sleep (h : m.Disciplined) (hs : m.sleep t = some m') : m'.Disciplined := by
  obtain ⟨w, hw, rfl⟩ := sleep_spec hs
  intro u v hu
  by_cases hut : u = t
  · subst hut
    cases (move_self _).symm.trans hu
  · have hold : m.owner = some u := h u v ((update_of_ne hut ..).symm.trans hu)
    exact absurd (Option.some.inj (hold.symm.trans (h t w hw))) hut

end Threads

end Monitor

end NNPIHost

import Mathlib.Logic.Relation
import NNPIHost.Exec.Run
import NNPIHost.Lock.Program

/-! # Deadlocks around a hub

Clients hold outer mutexes while they take an inner one or sleep, and only one thread, the
hub, can make true what they sleep for. The hub takes mutexes in any order and never sleeps.
Every cycle of waiting threads then goes from the hub to a client and back.
-/

namespace NNPIHost.Lock

open Relation

variable {π μ δ : Type*}

/-- When of any three threads that wait in a row the second or the third is the hub, a cycle
has one that the hub waits for and that waits for the hub. -/
theorem exists_waits_for_each_other {r : π → π → Prop} {hub t : π}
    (hr : ∀ {a b c d}, r a b → r b c → r c d → b ≠ hub → c = hub) (ht : TransGen r t t) :
    ∃ q, r hub q ∧ r q hub := by
  have hnext : ∀ {a}, TransGen r a a → ∃ b, r a b ∧ TransGen r b b := by
    intro a ha
    obtain ⟨b, hab, hba⟩ := TransGen.head'_iff.mp ha
    exact ⟨b, hab, .tail' hba hab⟩
  have hhub : TransGen r hub hub := by
    obtain ⟨a, _, hat⟩ := TransGen.tail'_iff.mp ht
    obtain ⟨c, htc, hc⟩ := hnext ht
    obtain ⟨d, hcd, _⟩ := hnext hc
    by_cases hne : t = hub
    · exact hne ▸ ht
    · exact hr hat htc hcd hne ▸ hc
  obtain ⟨q, hq, hqq⟩ := hnext hhub
  obtain ⟨c, hqc, hc⟩ := hnext hqq
  obtain ⟨d, hcd, _⟩ := hnext hc
  by_cases hne : q = hub
  · exact ⟨q, hq, hne ▸ hq⟩
  · exact ⟨q, hq, hr hq hqc hcd hne ▸ hqc⟩

namespace Discipline

/-- A client takes an outer mutex first, and then at most one other at a time. -/
def client (outer : μ → Prop) : Discipline μ where
  takes held m := (∀ n ∈ held, outer n) ∧ (outer m → held = [])
  waits := True

def hub : Discipline μ where
  takes _ _ := True
  waits := False

end Discipline

namespace System

variable [DecidableEq π] [DecidableEq μ]

def disciplines (outer : μ → Prop) (hub : π) (p : π) : Discipline μ :=
  if p = hub then .hub else .client outer

/-- The mutex that the thread found locked. -/
def blockedOn (s : System π μ δ) (p : π) : Option μ :=
  if (s.thread p).mode = .blocked then (s.thread p).code.wants else none

/-- The thread found a mutex locked that the other one holds, or it sleeps until the hub makes
its condition true. -/
def WaitsFor (hub : π) (s : System π μ δ) (p q : π) : Prop :=
  (∃ m, s.blockedOn p = some m ∧ s.owner m = some q) ∨ ((s.thread p).mode = .asleep ∧ q = hub)

/-- No threads wait for each other in a cycle. -/
def NoDeadlock (hub : π) (s : System π μ δ) : Prop := ∀ p, ¬ TransGen (s.WaitsFor hub) p p

/-- The next operation of the thread makes it wait for the other one. -/
def Begins (hub : π) (s : System π μ δ) (p q : π) : Prop :=
  (∃ m, (s.thread p).code.wants = some m ∧ s.owner m = some q) ∨ (s.FallsAsleep p ∧ q = hub)

/-- The hub finds no outer mutex locked by a thread that waits for it, and while it is blocked
on an outer mutex, the thread that holds this one does not begin to wait for the hub. -/
def Clear (outer : μ → Prop) (hub : π) (s : System π μ δ) : Turn π μ δ → Prop
  | .run p _ =>
      if p = hub then
        ∀ m q, (s.thread hub).code.wants = some m → outer m → s.owner m = some q →
          ¬ s.WaitsFor hub q hub
      else
        ∀ m, s.blockedOn hub = some m → outer m → s.owner m = some p →
          (s.thread p).mode ≠ .asleep → ¬ s.Begins hub p hub
  | _ => True

variable {s t : System π μ δ} {outer : μ → Prop} {hub p q : π} {m : μ} {choice : Bool}

omit [DecidableEq π] [DecidableEq μ] in
theorem blockedOn_eq_some :
    s.blockedOn p = some m ↔
      (s.thread p).mode = .blocked ∧ (s.thread p).code.wants = some m := by
  simp [blockedOn]

omit [DecidableEq π] [DecidableEq μ] in
theorem not_waitsFor_of_running (h : (s.thread p).mode = .running) : ¬ s.WaitsFor hub p q := by
  rintro (⟨m, hm, _⟩ | ⟨hmode, _⟩)
  · cases h.symm.trans (blockedOn_eq_some.mp hm).1
  · cases h.symm.trans hmode

omit [DecidableEq π] [DecidableEq μ] in
theorem WaitsFor.mode (h : s.WaitsFor hub p q) : (s.thread p).mode ≠ .running :=
  fun hrun => not_waitsFor_of_running hrun h

omit [DecidableEq π] [DecidableEq μ] in
theorem waitsFor_congr (hthread : t.thread p = s.thread p) (howner : t.owner = s.owner) :
    t.WaitsFor hub p q ↔ s.WaitsFor hub p q := by
  simp only [WaitsFor, blockedOn, hthread, howner]

omit [DecidableEq π] [DecidableEq μ] in
theorem Frame.waitsFor {p a b : π} (hf : Frame s t p) (ha : a ≠ p) (hb : b ≠ p)
    (h : t.WaitsFor hub a b) : s.WaitsFor hub a b := by
  have hmode := (hf.mode a ha).resolve_left h.mode
  rcases h with ⟨m, hm, howner⟩ | ⟨hasleep, rfl⟩
  · rw [blockedOn_eq_some, hmode, hf.code a ha] at hm
    exact .inl ⟨m, blockedOn_eq_some.mpr hm, (hf.owner b hb m).mp howner⟩
  · exact .inr ⟨hmode ▸ hasleep, rfl⟩

omit [DecidableEq μ] in
theorem disciplines_hub : disciplines outer hub hub = .hub := if_pos rfl

omit [DecidableEq μ] in
theorem disciplines_client (hp : p ≠ hub) : disciplines outer hub p = .client outer := if_neg hp

theorem Inv.wants (h : Inv (disciplines outer hub) s) (hw : s.WaitsFor hub p q) :
    ∃ n, (s.thread p).code.wants = some n := by
  rcases hw with ⟨n, hn, _⟩ | ⟨hasleep, _⟩
  · exact ⟨n, (blockedOn_eq_some.mp hn).2⟩
  · obtain ⟨held, hp⟩ := h p
    exact Option.ne_none_iff_exists'.mp (hp.asleep hasleep).2

theorem Inv.hub_awake (h : Inv (disciplines outer hub) s) : (s.thread hub).mode ≠ .asleep := by
  intro hasleep
  obtain ⟨held, hp⟩ := h hub
  have hwaits := (hp.asleep hasleep).1
  rw [disciplines_hub] at hwaits
  exact hwaits

theorem Inv.hub_not_fallsAsleep (h : Inv (disciplines outer hub) s) : ¬ s.FallsAsleep hub := by
  intro hfalls
  obtain ⟨held, hp⟩ := h hub
  have hwaits := (hp.fallsAsleep hfalls).1
  rw [disciplines_hub] at hwaits
  exact hwaits

theorem Inv.owner_ne (h : Inv (disciplines outer hub) s)
    (hw : (s.thread p).code.wants = some m) : s.owner m ≠ some p := by
  obtain ⟨held, hp⟩ := h p
  exact fun howner => (hp.follows.of_wants hw).1 ((hp.owner m).mp howner)

/-- The mutexes that a client holds are outer ones when it wants another, and then that one
is not. -/
theorem Inv.outer_of_wants (h : Inv (disciplines outer hub) s) (hp : p ≠ hub) {n : μ}
    (hw : (s.thread p).code.wants = some n) (hm : s.owner m = some p) : outer m ∧ ¬ outer n := by
  obtain ⟨held, hheld⟩ := h p
  have htakes := (hheld.follows.of_wants hw).2
  rw [disciplines_client hp] at htakes
  have hmem := (hheld.owner m).mp hm
  exact ⟨htakes.1 m hmem, fun hn => List.ne_nil_of_mem hmem (htakes.2 hn)⟩

/-- There is a deadlock exactly if a client and the hub wait for each other. -/
theorem Inv.noDeadlock_iff (h : Inv (disciplines outer hub) s) :
    s.NoDeadlock hub ↔ ∀ q, s.WaitsFor hub hub q → ¬ s.WaitsFor hub q hub := by
  constructor
  · exact fun hno q hq hback => hno hub (.head hq (.single hback))
  · intro hno p hp
    have hnear {a b c d : π} (hab : s.WaitsFor hub a b) (hbc : s.WaitsFor hub b c)
        (hcd : s.WaitsFor hub c d) (hb : b ≠ hub) : c = hub := by
      by_contra hc
      -- `b` holds a mutex and is blocked on an inner one, which `c` holds while it waits.
      obtain ⟨m, _, hm⟩ := hab.resolve_right fun h => hb h.2
      obtain ⟨n, hn, hnc⟩ := hbc.resolve_right fun h => hc h.2
      obtain ⟨n', hn'⟩ := h.wants hcd
      exact (h.outer_of_wants hb (blockedOn_eq_some.mp hn).2 hm).2 (h.outer_of_wants hc hn' hnc).1
    obtain ⟨q, hq, hback⟩ := exists_waits_for_each_other hnear hp
    exact hno q hq hback

omit [DecidableEq π] [DecidableEq μ] in
theorem Unhindered.not_begins (h : s.Unhindered p) : ¬ s.Begins hub p q := by
  rintro (⟨m, hm, howner⟩ | ⟨hfalls, _⟩)
  · cases (h.1 m hm).symm.trans howner
  · exact h.2 hfalls

/-- A step either makes the thread wait for those that hold what it wants, or for the hub, and
changes nothing else, or it finds nothing in its way and the thread goes on. -/
theorem Inv.waits_or_goes_on {D : π → Discipline μ} (h : Inv D s) (hub : π)
    (hs : s.run p choice = some t) :
    (∃ mode, t = s.setMode p mode ∧ ∀ q, t.WaitsFor hub p q ↔ s.Begins hub p q) ∨
      (Frame s t p ∧ (t.thread p).mode = .running ∧ ∀ q, ¬ s.Begins hub p q) := by
  rcases h.run_cases hs with ⟨hfalls, rfl⟩ | ⟨hwants, hfalls, rfl⟩ | ⟨hfree, _, _, _, rfl, hf, _⟩
  · exact .inl ⟨.blocked, rfl, fun q => by simp [WaitsFor, Begins, blockedOn, hfalls]⟩
  · refine .inl ⟨.asleep, rfl, fun q => ?_⟩
    have hno : ¬ ∃ m, (s.thread p).code.wants = some m ∧ s.owner m = some q := by
      rintro ⟨m, hm, howner⟩
      cases (hwants m hm).symm.trans howner
    simp [WaitsFor, Begins, blockedOn, hfalls, hno]
  · exact .inr ⟨hf.goOn, by simp, fun q => hfree.not_begins⟩

theorem Inv.noDeadlock_of_running (hs : Inv (disciplines outer hub) s)
    (ht : Inv (disciplines outer hub) t) (hf : Frame s t p) (hrun : (t.thread p).mode = .running)
    (hno : s.NoDeadlock hub) : t.NoDeadlock hub := by
  refine ht.noDeadlock_iff.mpr fun q hq hback => ?_
  have hhub : hub ≠ p := fun heq => hq.mode (heq ▸ hrun)
  have hne : q ≠ p := fun heq => hback.mode (heq ▸ hrun)
  exact hs.noDeadlock_iff.mp hno q (hf.waitsFor hhub hne hq) (hf.waitsFor hne hhub hback)

omit [DecidableEq μ] in
theorem setMode_waitsFor {mode : Mode} (hq : q ≠ p) {a : π} :
    (s.setMode p mode).WaitsFor hub q a ↔ s.WaitsFor hub q a :=
  waitsFor_congr (by simp [setMode, hq]) rfl

/-- A step that makes its thread wait leads to a deadlock exactly if it is not clear. -/
theorem Inv.noDeadlock_setMode {mode : Mode} (hs : Inv (disciplines outer hub) s)
    (ht : Inv (disciplines outer hub) (s.setMode p mode)) (hno : s.NoDeadlock hub)
    (hawake : (s.thread p).mode ≠ .asleep)
    (hbegins : ∀ q, (s.setMode p mode).WaitsFor hub p q ↔ s.Begins hub p q) :
    (s.setMode p mode).NoDeadlock hub ↔ s.Clear outer hub (.run p choice) := by
  rw [ht.noDeadlock_iff]
  by_cases hp : p = hub
  · subst hp
    simp only [Clear, if_true, hbegins]
    constructor
    · intro h m q hm _ howner hback
      have hq : q ≠ p := fun heq => hs.owner_ne hm (heq ▸ howner)
      exact h q (.inl ⟨m, hm, howner⟩) ((setMode_waitsFor hq).mpr hback)
    · rintro h q (⟨m, hm, howner⟩ | ⟨hfalls, _⟩) hback
      · have hq : q ≠ p := fun heq => hs.owner_ne hm (heq ▸ howner)
        have hback := (setMode_waitsFor hq).mp hback
        obtain ⟨n, hn⟩ := hs.wants hback
        exact h m q hm (hs.outer_of_wants hq hn howner).1 howner hback
      · exact hs.hub_not_fallsAsleep hfalls
  · simp only [Clear, if_neg hp, setMode_waitsFor (Ne.symm hp)]
    constructor
    · intro h m hm _ howner _ hb
      exact h p (.inl ⟨m, hm, howner⟩) ((hbegins hub).mpr hb)
    · intro h q hq hback
      by_cases hqp : q = p
      · subst hqp
        obtain ⟨m, hm, howner⟩ := hq.resolve_right fun h => hs.hub_awake h.1
        obtain ⟨n, hn⟩ := ht.wants hback
        rw [setMode_thread_self] at hn
        exact h m hm (hs.outer_of_wants hp hn howner).1 howner hawake ((hbegins hub).mp hback)
      · exact hs.noDeadlock_iff.mp hno q hq ((setMode_waitsFor hqp).mp hback)

/-- From a state without a deadlock a step leads to one exactly if it is not clear. -/
theorem Inv.noDeadlock_step (hs : Inv (disciplines outer hub) s)
    (ht : Inv (disciplines outer hub) t) (hno : s.NoDeadlock hub) {a : Turn π μ δ}
    (hst : s.step a = some t) : t.NoDeadlock hub ↔ s.Clear outer hub a := by
  cases a with
  | start p c =>
    simp only [System.step] at hst
    split at hst
    next =>
      obtain rfl := Option.some.inj hst
      exact iff_of_true (hs.noDeadlock_of_running ht (.goOn .refl) (by simp) hno) trivial
    next => cases hst
  | wake p =>
    simp only [System.step, Option.ite_none_right_eq_some] at hst
    obtain rfl := Option.some.inj hst.2
    exact iff_of_true (hs.noDeadlock_of_running ht (.setMode _) (by simp) hno) trivial
  | run p choice =>
    simp only [System.step] at hst
    split at hst
    next => cases hst
    next hawake =>
      rcases hs.waits_or_goes_on hub hst with ⟨mode, rfl, hbegins⟩ | ⟨hf, hrun, hnone⟩
      · exact hs.noDeadlock_setMode ht hno hawake hbegins
      · refine iff_of_true (hs.noDeadlock_of_running ht hf hrun hno) ?_
        by_cases hp : p = hub
        · subst hp
          simp only [Clear, if_true]
          exact fun m q hm _ howner => absurd (.inl ⟨m, hm, howner⟩) (hnone q)
        · simp only [Clear, if_neg hp]
          exact fun m _ _ _ _ => hnone hub

theorem Inv.clear_of_step (h : Inv (disciplines outer hub) s) {a : Turn π μ δ}
    (hst : s.step a = none) : s.Clear outer hub a := by
  cases a with
  | run p choice =>
    have hasleep : (s.thread p).mode = .asleep ∨ (s.thread p).code.wants = none := by
      by_contra hnot
      rw [not_or] at hnot
      simp only [System.step, if_neg hnot.1, System.run] at hst
      split at hst
      next hcode => exact hnot.2 (by rw [hcode]; rfl)
      all_goals cases hst
    by_cases hp : p = hub
    · subst hp
      simp only [Clear, if_true, hasleep.resolve_left h.hub_awake]
      rintro m q ⟨⟩
    · simp only [Clear, if_neg hp]
      exact fun m _ _ _ hawake => (unhindered_of_wants (hasleep.resolve_left hawake)).not_begins
  | _ => trivial

omit [DecidableEq π] [DecidableEq μ] in
theorem init_noDeadlock (d : δ) : (init d : System π μ δ).NoDeadlock hub := by
  intro p hp
  obtain ⟨q, hq, _⟩ := TransGen.head'_iff.mp hp
  exact not_waitsFor_of_running rfl hq

/-- Where all started programs follow the disciplines, a run has no deadlock in any of its
states exactly if all its turns are clear. -/
theorem always_noDeadlock_iff {α : Type*} {turn : α → Turn π μ δ}
    (hturn : ∀ a, Allowed (disciplines outer hub) (turn a)) (d : δ) (as : List α) :
    Exec.Always (fun s a => s.step (turn a)) (NoDeadlock hub) (init d) as ↔
      Exec.Meets (fun s a => s.step (turn a)) (fun s a => s.Clear outer hub (turn a))
        (init d) as := by
  refine Exec.always_iff_meets (I := Inv (disciplines outer hub)) (init_noDeadlock d) (init_inv d)
    ?_ ?_
  · intro s a t h hno hst
    have ht := h.step (hturn a) hst
    exact ⟨ht, h.noDeadlock_step ht hno hst⟩
  · exact fun s a h _ hst => h.clear_of_step hst

end System

end NNPIHost.Lock

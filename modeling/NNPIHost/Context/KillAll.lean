import Mathlib.Data.Finset.Card
import NNPIHost.Exec.Stream
import NNPIHost.Store.Ordered

/-! # Killing all contexts

`nnpiActiveContexts::kill_all` kills the first channel that it may kill and starts again, until
there is none. The mutex is free while a channel is killed, so response threads end, and others
let go of channels, between any two of its steps. A thread that has ended well leaves its
channel as it was, and a kill finds nothing to do there.
-/

namespace NNPIHost

open Store

/-- The fields of `nnpiChannel` that a kill reads or writes. `self` is whether `m_this` holds
the channel and `held` whether anything else does, and `running` is the response thread. -/
structure ActiveChannel where
  killed : Bool
  killOnExit : Bool
  joined : Bool
  self : Bool
  held : Bool
  running : Bool
  deriving DecidableEq, Repr

namespace ActiveChannel

/-- A channel after `nnpiChannel::create`, held by its context. -/
def create : ActiveChannel := ⟨false, false, false, true, true, true⟩

variable (ch : ActiveChannel)

/-- `nnpi_utils_reset_m_this`. The channel is destroyed when nothing else holds it. -/
def resetThis : Option ActiveChannel :=
  if ch.self && !ch.held then none else some { ch with self := false }

def handleResponseHandlerExit (abnormal : Bool) : Option ActiveChannel :=
  if abnormal then { ch with killed := true }.resetThis else ch.resetThis

/-- The end of `response_handler`, the body of the response thread. -/
def exitThread (abnormal : Bool) : Option ActiveChannel :=
  if ch.running then { ch with running := false }.handleResponseHandlerExit abnormal else some ch

/-- The response thread handles a fatal event of the card. -/
def setKillOnExit : Option ActiveChannel :=
  if ch.running then some { ch with killOnExit := true } else some ch

/-- Nothing but `m_this` holds the channel any more. -/
def release : Option ActiveChannel := if ch.self then some { ch with held := false } else none

def cancelAndJoin : Option ActiveChannel := some { ch with running := false, joined := true }

/-- `kill` after the thread is joined. -/
def killJoined : Option ActiveChannel :=
  if ch.self then ch.handleResponseHandlerExit true else some ch

def shouldBeKilled (force : Bool) : Bool := !ch.killed && (force || ch.killOnExit)

/-- A channel at a later time: what is set is not reset. -/
structure Later (ch ch' : ActiveChannel) : Prop where
  killed : ch.killed = true → ch'.killed = true
  killOnExit : ch.killOnExit = true → ch'.killOnExit = true

/-- The thread ended well, and the channel is still to be killed. -/
structure Ended (force : Bool) : Prop where
  shouldBeKilled : ch.shouldBeKilled force = true
  self : ch.self = false
  running : ch.running = false

variable {ch} {ch' ch'' : ActiveChannel} {force abnormal : Bool}

theorem Later.rfl : Later ch ch := ⟨id, id⟩

theorem Later.trans (h : Later ch ch') (h' : Later ch' ch'') : Later ch ch'' :=
  ⟨h'.killed ∘ h.killed, h'.killOnExit ∘ h.killOnExit⟩

theorem Later.resetThis (h : Later ch ch') (he : ch'.resetThis = some ch'') : Later ch ch'' := by
  rw [ActiveChannel.resetThis, Option.ite_none_left_eq_some] at he
  obtain rfl := Option.some.inj he.2
  exact ⟨h.killed, h.killOnExit⟩

theorem killed_of_resetThis (h : ch.killed = true) (he : ch.resetThis = some ch') :
    ch'.killed = true := (Later.rfl.resetThis he).killed h

theorem handleResponseHandlerExit_later (he : ch.handleResponseHandlerExit abnormal = some ch') :
    Later ch ch' := by
  rw [handleResponseHandlerExit] at he
  split at he
  · have hkill : Later ch { ch with killed := true } := ⟨fun _ => rfl, id⟩
    exact hkill.resetThis he
  · exact Later.rfl.resetThis he

theorem killed_of_exit (he : ch.handleResponseHandlerExit true = some ch') :
    ch'.killed = true := by
  rw [handleResponseHandlerExit, if_pos rfl] at he
  exact killed_of_resetThis rfl he

theorem cancelAndJoin_later (he : ch.cancelAndJoin = some ch') : Later ch ch' := by
  obtain rfl := Option.some.inj he
  exact ⟨id, id⟩

theorem killJoined_later (he : ch.killJoined = some ch') : Later ch ch' := by
  rw [killJoined] at he
  split at he
  · exact handleResponseHandlerExit_later he
  · obtain rfl := Option.some.inj he
    exact Later.rfl

theorem killed_of_killJoined (h : ch.killed = true ∨ ch.self = true)
    (he : ch.killJoined = some ch') : ch'.killed = true := by
  rcases h with hk | hself
  · exact (killJoined_later he).killed hk
  · rw [killJoined, if_pos hself] at he
    exact killed_of_exit he

theorem Ended.cancelAndJoin (h : ch.Ended force) :
    ∃ ch', ch.cancelAndJoin = some ch' ∧ ch'.Ended force :=
  ⟨_, rfl, h.shouldBeKilled, h.self, rfl⟩

theorem Ended.killJoined (h : ch.Ended force) : ch.killJoined = some ch := by
  simp [ActiveChannel.killJoined, h.self]

end ActiveChannel

/-- What other threads do to a channel. -/
inductive ChannelEvent (κ : Type) where
  | exit (c : κ) (abnormal : Bool)
  | fatal (c : κ)
  | release (c : κ)

/-- What other threads do in a turn of the loop: before the channels are searched, before
`m_killed` is tested, and before the thread is cancelled. -/
structure KillTurn (κ : Type) where
  search : List (ChannelEvent κ)
  test : List (ChannelEvent κ)
  cancel : List (ChannelEvent κ)

variable {κ : Type} [LinearOrder κ]

namespace KillTurn

/-- Nothing happens besides. -/
def quiet : KillTurn κ := ⟨[], [], []⟩

/-- The other threads do not let go of channels. -/
def Keeps (e : KillTurn κ) : Prop :=
  ∀ c, .release c ∉ e.search ∧ .release c ∉ e.test ∧ .release c ∉ e.cancel

end KillTurn

namespace ChannelEvent

def channel : ChannelEvent κ → κ
  | exit c _ | fatal c | release c => c

def effect : ChannelEvent κ → ActiveChannel → Option ActiveChannel
  | exit _ abnormal, ch => ch.exitThread abnormal
  | fatal _, ch => ch.setKillOnExit
  | release _, ch => ch.release

def apply (m : OrderedMap κ ActiveChannel) (ev : ChannelEvent κ) : OrderedMap κ ActiveChannel :=
  m.alter ev.channel ev.effect

def applyAll (m : OrderedMap κ ActiveChannel) (evs : List (ChannelEvent κ)) :
    OrderedMap κ ActiveChannel := evs.foldl apply m

end ChannelEvent

/-- `m_context_chans`, with the channels that `kill` was called on. -/
structure ActiveContexts (κ : Type) [LinearOrder κ] where
  contextChans : OrderedMap κ ActiveChannel
  calls : List κ

namespace ActiveContexts

open ChannelEvent

def isKilled (m : OrderedMap κ ActiveChannel) (c : κ) : Bool := (m.find? c).any (·.killed)

/-- `nnpiChannel::kill`. A channel may be gone by then, and what the source does to it is
undefined. -/
def kill (umdOnly : Bool) (e : KillTurn κ) (c : κ) (m : OrderedMap κ ActiveChannel) :
    OrderedMap κ ActiveChannel :=
  let m := applyAll m e.test
  if isKilled m c then m
  else if umdOnly then m.alter c (·.handleResponseHandlerExit true)
  else ((applyAll m e.cancel).alter c (·.cancelAndJoin)).alter c (·.killJoined)

/-- The channel that the loop of `kill_all` stops at. -/
def candidate (force : Bool) (m : OrderedMap κ ActiveChannel) : Option κ :=
  (m.entries.find? (·.2.shouldBeKilled force)).map Prod.fst

/-- One turn of the loop. There is none when no channel is to be killed. -/
def killNext (force umdOnly : Bool) (s : ActiveContexts κ) (e : KillTurn κ) :
    Option (ActiveContexts κ) :=
  let m := applyAll s.contextChans e.search
  (candidate force m).map fun c => ⟨kill umdOnly e c m, c :: s.calls⟩

/-- `kill_all` ends, and it calls `kill` at most once on each channel. -/
structure KillsOnce (force umdOnly : Bool) (env : ℕ → KillTurn κ) (s : ActiveContexts κ) :
    Prop where
  ends : Exec.Ends (killNext force umdOnly) env s
  once : ∀ n t, Exec.run (killNext force umdOnly) s (Exec.firsts env n) = some t → t.calls.Nodup

/-- When the thread of the channel to be killed is joined, it has not ended well, unless the
channel is destroyed with it. -/
def FindsThread (force umdOnly : Bool) (s : ActiveContexts κ) (e : KillTurn κ) : Prop :=
  umdOnly = false → ∀ c, candidate force (applyAll s.contextChans e.search) = some c →
    ∀ ch, (c, ch) ∈ applyAll (applyAll (applyAll s.contextChans e.search) e.test) e.cancel →
      ch.killed = true ∨ ch.self = true

/-- Every channel was there before, at an earlier time. -/
def Follows (m m' : OrderedMap κ ActiveChannel) : Prop :=
  ∀ c ch', (c, ch') ∈ m' → ∃ ch, (c, ch) ∈ m ∧ ch.Later ch'

/-- The channels that are not killed. -/
def unkilled (m : OrderedMap κ ActiveChannel) : Finset κ :=
  ((m.entries.filter (!·.2.killed)).map Prod.fst).toFinset

variable {m m' m'' : OrderedMap κ ActiveChannel} {c c' : κ} {ch ch' : ActiveChannel}
  {ev : ChannelEvent κ} {evs : List (ChannelEvent κ)} {e : KillTurn κ} {force umdOnly : Bool}
  {s t : ActiveContexts κ} {f : ActiveChannel → Option ActiveChannel}

theorem mem_unkilled : c ∈ unkilled m ↔ ∃ ch, (c, ch) ∈ m ∧ ch.killed = false := by
  simp [unkilled]

theorem Follows.rfl : Follows m m := fun _ ch' h => ⟨ch', h, .rfl⟩

theorem Follows.trans (h : Follows m m') (h' : Follows m' m'') : Follows m m'' := by
  intro c ch'' hm''
  obtain ⟨ch', hm', hl'⟩ := h' c ch'' hm''
  obtain ⟨ch, hm, hl⟩ := h c ch' hm'
  exact ⟨ch, hm, hl.trans hl'⟩

theorem Follows.alter (hf : ∀ ch ch', f ch = some ch' → ch.Later ch') :
    Follows m (m.alter c f) := by
  intro c' ch' hm'
  rcases OrderedMap.mem_alter.mp hm' with ⟨hm, _⟩ | ⟨rfl, ch, hm, hch⟩
  · exact ⟨ch', hm, .rfl⟩
  · exact ⟨ch, hm, hf ch ch' hch⟩

theorem Follows.unkilled (h : Follows m m') : unkilled m' ⊆ ActiveContexts.unkilled m := by
  intro c hc
  obtain ⟨ch', hm', hk⟩ := mem_unkilled.mp hc
  obtain ⟨ch, hm, hl⟩ := h c ch' hm'
  exact mem_unkilled.mpr ⟨ch, hm, Bool.eq_false_iff.mpr fun hk' => by simp [hl.killed hk'] at hk⟩

omit [LinearOrder κ] in
theorem effect_later (h : ev.effect ch = some ch') : ch.Later ch' := by
  cases ev with
  | exit _ abnormal =>
    simp only [effect, ActiveChannel.exitThread] at h
    split at h
    · have hend : ch.Later { ch with running := false } := ⟨id, id⟩
      exact hend.trans (ActiveChannel.handleResponseHandlerExit_later h)
    · obtain rfl := Option.some.inj h
      exact .rfl
  | fatal =>
    simp only [effect, ActiveChannel.setKillOnExit] at h
    split at h <;> obtain rfl := Option.some.inj h
    · exact ⟨id, fun _ => rfl⟩
    · exact .rfl
  | release =>
    simp only [effect, ActiveChannel.release, Option.ite_none_right_eq_some] at h
    obtain rfl := Option.some.inj h.2
    exact ⟨id, id⟩

theorem applyAll_follows : Follows m (applyAll m evs) := by
  induction evs generalizing m with
  | nil => exact .rfl
  | cons ev evs ih =>
    have hfirst : Follows m (ev.apply m) := .alter fun _ _ => effect_later
    exact hfirst.trans ih

theorem kill_follows : Follows m (kill umdOnly e c m) := by
  unfold kill
  dsimp only
  split
  · exact applyAll_follows
  split
  · exact applyAll_follows.trans
      (.alter fun _ _ => ActiveChannel.handleResponseHandlerExit_later)
  · have hjoin : Follows m (applyAll (applyAll m e.test) e.cancel) :=
      applyAll_follows.trans applyAll_follows
    exact hjoin.trans ((Follows.alter fun _ _ => ActiveChannel.cancelAndJoin_later).trans
      (.alter fun _ _ => ActiveChannel.killJoined_later))

theorem isKilled_iff : isKilled m c = true ↔ ∃ ch, (c, ch) ∈ m ∧ ch.killed = true := by
  simp [isKilled, Option.any_eq_true, OrderedMap.find?_eq_some]

theorem candidate_eq_some (h : candidate force m = some c) :
    ∃ ch, (c, ch) ∈ m ∧ ch.shouldBeKilled force = true := by
  obtain ⟨e, he, rfl⟩ := Option.map_eq_some_iff.mp h
  have hk : e.2.shouldBeKilled force = true := by simpa using List.find?_some he
  exact ⟨e.2, List.mem_of_find?_eq_some he, hk⟩

theorem candidate_ne_none (hm : (c, ch) ∈ m) (h : ch.shouldBeKilled force = true) :
    ∃ c', candidate force m = some c' := by
  cases hf : m.entries.find? (·.2.shouldBeKilled force) with
  | none => exact absurd h (List.find?_eq_none.mp hf (c, ch) hm)
  | some e => exact ⟨e.1, by rw [candidate, hf, Option.map_some]⟩

theorem not_unkilled_kill (h : umdOnly = false →
      ∀ ch, (c, ch) ∈ applyAll (applyAll m e.test) e.cancel → ch.killed = true ∨ ch.self = true) :
    c ∉ unkilled (kill umdOnly e c m) := by
  suffices hall : ∀ ch, (c, ch) ∈ kill umdOnly e c m → ch.killed = true by
    rw [mem_unkilled]
    rintro ⟨ch, hm, hk⟩
    simp [hall ch hm] at hk
  intro ch hm
  unfold kill at hm
  dsimp only at hm
  split at hm
  next hk =>
    obtain ⟨ch', hm', hk⟩ := isKilled_iff.mp hk
    obtain rfl : ch = ch' := congrArg Prod.snd (OrderedMap.eq_of_key_eq hm hm' rfl)
    exact hk
  next =>
    split at hm
    next =>
      obtain ⟨_, hne⟩ | ⟨_, ch', _, he⟩ := OrderedMap.mem_alter.mp hm
      · exact absurd rfl hne
      · exact ActiveChannel.killed_of_exit he
    next humd =>
      obtain ⟨_, hne⟩ | ⟨_, ch₂, hm₂, he₂⟩ := OrderedMap.mem_alter.mp hm
      · exact absurd rfl hne
      · obtain ⟨_, hne⟩ | ⟨_, ch₁, hm₁, he₁⟩ := OrderedMap.mem_alter.mp hm₂
        · exact absurd rfl hne
        · obtain rfl := Option.some.inj he₁
          have hfound := h (Bool.eq_false_iff.mpr humd) ch₁ hm₁
          have hjoined : { ch₁ with running := false, joined := true }.killed = true ∨
              { ch₁ with running := false, joined := true }.self = true := hfound
          exact ActiveChannel.killed_of_killJoined hjoined he₂

theorem killNext_unkilled (hs : killNext force umdOnly s e = some t)
    (hok : FindsThread force umdOnly s e) :
    ∃ c, t.calls = c :: s.calls ∧ c ∈ unkilled s.contextChans ∧ c ∉ unkilled t.contextChans ∧
      unkilled t.contextChans ⊆ unkilled s.contextChans := by
  obtain ⟨c, hc, rfl⟩ := Option.map_eq_some_iff.mp hs
  obtain ⟨ch, hm, hk⟩ := candidate_eq_some hc
  have hsearch : Follows s.contextChans (applyAll s.contextChans e.search) := applyAll_follows
  have hun : c ∈ unkilled (applyAll s.contextChans e.search) := by
    refine mem_unkilled.mpr ⟨ch, hm, ?_⟩
    simp only [ActiveChannel.shouldBeKilled, Bool.and_eq_true, Bool.not_eq_true'] at hk
    exact hk.1
  exact ⟨c, rfl, hsearch.unkilled hun, not_unkilled_kill fun humd => hok humd c hc,
    (hsearch.trans kill_follows).unkilled⟩

/-- What a search finds when the thread of a channel to be killed has ended well. -/
def Stuck (force : Bool) (m : OrderedMap κ ActiveChannel) : Prop :=
  ∃ c ch, (c, ch) ∈ m ∧ ch.Ended force

omit [LinearOrder κ] in
theorem effect_ended (h : ch.Ended force) (hev : ∀ c, ev ≠ .release c) :
    ev.effect ch = some ch := by
  cases ev with
  | exit => simp [effect, ActiveChannel.exitThread, h.running]
  | fatal => simp [effect, ActiveChannel.setKillOnExit, h.running]
  | release c => exact absurd rfl (hev c)

theorem mem_applyAll (h : ch.Ended force) (hm : (c, ch) ∈ m)
    (hevs : ∀ c, .release c ∉ evs) : (c, ch) ∈ applyAll m evs := by
  induction evs generalizing m with
  | nil => exact hm
  | cons ev evs ih =>
    have hev : ∀ c, ev ≠ .release c := by
      rintro c rfl
      exact hevs c List.mem_cons_self
    refine ih (OrderedMap.mem_alter.mpr ?_) fun c hc => hevs c (List.mem_cons_of_mem ev hc)
    by_cases hc : c = ev.channel
    · exact .inr ⟨hc, ch, hc ▸ hm, effect_ended h hev⟩
    · exact .inl ⟨hm, hc⟩

theorem stuck_joined (h : ch.Ended force) (hm : (c, ch) ∈ m) :
    Stuck force ((m.alter c' (·.cancelAndJoin)).alter c' (·.killJoined)) := by
  by_cases hc : c = c'
  · obtain ⟨ch', hjoin, h'⟩ := h.cancelAndJoin
    have hm' : (c, ch') ∈ m.alter c' (·.cancelAndJoin) :=
      OrderedMap.mem_alter.mpr (.inr ⟨hc, ch, hc ▸ hm, hjoin⟩)
    exact ⟨c, ch', OrderedMap.mem_alter.mpr (.inr ⟨hc, ch', hc ▸ hm', h'.killJoined⟩), h'⟩
  · have hm' : (c, ch) ∈ m.alter c' (·.cancelAndJoin) :=
      OrderedMap.mem_alter.mpr (.inl ⟨hm, hc⟩)
    exact ⟨c, ch, OrderedMap.mem_alter.mpr (.inl ⟨hm', hc⟩), h⟩

theorem stuck_kill (h : ch.Ended force) (hm : (c, ch) ∈ m) (he : e.Keeps) :
    Stuck force (kill false e c' m) := by
  unfold kill
  dsimp only
  have htest := mem_applyAll h hm fun c => (he c).2.1
  split
  · exact ⟨c, ch, htest, h⟩
  · rw [if_neg Bool.false_ne_true]
    exact stuck_joined h (mem_applyAll h htest fun c => (he c).2.2)

theorem killNext_stuck (he : e.Keeps) (h : Stuck force s.contextChans) :
    ∃ t, killNext force false s e = some t ∧ Stuck force t.contextChans := by
  obtain ⟨c, ch, hm, hend⟩ := h
  have hsearch := mem_applyAll hend hm fun c => (he c).1
  obtain ⟨c', hc'⟩ := candidate_ne_none hsearch hend.shouldBeKilled
  exact ⟨_, Option.map_eq_some_iff.mpr ⟨c', hc', rfl⟩, stuck_kill hend hsearch he⟩

theorem run_of_stuck {es : List (KillTurn κ)} (h : Stuck force s.contextChans)
    (hes : ∀ e ∈ es, e.Keeps) : ∃ t, Exec.run (killNext force false) s es = some t := by
  have hkeep : ∀ (s : ActiveContexts κ) e, e.Keeps → Stuck force s.contextChans →
      ∃ t, killNext force false s e = some t ∧ Stuck force t.contextChans :=
    fun _ _ he hstuck => killNext_stuck he hstuck
  exact Exec.run_of_kept (J := fun s => Stuck force s.contextChans) h hkeep hes

theorem stuck_of_not_findsThread (hok : ¬ FindsThread force umdOnly s e) :
    umdOnly = false ∧ ∃ t, killNext force umdOnly s e = some t ∧ Stuck force t.contextChans := by
  simp only [FindsThread, not_forall, not_or, Bool.not_eq_true] at hok
  obtain ⟨rfl, c, hc, ch, hm, hk, hself⟩ := hok
  refine ⟨rfl, _, Option.map_eq_some_iff.mpr ⟨c, hc, rfl⟩, ?_⟩
  obtain ⟨ch₁, hm₁, hl₁⟩ := applyAll_follows c ch hm
  obtain ⟨ch₀, hm₀, hl₀⟩ := applyAll_follows c ch₁ hm₁
  obtain ⟨ch', hm', hshould⟩ := candidate_eq_some hc
  obtain rfl : ch₀ = ch' := congrArg Prod.snd (OrderedMap.eq_of_key_eq hm₀ hm' rfl)
  simp only [ActiveChannel.shouldBeKilled, Bool.and_eq_true, Bool.or_eq_true] at hshould
  have hforce : force = true ∨ ch.killOnExit = true :=
    hshould.2.imp_right (hl₀.trans hl₁).killOnExit
  -- `m_killed` is never reset, so the test at the start of `kill` did not find it set either.
  have hnot : ¬ isKilled (applyAll (applyAll s.contextChans e.search) e.test) c = true := by
    rw [isKilled_iff]
    rintro ⟨ch₂, hm₂, hk₂⟩
    obtain rfl : ch₂ = ch₁ := congrArg Prod.snd (OrderedMap.eq_of_key_eq hm₂ hm₁ rfl)
    exact Bool.false_ne_true (hk.symm.trans (hl₁.killed hk₂))
  unfold kill
  dsimp only
  rw [if_neg hnot, if_neg Bool.false_ne_true]
  have hend : ({ ch with running := false, joined := true } : ActiveChannel).Ended force := by
    refine ⟨?_, hself, rfl⟩
    simpa [ActiveChannel.shouldBeKilled, hk] using hforce
  refine ⟨c, _, OrderedMap.mem_alter.mpr (.inr ⟨rfl, _, ?_, hend.killJoined⟩), hend⟩
  exact OrderedMap.mem_alter.mpr (.inr ⟨rfl, ch, hm, rfl⟩)

/-- The channels that were killed are killed or gone. -/
structure Inv (s : ActiveContexts κ) : Prop where
  once : s.calls.Nodup
  killed : ∀ c ∈ s.calls, c ∉ unkilled s.contextChans

theorem Inv.killNext (h : s.Inv) (hok : FindsThread force umdOnly s e)
    (hs : killNext force umdOnly s e = some t) : t.Inv := by
  obtain ⟨c, hcalls, hun, hgone, hsub⟩ := killNext_unkilled hs hok
  constructor
  · rw [hcalls]
    exact List.nodup_cons.mpr ⟨fun hc => h.killed c hc hun, h.once⟩
  · intro c' hc'
    rw [hcalls] at hc'
    rcases List.mem_cons.mp hc' with rfl | hc'
    · exact hgone
    · exact fun hun' => h.killed c' hc' (hsub hun')

theorem ends_of_findsThread {env : ℕ → KillTurn κ}
    (hm : ∀ n, Exec.Meets (killNext force umdOnly) (FindsThread force umdOnly) s
      (Exec.firsts env n)) : Exec.Ends (killNext force umdOnly) env s := by
  refine ⟨(unkilled s.contextChans).card + 1, ?_⟩
  have hfall : ∀ (s : ActiveContexts κ) e t, True → FindsThread force umdOnly s e →
      killNext force umdOnly s e = some t →
        True ∧ (unkilled t.contextChans).card < (unkilled s.contextChans).card := by
    intro s e t _ hok hs
    obtain ⟨c, _, hun, hgone, hsub⟩ := killNext_unkilled hs hok
    exact ⟨trivial, Finset.card_lt_card ⟨hsub, fun hsup => hgone (hsup hun)⟩⟩
  refine Exec.run_eq_none_of_lt trivial hfall (hm _) ?_
  rw [Exec.length_firsts]
  exact Nat.lt_succ_self _

theorem Inv.once_of_findsThread {env : ℕ → KillTurn κ} (h : s.Inv)
    (hm : ∀ n, Exec.Meets (ActiveContexts.killNext force umdOnly) (FindsThread force umdOnly) s
      (Exec.firsts env n)) (n : ℕ)
    (hr : Exec.run (ActiveContexts.killNext force umdOnly) s (Exec.firsts env n) = some t) :
    t.calls.Nodup := by
  have hall := Exec.always_of_invariant h (fun s e t hs hok hst => hs.killNext hok hst) (hm n)
  exact (hall.last hr).once

/-- `kill_all` ends and kills each channel at most once when no kill finds that the response
thread has ended well, and only then if nobody lets go of a channel in the meantime. -/
theorem kill_all_once (force umdOnly : Bool) (chans : OrderedMap κ ActiveChannel)
    (env : ℕ → KillTurn κ) :
    ((∀ n, Exec.Meets (killNext force umdOnly) (FindsThread force umdOnly) ⟨chans, []⟩
        (Exec.firsts env n)) → KillsOnce force umdOnly env ⟨chans, []⟩) ∧
      ((∀ n, (env n).Keeps) → KillsOnce force umdOnly env ⟨chans, []⟩ →
        ∀ n, Exec.Meets (killNext force umdOnly) (FindsThread force umdOnly) ⟨chans, []⟩
          (Exec.firsts env n)) := by
  constructor
  · intro hm
    have hinit : (⟨chans, []⟩ : ActiveContexts κ).Inv := ⟨List.nodup_nil, by simp⟩
    exact ⟨ends_of_findsThread hm, fun n t => hinit.once_of_findsThread hm n⟩
  · intro hkeeps h
    refine h.ends.meets (J := fun s => umdOnly = false ∧ Stuck force s.contextChans) ?_ ?_ hkeeps
    · intro s e _ hok
      obtain ⟨humd, t, ht, hstuck⟩ := stuck_of_not_findsThread hok
      exact ⟨t, ht, humd, hstuck⟩
    · rintro s e he ⟨rfl, hstuck⟩
      obtain ⟨t, ht, hstuck⟩ := killNext_stuck he hstuck
      exact ⟨t, ht, rfl, hstuck⟩

/-- The thread of a channel has not ended, or it ended with the channel killed. -/
def Attached (m : OrderedMap κ ActiveChannel) : Prop :=
  ∀ c ch, (c, ch) ∈ m → ch.killed = true ∨ ch.self = true

theorem Attached.alter (h : Attached m) (hf : ∀ ch ch', f ch = some ch' →
      ch.killed = true ∨ ch.self = true → ch'.killed = true ∨ ch'.self = true) :
    Attached (m.alter c f) := by
  intro c' ch' hm'
  obtain ⟨hm, _⟩ | ⟨_, ch, hm, he⟩ := OrderedMap.mem_alter.mp hm'
  · exact h c' ch' hm
  · exact hf ch ch' he (h c ch hm)

omit [LinearOrder κ] in
theorem effect_attached (hev : ∀ c, ev ≠ .exit c false) (he : ev.effect ch = some ch')
    (h : ch.killed = true ∨ ch.self = true) : ch'.killed = true ∨ ch'.self = true := by
  cases ev with
  | exit c abnormal =>
    cases abnormal with
    | false => exact absurd rfl (hev c)
    | true =>
      simp only [effect, ActiveChannel.exitThread] at he
      split at he
      · exact .inl (ActiveChannel.killed_of_exit he)
      · exact Option.some.inj he ▸ h
  | fatal =>
    simp only [effect, ActiveChannel.setKillOnExit] at he
    split at he <;> obtain rfl := Option.some.inj he <;> exact h
  | release =>
    simp only [effect, ActiveChannel.release, Option.ite_none_right_eq_some] at he
    obtain rfl := Option.some.inj he.2
    exact .inr he.1

theorem Attached.applyAll (h : Attached m) (hevs : ∀ c, .exit c false ∉ evs) :
    Attached (applyAll m evs) := by
  induction evs generalizing m with
  | nil => exact h
  | cons ev evs ih =>
    have hev : ∀ c, ev ≠ .exit c false := by
      rintro c rfl
      exact hevs c List.mem_cons_self
    have hfirst : Attached (ev.apply m) := h.alter fun _ _ => effect_attached hev
    exact ih hfirst fun c hc => hevs c (List.mem_cons_of_mem ev hc)

/-- No thread ends well meanwhile. -/
def FailsOnly (e : KillTurn κ) : Prop :=
  ∀ c, .exit c false ∉ e.search ∧ .exit c false ∉ e.test ∧ .exit c false ∉ e.cancel

theorem Attached.kill (h : Attached m) (he : FailsOnly e) :
    Attached (kill umdOnly e c m) := by
  unfold ActiveContexts.kill
  dsimp only
  have htest := h.applyAll fun c => (he c).2.1
  split
  · exact htest
  split
  · exact htest.alter fun _ _ hch _ => .inl (ActiveChannel.killed_of_exit hch)
  · refine ((htest.applyAll fun c => (he c).2.2).alter ?_).alter ?_
    · intro ch ch' hch hatt
      obtain rfl := Option.some.inj hch
      exact hatt
    · exact fun ch ch' hch hatt => .inl (ActiveChannel.killed_of_killJoined hatt hch)

theorem Attached.findsThread {es : List (KillTurn κ)} (h : Attached s.contextChans)
    (hes : ∀ e ∈ es, FailsOnly e) :
    Exec.Meets (killNext force umdOnly) (FindsThread force umdOnly) s es := by
  induction es generalizing s with
  | nil => trivial
  | cons e es ih =>
    have he := hes e List.mem_cons_self
    have hsearch := h.applyAll fun c => (he c).1
    constructor
    · intro _ c _ ch
      exact (hsearch.applyAll fun c => (he c).2.1).applyAll (fun c => (he c).2.2) c ch
    · intro t ht
      obtain ⟨c, _, rfl⟩ := Option.map_eq_some_iff.mp ht
      exact ih (hsearch.kill he) fun e he' => hes e (List.mem_cons_of_mem _ he')

/-- Two contexts, of which the thread of the second fails while the first one is killed. -/
theorem kill_all_once_two_channels :
    KillsOnce true false (fun _ => ⟨[], [], [.exit 1 true]⟩)
      ⟨(OrderedMap.singleton 0 .create).insert 1 .create, []⟩ := by
  refine (kill_all_once true false _ _).1 fun n => Attached.findsThread ?_ ?_
  · intro c ch hm
    simp only [OrderedMap.mem_insert, OrderedMap.mem_singleton, Prod.mk.injEq] at hm
    obtain ⟨_, rfl⟩ | ⟨⟨_, rfl⟩, _⟩ := hm <;> exact .inr rfl
  · intro e he
    obtain ⟨_, rfl⟩ := Exec.mem_firsts he
    simp [FailsOnly]

/-- The thread has handled a fatal event, and then one that ends it, while another thread holds
the context: `wait_all` kills the channel again and again. -/
theorem ended_thread_killed_forever :
    ¬ ∀ (force umdOnly : Bool) (chans : OrderedMap ℕ ActiveChannel) (env : ℕ → KillTurn ℕ),
      KillsOnce force umdOnly env ⟨chans, []⟩ := by
  intro hall
  obtain ⟨n, hn⟩ := (hall false false
    (applyAll (.singleton 0 .create) [.fatal 0, .exit 0 false]) fun _ => .quiet).ends
  have hstuck : Stuck false (⟨applyAll (.singleton 0 .create) [.fatal 0, .exit 0 false], []⟩ :
      ActiveContexts ℕ).contextChans :=
    ⟨0, ⟨false, true, false, false, true, false⟩, List.mem_singleton_self _, rfl, rfl, rfl⟩
  have hquiet : ∀ e ∈ Exec.firsts (fun _ => (.quiet : KillTurn ℕ)) n, e.Keeps := by
    intro e he
    obtain ⟨_, rfl⟩ := Exec.mem_firsts he
    simp [KillTurn.Keeps, KillTurn.quiet]
  obtain ⟨t, ht⟩ := run_of_stuck hstuck hquiet
  cases hn.symm.trans ht

end ActiveContexts

end NNPIHost

import NNPIHost.Context.Destruction

/-! # Paired resources are never destroyed

A successful `nnpiCopyCommand::create_d2d` makes two device resources each other's peer. Nothing
takes the peers away when the copy or the resources are destroyed: `unpair_d2d_devreses` has no
caller, and `update_peers` only takes back a pair of which the second half failed. The two
resources hold each other, and with them their contexts and the channels of these.
-/

namespace NNPIHost.Lifetime

open Memory Relation Store

namespace Obj

/-- An assignment to other fields than the peer of a resource and the channel of a context. -/
def Keeps (f : Obj → Option Obj) : Prop :=
  ∀ o o', f o = some o' → o.kind ≠ .devRes ∧ o'.kind = o.kind ∧ o'.chan? = o.chan?

theorem keeps_setThis (x : Option ℕ) : Keeps (setThis x) := by
  intro o o' h
  cases o <;> cases h <;> exact ⟨by simp [kind], rfl, rfl⟩

theorem keeps_addRing (r : ℕ) : Keeps (addRing r) := by
  intro o o' h
  cases o <;> cases h <;> exact ⟨by simp [kind], rfl, rfl⟩

theorem keeps_insertObj (x : ℕ) : Keeps (insertObj x) := by
  intro o o' h
  cases o <;> cases h
  exact ⟨by simp [kind], rfl, rfl⟩

theorem keeps_eraseObj (x : ℕ) : Keeps (eraseObj x) := by
  intro o o' h
  cases o <;> cases h
  exact ⟨by simp [kind], rfl, rfl⟩

theorem keeps_clearObjs : Keeps clearObjs := by
  intro o o' h
  cases o <;> cases h
  exact ⟨by simp [kind], rfl, rfl⟩

theorem keeps_addDevRes (rs : List ℕ) : Keeps (addDevRes rs) := by
  intro o o' h
  cases o <;> cases h
  exact ⟨by simp [kind], rfl, rfl⟩

theorem keeps_append (x : ℕ) : Keeps (append x) := by
  intro o o' h
  cases o <;> cases h
  exact ⟨by simp [kind], rfl, rfl⟩

theorem keeps_setHostres (h : Option ℕ) : Keeps (setHostres h) := by
  intro o o' h
  cases o <;> cases h
  exact ⟨by simp [kind], rfl, rfl⟩

theorem keeps_addFailed (h : ℕ) : Keeps (addFailed h) := by
  intro o o' h
  cases o <;> cases h <;> exact ⟨by simp [kind], rfl, rfl⟩

theorem keeps_clearFailed : Keeps clearFailed := by
  intro o o' h
  cases o <;> cases h <;> exact ⟨by simp [kind], rfl, rfl⟩

end Obj

namespace State

variable {s s' : State} {as bs : List Act} {x : ℕ} {o : Obj}

/-- Two device resources that are each other's peer. -/
def Paired (s : State) (r p : ℕ) : Prop :=
  ∃ c c', (r, .devRes c (some p)) ∈ s.objs ∧ (p, .devRes c' (some r)) ∈ s.objs

/-- A device resource with its peer, its context and the channel of its context. -/
structure Side (s : State) (r p c ch : ℕ) : Prop where
  devRes : (r, .devRes c (some p)) ∈ s.objs
  context : ∃ k, (c, .infContext k) ∈ s.objs ∧ k.chan = some ch
  channel : ∃ k, (ch, .channel k) ∈ s.objs

/-- Both resources of a pair. -/
structure Circle (s : State) (r p c c' ch ch' : ℕ) : Prop where
  first : s.Side r p c ch
  second : s.Side p r c' ch'

/-- A statement that assigns the peer of one of two resources. -/
def Repairs (r p : ℕ) : Act → Prop
  | .pair _ x _ | .unpair _ x => x = r ∨ x = p
  | _ => False

variable {r p c c' ch ch' : ℕ}

theorem Ok.side (h : s.Ok) (hr : (r, .devRes c (some p)) ∈ s.objs) : ∃ ch, s.Side r p c ch := by
  obtain ⟨o, ho, hchan⟩ := h.formed.ready _ hr c rfl
  have hctx := OrderedMap.find?_eq_some.mp ho
  cases o with
  | infContext k =>
    obtain ⟨ch, hch⟩ := Option.isSome_iff_exists.mp hchan
    have hk : k.chan = some ch := hch
    have hpoints : ([.channel], ch) ∈ (Obj.infContext k).typedRefs := by
      simp [Obj.typedRefs, Obj.down, hk]
    obtain ⟨o', ho', hkind⟩ := h.formed.kinds.points h.formed.kept hctx hpoints
    cases o' with
    | channel k' => exact ⟨ch, hr, ⟨k, hctx, hk⟩, k', ho'⟩
    | _ => simp [Obj.kind] at hkind
  | _ => cases hchan

theorem Circle.congr (h : s.Circle r p c c' ch ch') (hobjs : s'.objs = s.objs) :
    s'.Circle r p c c' ch ch' := by
  obtain ⟨⟨hr, hc, hch⟩, hp, hc', hch'⟩ := h
  constructor <;> constructor <;> rwa [hobjs]

/-- Each of the objects is held by one of them, so none of them is destroyed. -/
theorem Circle.release {pending : List ℕ} (h : s.Circle r p c c' ch ch') :
    (s.release pending).Circle r p c c' ch ch' := by
  obtain ⟨⟨hr, ⟨k, hk, hchan⟩, n, hn⟩, hp, ⟨k', hk', hchan'⟩, n', hn'⟩ := h
  let circle := [r, p, c, c', ch, ch']
  have hcircle : ∀ x, x ∈ circle → ∃ y, y ∈ circle ∧ Refers Obj.refs s.objs y x := by
    intro x hx
    simp only [circle, List.mem_cons, List.not_mem_nil, or_false] at hx
    rcases hx with rfl | rfl | rfl | rfl | rfl | rfl
    · exact ⟨p, by simp [circle], _, hp, by simp [Obj.refs, Obj.typedRefs, Obj.loops]⟩
    · exact ⟨r, by simp [circle], _, hr, by simp [Obj.refs, Obj.typedRefs, Obj.loops]⟩
    · exact ⟨r, by simp [circle], _, hr, by simp [Obj.refs, Obj.typedRefs, Obj.down]⟩
    · exact ⟨p, by simp [circle], _, hp, by simp [Obj.refs, Obj.typedRefs, Obj.down]⟩
    · exact ⟨c, by simp [circle], _, hk, by simp [Obj.refs, Obj.typedRefs, Obj.down, hchan]⟩
    · exact ⟨c', by simp [circle], _, hk', by simp [Obj.refs, Obj.typedRefs, Obj.down, hchan']⟩
  have hkept : ∀ {x o}, (x, o) ∈ s.objs → x ∈ circle → (x, o) ∈ (s.release pending).objs :=
    fun ho hx => mem_dropAll_of_circle hcircle ho hx
  exact ⟨⟨hkept hr (by simp [circle]), ⟨k, hkept hk (by simp [circle]), hchan⟩,
      n, hkept hn (by simp [circle])⟩,
    hkept hp (by simp [circle]), ⟨k', hkept hk' (by simp [circle]), hchan'⟩,
      n', hkept hn' (by simp [circle])⟩

theorem Side.insert (h : s.Side r p c ch) (hok : s.Ok) (hobjs : s'.objs = s.objs.insert s.next o) :
    s'.Side r p c ch := by
  have hmem : ∀ e ∈ s.objs, e ∈ s'.objs := by
    intro e he
    have hne : e.1 ≠ s.next := (hok.formed.fresh _ (OrderedMap.mem_keys.mpr ⟨e.2, he⟩)).ne
    rw [hobjs]
    exact OrderedMap.mem_insert.mpr (.inr ⟨he, hne⟩)
  obtain ⟨hr, ⟨k, hk, hchan⟩, n, hn⟩ := h
  exact ⟨hmem _ hr, ⟨k, hmem _ hk, hchan⟩, n, hmem _ hn⟩

theorem Circle.insert (h : s.Circle r p c c' ch ch') (hok : s.Ok)
    (hobjs : s'.objs = s.objs.insert s.next o) : s'.Circle r p c c' ch ch' :=
  ⟨h.first.insert hok hobjs, h.second.insert hok hobjs⟩

theorem Side.replace {o' : Obj} (h : s.Side r p c ch) (hx : (x, o) ∈ s.objs) (hne : x ≠ r)
    (hkind : o'.kind = o.kind) (hchan : ∀ y, o.chan? = some y → o'.chan? = some y) :
    ({ s with objs := s.objs.insert x o' } : State).Side r p c ch := by
  obtain ⟨hr, ⟨k, hk, hk'⟩, n, hn⟩ := h
  refine ⟨OrderedMap.mem_insert.mpr (.inr ⟨hr, hne.symm⟩), ?_, ?_⟩
  · by_cases hxc : c = x
    · subst hxc
      obtain rfl := eq_of_mem hx hk
      have hch := hchan ch hk'
      cases o' with
      | infContext k' => exact ⟨k', OrderedMap.mem_insert.mpr (.inl rfl), hch⟩
      | _ => simp [Obj.kind] at hkind
    · exact ⟨k, OrderedMap.mem_insert.mpr (.inr ⟨hk, hxc⟩), hk'⟩
  · by_cases hxc : ch = x
    · subst hxc
      obtain rfl := eq_of_mem hx hn
      cases o' with
      | channel n' => exact ⟨n', OrderedMap.mem_insert.mpr (.inl rfl)⟩
      | _ => simp [Obj.kind] at hkind
    · exact ⟨n, OrderedMap.mem_insert.mpr (.inr ⟨hn, hxc⟩)⟩

theorem Circle.update {f : Obj → Option Obj} (h : s.Circle r p c c' ch ch')
    (hu : s.update x f = some s')
    (hf : ∀ o o', (x, o) ∈ s.objs → f o = some o' → (x ≠ r ∧ x ≠ p) ∧ o'.kind = o.kind ∧
      ∀ y, o.chan? = some y → o'.chan? = some y) : s'.Circle r p c c' ch ch' := by
  obtain ⟨o, o', hx, ho', rfl⟩ := update_eq_some hu
  obtain ⟨⟨hr, hp⟩, hkind, hchan⟩ := hf o o' hx ho'
  exact Circle.release
    ⟨h.first.replace hx hr hkind hchan, h.second.replace hx hp hkind hchan⟩

theorem Circle.keep {f : Obj → Option Obj} (h : s.Circle r p c c' ch ch')
    (hu : s.update x f = some s') (hf : Obj.Keeps f) : s'.Circle r p c c' ch ch' := by
  refine h.update hu fun o o' hx ho => ?_
  obtain ⟨hne, hkind, hchan⟩ := hf o o' ho
  refine ⟨⟨?_, ?_⟩, hkind, fun y hy => hchan.trans hy⟩
  · rintro rfl
    exact hne (by rw [eq_of_mem hx h.first.devRes]; rfl)
  · rintro rfl
    exact hne (by rw [eq_of_mem hx h.second.devRes]; rfl)

theorem Circle.setPeer {peer : Option ℕ} (h : s.Circle r p c c' ch ch')
    (hu : s.update x (Obj.setPeer peer) = some s') (hne : x ≠ r ∧ x ≠ p) :
    s'.Circle r p c c' ch ch' := by
  refine h.update hu fun o o' _ ho => ⟨hne, ?_⟩
  cases o <;> cases ho
  exact ⟨rfl, fun _ hy => hy⟩

theorem Circle.newChannel {t c₀ q d : ℕ} {started : Bool} (h : s.Circle r p c c' ch ch')
    (hok : s.Ok) (hs : s.newChannel t c₀ q d started = some s') : s'.Circle r p c c' ch ch' := by
  rw [State.newChannel] at hs
  split at hs
  next hpre =>
    cases started with
    | false =>
      cases hs
      exact h.congr rfl
    | true =>
      refine Circle.update (h.insert hok rfl) hs fun o o' hx ho => ?_
      cases o with
      | infContext k =>
        obtain ⟨-, -, -, hnone⟩ := hpre
        have hmem : (c₀, Obj.infContext k) ∈ s.objs := by
          rcases OrderedMap.mem_insert.mp hx with heq | ⟨hmem, -⟩
          · cases heq
          · exact hmem
        refine ⟨⟨?_, ?_⟩, ?_, fun y hy => ?_⟩
        · rintro rfl
          cases eq_of_mem hmem h.first.devRes
        · rintro rfl
          cases eq_of_mem hmem h.second.devRes
        · cases ho
          rfl
        · exact absurd ⟨_, OrderedMap.find?_eq_some.mpr hmem, Option.isSome_iff_exists.mpr ⟨y, hy⟩⟩
            hnone
      | _ => cases ho
  next => cases hs

theorem Circle.step {a : Act} (h : s.Circle r p c c' ch ch') (hok : s.Ok)
    (ha : ¬ Repairs r p a) (hs : s.step a = some s') : s'.Circle r p c c' ch ch' := by
  have hkeep : ∀ {f : Obj → Option Obj} {s₁ : State} {x : ℕ}, s₁.update x f = some s' →
      s₁.objs = s.objs → Obj.Keeps f → s'.Circle r p c c' ch ch' :=
    fun hu hobjs hf => Circle.keep (h.congr hobjs) hu hf
  cases a with
  | lockWeak t x =>
    rw [State.step] at hs
    split at hs
    · cases hs; exact h.congr rfl
    · cases hs
  | find t x =>
    rw [State.step] at hs
    split at hs
    · cases hs; exact h.congr rfl
    · cases hs
  | load t y x =>
    rw [State.step] at hs
    split at hs
    · cases hs; exact h.congr rfl
    · cases hs
  | fetch t ch x =>
    obtain ⟨th, -, hs⟩ := Option.bind_eq_some_iff.mp hs
    split at hs
    · cases hs; exact h.congr rfl
    · cases hs
  | new t o =>
    rw [State.step] at hs
    split at hs
    · cases hs; exact h.insert hok rfl
    · cases hs
  | newChannel t c q d started => exact h.newChannel hok hs
  | setThis t c =>
    rw [State.step] at hs
    split at hs
    · exact hkeep hs rfl (Obj.keeps_setThis _)
    · cases hs
  | newRing t ch q =>
    have hs : s.newRing t ch q = some s' := hs
    rw [State.newRing] at hs
    split at hs
    · exact Circle.keep (h.insert hok rfl) hs (Obj.keeps_addRing _)
    · cases hs
  | keepRing t c q =>
    rw [State.step] at hs
    split at hs
    · exact hkeep hs rfl (Obj.keeps_addRing _)
    · cases hs
  | insertObj t c x =>
    rw [State.step] at hs
    split at hs
    · exact hkeep hs rfl (Obj.keeps_insertObj _)
    · cases hs
  | addDevRes t n rs =>
    rw [State.step] at hs
    split at hs
    · exact hkeep hs rfl (Obj.keeps_addDevRes _)
    · cases hs
  | append t l x =>
    rw [State.step] at hs
    split at hs
    · exact hkeep hs rfl (Obj.keeps_append _)
    · cases hs
  | setHostres t y q =>
    rw [State.step] at hs
    split at hs
    · exact hkeep hs rfl (Obj.keeps_setHostres _)
    · cases hs
  | resetHostres y => exact hkeep hs rfl (Obj.keeps_setHostres _)
  | addFailed x q =>
    rw [State.step] at hs
    split at hs
    · exact hkeep hs rfl (Obj.keeps_addFailed _)
    · cases hs
  | clearFailed x => exact hkeep hs rfl Obj.keeps_clearFailed
  | pair t x q =>
    rw [State.step] at hs
    split at hs
    · exact h.setPeer hs (not_or.mp ha)
    · cases hs
  | unpair t x =>
    rw [State.step] at hs
    split at hs
    · exact h.setPeer hs (not_or.mp ha)
    · cases hs
  | makeHandle t x =>
    rw [State.step] at hs
    split at hs
    · cases hs; exact h.congr rfl
    · cases hs
  | removeHandle x =>
    rw [State.step] at hs
    split at hs
    · cases hs; exact Circle.release (h.congr rfl)
    · cases hs
  | endCall t =>
    have hs : s.endCall t = some s' := hs
    rw [State.endCall] at hs
    split at hs
    · cases hs
    · cases hs; exact Circle.release (h.congr rfl)
  | removeObj t c x =>
    rw [State.step] at hs
    split at hs
    · exact hkeep hs rfl (Obj.keeps_eraseObj _)
    · cases hs
  | eraseObj ch x =>
    obtain ⟨th, -, hs⟩ := Option.bind_eq_some_iff.mp hs
    exact hkeep hs rfl (Obj.keeps_eraseObj _)
  | clearAll ch =>
    obtain ⟨th, -, hs⟩ := Option.bind_eq_some_iff.mp hs
    exact hkeep hs rfl Obj.keeps_clearObjs
  | exitHandler ch =>
    obtain ⟨th, -, hs⟩ := Option.bind_eq_some_iff.mp hs
    exact hkeep hs rfl (Obj.keeps_setThis _)
  | exitThread ch =>
    obtain ⟨th, -, hs⟩ := Option.bind_eq_some_iff.mp hs
    exact hkeep hs rfl (Obj.keeps_setThis _)

/-- Once two resources are paired, and as long as neither is given another peer, neither they nor
their contexts nor the channels of these are destroyed, so that `wait_all` never returns. -/
theorem paired_never_destroyed (hr : Exec.run State.step init as = some s) (hpair : s.Paired r p)
    (hrun : Exec.run State.step s bs = some s') (hno : ∀ a ∈ bs, ¬ Repairs r p a) :
    (∃ c c' ch ch', s.Circle r p c c' ch ch' ∧ s'.Circle r p c c' ch ch') ∧ ¬ s'.NoChannels := by
  obtain ⟨c, c', hfirst, hsecond⟩ := hpair
  have hok := ok_run hr
  obtain ⟨ch, hside⟩ := hok.side hfirst
  obtain ⟨ch', hside'⟩ := hok.side hsecond
  have hm : Exec.Meets State.step (fun _ a => ¬ Repairs r p a) s bs :=
    .of_forall_mem fun a ha _ => hno a ha
  have halways : Exec.Always State.step (fun s => s.Ok ∧ s.Circle r p c c' ch ch') s bs :=
    Exec.always_of_invariant ⟨hok, hside, hside'⟩
      (fun _ _ _ h ha hs => ⟨h.1.step hs, h.2.step h.1 ha hs⟩) hm
  have hcircle := (halways.last hrun).2
  refine ⟨⟨c, c', ch, ch', ⟨hside, hside'⟩, hcircle⟩, fun hnone => ?_⟩
  obtain ⟨k, hk⟩ := hcircle.first.channel
  exact hnone _ hk rfl

theorem paired_never_destroyed_closed : ∃ s s', Exec.run State.step init
      [.new 0 .hostProc, .new 0 (.device 0), .new 0 (.infContext {}), .newChannel 0 2 0 1 true,
        .setThis 0 2, .new 0 (.devRes 2 none), .new 0 (.devRes 2 none), .pair 0 4 5,
        .pair 0 5 4] = some s ∧
    Exec.run State.step s [.endCall 0, .exitHandler 3, .exitThread 3] = some s' ∧
    (∃ c c' ch ch', s.Circle 4 5 c c' ch ch' ∧ s'.Circle 4 5 c c' ch ch') ∧ ¬ s'.NoChannels := by
  have hrun : ((Exec.run State.step init
      [.new 0 .hostProc, .new 0 (.device 0), .new 0 (.infContext {}), .newChannel 0 2 0 1 true,
        .setThis 0 2, .new 0 (.devRes 2 none), .new 0 (.devRes 2 none), .pair 0 4 5,
        .pair 0 5 4]).map fun s =>
      (s.objs.find? 4, s.objs.find? 5,
        (Exec.run State.step s [.endCall 0, .exitHandler 3, .exitThread 3]).isSome)) =
      some (some (.devRes 2 (some 5)), some (.devRes 2 (some 4)), true) := by
    decide +kernel
  obtain ⟨s, hs, heq⟩ := Option.map_eq_some_iff.mp hrun
  obtain ⟨h4, heq⟩ := Prod.mk.inj heq
  obtain ⟨h5, hsome⟩ := Prod.mk.inj heq
  obtain ⟨s', hs'⟩ := Option.isSome_iff_exists.mp hsome
  exact ⟨s, s', hs, hs', paired_never_destroyed hs
    ⟨2, 2, OrderedMap.find?_eq_some.mp h4, OrderedMap.find?_eq_some.mp h5⟩ hs' (by simp [Repairs])⟩

end State

end NNPIHost.Lifetime

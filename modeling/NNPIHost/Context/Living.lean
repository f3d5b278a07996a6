import NNPIHost.Context.Lifetime

/-! # What every statement keeps

All pointers, those of objects and those of local variables, point to live objects of the right
kinds, and a live object has a pointer to it. A response thread has its channel, which holds
itself, and until its handler has returned true it has its context: the context holds itself too,
or the call that creates it has yet to end.
-/

namespace NNPIHost.Lifetime

open Memory Relation Store

namespace Obj

/-- Objects that the response thread or the card would not leave alone have a channel. -/
def NeedsChan (o : Obj) : Prop := o.kind = .infContext ∧ o.loops ≠ []

end Obj

namespace Heap

def this? (m : Heap) (x : ℕ) : Option ℕ := (m.find? x).bind Obj.this?

def chan? (m : Heap) (x : ℕ) : Option ℕ := (m.find? x).bind Obj.chan?

variable {m : Heap} {x y : ℕ} {o : Obj} {k : Kind}

theorem mem_of_kind? (h : kind? m x = some k) : ∃ o, (x, o) ∈ m ∧ o.kind = k := by
  obtain ⟨o, ho, hk⟩ := Option.map_eq_some_iff.mp h
  exact ⟨o, OrderedMap.find?_eq_some.mp ho, hk⟩

theorem keys_of_kind? (h : kind? m x = some k) : x ∈ m.keys := by
  obtain ⟨o, ho, -⟩ := mem_of_kind? h
  exact OrderedMap.mem_keys.mpr ⟨o, ho⟩

theorem this?_refers (h : this? m x = some y) : Refers Obj.refs m x y := by
  obtain ⟨o, ho, hy⟩ := Option.bind_eq_some_iff.mp h
  refine ⟨o, OrderedMap.find?_eq_some.mp ho, ?_⟩
  cases o <;> simp_all [Obj.this?, Obj.refs, Obj.typedRefs, Obj.loops]

theorem mem_of_chan? (h : chan? m x = some y) :
    ∃ k, (x, .infContext k) ∈ m ∧ k.chan = some y := by
  obtain ⟨o, ho, hoc⟩ := Option.bind_eq_some_iff.mp h
  cases o with
  | infContext k => exact ⟨k, OrderedMap.find?_eq_some.mp ho, hoc⟩
  | _ => cases hoc

theorem keys_of_chan? (h : chan? m x = some y) : x ∈ m.keys := by
  obtain ⟨k, hk, -⟩ := mem_of_chan? h
  exact OrderedMap.mem_keys.mpr ⟨_, hk⟩

theorem this?_of_mem (h : (x, o) ∈ m) : this? m x = o.this? := by
  rw [this?, OrderedMap.find?_eq_some.mpr h, Option.bind_some]

theorem chan?_of_mem (h : (x, o) ∈ m) : chan? m x = o.chan? := by
  rw [chan?, OrderedMap.find?_eq_some.mpr h, Option.bind_some]

theorem kind?_insert : kind? (m.insert x o) y = if y = x then some o.kind else kind? m y := by
  rw [kind?, OrderedMap.find?_insert]
  split <;> rfl

theorem this?_insert : this? (m.insert x o) y = if y = x then o.this? else this? m y := by
  rw [this?, OrderedMap.find?_insert]
  split <;> rfl

theorem chan?_insert : chan? (m.insert x o) y = if y = x then o.chan? else chan? m y := by
  rw [chan?, OrderedMap.find?_insert]
  split <;> rfl

end Heap

/-- What holds of the response threads. -/
structure Threaded (m : Heap) (threads : List ResponseThread) (creating held : List (ℕ × ℕ)) :
    Prop where
  chan : ∀ th ∈ threads, m.kind? th.chan = some .channel ∧ m.this? th.chan = some th.chan
  ctx : ∀ th ∈ threads, th.exiting = false → m.chan? th.ctx = some th.chan ∧
    (m.this? th.ctx = some th.ctx ∨ ∃ t, (t, th.ctx) ∈ creating)
  left : ∀ x, m.kind? x = some .channel → m.this? x ≠ none → ∃ th ∈ threads, th.chan = x
  distinct : (threads.map ResponseThread.chan).Nodup
  creating : ∀ e ∈ creating, e ∈ held ∧ ∃ ch, m.chan? e.2 = some ch

namespace State

variable (s : State)

def Threaded : Prop := Lifetime.Threaded s.objs s.threads s.creating s.held

/-- What holds of the objects, with references still to be dropped. -/
structure Formed (s : State) (pending : List ℕ) : Prop where
  kept : Kept Obj.refs (s.roots ++ pending) s.objs
  kinds : s.objs.WellKinded
  fresh : ∀ x ∈ s.objs.keys, x < s.next
  gone : ∀ x ∈ s.destroyed.map Prod.fst, x < s.next ∧ x ∉ s.objs.keys
  once : (s.destroyed.map Prod.fst).Nodup
  ran : ∀ e ∈ s.destroyed, e.2.isSome
  ready : ∀ e ∈ s.objs, ∀ c ∈ e.2.ctx?, s.HasChan c
  withChan : ∀ e ∈ s.objs, e.2.NeedsChan → e.2.HasChan

variable {s} {pending : List ℕ} {x y t : ℕ} {o o' : Obj} {k : Kind}

theorem Formed.dropped (h : s.Formed pending) :
    Dropped Obj.refs destructor s.roots s.objs (drop Obj.refs destructor s.roots s.objs pending) :=
  dropped_drop h.kept

theorem Formed.find?_release (h : s.Formed pending) (hx : x ∈ (s.release pending).objs.keys) :
    (s.release pending).objs.find? x = s.objs.find? x := h.dropped.find? hx

theorem Formed.release (h : s.Formed pending) : (s.release pending).Formed [] := by
  have hd := h.dropped
  have hmem : ∀ e, e ∈ (s.release pending).objs → e ∈ s.objs := fun e he => ((hd.left e).mp he).1
  have hkept : Kept Obj.refs s.roots (s.release pending).objs := hd.kept
  have hlog : (s.release pending).destroyed.map Prod.fst = s.destroyed.map Prod.fst ++
      (drop Obj.refs destructor s.roots s.objs pending).2.map Prod.fst := List.map_append
  refine ⟨?_, ?_, ?_, ?_, ?_, ?_, ?_, ?_⟩
  · rw [List.append_nil]
    exact hkept
  · exact fun e he r hr o' ho' => h.kinds e (hmem e he) r hr o' (hmem _ ho')
  · exact fun x hx => h.fresh x (hd.mem_keys.mp hx).1
  · intro x hx
    rw [hlog] at hx
    rcases List.mem_append.mp hx with hx | hx
    · exact ⟨(h.gone x hx).1, fun hlive => (h.gone x hx).2 (hd.mem_keys.mp hlive).1⟩
    · exact ⟨h.fresh x (hd.lived x hx), fun hlive => (hd.mem_keys.mp hlive).2 hx⟩
  · rw [hlog]
    refine List.nodup_append.mpr ⟨h.once, hd.once, ?_⟩
    rintro x hx y hy rfl
    exact (h.gone x hx).2 (hd.lived x hy)
  · intro e he
    rcases List.mem_append.mp he with he | he
    · exact h.ran e he
    · obtain ⟨roots', m', o, hkept', hsub, ho, hdtor⟩ := hd.ran e he
      have hkinds : Heap.WellKinded m' := fun e he r hr o' ho' =>
        h.kinds e (hsub e he) r hr o' (hsub _ ho')
      rw [hdtor]
      refine hkinds.destructor hkept' ho fun c hc => ?_
      obtain ⟨o₁, ho₁, hchan⟩ := h.ready _ (hsub _ ho) c hc
      have href : Refers Obj.refs m' e.1 c := ⟨o, ho, Obj.ctx?_mem_refs hc⟩
      obtain ⟨o₂, ho₂⟩ := OrderedMap.mem_keys.mp (href.live hkept').2
      have hsame := OrderedMap.eq_of_key_eq (hsub _ ho₂) (OrderedMap.find?_eq_some.mp ho₁) rfl
      exact ⟨o₂, ho₂, (Prod.mk.inj hsame).2 ▸ hchan⟩
  · intro e he c hc
    obtain ⟨o, ho, hchan⟩ := h.ready e (hmem e he) c hc
    have hlive : c ∈ (s.release pending).objs.keys :=
      (Refers.live hkept ⟨e.2, he, Obj.ctx?_mem_refs hc⟩).2
    exact ⟨o, by rw [h.find?_release hlive]; exact ho, hchan⟩
  · exact fun e he => h.withChan e (hmem e he)

/-- A thread's channel, and its context while it may run on it, are never destroyed. -/
theorem Threaded.release (h : s.Threaded) (hf : s.Formed pending) :
    (s.release pending).Threaded := by
  have hd := hf.dropped
  have hself : ∀ x, s.objs.this? x = some x → x ∈ (s.release pending).objs.keys := by
    intro x hx
    have href := Heap.this?_refers hx
    exact hd.mem_keys.mpr ⟨(href.live hf.kept).1, hd.not_mem_of_cycle (.single href)⟩
  have hheld : ∀ e ∈ s.creating, e.2 ∈ (s.release pending).objs.keys := fun e he =>
    (hd.kept _).mpr (.inl (List.mem_append_right _ (List.mem_map_of_mem (h.creating e he).1)))
  have hkind : ∀ x ∈ (s.release pending).objs.keys,
      (s.release pending).objs.kind? x = s.objs.kind? x := fun x hx =>
    congrArg (Option.map Obj.kind) (hf.find?_release hx)
  have hthis : ∀ x ∈ (s.release pending).objs.keys,
      (s.release pending).objs.this? x = s.objs.this? x := fun x hx =>
    congrArg (Option.bind · Obj.this?) (hf.find?_release hx)
  have hchan : ∀ x ∈ (s.release pending).objs.keys,
      (s.release pending).objs.chan? x = s.objs.chan? x := fun x hx =>
    congrArg (Option.bind · Obj.chan?) (hf.find?_release hx)
  refine ⟨?_, ?_, ?_, h.distinct, ?_⟩
  · intro th hth
    obtain ⟨hk, hth'⟩ := h.chan th hth
    have hlive := hself _ hth'
    exact ⟨(hkind _ hlive).trans hk, (hthis _ hlive).trans hth'⟩
  · intro th hth hex
    obtain ⟨hch, hth'⟩ := h.ctx th hth hex
    have hlive : th.ctx ∈ (s.release pending).objs.keys :=
      hth'.elim (hself _) fun ⟨_, ht⟩ => hheld _ ht
    exact ⟨(hchan _ hlive).trans hch, hth'.imp_left (hthis _ hlive).trans⟩
  · intro x hk hne
    have hlive := Heap.keys_of_kind? hk
    exact h.left x ((hkind x hlive).symm.trans hk) fun hnone => hne ((hthis x hlive).trans hnone)
  · intro e he
    obtain ⟨hmem, ch, hch⟩ := h.creating e he
    exact ⟨hmem, ch, (hchan _ (hheld e he)).trans hch⟩

/-- The pointers of an object that may be put in point to live objects of the right kinds. -/
def Pointing (s : State) (r : List Kind × ℕ) : Prop := ∃ k ∈ r.1, s.kind? r.2 = some k

theorem Formed.pointing (h : s.Formed pending) (ho : (x, o) ∈ s.objs) {r : List Kind × ℕ}
    (hr : r ∈ o.typedRefs) : s.Pointing r := by
  have href : Refers Obj.refs s.objs x r.2 := ⟨o, ho, List.mem_map_of_mem hr⟩
  obtain ⟨o', ho'⟩ := OrderedMap.mem_keys.mp (href.live h.kept).2
  exact ⟨o'.kind, h.kinds _ ho r hr o' ho', Heap.kind?_of_mem ho'⟩

theorem Pointing.kind_mem {r : List Kind × ℕ} (h : s.Pointing r) (ho : (r.2, o) ∈ s.objs) :
    o.kind ∈ r.1 := by
  obtain ⟨k, hk, hr⟩ := h
  exact Option.some.inj ((Heap.kind?_of_mem ho).symm.trans hr) ▸ hk

theorem Formed.insertNew (h : s.Formed [])
    (ho : ∀ r ∈ o.typedRefs, s.Pointing r ∨ r.2 = s.next ∧ o.kind ∈ r.1)
    (hctx : ∀ c ∈ o.ctx?, s.HasChan c) (hneeds : ¬ o.NeedsChan) :
    ({ s with objs := s.objs.insert s.next o, next := s.next + 1 } : State).Formed [s.next] := by
  have hfree : s.next ∉ s.objs.keys := fun hk => lt_irrefl _ (h.fresh _ hk)
  have hold : ∀ e, e ∈ s.objs → e.1 ≠ s.next := fun e he heq =>
    hfree (heq ▸ OrderedMap.mem_keys.mpr ⟨e.2, he⟩)
  refine ⟨?_, ?_, ?_, ?_, h.once, h.ran, ?_, ?_⟩
  · have hkept := h.kept.insert_new hfree (o := o) (fun y hy => by
      obtain ⟨r, hr, rfl⟩ := List.mem_map.mp hy
      rcases ho r hr with ⟨k, -, hk⟩ | ⟨heq, -⟩
      · exact .inr (Heap.keys_of_kind? hk)
      · exact .inl heq)
    refine hkept.congr fun x => ?_
    simp only [roots, List.append_nil, List.mem_append, List.mem_cons, List.not_mem_nil, or_false]
    exact or_comm
  · intro e he r hr o' ho'
    rcases OrderedMap.mem_insert.mp he with rfl | ⟨he, -⟩
    · rcases ho r hr with hpoint | ⟨heq, hk⟩
      · rcases OrderedMap.mem_insert.mp ho' with heq | ⟨ho', -⟩
        · obtain ⟨k, -, hk⟩ := hpoint
          exact absurd ((Prod.mk.inj heq).1 ▸ Heap.keys_of_kind? hk) hfree
        · exact hpoint.kind_mem ho'
      · rcases OrderedMap.mem_insert.mp ho' with heq' | ⟨-, hne⟩
        · exact (Prod.mk.inj heq').2 ▸ hk
        · exact absurd heq hne
    · rcases OrderedMap.mem_insert.mp ho' with heq | ⟨ho', -⟩
      · obtain ⟨k, -, hk⟩ := h.pointing he hr
        exact absurd ((Prod.mk.inj heq).1 ▸ Heap.keys_of_kind? hk) hfree
      · exact h.kinds e he r hr o' ho'
  · intro x hx
    rcases OrderedMap.mem_keys_insert.mp hx with rfl | hx
    · exact Nat.lt_succ_self _
    · exact Nat.lt_succ_of_lt (h.fresh x hx)
  · intro x hx
    obtain ⟨hlt, hnot⟩ := h.gone x hx
    refine ⟨Nat.lt_succ_of_lt hlt, fun hlive => ?_⟩
    rcases OrderedMap.mem_keys_insert.mp hlive with rfl | hlive
    · exact lt_irrefl _ hlt
    · exact hnot hlive
  · intro e he c hc
    have hmono : ∀ c, s.HasChan c →
        ({ s with objs := s.objs.insert s.next o, next := s.next + 1 } : State).HasChan c := by
      rintro c ⟨o', ho', hchan⟩
      refine ⟨o', OrderedMap.find?_eq_some.mpr (OrderedMap.mem_insert.mpr (.inr ?_)), hchan⟩
      have hmem := OrderedMap.find?_eq_some.mp ho'
      exact ⟨hmem, hold _ hmem⟩
    rcases OrderedMap.mem_insert.mp he with rfl | ⟨he, -⟩
    · exact hmono c (hctx c hc)
    · exact hmono c (h.ready e he c hc)
  · intro e he hn
    rcases OrderedMap.mem_insert.mp he with rfl | ⟨he, -⟩
    · exact absurd hn hneeds
    · exact h.withChan e he hn

theorem Formed.replace (o' : Obj) (h : s.Formed pending) (hx : (x, o) ∈ s.objs)
    (hkind : o'.kind = o.kind)
    (hnew : ∀ r ∈ o'.typedRefs, r ∈ o.typedRefs ∨ s.Pointing r)
    (hpending : ∀ y ∈ pending, y ∈ o'.refs) (hctx : o'.ctx? = o.ctx?)
    (hchan : o.HasChan → o'.HasChan) (hneeds : o'.NeedsChan → o'.HasChan) :
    ({ s with objs := s.objs.insert x o' } : State).Formed o.refs := by
  have hkey : x ∈ s.objs.keys := OrderedMap.mem_keys.mpr ⟨o, hx⟩
  have hpoint : ∀ r ∈ o'.typedRefs, s.Pointing r := fun r hr =>
    (hnew r hr).elim (h.pointing hx) id
  refine ⟨?_, ?_, ?_, ?_, h.once, h.ran, ?_, ?_⟩
  · have hkept := h.kept.insert_old hx (fun y hy => by
      obtain ⟨r, hr, rfl⟩ := List.mem_map.mp hy
      obtain ⟨k, -, hk⟩ := hpoint r hr
      exact Heap.keys_of_kind? hk)
    intro y
    rw [hkept y]
    simp only [roots, List.mem_append, mem_allRefs_insert]
    have hy := hpending y
    tauto
  · intro e he r hr p hp
    have hold : ∃ p', (r.2, p') ∈ s.objs ∧ p'.kind = p.kind := by
      rcases OrderedMap.mem_insert.mp hp with heq | ⟨hp, -⟩
      · obtain ⟨hr2, rfl⟩ := Prod.mk.inj heq
        exact ⟨o, hr2 ▸ hx, hkind.symm⟩
      · exact ⟨p, hp, rfl⟩
    obtain ⟨p', hp', hk⟩ := hold
    rw [← hk]
    rcases OrderedMap.mem_insert.mp he with rfl | ⟨he, -⟩
    · exact (hpoint r hr).kind_mem hp'
    · exact h.kinds e he r hr p' hp'
  · intro y hy
    rcases OrderedMap.mem_keys_insert.mp hy with rfl | hy
    · exact h.fresh _ hkey
    · exact h.fresh y hy
  · intro y hy
    refine ⟨(h.gone y hy).1, fun hlive => (h.gone y hy).2 ?_⟩
    rcases OrderedMap.mem_keys_insert.mp hlive with rfl | hlive
    · exact hkey
    · exact hlive
  · have hmono : ∀ c, s.HasChan c →
        ({ s with objs := s.objs.insert x o' } : State).HasChan c := by
      rintro c ⟨p, hp, hc⟩
      rw [HasChan, OrderedMap.find?_insert]
      split
      next heq =>
        have hox : p = o := by
          rw [heq, OrderedMap.find?_eq_some.mpr hx] at hp
          exact (Option.some.inj hp).symm
        exact ⟨o', rfl, hchan (hox ▸ hc)⟩
      next => exact ⟨p, hp, hc⟩
    intro e he c hc
    rcases OrderedMap.mem_insert.mp he with rfl | ⟨he, -⟩
    · exact hmono c (h.ready _ hx c (hctx ▸ hc))
    · exact hmono c (h.ready e he c hc)
  · intro e he hn
    rcases OrderedMap.mem_insert.mp he with rfl | ⟨he, -⟩
    · exact hneeds hn
    · exact h.withChan e he hn

theorem Threaded.congr {m : Heap} {held : List (ℕ × ℕ)} (h : s.Threaded)
    (hk : ∀ x ∈ s.objs.keys, m.kind? x = s.objs.kind? x)
    (hthis : ∀ x ∈ s.objs.keys, m.this? x = s.objs.this? x)
    (hchan : ∀ x ∈ s.objs.keys, m.chan? x = s.objs.chan? x)
    (hnew : ∀ x, x ∉ s.objs.keys → m.kind? x = some .channel → m.this? x = none)
    (hheld : ∀ e ∈ s.creating, e ∈ held) : Lifetime.Threaded m s.threads s.creating held := by
  refine ⟨?_, ?_, ?_, h.distinct, ?_⟩
  · intro th hmem
    obtain ⟨hkind, hself⟩ := h.chan th hmem
    have hkey := Heap.keys_of_kind? hkind
    exact ⟨(hk _ hkey).trans hkind, (hthis _ hkey).trans hself⟩
  · intro th hmem hex
    obtain ⟨hch, hself⟩ := h.ctx th hmem hex
    have hkey := Heap.keys_of_chan? hch
    exact ⟨(hchan _ hkey).trans hch, hself.imp_left (hthis _ hkey).trans⟩
  · intro x hkind hne
    by_cases hkey : x ∈ s.objs.keys
    · exact h.left x ((hk x hkey).symm.trans hkind) fun hnone => hne ((hthis x hkey).trans hnone)
    · exact absurd (hnew x hkey hkind) hne
  · intro e he
    obtain ⟨-, ch, hch⟩ := h.creating e he
    exact ⟨hheld e he, ch, (hchan _ (Heap.keys_of_chan? hch)).trans hch⟩

theorem Formed.roots {hs : List ℕ} {held creating : List (ℕ × ℕ)} {ths : List ResponseThread}
    {pending' : List ℕ} (h : s.Formed pending)
    (hr : ∀ y, y ∈ hs ++ held.map Prod.snd ++ pending' ↔ y ∈ s.roots ++ pending) :
    (⟨s.objs, s.next, hs, held, ths, creating, s.destroyed⟩ : State).Formed pending' :=
  ⟨h.kept.congr hr, h.kinds, h.fresh, h.gone, h.once, h.ran, h.ready, h.withChan⟩

structure Ok (s : State) : Prop where
  formed : s.Formed []
  threaded : s.Threaded

theorem ok_init : init.Ok where
  formed := by
    refine ⟨fun x => by simp [roots, init, OrderedMap.keys, OrderedMap.empty, allRefs], ?_, ?_, ?_,
      .nil, ?_, ?_, ?_⟩
    · exact fun e he => absurd he OrderedMap.not_mem_empty
    · exact fun x hx => absurd hx List.not_mem_nil
    · exact fun x hx => absurd hx List.not_mem_nil
    · exact fun e he => absurd he List.not_mem_nil
    · exact fun e he => absurd he OrderedMap.not_mem_empty
    · exact fun e he => absurd he OrderedMap.not_mem_empty
  threaded := by
    refine ⟨fun th hth => absurd hth List.not_mem_nil, fun th hth => absurd hth List.not_mem_nil,
      fun x hk => ?_, .nil, fun e he => absurd he List.not_mem_nil⟩
    exact absurd (Heap.keys_of_kind? hk) List.not_mem_nil

theorem Ok.hold (h : s.Ok) (hx : x ∈ s.objs.keys) :
    ({ s with held := (t, x) :: s.held } : State).Ok where
  formed := by
    refine ⟨(h.formed.kept.hold hx).congr fun y => ?_, h.formed.kinds, h.formed.fresh,
      h.formed.gone, h.formed.once, h.formed.ran, h.formed.ready, h.formed.withChan⟩
    simp only [roots, List.map_cons, List.append_nil, List.mem_append, List.mem_cons]
    tauto
  threaded := h.threaded.congr (fun _ _ => rfl) (fun _ _ => rfl) (fun _ _ => rfl)
    (fun _ hx hk => absurd (Heap.keys_of_kind? hk) hx)
    fun e he => List.mem_cons_of_mem _ (h.threaded.creating e he).1

/-- A statement that assigns to fields other than `m_this` and `m_chan`. -/
structure Plain (s : State) (o o' : Obj) : Prop where
  kind : o'.kind = o.kind
  points : ∀ r ∈ o'.typedRefs, r ∈ o.typedRefs ∨ s.Pointing r
  ctx : o'.ctx? = o.ctx?
  this : o'.this? = o.this?
  chan : o'.chan? = o.chan?
  needs : o'.NeedsChan → o'.HasChan

theorem update_eq_some {f : Obj → Option Obj} {s' : State} (h : s.update x f = some s') :
    ∃ o o', (x, o) ∈ s.objs ∧ f o = some o' ∧
      s' = ({ s with objs := s.objs.insert x o' } : State).release o.refs := by
  rw [update] at h
  split at h
  next => cases h
  next o ho =>
    obtain ⟨o', ho', rfl⟩ := Option.map_eq_some_iff.mp h
    exact ⟨o, o', OrderedMap.find?_eq_some.mp ho, ho', rfl⟩

theorem ok_update {f : Obj → Option Obj} {s' : State} (hf : s.Formed pending) (ht : s.Threaded)
    (hu : s.update x f = some s')
    (hplain : ∀ o o', (x, o) ∈ s.objs → f o = some o' →
      s.Plain o o' ∧ ∀ y ∈ pending, y ∈ o'.refs) : s'.Ok := by
  obtain ⟨o, o', hx, ho', rfl⟩ := update_eq_some hu
  obtain ⟨hp, hpending⟩ := hplain o o' hx ho'
  have hchan : o.HasChan → o'.HasChan := fun h => by rwa [Obj.HasChan, hp.chan]
  have hformed := hf.replace _ hx hp.kind hp.points hpending hp.ctx hchan hp.needs
  refine ⟨hformed.release, Threaded.release ?_ hformed⟩
  refine ht.congr ?_ ?_ ?_ ?_ fun e he => (ht.creating e he).1
  · intro y _
    rw [Heap.kind?_insert, hp.kind]
    split
    next heq => rw [heq, Heap.kind?_of_mem hx]
    next => rfl
  · intro y _
    rw [Heap.this?_insert, hp.this]
    split
    next heq => rw [heq, Heap.this?_of_mem hx]
    next => rfl
  · intro y _
    rw [Heap.chan?_insert, hp.chan]
    split
    next heq => rw [heq, Heap.chan?_of_mem hx]
    next => rfl
  · intro y hy hk
    have hne : y ≠ x := fun heq => hy (heq ▸ OrderedMap.mem_keys.mpr ⟨o, hx⟩)
    rw [Heap.kind?_insert, if_neg hne] at hk
    exact absurd (Heap.keys_of_kind? hk) hy

theorem Ok.update {f : Obj → Option Obj} {s' : State} (h : s.Ok) (hu : s.update x f = some s')
    (hplain : ∀ o o', (x, o) ∈ s.objs → f o = some o' → s.Plain o o') : s'.Ok :=
  ok_update h.formed h.threaded hu fun o o' hx ho =>
    ⟨hplain o o' hx ho, fun _ hy => absurd hy List.not_mem_nil⟩

theorem Threaded.insertNew {held : List (ℕ × ℕ)} (h : s.Threaded) (hf : s.Formed [])
    (hthis : o.this? = none) (hheld : ∀ e ∈ s.creating, e ∈ held) :
    Lifetime.Threaded (s.objs.insert s.next o) s.threads s.creating held := by
  have hne : ∀ y ∈ s.objs.keys, y ≠ s.next := fun y hy => (hf.fresh y hy).ne
  refine h.congr ?_ ?_ ?_ ?_ hheld
  · intro y hy
    rw [Heap.kind?_insert, if_neg (hne y hy)]
  · intro y hy
    rw [Heap.this?_insert, if_neg (hne y hy)]
  · intro y hy
    rw [Heap.chan?_insert, if_neg (hne y hy)]
  · intro y hy hk
    rw [Heap.this?_insert]
    split
    · exact hthis
    next hyn =>
      rw [Heap.kind?_insert, if_neg hyn] at hk
      exact absurd (Heap.keys_of_kind? hk) hy

theorem Threaded.roots {held : List (ℕ × ℕ)} (h : s.Threaded)
    (hheld : ∀ e ∈ s.creating, e ∈ held) :
    Lifetime.Threaded s.objs s.threads s.creating held :=
  h.congr (fun _ _ => rfl) (fun _ _ => rfl) (fun _ _ => rfl)
    (fun _ hx hk => absurd (Heap.keys_of_kind? hk) hx) hheld

end State

end NNPIHost.Lifetime

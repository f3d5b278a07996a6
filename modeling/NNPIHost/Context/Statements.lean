import NNPIHost.Context.Living

/-! # Every statement keeps the pointers in order

One lemma for each kind of statement: those that assign to plain fields, those that set or reset
`m_this`, the start and the end of a response thread, and the end of a call.
-/

namespace NNPIHost.Lifetime

open Memory Relation Store

namespace State

variable {s : State} {pending : List ℕ} {x y t : ℕ} {o o' : Obj} {k : Kind}

theorem Ok.create (h : s.Ok) (hnew : s.CanNew t o) : (s.create t o).Ok := by
  obtain ⟨hloops, hdown, hctx, -⟩ := hnew
  have hthis : o.this? = none := by
    cases o <;> simp_all [Obj.this?, Obj.loops]
  have hformed := h.formed.insertNew (o := o) (fun r hr => by
    rw [Obj.typedRefs, hloops, List.append_nil] at hr
    exact .inl (hdown r hr).2) hctx fun hn => hn.2 hloops
  constructor
  · refine hformed.roots fun y => ?_
    simp only [State.roots, List.map_cons, List.append_nil, List.mem_append, List.mem_cons,
      List.not_mem_nil, or_false]
    tauto
  · exact h.threaded.insertNew h.formed hthis fun e he =>
      List.mem_cons_of_mem _ (h.threaded.creating e he).1

theorem Ok.endCall {s' : State} (h : s.Ok) (he : s.endCall t = some s') : s'.Ok := by
  rw [State.endCall] at he
  split at he
  next => cases he
  next hnone =>
    obtain rfl := Option.some.inj he
    have hsplit : ∀ y, (∃ e ∈ s.held, e.2 = y) ↔
        (∃ e ∈ s.held, e.1 ≠ t ∧ e.2 = y) ∨ ∃ e ∈ s.held, e.1 = t ∧ e.2 = y := by
      intro y
      constructor
      · rintro ⟨e, hmem, rfl⟩
        by_cases het : e.1 = t
        · exact .inr ⟨e, hmem, het, rfl⟩
        · exact .inl ⟨e, hmem, het, rfl⟩
      · rintro (⟨e, hmem, -, rfl⟩ | ⟨e, hmem, -, rfl⟩) <;> exact ⟨e, hmem, rfl⟩
    have hformed : ({ s with held := s.held.filter fun e => e.1 ≠ t } : State).Formed
        ((s.held.filter fun e => e.1 = t).map Prod.snd) := by
      refine h.formed.roots fun y => ?_
      have hy := hsplit y
      simp only [State.roots, List.append_nil, List.mem_append, List.mem_map, List.mem_filter,
        decide_eq_true_eq, and_assoc]
      rw [or_assoc, ← hy]
    refine ⟨hformed.release, Threaded.release (h.threaded.roots fun e hc => ?_) hformed⟩
    refine List.mem_filter.mpr ⟨(h.threaded.creating e hc).1, ?_⟩
    exact decide_eq_true fun het => hnone ⟨e, hc, het⟩

theorem Ok.removeHandle (h : s.Ok) (hx : x ∈ s.handles) :
    (({ s with handles := s.handles.erase x } : State).release [x]).Ok := by
  have hformed : ({ s with handles := s.handles.erase x } : State).Formed [x] := by
    refine h.formed.roots fun y => ?_
    have hy : y ∈ s.handles ↔ y ∈ s.handles.erase x ∨ y = x := by
      by_cases hyx : y = x
      · simp [hyx, hx]
      · simp [List.mem_erase_of_ne hyx, hyx]
    simp only [State.roots, List.append_nil, List.mem_append, List.mem_singleton, hy]
    tauto
  exact ⟨hformed.release, Threaded.release
    (h.threaded.roots fun e he => (h.threaded.creating e he).1) hformed⟩

theorem Threaded.reading (h : s.Threaded) {ch : ℕ} {th : ResponseThread}
    (hr : s.reading? ch = some th) : th ∈ s.threads ∧ th.chan = ch ∧ th.exiting = false ∧
      ∃ k, (th.ctx, .infContext k) ∈ s.objs ∧ k.chan = some ch := by
  have hmem := List.mem_of_find?_eq_some hr
  obtain ⟨hch, hex⟩ : th.chan = ch ∧ th.exiting = false := by simpa using List.find?_some hr
  obtain ⟨k, hk, hkc⟩ := Heap.mem_of_chan? (h.ctx th hmem hex).1
  exact ⟨hmem, hch, hex, k, hk, hch ▸ hkc⟩

theorem eq_of_mem (ho : (x, o) ∈ s.objs) (ho' : (x, o') ∈ s.objs) : o = o' :=
  (Prod.mk.inj (OrderedMap.eq_of_key_eq ho ho' rfl)).2

theorem Formed.setContextThis {c : ℕ} {k : InfContext} (this : Option ℕ) (h : s.Formed [])
    (hk : (c, .infContext k) ∈ s.objs) (hthis : ∀ y ∈ this, y = c) (hchan : k.chan.isSome) :
    ({ s with objs := s.objs.insert c (.infContext { k with this := this }) } : State).Formed
      (Obj.infContext k).refs := by
  refine h.replace _ hk rfl ?_ (fun y hy => absurd hy List.not_mem_nil) rfl id fun _ => hchan
  intro r hr
  simp only [Obj.typedRefs, Obj.loops, List.mem_append, List.mem_map, Option.mem_toList] at hr ⊢
  rcases hr with hr | ⟨y, hy, rfl⟩ | hr
  · exact .inl (.inl hr)
  · obtain rfl := hthis y hy
    exact .inr ⟨.infContext, List.mem_singleton_self _, Heap.kind?_of_mem hk⟩
  · exact .inl (.inr (.inr hr))

theorem Ok.setThis {c : ℕ} {s' : State} (h : s.Ok) (hc : (t, c) ∈ s.creating)
    (hu : ({ s with creating := s.creating.erase (t, c) } : State).update c
      (Obj.setThis (some c)) = some s') : s'.Ok := by
  obtain ⟨o, o', hx, ho', rfl⟩ := update_eq_some hu
  obtain ⟨-, ch, hch⟩ := h.threaded.creating _ hc
  obtain ⟨k, hk, hkc⟩ := Heap.mem_of_chan? hch
  obtain rfl := eq_of_mem hx hk
  obtain rfl := Option.some.inj ho'
  have hbase : ({ s with creating := s.creating.erase (t, c) } : State).Formed [] :=
    h.formed.roots fun _ => .rfl
  have hformed := hbase.setContextThis (some c) hk (by simp) (by rw [hkc]; rfl)
  refine ⟨hformed.release, Threaded.release ?_ hformed⟩
  have hne : ∀ y, s.objs.kind? y = some .channel → y ≠ c := by
    rintro y hy rfl
    rw [Heap.kind?_of_mem hk] at hy
    cases hy
  refine ⟨?_, ?_, ?_, h.threaded.distinct, ?_⟩
  · intro th hth
    obtain ⟨hkind, hself⟩ := h.threaded.chan th hth
    rw [Heap.kind?_insert, if_neg (hne _ hkind), Heap.this?_insert, if_neg (hne _ hkind)]
    exact ⟨hkind, hself⟩
  · intro th hth hex
    obtain ⟨hchan, hself⟩ := h.threaded.ctx th hth hex
    rw [Heap.chan?_insert, Heap.this?_insert]
    split
    next heq =>
      rw [heq, hch] at hchan
      exact ⟨hkc.trans hchan, .inl (congrArg some heq.symm)⟩
    next hthc =>
      refine ⟨hchan, hself.imp_right ?_⟩
      rintro ⟨t', ht'⟩
      exact ⟨t', (List.mem_erase_of_ne fun heq => hthc (Prod.mk.inj heq).2).mpr ht'⟩
  · intro y hkind hthis
    by_cases hyc : y = c
    · subst hyc
      rw [Heap.kind?_insert, if_pos rfl] at hkind
      cases hkind
    · rw [Heap.kind?_insert, if_neg hyc] at hkind
      rw [Heap.this?_insert, if_neg hyc] at hthis
      exact h.threaded.left y hkind hthis
  · intro e he
    obtain ⟨hheld, ch', hch'⟩ := h.threaded.creating e (List.mem_of_mem_erase he)
    refine ⟨hheld, ch', ?_⟩
    rw [Heap.chan?_insert]
    split
    next heq => rwa [heq, hch, ← hkc] at hch'
    next => exact hch'

theorem Ok.exitHandler {ch : ℕ} {s' : State} (h : s.Ok) (hu : s.exitHandler ch = some s') :
    s'.Ok := by
  obtain ⟨th, hth, hu⟩ := Option.bind_eq_some_iff.mp hu
  obtain ⟨hmem, rfl, hex, k, hk, hkc⟩ := h.threaded.reading hth
  obtain ⟨o, o', hx, ho', rfl⟩ := update_eq_some hu
  obtain rfl := eq_of_mem hx hk
  obtain rfl := Option.some.inj ho'
  have hbase : ({ s with threads := ⟨th.chan, th.ctx, true⟩ :: s.threads.erase th } :
      State).Formed [] :=
    h.formed.roots fun _ => .rfl
  have hformed := hbase.setContextThis none hk (by simp) (by rw [hkc]; rfl)
  refine ⟨hformed.release, Threaded.release ?_ hformed⟩
  have hne : ∀ y, s.objs.kind? y = some .channel → y ≠ th.ctx := by
    rintro y hy rfl
    rw [Heap.kind?_of_mem hk] at hy
    cases hy
  have hchans : ((⟨th.chan, th.ctx, true⟩ :: s.threads.erase th).map ResponseThread.chan).Perm
      (s.threads.map ResponseThread.chan) := by
    have hperm := (List.perm_cons_erase hmem).map ResponseThread.chan
    exact hperm.symm
  refine ⟨?_, ?_, ?_, hchans.nodup_iff.mpr h.threaded.distinct, ?_⟩
  · intro th' hth'
    obtain ⟨hkind, hself⟩ : s.objs.kind? th'.chan = some .channel ∧
        s.objs.this? th'.chan = some th'.chan := by
      rcases List.mem_cons.mp hth' with rfl | hth'
      · exact h.threaded.chan th hmem
      · exact h.threaded.chan th' (List.mem_of_mem_erase hth')
    rw [Heap.kind?_insert, if_neg (hne _ hkind), Heap.this?_insert, if_neg (hne _ hkind)]
    exact ⟨hkind, hself⟩
  · intro th' hth' hex'
    rcases List.mem_cons.mp hth' with rfl | hth'
    · cases hex'
    · have hmem' := List.mem_of_mem_erase hth'
      obtain ⟨hchan, hself⟩ := h.threaded.ctx th' hmem' hex'
      have hctx : th'.ctx ≠ th.ctx := by
        intro heq
        rw [heq, Heap.chan?_of_mem hk] at hchan
        have hsame : th'.chan = th.chan := Option.some.inj (hchan.symm.trans hkc)
        have hth'' := List.inj_on_of_nodup_map h.threaded.distinct hmem' hmem hsame
        have hnd := List.Nodup.of_map _ h.threaded.distinct
        exact hnd.not_mem_erase (hth'' ▸ hth')
      rw [Heap.chan?_insert, if_neg hctx, Heap.this?_insert, if_neg hctx]
      exact ⟨hchan, hself⟩
  · intro y hkind hthis
    by_cases hyc : y = th.ctx
    · subst hyc
      rw [Heap.kind?_insert, if_pos rfl] at hkind
      cases hkind
    · rw [Heap.kind?_insert, if_neg hyc] at hkind
      rw [Heap.this?_insert, if_neg hyc] at hthis
      obtain ⟨th', hmem', rfl⟩ := h.threaded.left y hkind hthis
      obtain ⟨th'', hmem'', heq⟩ := List.mem_map.mp
        (hchans.mem_iff.mpr (List.mem_map_of_mem (f := ResponseThread.chan) hmem'))
      exact ⟨th'', hmem'', heq⟩
  · intro e he
    obtain ⟨hheld, ch', hch'⟩ := h.threaded.creating e he
    refine ⟨hheld, ch', ?_⟩
    rw [Heap.chan?_insert]
    split
    next heq => rwa [heq, Heap.chan?_of_mem hk] at hch'
    next => exact hch'

theorem Ok.exitThread {ch : ℕ} {s' : State} (h : s.Ok) (hu : s.exitThread ch = some s') :
    s'.Ok := by
  obtain ⟨th, hth, hu⟩ := Option.bind_eq_some_iff.mp hu
  have hmem := List.mem_of_find?_eq_some hth
  obtain ⟨rfl, -⟩ : th.chan = ch ∧ th.exiting = true := by simpa using List.find?_some hth
  obtain ⟨o, o', hx, ho', rfl⟩ := update_eq_some hu
  have hkind : o.kind = .channel := by
    have hk := (h.threaded.chan th hmem).1
    rw [Heap.kind?_of_mem hx] at hk
    exact Option.some.inj hk
  cases o with
  | channel c =>
    obtain rfl := Option.some.inj ho'
    have hbase : ({ s with threads := s.threads.erase th } : State).Formed [] :=
      h.formed.roots fun _ => .rfl
    have hformed := hbase.replace (.channel { c with this := none }) hx rfl (fun r hr => by
      simp only [Obj.typedRefs, Obj.down, Obj.loops, Option.toList_none, List.map_nil,
        List.append_nil] at hr
      exact .inl (List.mem_append_left _ hr)) (fun y hy => absurd hy List.not_mem_nil) rfl id
      fun hn => absurd hn.1 (by simp [Obj.kind])
    refine ⟨hformed.release, Threaded.release ?_ hformed⟩
    have hnd := List.Nodup.of_map _ h.threaded.distinct
    have hne : ∀ th' ∈ s.threads.erase th, th'.chan ≠ th.chan := by
      intro th' hth' heq
      have hmem' := List.mem_of_mem_erase hth'
      have hsame := List.inj_on_of_nodup_map h.threaded.distinct hmem' hmem heq
      exact hnd.not_mem_erase (hsame ▸ hth')
    refine ⟨?_, ?_, ?_, ?_, ?_⟩
    · intro th' hth'
      obtain ⟨hk, hself⟩ := h.threaded.chan th' (List.mem_of_mem_erase hth')
      rw [Heap.kind?_insert, if_neg (hne th' hth'), Heap.this?_insert, if_neg (hne th' hth')]
      exact ⟨hk, hself⟩
    · intro th' hth' hex
      obtain ⟨hchan, hself⟩ := h.threaded.ctx th' (List.mem_of_mem_erase hth') hex
      have hctx : th'.ctx ≠ th.chan := by
        intro heq
        obtain ⟨k, hk, -⟩ := Heap.mem_of_chan? hchan
        cases eq_of_mem (heq ▸ hk) hx
      rw [Heap.chan?_insert, if_neg hctx, Heap.this?_insert, if_neg hctx]
      exact ⟨hchan, hself⟩
    · intro y hk hthis
      by_cases hyc : y = th.chan
      · subst hyc
        rw [Heap.this?_insert, if_pos rfl] at hthis
        exact absurd rfl hthis
      · rw [Heap.kind?_insert, if_neg hyc] at hk
        rw [Heap.this?_insert, if_neg hyc] at hthis
        obtain ⟨th', hmem', rfl⟩ := h.threaded.left y hk hthis
        exact ⟨th', (List.mem_erase_of_ne fun heq => hyc (congrArg _ heq)).mpr hmem', rfl⟩
    · exact h.threaded.distinct.sublist ((List.erase_sublist (a := th)).map _)
    · intro e he
      obtain ⟨hheld, ch', hch'⟩ := h.threaded.creating e he
      refine ⟨hheld, ch', ?_⟩
      rw [Heap.chan?_insert]
      split
      next heq => rw [heq, Heap.chan?_of_mem hx] at hch'; cases hch'
      next => exact hch'
  | _ => cases hkind

theorem Ok.newRing {ch r : ℕ} {s' : State} (h : s.Ok) (hu : s.newRing t ch r = some s') :
    s'.Ok := by
  rw [State.newRing] at hu
  split at hu
  next hholds =>
    obtain ⟨⟨-, hch⟩, -, hr⟩ := hholds
    have hformed := h.formed.insertNew (o := .ringBuffer r) (fun q hq => by
      obtain rfl : q = ([.hostRes], r) := List.mem_singleton.mp hq
      exact .inl ⟨.hostRes, List.mem_singleton_self _, hr⟩) (fun c hc => by cases hc)
      fun hn => absurd hn.1 (by simp [Obj.kind])
    have hthreads := h.threaded.insertNew (o := .ringBuffer r) h.formed rfl fun e he =>
      (h.threaded.creating e he).1
    refine ok_update hformed hthreads hu fun o o' hx ho' => ?_
    have hkind : o.kind = .channel := by
      have hlt := h.formed.fresh ch (Heap.keys_of_kind? hch)
      rcases OrderedMap.mem_insert.mp hx with heq | ⟨hx, -⟩
      · exact absurd (Prod.mk.inj heq).1 hlt.ne
      · exact Option.some.inj ((Heap.kind?_of_mem hx).symm.trans hch)
    cases o with
    | channel c =>
      obtain rfl := Option.some.inj ho'
      refine ⟨⟨rfl, ?_, rfl, rfl, rfl, fun hn => absurd hn.1 (by simp [Obj.kind])⟩, ?_⟩
      · intro q hq
        simp only [Obj.typedRefs, Obj.down, List.map_cons, List.mem_append, List.mem_cons] at hq ⊢
        have hnew : State.Pointing
            { s with objs := s.objs.insert s.next (.ringBuffer r), next := s.next + 1 }
            ([.ringBuffer], s.next) :=
          ⟨.ringBuffer, List.mem_singleton_self _, by
            rw [kind?, Heap.kind?_insert, if_pos rfl]
            rfl⟩
        rcases hq with (rfl | rfl | rfl | hq) | hq
        · exact .inl (.inl (.inl rfl))
        · exact .inl (.inl (.inr (.inl rfl)))
        · exact .inr hnew
        · exact .inl (.inl (.inr (.inr hq)))
        · exact .inl (.inr hq)
      · intro y hy
        obtain rfl := List.mem_singleton.mp hy
        simp [Obj.refs, Obj.typedRefs, Obj.down]
    | _ => cases hkind
  next => cases hu

/-- The threads after the start of one more, on the next address and a context without
channel. -/
theorem Threaded.start {c p d : ℕ} {k : InfContext} {held : List (ℕ × ℕ)} (h : s.Threaded)
    (hf : s.Formed []) (hk : (c, .infContext k) ∈ s.objs) (hnone : k.chan = none)
    (hheld : (t, c) ∈ held) (hsub : ∀ e ∈ s.creating, e ∈ held) :
    Lifetime.Threaded
      ((s.objs.insert s.next (.channel { this := some s.next, proc := p, dev := d })).insert c
        (.infContext { k with chan := some s.next }))
      (⟨s.next, c, false⟩ :: s.threads) ((t, c) :: s.creating) held := by
  have hfresh : ∀ y ∈ s.objs.keys, y ≠ s.next := fun y hy => (hf.fresh y hy).ne
  have hcn : s.next ≠ c := (hfresh c (OrderedMap.mem_keys.mpr ⟨_, hk⟩)).symm
  have hchanc : ∀ y ch, s.objs.chan? y = some ch → y ≠ c ∧ y ≠ s.next := by
    intro y ch hy
    refine ⟨?_, hfresh y (Heap.keys_of_chan? hy)⟩
    rintro rfl
    rw [Heap.chan?_of_mem hk, Obj.chan?, hnone] at hy
    cases hy
  have hkindc : ∀ y, s.objs.kind? y = some .channel → y ≠ c ∧ y ≠ s.next := by
    intro y hy
    refine ⟨?_, hfresh y (Heap.keys_of_kind? hy)⟩
    rintro rfl
    rw [Heap.kind?_of_mem hk] at hy
    cases hy
  refine ⟨?_, ?_, ?_, ?_, ?_⟩
  · intro th hth
    rcases List.mem_cons.mp hth with rfl | hth
    · rw [Heap.kind?_insert, if_neg hcn, Heap.kind?_insert, if_pos rfl, Heap.this?_insert,
        if_neg hcn, Heap.this?_insert, if_pos rfl]
      exact ⟨rfl, rfl⟩
    · obtain ⟨hkind, hself⟩ := h.chan th hth
      obtain ⟨h1, h2⟩ := hkindc _ hkind
      rw [Heap.kind?_insert, if_neg h1, Heap.kind?_insert, if_neg h2, Heap.this?_insert, if_neg h1,
        Heap.this?_insert, if_neg h2]
      exact ⟨hkind, hself⟩
  · intro th hth hex
    rcases List.mem_cons.mp hth with rfl | hth
    · rw [Heap.chan?_insert, if_pos rfl]
      exact ⟨rfl, .inr ⟨t, List.mem_cons_self⟩⟩
    · obtain ⟨hchan, hself⟩ := h.ctx th hth hex
      obtain ⟨h1, h2⟩ := hchanc _ _ hchan
      rw [Heap.chan?_insert, if_neg h1, Heap.chan?_insert, if_neg h2, Heap.this?_insert, if_neg h1,
        Heap.this?_insert, if_neg h2]
      exact ⟨hchan, hself.imp_right fun ⟨t', ht'⟩ => ⟨t', List.mem_cons_of_mem _ ht'⟩⟩
  · intro y hkind hthis
    by_cases hyn : y = s.next
    · exact ⟨_, List.mem_cons_self, hyn.symm⟩
    · by_cases hyc : y = c
      · rw [hyc, Heap.kind?_insert, if_pos rfl] at hkind
        cases hkind
      · rw [Heap.kind?_insert, if_neg hyc, Heap.kind?_insert, if_neg hyn] at hkind
        rw [Heap.this?_insert, if_neg hyc, Heap.this?_insert, if_neg hyn] at hthis
        obtain ⟨th, hth, rfl⟩ := h.left y hkind hthis
        exact ⟨th, List.mem_cons_of_mem _ hth, rfl⟩
  · refine List.nodup_cons.mpr ⟨?_, h.distinct⟩
    intro hmem
    obtain ⟨th, hth, heq⟩ := List.mem_map.mp hmem
    exact (hkindc _ (h.chan th hth).1).2 heq
  · intro e he
    rcases List.mem_cons.mp he with rfl | he
    · refine ⟨hheld, s.next, ?_⟩
      rw [Heap.chan?_insert, if_pos rfl]
      rfl
    · obtain ⟨-, ch, hch⟩ := h.creating e he
      obtain ⟨h1, h2⟩ := hchanc _ _ hch
      refine ⟨hsub e he, ch, ?_⟩
      rw [Heap.chan?_insert, if_neg h1, Heap.chan?_insert, if_neg h2]
      exact hch

theorem Ok.newChannel {c p d : ℕ} {started : Bool} {s' : State} (h : s.Ok)
    (hu : s.newChannel t c p d started = some s') : s'.Ok := by
  rw [State.newChannel] at hu
  split at hu
  next hguard =>
    obtain ⟨⟨hheld, hc⟩, ⟨-, hp⟩, ⟨-, hd⟩, hnone⟩ := hguard
    cases started with
    | false =>
      obtain rfl := Option.some.inj hu
      have hfree : s.next ∉ s.objs.keys := fun hk => lt_irrefl _ (h.formed.fresh _ hk)
      have hdtor : (destructor s.objs (.channel { this := none, proc := p, dev := d })).isSome := by
        have hdev : s.objs.kind? d = some .device := hd
        rw [destructor, if_pos hdev]
        rfl
      refine ⟨⟨h.formed.kept, h.formed.kinds, ?_, ?_, ?_, ?_, h.formed.ready, h.formed.withChan⟩,
        h.threaded⟩
      · exact fun x hx => Nat.lt_succ_of_lt (h.formed.fresh x hx)
      · intro x hx
        rw [List.map_append] at hx
        rcases List.mem_append.mp hx with hx | hx
        · exact ⟨Nat.lt_succ_of_lt (h.formed.gone x hx).1, (h.formed.gone x hx).2⟩
        · obtain rfl := List.mem_singleton.mp hx
          exact ⟨Nat.lt_succ_self _, hfree⟩
      · rw [List.map_append]
        refine List.nodup_append.mpr ⟨h.formed.once, List.nodup_singleton _, ?_⟩
        rintro x hx y hy rfl
        obtain rfl := List.mem_singleton.mp hy
        exact lt_irrefl _ (h.formed.gone _ hx).1
      · intro e he
        rcases List.mem_append.mp he with he | he
        · exact h.formed.ran e he
        · obtain rfl := List.mem_singleton.mp he
          exact hdtor
    | true =>
      obtain ⟨o, o', hx, ho', rfl⟩ := update_eq_some hu
      obtain ⟨o₁, ho₁, hk₁⟩ := Heap.mem_of_kind? hc
      have hcn : c ≠ s.next := (h.formed.fresh c (Heap.keys_of_kind? hc)).ne
      obtain rfl : o = o₁ := by
        rcases OrderedMap.mem_insert.mp hx with heq | ⟨hx, -⟩
        · exact absurd (Prod.mk.inj heq).1 hcn
        · exact eq_of_mem hx ho₁
      cases o with
      | infContext k =>
        obtain rfl := Option.some.inj ho'
        have hkn : k.chan = none := by
          by_contra hne
          exact hnone ⟨_, OrderedMap.find?_eq_some.mpr ho₁, Option.isSome_iff_ne_none.mpr hne⟩
        have hnew := h.formed.insertNew
          (o := .channel { this := some s.next, proc := p, dev := d }) (fun r hr => by
            rcases List.mem_append.mp hr with hr | hr
            · rcases List.mem_cons.mp hr with rfl | hr
              · exact .inl ⟨.hostProc, List.mem_singleton_self _, hp⟩
              · obtain rfl := List.mem_singleton.mp hr
                exact .inl ⟨.device, List.mem_singleton_self _, hd⟩
            · obtain rfl := List.mem_singleton.mp hr
              exact .inr ⟨rfl, List.mem_singleton_self _⟩) (fun c hc => by cases hc)
          fun hn => absurd hn.1 (by simp [Obj.kind])
        have hbase : (⟨_, _, s.handles, s.held, ⟨s.next, c, false⟩ :: s.threads,
            (t, c) :: s.creating, s.destroyed⟩ : State).Formed [s.next] :=
          hnew.roots fun _ => .rfl
        have hformed := hbase.replace (.infContext { k with chan := some s.next }) hx rfl
          (fun r hr => by
            simp only [Obj.typedRefs, Obj.down, Obj.loops, List.mem_append, hkn,
              Option.toList_some, List.map_cons, List.map_nil, List.mem_singleton] at hr ⊢
            rcases hr with ((rfl | hr) | hr) | hr
            · refine .inr ⟨.channel, List.mem_singleton_self _, ?_⟩
              rw [kind?, Heap.kind?_insert, if_pos rfl]
              rfl
            · exact .inl (.inl (.inl (.inr hr)))
            · exact .inl (.inl (.inr hr))
            · exact .inl (.inr hr))
          (fun y hy => by
            obtain rfl := List.mem_singleton.mp hy
            simp [Obj.refs, Obj.typedRefs, Obj.down]) rfl
          (fun hh => absurd hh (by simp [Obj.HasChan, Obj.chan?, hkn])) fun _ => rfl
        refine ⟨hformed.release, Threaded.release ?_ hformed⟩
        exact h.threaded.start h.formed ho₁ hkn hheld fun e he => (h.threaded.creating e he).1
      | _ => cases hk₁
  next => cases hu

theorem Formed.plain (h : s.Formed pending) (hx : (x, o) ∈ s.objs) (hkind : o'.kind = o.kind)
    (hctx : o'.ctx? = o.ctx?) (hthis : o'.this? = o.this?) (hchan : o'.chan? = o.chan?)
    (hloops : o'.loops ⊆ o.loops) (hdown : ∀ r ∈ o'.down, r ∈ o.down ∨ s.Pointing r) :
    s.Plain o o' := by
  refine ⟨hkind, fun r hr => ?_, hctx, hthis, hchan, fun hn => ?_⟩
  · rcases List.mem_append.mp hr with hr | hr
    · exact (hdown r hr).imp_left (List.mem_append_left _)
    · exact .inl (List.mem_append_right _ (hloops hr))
  · have hne : o.loops ≠ [] := fun hnil => hn.2 (List.eq_nil_iff_forall_not_mem.mpr fun r hr =>
      List.not_mem_nil (hnil ▸ hloops hr))
    have hc := h.withChan _ hx ⟨hkind.symm.trans hn.1, hne⟩
    rwa [Obj.HasChan, hchan]

theorem Formed.plain_addRing {r : ℕ} (h : s.Formed pending) (hx : (x, o) ∈ s.objs)
    (ho : o.addRing r = some o') (hr : s.kind? r = some .ringBuffer) : s.Plain o o' := by
  have hnew : s.Pointing ([.ringBuffer], r) := ⟨_, List.mem_singleton_self _, hr⟩
  cases o with
  | channel c =>
    obtain rfl := Option.some.inj ho
    refine h.plain hx rfl rfl rfl rfl (List.Subset.refl _) fun q hq => ?_
    simp only [Obj.down, List.map_cons, List.mem_cons] at hq ⊢
    rcases hq with rfl | rfl | rfl | hq
    · exact .inl (.inl rfl)
    · exact .inl (.inr (.inl rfl))
    · exact .inr hnew
    · exact .inl (.inr (.inr hq))
  | infContext c =>
    obtain rfl := Option.some.inj ho
    refine h.plain hx rfl rfl rfl rfl (List.Subset.refl _) fun q hq => ?_
    simp only [Obj.down, List.map_cons, List.mem_append, List.mem_cons] at hq ⊢
    rcases hq with (hq | rfl | hq) | hq
    · exact .inl (.inl (.inl hq))
    · exact .inr hnew
    · exact .inl (.inl (.inr hq))
    · exact .inl (.inr hq)
  | _ => cases ho

theorem plain_insertObj {y : ℕ} (hx : (x, o) ∈ s.objs)
    (ho : o.insertObj y = some o') (hy : s.Pointing (objDBKinds, y)) (hchan : s.HasChan x) :
    s.Plain o o' := by
  cases o with
  | infContext c =>
    obtain rfl := Option.some.inj ho
    refine ⟨rfl, fun q hq => ?_, rfl, rfl, rfl, fun _ => ?_⟩
    · simp only [Obj.typedRefs, Obj.loops, List.map_cons, List.mem_append, List.mem_cons] at hq ⊢
      rcases hq with hq | hq | rfl | hq
      · exact .inl (.inl hq)
      · exact .inl (.inr (.inl hq))
      · exact .inr hy
      · exact .inl (.inr (.inr hq))
    · obtain ⟨p, hp, hpc⟩ := hchan
      obtain rfl := eq_of_mem (OrderedMap.find?_eq_some.mp hp) hx
      exact hpc
  | _ => cases ho

theorem Formed.plain_eraseObj {y : ℕ} (h : s.Formed pending) (hx : (x, o) ∈ s.objs)
    (ho : o.eraseObj y = some o') : s.Plain o o' := by
  cases o with
  | infContext c =>
    obtain rfl := Option.some.inj ho
    refine h.plain hx rfl rfl rfl rfl ?_ fun q hq => .inl hq
    intro q hq
    simp only [Obj.loops, List.mem_append, List.mem_map] at hq ⊢
    rcases hq with hq | ⟨z, hz, rfl⟩
    · exact .inl hq
    · exact .inr ⟨z, List.mem_of_mem_erase hz, rfl⟩
  | _ => cases ho

theorem Formed.plain_clearObjs (h : s.Formed pending) (hx : (x, o) ∈ s.objs)
    (ho : o.clearObjs = some o') : s.Plain o o' := by
  cases o with
  | infContext c =>
    obtain rfl := Option.some.inj ho
    refine h.plain hx rfl rfl rfl rfl ?_ fun q hq => .inl hq
    intro q hq
    simp only [Obj.loops, List.map_nil, List.append_nil] at hq ⊢
    exact List.mem_append_left _ hq
  | _ => cases ho

theorem Formed.plain_addDevRes {rs : List ℕ} (h : s.Formed pending) (hx : (x, o) ∈ s.objs)
    (ho : o.addDevRes rs = some o') (hrs : ∀ r ∈ rs, s.kind? r = some .devRes) :
    s.Plain o o' := by
  cases o with
  | devNet c rs' =>
    obtain rfl := Option.some.inj ho
    refine h.plain hx rfl rfl rfl rfl (List.Subset.refl _) fun q hq => ?_
    simp only [Obj.down, List.map_append, List.mem_cons, List.mem_append] at hq ⊢
    rcases hq with rfl | hq | hq
    · exact .inl (.inl rfl)
    · exact .inl (.inr hq)
    · obtain ⟨r, hr, rfl⟩ := List.mem_map.mp hq
      exact .inr ⟨_, List.mem_singleton_self _, hrs r hr⟩
  | _ => cases ho

theorem Formed.plain_append {y : ℕ} (h : s.Formed pending) (hx : (x, o) ∈ s.objs)
    (ho : o.append y = some o') (hy : s.Pointing ([.copyCommand, .infReq], y)) :
    s.Plain o o' := by
  cases o with
  | commandList c vec failed =>
    obtain rfl := Option.some.inj ho
    refine h.plain hx rfl rfl rfl rfl (List.Subset.refl _) fun q hq => ?_
    simp only [Obj.down, List.map_append, List.map_cons, List.map_nil, List.mem_cons,
      List.mem_append, List.not_mem_nil, or_false] at hq ⊢
    rcases hq with rfl | (hq | rfl) | hq
    · exact .inl (.inl rfl)
    · exact .inl (.inr (.inl hq))
    · exact .inr hy
    · exact .inl (.inr (.inr hq))
  | _ => cases ho

theorem Formed.plain_setHostres {hr : Option ℕ} (h : s.Formed pending) (hx : (x, o) ∈ s.objs)
    (ho : o.setHostres hr = some o') (hk : ∀ y ∈ hr, s.kind? y = some .hostRes) :
    s.Plain o o' := by
  cases o with
  | copyCommand c =>
    obtain rfl := Option.some.inj ho
    refine h.plain hx rfl rfl rfl rfl (List.Subset.refl _) fun q hq => ?_
    simp only [Obj.down, List.mem_cons, List.mem_append, List.mem_map, Option.mem_toList] at hq ⊢
    rcases hq with rfl | rfl | ⟨y, hy, rfl⟩ | hq
    · exact .inl (.inl rfl)
    · exact .inl (.inr (.inl rfl))
    · exact .inr ⟨_, List.mem_singleton_self _, hk y hy⟩
    · exact .inl (.inr (.inr (.inr hq)))
  | _ => cases ho

theorem Formed.plain_addFailed {y : ℕ} (h : s.Formed pending) (hx : (x, o) ∈ s.objs)
    (ho : o.addFailed y = some o') (hy : s.kind? y = some .hostRes) : s.Plain o o' := by
  have hnew : s.Pointing ([.hostRes], y) := ⟨_, List.mem_singleton_self _, hy⟩
  cases o with
  | infContext c =>
    obtain rfl := Option.some.inj ho
    refine h.plain hx rfl rfl rfl rfl (List.Subset.refl _) fun q hq => ?_
    simp only [Obj.down, List.map_cons, List.mem_append, List.mem_cons] at hq ⊢
    rcases hq with hq | rfl | hq
    · exact .inl (.inl hq)
    · exact .inr hnew
    · exact .inl (.inr hq)
  | commandList c vec failed =>
    obtain rfl := Option.some.inj ho
    refine h.plain hx rfl rfl rfl rfl (List.Subset.refl _) fun q hq => ?_
    simp only [Obj.down, List.map_cons, List.mem_append, List.mem_cons] at hq ⊢
    rcases hq with rfl | hq | rfl | hq
    · exact .inl (.inl rfl)
    · exact .inl (.inr (.inl hq))
    · exact .inr hnew
    · exact .inl (.inr (.inr hq))
  | _ => cases ho

theorem Formed.plain_clearFailed (h : s.Formed pending) (hx : (x, o) ∈ s.objs)
    (ho : o.clearFailed = some o') : s.Plain o o' := by
  cases o with
  | infContext c =>
    obtain rfl := Option.some.inj ho
    refine h.plain hx rfl rfl rfl rfl (List.Subset.refl _) fun q hq => ?_
    simp only [Obj.down, List.map_nil, List.append_nil, List.mem_append] at hq ⊢
    exact .inl (.inl hq)
  | commandList c vec failed =>
    obtain rfl := Option.some.inj ho
    refine h.plain hx rfl rfl rfl rfl (List.Subset.refl _) fun q hq => ?_
    simp only [Obj.down, List.map_nil, List.append_nil, List.mem_append, List.mem_cons] at hq ⊢
    exact .inl (hq.imp_right .inl)
  | _ => cases ho

theorem plain_setPeer {peer : Option ℕ} (hx : (x, o) ∈ s.objs)
    (ho : o.setPeer peer = some o') (hk : ∀ y ∈ peer, s.kind? y = some .devRes) :
    s.Plain o o' := by
  cases o with
  | devRes c old =>
    obtain rfl := Option.some.inj ho
    refine ⟨rfl, fun q hq => ?_, rfl, rfl, rfl, fun hn => absurd hn.1 (by simp [Obj.kind])⟩
    simp only [Obj.typedRefs, Obj.loops, List.mem_append, List.mem_map, Option.mem_toList] at hq ⊢
    rcases hq with hq | ⟨y, hy, rfl⟩
    · exact .inl (.inl hq)
    · exact .inr ⟨_, List.mem_singleton_self _, hk y hy⟩
  | _ => cases ho

theorem Ok.refs_live (h : s.Ok) (hx : (x, o) ∈ s.objs) (hy : y ∈ o.refs) : y ∈ s.objs.keys :=
  (Refers.live h.formed.kept ⟨o, hx, hy⟩).2

theorem Ok.root_live (h : s.Ok) (hx : x ∈ s.roots) : x ∈ s.objs.keys :=
  (h.formed.kept x).mpr (.inl (List.mem_append_left _ hx))

theorem Ok.contextOf {c : ℕ} (h : s.Ok) (hx : s.ContextOf x c) :
    s.Pointing (objDBKinds, x) ∧ s.HasChan c := by
  rw [ContextOf] at hx
  split at hx
  next n ins outs ho =>
    have hmem := OrderedMap.find?_eq_some.mp ho
    obtain ⟨o', ho', hc⟩ := Option.bind_eq_some_iff.mp hx
    exact ⟨⟨.infReq, by simp [objDBKinds], Heap.kind?_of_mem hmem⟩,
      h.formed.ready _ (OrderedMap.find?_eq_some.mp ho') c hc⟩
  next c' rs ho =>
    have hmem := OrderedMap.find?_eq_some.mp ho
    exact ⟨⟨.devNet, by simp [objDBKinds], Heap.kind?_of_mem hmem⟩,
      h.formed.ready _ hmem c (congrArg some hx)⟩
  next c' vec failed ho =>
    have hmem := OrderedMap.find?_eq_some.mp ho
    exact ⟨⟨.commandList, by simp [objDBKinds], Heap.kind?_of_mem hmem⟩,
      h.formed.ready _ hmem c (congrArg some hx)⟩
  next k ho =>
    have hmem := OrderedMap.find?_eq_some.mp ho
    exact ⟨⟨.copyCommand, by simp [objDBKinds], Heap.kind?_of_mem hmem⟩,
      h.formed.ready _ hmem c (congrArg some hx)⟩
  next => exact hx.elim

theorem Ok.ringbufs {c : ℕ} (h : s.Ok) {r : ℕ} (hr : r ∈ s.ringbufs c) :
    s.kind? r = some .ringBuffer := by
  rw [State.ringbufs] at hr
  split at hr
  next k hk =>
    split at hr
    next ch hch =>
      obtain ⟨z, -, hz⟩ := Option.bind_eq_some_iff.mp hch
      obtain ⟨kind, hkind, hp⟩ := h.formed.pointing (OrderedMap.find?_eq_some.mp hz)
        (r := ([.ringBuffer], r)) (by simp [Obj.typedRefs, Obj.down, hr])
      exact hp.trans (congrArg some (List.mem_singleton.mp hkind))
    next => exact absurd hr List.not_mem_nil
  next => exact absurd hr List.not_mem_nil

/-- No statement of any thread leaves a dangling pointer, or takes an object from a response
thread. -/
theorem Ok.step {a : Act} {s' : State} (h : s.Ok) (hs : s.step a = some s') : s'.Ok := by
  cases a with
  | lockWeak t x =>
    rw [State.step] at hs
    split at hs
    next hk =>
      obtain rfl := Option.some.inj hs
      exact h.hold (hk.elim Heap.keys_of_kind? Heap.keys_of_kind?)
    next => cases hs
  | find t x =>
    rw [State.step] at hs
    split at hs
    next hx =>
      obtain rfl := Option.some.inj hs
      exact h.hold (h.root_live (List.mem_append_left _ hx))
    next => cases hs
  | load t y x =>
    rw [State.step] at hs
    split at hs
    next hx =>
      obtain ⟨-, o, ho, hx⟩ := hx
      obtain rfl := Option.some.inj hs
      exact h.hold (h.refs_live (OrderedMap.find?_eq_some.mp ho) hx)
    next => cases hs
  | fetch t ch x =>
    obtain ⟨th, -, hs⟩ := Option.bind_eq_some_iff.mp hs
    split at hs
    next hx =>
      obtain ⟨o, ho, hx⟩ := hx
      obtain rfl := Option.some.inj hs
      exact h.hold (h.refs_live (OrderedMap.find?_eq_some.mp ho) hx)
    next => cases hs
  | new t o =>
    rw [State.step] at hs
    split at hs
    next hnew =>
      obtain rfl := Option.some.inj hs
      exact h.create hnew
    next => cases hs
  | newChannel t c p d started => exact h.newChannel hs
  | setThis t c =>
    rw [State.step] at hs
    split at hs
    next hc => exact h.setThis hc hs
    next => cases hs
  | newRing t ch r => exact h.newRing hs
  | keepRing t c r =>
    rw [State.step] at hs
    split at hs
    next hr => exact h.update hs fun o o' hx ho => h.formed.plain_addRing hx ho (h.ringbufs hr.2)
    next => cases hs
  | insertObj t c x =>
    rw [State.step] at hs
    split at hs
    next hx =>
      obtain ⟨hpoint, hchan⟩ := h.contextOf hx.2.2
      exact h.update hs fun o o' hc ho => plain_insertObj hc ho hpoint hchan
    next => cases hs
  | addDevRes t n rs =>
    rw [State.step] at hs
    split at hs
    next hrs =>
      exact h.update hs fun o o' hx ho => h.formed.plain_addDevRes hx ho fun r hr => (hrs.2 r hr).2
    next => cases hs
  | append t l x =>
    rw [State.step] at hs
    split at hs
    next hx =>
      have hpoint : s.Pointing ([.copyCommand, .infReq], x) := by
        rcases hx.2 with hx | hx
        · exact ⟨_, List.mem_cons_self, hx.2⟩
        · exact ⟨_, List.mem_cons_of_mem _ List.mem_cons_self, hx.2⟩
      exact h.update hs fun o o' hl ho => h.formed.plain_append hl ho hpoint
    next => cases hs
  | setHostres t y r =>
    rw [State.step] at hs
    split at hs
    next hr =>
      refine h.update hs fun o o' hx ho => h.formed.plain_setHostres hx ho fun z hz => ?_
      obtain rfl := Option.some.inj hz
      exact hr.2.2
    next => cases hs
  | resetHostres y =>
    exact h.update hs fun o o' hx ho => h.formed.plain_setHostres hx ho fun z hz => by cases hz
  | addFailed x r =>
    rw [State.step] at hs
    split at hs
    next hr => exact h.update hs fun o o' hx ho => h.formed.plain_addFailed hx ho hr
    next => cases hs
  | clearFailed x => exact h.update hs fun o o' hx ho => h.formed.plain_clearFailed hx ho
  | pair t r p =>
    rw [State.step] at hs
    split at hs
    next hp =>
      refine h.update hs fun o o' hx ho => plain_setPeer hx ho fun z hz => ?_
      obtain rfl := Option.some.inj hz
      exact hp.2.2
    next => cases hs
  | unpair t r =>
    rw [State.step] at hs
    split at hs
    next => exact h.update hs fun o o' hx ho => plain_setPeer hx ho fun z hz => by cases hz
    next => cases hs
  | makeHandle t x =>
    rw [State.step] at hs
    split at hs
    next hx =>
      obtain rfl := Option.some.inj hs
      refine ⟨h.formed.roots fun y => ?_, h.threaded⟩
      have hin : x ∈ s.held.map Prod.snd := List.mem_map_of_mem (f := Prod.snd) hx
      simp only [State.roots, List.append_nil, List.cons_append, List.mem_cons, List.mem_append]
      exact or_iff_right_of_imp fun heq => heq ▸ .inr hin
    next => cases hs
  | removeHandle x =>
    rw [State.step] at hs
    split at hs
    next hx =>
      obtain rfl := Option.some.inj hs
      exact h.removeHandle hx
    next => cases hs
  | endCall t => exact h.endCall hs
  | removeObj t c x =>
    rw [State.step] at hs
    split at hs
    next => exact h.update hs fun o o' hx ho => h.formed.plain_eraseObj hx ho
    next => cases hs
  | eraseObj ch x =>
    obtain ⟨th, -, hs⟩ := Option.bind_eq_some_iff.mp hs
    exact h.update hs fun o o' hx ho => h.formed.plain_eraseObj hx ho
  | clearAll ch =>
    obtain ⟨th, -, hs⟩ := Option.bind_eq_some_iff.mp hs
    exact h.update hs fun o o' hx ho => h.formed.plain_clearObjs hx ho
  | exitHandler ch => exact h.exitHandler hs
  | exitThread ch => exact h.exitThread hs

end State

end NNPIHost.Lifetime

import NNPIHost.Context.Statements

/-! # What is destroyed

At any time the objects alive are those that a handle, a call in progress or an object on a
possible circle reaches: a context or channel that holds itself, a context with entries in its
database, a device resource with a peer. When the program has let go of everything and the
response threads have ended, only such leftovers keep channels alive, and it is for the last
channel that `nnpiActiveContexts::wait_all` waits.
-/

namespace NNPIHost.Lifetime

open Memory Relation Store

namespace State

variable {s s' : State} {as bs : List Act} {x y t : ℕ} {o o' : Obj}

theorem ok_run (hr : Exec.run step init as = some s) : s.Ok :=
  (Exec.always_of_preserved ok_init fun _ _ _ h hs => h.step hs).last hr

theorem Ok.live_iff (h : s.Ok) (x : ℕ) :
    x ∈ s.objs.keys ↔ ∃ y, (y ∈ s.roots ∨ ∃ o, (y, o) ∈ s.objs ∧ o.loops ≠ []) ∧
      ReflTransGen (Refers Obj.refs s.objs) y x := by
  have hkept : Kept Obj.refs s.roots s.objs := h.formed.kept.congr fun y => by
    rw [List.append_nil]
  constructor
  · intro hx
    obtain ⟨y, hy, hyx⟩ := (hkept.live_iff_of_rank s.objs.rank).mp hx
    refine ⟨y, hy.imp_right ?_, hyx⟩
    rintro ⟨z, hyz, hnot⟩
    exact h.formed.kinds.loop hkept hyz hnot
  · rintro ⟨y, hroot | ⟨o, ho, -⟩, hyx⟩
    · exact hkept.reach ((hkept y).mpr (.inl hroot)) hyx
    · exact hkept.reach (OrderedMap.mem_keys.mpr ⟨o, ho⟩) hyx

/-- In every state of every run, what lives is what a handle or a call in progress reaches, or an
object that holds itself, has entries in its database or has a peer. -/
theorem live_iff_reached (hr : Exec.run step init as = some s) (x : ℕ) :
    x ∈ s.objs.keys ↔ ∃ y, (y ∈ s.roots ∨ ∃ o, (y, o) ∈ s.objs ∧ o.loops ≠ []) ∧
      ReflTransGen (Refers Obj.refs s.objs) y x := (ok_run hr).live_iff x

theorem live_iff_reached_open : ∃ s, Exec.run step init
    [.new 0 .hostProc, .new 0 (.device 0), .new 0 (.infContext {}), .newChannel 0 2 0 1 true,
      .setThis 0 2, .endCall 0] = some s ∧
    (2 ∈ s.objs.keys ↔ ∃ y, (y ∈ s.roots ∨ ∃ o, (y, o) ∈ s.objs ∧ o.loops ≠ []) ∧
      ReflTransGen (Refers Obj.refs s.objs) y 2) := by
  obtain ⟨s, hs⟩ := Option.isSome_iff_exists.mp (by decide +kernel :
    (Exec.run step init [.new 0 .hostProc, .new 0 (.device 0), .new 0 (.infContext {}),
      .newChannel 0 2 0 1 true, .setThis 0 2, .endCall 0]).isSome)
  exact ⟨s, hs, live_iff_reached hs 2⟩

/-- The program has closed every handle, no call is in progress and every response thread has
ended. -/
def Idle (s : State) : Prop := s.handles = [] ∧ s.held = [] ∧ s.threads = []

instance (s : State) : Decidable s.Idle := inferInstanceAs (Decidable (_ ∧ _ ∧ _))

/-- `m_context_chans.size() == 0`, what `nnpiActiveContexts::wait_all` waits for. -/
def NoChannels (s : State) : Prop := ∀ e ∈ s.objs.entries, e.2.kind ≠ .channel

/-- Two contexts, one of them with a command list, and all calls and threads ended again. -/
def closedRun : List Act :=
  [.new 0 .hostProc, .new 0 (.device 0), .new 0 (.infContext {}), .newChannel 0 2 0 1 true,
    .setThis 0 2, .makeHandle 0 2, .new 1 (.infContext {}), .lockWeak 1 0, .lockWeak 1 1,
    .newChannel 1 4 0 1 true, .setThis 1 4, .endCall 1, .new 0 (.commandList 2 [] []),
    .insertObj 0 2 6, .endCall 0, .eraseObj 3 6, .clearAll 5, .exitHandler 5, .removeHandle 2,
    .exitHandler 3, .exitThread 5, .exitThread 3]

theorem Ok.channel_of_hasChan (h : s.Ok) (hx : (x, o) ∈ s.objs) (hchan : o.HasChan) :
    ∃ ch c, (ch, .channel c) ∈ s.objs := by
  cases o with
  | infContext k =>
    obtain ⟨ch, hch⟩ := Option.isSome_iff_exists.mp hchan
    have hk : k.chan = some ch := hch
    obtain ⟨o', ho', hkind⟩ := h.formed.kinds.points h.formed.kept hx
      (r := ([.channel], ch)) (by simp [Obj.typedRefs, Obj.down, hk])
    cases o' with
    | channel c => exact ⟨ch, c, ho'⟩
    | _ => simp [Obj.kind] at hkind
  | _ => cases hchan

theorem Ok.channel_of_loops (h : s.Ok) (hx : (x, o) ∈ s.objs) (hloops : o.loops ≠ []) :
    ∃ ch c, (ch, .channel c) ∈ s.objs := by
  cases o with
  | channel c => exact ⟨x, c, hx⟩
  | infContext k => exact h.channel_of_hasChan hx (h.formed.withChan _ hx ⟨rfl, hloops⟩)
  | devRes c peer =>
    obtain ⟨o', ho', hchan⟩ := h.formed.ready _ hx c rfl
    exact h.channel_of_hasChan (OrderedMap.find?_eq_some.mp ho') hchan
  | _ => exact absurd rfl hloops

theorem Ok.channel_loops (h : s.Ok) (hthreads : s.threads = []) (hx : (x, o) ∈ s.objs)
    (hkind : o.kind = .channel) : o.loops = [] := by
  cases o with
  | channel c =>
    have hthis : c.this = none := by
      by_contra hne
      obtain ⟨th, hth, -⟩ := h.threaded.left x (Heap.kind?_of_mem hx)
        ((Heap.this?_of_mem hx).trans_ne hne)
      rw [hthreads] at hth
      exact List.not_mem_nil hth
    rw [Obj.loops, hthis]
    rfl
  | _ => cases hkind

theorem Ok.noChannels_iff (h : s.Ok) (hidle : s.Idle) :
    (s.NoChannels ↔ ∀ e ∈ s.objs, e.2.kind ≠ .channel → e.2.loops = []) ∧
      (s.NoChannels → s.objs.keys = []) := by
  obtain ⟨hhandles, hheld, hthreads⟩ := hidle
  have hroots : s.roots = [] := by rw [roots, hhandles, hheld, List.map_nil, List.append_nil]
  have hempty : (∀ e ∈ s.objs, e.2.loops = []) → s.objs.keys = [] := by
    intro hloops
    apply List.eq_nil_iff_forall_not_mem.mpr
    intro x hx
    obtain ⟨y, hy | ⟨o, ho, hne⟩, -⟩ := (h.live_iff x).mp hx
    · rw [hroots] at hy
      exact List.not_mem_nil hy
    · exact hne (hloops _ ho)
  have hloops : s.NoChannels → ∀ e ∈ s.objs, e.2.loops = [] := by
    intro hno e he
    by_contra hne
    obtain ⟨ch, c, hc⟩ := h.channel_of_loops he hne
    exact hno _ hc rfl
  refine ⟨⟨fun hno e he _ => hloops hno e he, fun hall e he => ?_⟩, fun hno => hempty (hloops hno)⟩
  have hkey : e.1 ∈ s.objs.keys := OrderedMap.mem_keys.mpr ⟨e.2, he⟩
  rw [hempty fun e he => ?_] at hkey
  · exact absurd hkey List.not_mem_nil
  · by_cases hkind : e.2.kind = .channel
    · exact h.channel_loops hthreads he hkind
    · exact hall e he hkind

/-- When the program has let go of everything, `wait_all` returns exactly if no context holds
itself or has entries in its database and no resource has a peer, and then nothing is left. -/
theorem wait_all_returns_iff (hr : Exec.run step init as = some s) (hidle : s.Idle) :
    (s.NoChannels ↔ ∀ e ∈ s.objs, e.2.kind ≠ .channel → e.2.loops = []) ∧
      (s.NoChannels → s.objs.keys = []) := (ok_run hr).noChannels_iff hidle

theorem wait_all_returns_iff_closed : ∃ s, Exec.run step init closedRun = some s ∧
    (s.NoChannels ↔ ∀ e ∈ s.objs, e.2.kind ≠ .channel → e.2.loops = []) ∧
      (s.NoChannels → s.objs.keys = []) := by
  have hrun : ((Exec.run step init closedRun).map fun s => decide s.Idle) = some true := by
    decide +kernel
  obtain ⟨s, hs, hidle⟩ := Option.map_eq_some_iff.mp hrun
  exact ⟨s, hs, wait_all_returns_iff hs (of_decide_eq_true hidle)⟩

/-- The response thread of a channel has its channel until it ends, and its context, with this
channel, until its handler has returned true. No object is destroyed twice, or with a destructor
that goes through a pointer to a destroyed object. -/
theorem no_use_after_free (hr : Exec.run step init as = some s) :
    (∀ th ∈ s.threads, (∃ c, (th.chan, .channel c) ∈ s.objs) ∧
      (th.exiting = false → ∃ k, (th.ctx, .infContext k) ∈ s.objs ∧ k.chan = some th.chan)) ∧
    (s.destroyed.map Prod.fst).Nodup ∧ (∀ x ∈ s.destroyed.map Prod.fst, x ∉ s.objs.keys) ∧
    ∀ e ∈ s.destroyed, e.2.isSome := by
  have h := ok_run hr
  refine ⟨fun th hth => ⟨?_, fun hex => ?_⟩, h.formed.once, fun x hx => (h.formed.gone x hx).2,
    h.formed.ran⟩
  · obtain ⟨o, ho, hkind⟩ := Heap.mem_of_kind? (h.threaded.chan th hth).1
    cases o with
    | channel c => exact ⟨c, ho⟩
    | _ => cases hkind
  · exact Heap.mem_of_chan? (h.threaded.ctx th hth hex).1

theorem no_use_after_free_closed : ∃ s, Exec.run step init closedRun = some s ∧
    (∀ th ∈ s.threads, (∃ c, (th.chan, .channel c) ∈ s.objs) ∧
      (th.exiting = false → ∃ k, (th.ctx, .infContext k) ∈ s.objs ∧ k.chan = some th.chan)) ∧
    (s.destroyed.map Prod.fst).Nodup ∧ (∀ x ∈ s.destroyed.map Prod.fst, x ∉ s.objs.keys) ∧
    ∀ e ∈ s.destroyed, e.2.isSome := by
  obtain ⟨s, hs⟩ := Option.isSome_iff_exists.mp
    (by decide +kernel : (Exec.run step init closedRun).isSome)
  exact ⟨s, hs, no_use_after_free hs⟩

/-- The handler of the context's response thread has not returned true. -/
def Serving (s : State) (c : ℕ) : Prop := ∃ th ∈ s.threads, th.ctx = c ∧ th.exiting = false

def objdb : Obj → List ℕ
  | .infContext k => k.objdb
  | _ => []

/-- Objects are put into the database of a context, and `m_this` of the context is set, while its
response thread serves it; the handler returns true when the database is empty; and no resources
are paired. -/
def Tidy (s : State) : Act → Prop
  | .pair _ _ _ => False
  | .insertObj _ c _ | .setThis _ c => s.Serving c
  | .exitHandler ch => ∀ th ∈ s.reading? ch, ∀ o ∈ s.objs.find? th.ctx, objdb o = []
  | _ => True

instance (s : State) (c : ℕ) : Decidable (s.Serving c) := inferInstanceAs (Decidable (∃ _ ∈ _, _))

instance (s : State) (a : Act) : Decidable (s.Tidy a) := by
  cases a <;> unfold Tidy <;> infer_instance

/-- Only channels and contexts that are served may close circles. -/
def Clean (s : State) : Prop :=
  ∀ e ∈ s.objs, e.2.loops ≠ [] → e.2.kind = .channel ∨ e.2.kind = .infContext ∧ s.Serving e.1

theorem mem_of_mem_release {pending : List ℕ} {e : ℕ × Obj} (he : e ∈ (s.release pending).objs) :
    e ∈ s.objs := mem_of_mem_dropAll he

theorem mem_update {f : Obj → Option Obj} {e : ℕ × Obj} (hu : s.update x f = some s')
    (he : e ∈ s'.objs) :
    (∃ o, (x, o) ∈ s.objs ∧ f o = some e.2 ∧ e.1 = x) ∨ e ∈ s.objs ∧ e.1 ≠ x := by
  obtain ⟨o, o', hx, ho', rfl⟩ := update_eq_some hu
  rcases OrderedMap.mem_insert.mp (mem_of_mem_release he) with rfl | he
  · exact .inl ⟨o, hx, ho', rfl⟩
  · exact .inr he

theorem update_threads {f : Obj → Option Obj} (hu : s.update x f = some s') :
    s'.threads = s.threads := by
  obtain ⟨o, o', -, -, rfl⟩ := update_eq_some hu
  rfl

/-- An assignment that adds no pointer that may close a circle. -/
def Shrinks (f : Obj → Option Obj) : Prop :=
  ∀ o o', f o = some o' → o'.kind = o.kind ∧ o'.loops ⊆ o.loops

theorem shrinks_addRing (r : ℕ) : Shrinks (Obj.addRing r) := by
  intro o o' ho
  cases o with
  | channel c => cases ho; exact ⟨rfl, List.Subset.refl _⟩
  | infContext c => cases ho; exact ⟨rfl, List.Subset.refl _⟩
  | _ => cases ho

theorem shrinks_setChan (ch : ℕ) : Shrinks (Obj.setChan ch) := by
  intro o o' ho
  cases o with
  | infContext c => cases ho; exact ⟨rfl, List.Subset.refl _⟩
  | _ => cases ho

theorem shrinks_eraseObj (y : ℕ) : Shrinks (Obj.eraseObj y) := by
  intro o o' ho
  cases o with
  | infContext c =>
    cases ho
    exact ⟨rfl, List.append_subset.mpr ⟨List.subset_append_left _ _,
      List.subset_append_of_subset_right _ (List.map_subset _ List.erase_subset)⟩⟩
  | _ => cases ho

theorem shrinks_clearObjs : Shrinks Obj.clearObjs := by
  intro o o' ho
  cases o with
  | infContext c =>
    cases ho
    exact ⟨rfl, List.append_subset.mpr ⟨List.subset_append_left _ _, List.nil_subset _⟩⟩
  | _ => cases ho

theorem shrinks_addDevRes (rs : List ℕ) : Shrinks (Obj.addDevRes rs) := by
  intro o o' ho
  cases o with
  | devNet c rs' => cases ho; exact ⟨rfl, List.Subset.refl _⟩
  | _ => cases ho

theorem shrinks_append (y : ℕ) : Shrinks (Obj.append y) := by
  intro o o' ho
  cases o with
  | commandList c vec failed => cases ho; exact ⟨rfl, List.Subset.refl _⟩
  | _ => cases ho

theorem shrinks_setHostres (r : Option ℕ) : Shrinks (Obj.setHostres r) := by
  intro o o' ho
  cases o with
  | copyCommand c => cases ho; exact ⟨rfl, List.Subset.refl _⟩
  | _ => cases ho

theorem shrinks_addFailed (r : ℕ) : Shrinks (Obj.addFailed r) := by
  intro o o' ho
  cases o with
  | infContext c => cases ho; exact ⟨rfl, List.Subset.refl _⟩
  | commandList c vec failed => cases ho; exact ⟨rfl, List.Subset.refl _⟩
  | _ => cases ho

theorem shrinks_clearFailed : Shrinks Obj.clearFailed := by
  intro o o' ho
  cases o with
  | infContext c => cases ho; exact ⟨rfl, List.Subset.refl _⟩
  | commandList c vec failed => cases ho; exact ⟨rfl, List.Subset.refl _⟩
  | _ => cases ho

theorem shrinks_unpair : Shrinks (Obj.setPeer none) := by
  intro o o' ho
  cases o with
  | devRes c peer => cases ho; exact ⟨rfl, List.nil_subset _⟩
  | _ => cases ho

theorem shrinks_resetThis : Shrinks (Obj.setThis none) := by
  intro o o' ho
  cases o with
  | channel c => cases ho; exact ⟨rfl, List.nil_subset _⟩
  | infContext c => cases ho; exact ⟨rfl, List.subset_append_right _ _⟩
  | _ => cases ho

theorem Clean.update {f : Obj → Option Obj} (h : s.Clean) (hu : s.update x f = some s')
    (hf : Shrinks f) : s'.Clean := by
  intro e he hne
  rw [Serving, update_threads hu]
  rcases mem_update hu he with ⟨o, ho, hfo, hex⟩ | ⟨he, -⟩
  · obtain ⟨hkind, hsub⟩ := hf o e.2 hfo
    have hne' : o.loops ≠ [] := fun hnil => hne (List.subset_nil.mp (hnil ▸ hsub))
    rw [hkind, hex]
    exact h _ ho hne'
  · exact h e he hne

theorem Clean.serving (h : s.Clean) (hobjs : s'.objs = s.objs)
    (hserving : ∀ c, s.Serving c → s'.Serving c) : s'.Clean := fun e he hne =>
  (h e (hobjs ▸ he) hne).imp_right fun hs => ⟨hs.1, hserving _ hs.2⟩

theorem Clean.insert (h : s.Clean) (hobjs : s'.objs = s.objs.insert x o)
    (hserving : ∀ c, s.Serving c → s'.Serving c) (ho : o.loops ≠ [] → o.kind = .channel) :
    s'.Clean := by
  intro e he hne
  rw [hobjs] at he
  rcases OrderedMap.mem_insert.mp he with rfl | ⟨he, -⟩
  · exact .inl (ho hne)
  · exact (h e he hne).imp_right fun hs => ⟨hs.1, hserving _ hs.2⟩

theorem Clean.update_served {f : Obj → Option Obj} (h : s.Clean) (hu : s.update x f = some s')
    (hf : ∀ o o', f o = some o' → o'.kind = .channel ∨ o'.kind = .infContext)
    (hserved : s.Serving x) : s'.Clean := by
  intro e he hne
  rw [Serving, update_threads hu]
  rcases mem_update hu he with ⟨o, -, hfo, hex⟩ | ⟨he, -⟩
  · exact (hf o e.2 hfo).imp_right fun hkind => ⟨hkind, hex ▸ hserved⟩
  · exact h e he hne

theorem setThis_kind {this : Option ℕ} (o o' : Obj) (ho : o.setThis this = some o') :
    o'.kind = .channel ∨ o'.kind = .infContext := by
  cases o with
  | channel c => cases ho; exact .inl rfl
  | infContext c => cases ho; exact .inr rfl
  | _ => cases ho

theorem insertObj_kind (o o' : Obj) (ho : o.insertObj y = some o') :
    o'.kind = .channel ∨ o'.kind = .infContext := by
  cases o with
  | infContext c => cases ho; exact .inr rfl
  | _ => cases ho

theorem Clean.exitHandler {ch : ℕ} (h : s.Clean) (hok : s.Ok) (hs : s.exitHandler ch = some s')
    (hdb : ∀ th ∈ s.reading? ch, ∀ o ∈ s.objs.find? th.ctx, objdb o = []) : s'.Clean := by
  obtain ⟨th, hth, hu⟩ := Option.bind_eq_some_iff.mp hs
  obtain ⟨hmem, rfl, hex, k, hk, -⟩ := hok.threaded.reading hth
  intro e he hne
  rw [Serving, update_threads hu]
  rcases mem_update hu he with ⟨o, ho, hfo, -⟩ | ⟨he, hctx'⟩
  · obtain rfl := eq_of_mem ho hk
    have hnil : k.objdb = [] := hdb th hth _ (OrderedMap.find?_eq_some.mpr hk)
    have heq : Obj.infContext { k with this := none } = e.2 := Option.some.inj hfo
    refine absurd ?_ hne
    rw [← heq, Obj.loops, hnil]
    rfl
  · rcases h e he hne with hkind | ⟨hkind, th', hmem', hctx, hex'⟩
    · exact .inl hkind
    · have hne' : th' ≠ th := fun heq => hctx' (heq ▸ hctx.symm)
      exact .inr ⟨hkind, th', List.mem_cons_of_mem _ ((List.mem_erase_of_ne hne').mpr hmem'),
        hctx, hex'⟩

theorem Clean.exitThread {ch : ℕ} (h : s.Clean) (hs : s.exitThread ch = some s') : s'.Clean := by
  obtain ⟨th, hth, hu⟩ := Option.bind_eq_some_iff.mp hs
  have hex : th.exiting = true := (by simpa using List.find?_some hth : _ ∧ _).2
  refine Clean.update ?_ hu shrinks_resetThis
  refine h.serving rfl ?_
  rintro c ⟨th', hmem, hctx, hex'⟩
  have hne : th' ≠ th := by
    rintro rfl
    rw [hex] at hex'
    cases hex'
  exact ⟨th', (List.mem_erase_of_ne hne).mpr hmem, hctx, hex'⟩

theorem Clean.newChannel {c p d : ℕ} {started : Bool} (h : s.Clean)
    (hs : s.newChannel t c p d started = some s') : s'.Clean := by
  rw [State.newChannel] at hs
  split at hs
  next =>
    cases started with
    | false =>
      obtain rfl := Option.some.inj hs
      exact h.serving rfl fun _ => id
    | true =>
      refine Clean.update ?_ hs (shrinks_setChan _)
      apply h.insert rfl _ fun _ => rfl
      rintro c ⟨th, hth, hrest⟩
      exact ⟨th, List.mem_cons_of_mem _ hth, hrest⟩
  next => cases hs

theorem Clean.step {a : Act} (h : s.Clean) (hok : s.Ok) (ha : s.Tidy a)
    (hs : s.step a = some s') : s'.Clean := by
  have hsame : ∀ {s' : State}, s'.objs = s.objs → s'.threads = s.threads → s'.Clean :=
    fun hobjs hth => h.serving hobjs fun c hc => by rwa [Serving, hth]
  have hdrop : ∀ {s₁ : State} (pending : List ℕ), s₁.objs = s.objs → s₁.threads = s.threads →
      (s₁.release pending).Clean := fun pending hobjs hth e he hne =>
    hsame hobjs hth e (mem_of_mem_release he) hne
  cases a with
  | lockWeak t x =>
    rw [State.step] at hs
    split at hs
    · cases hs; exact hsame rfl rfl
    · cases hs
  | find t x =>
    rw [State.step] at hs
    split at hs
    · cases hs; exact hsame rfl rfl
    · cases hs
  | load t y x =>
    rw [State.step] at hs
    split at hs
    · cases hs; exact hsame rfl rfl
    · cases hs
  | fetch t ch x =>
    obtain ⟨th, -, hs⟩ := Option.bind_eq_some_iff.mp hs
    split at hs
    · cases hs; exact hsame rfl rfl
    · cases hs
  | new t o =>
    rw [State.step] at hs
    split at hs
    next hnew =>
      cases hs
      exact h.insert rfl (fun _ => id) fun hne => absurd hnew.1 hne
    next => cases hs
  | newChannel t c p d started => exact h.newChannel hs
  | setThis t c =>
    rw [State.step] at hs
    split at hs
    · refine Clean.update_served ?_ hs setThis_kind ha
      exact hsame rfl rfl
    · cases hs
  | newRing t ch r =>
    have hs : s.newRing t ch r = some s' := hs
    rw [State.newRing] at hs
    split at hs
    · refine Clean.update ?_ hs (shrinks_addRing _)
      exact h.insert rfl (fun _ => id) fun hne => absurd rfl hne
    · cases hs
  | keepRing t c r =>
    rw [State.step] at hs
    split at hs
    · exact h.update hs (shrinks_addRing r)
    · cases hs
  | insertObj t c x =>
    rw [State.step] at hs
    split at hs
    · exact h.update_served hs insertObj_kind ha
    · cases hs
  | addDevRes t n rs =>
    rw [State.step] at hs
    split at hs
    · exact h.update hs (shrinks_addDevRes rs)
    · cases hs
  | append t l x =>
    rw [State.step] at hs
    split at hs
    · exact h.update hs (shrinks_append x)
    · cases hs
  | setHostres t y r =>
    rw [State.step] at hs
    split at hs
    · exact h.update hs (shrinks_setHostres _)
    · cases hs
  | resetHostres y => exact h.update hs (shrinks_setHostres none)
  | addFailed x r =>
    rw [State.step] at hs
    split at hs
    · exact h.update hs (shrinks_addFailed r)
    · cases hs
  | clearFailed x => exact h.update hs shrinks_clearFailed
  | pair t r p => exact ha.elim
  | unpair t r =>
    rw [State.step] at hs
    split at hs
    · exact h.update hs shrinks_unpair
    · cases hs
  | makeHandle t x =>
    rw [State.step] at hs
    split at hs
    · cases hs; exact hsame rfl rfl
    · cases hs
  | removeHandle x =>
    rw [State.step] at hs
    split at hs
    · cases hs; exact hdrop _ rfl rfl
    · cases hs
  | endCall t =>
    have hs : s.endCall t = some s' := hs
    rw [State.endCall] at hs
    split at hs
    · cases hs
    · cases hs; exact hdrop _ rfl rfl
  | removeObj t c x =>
    rw [State.step] at hs
    split at hs
    · exact h.update hs (shrinks_eraseObj x)
    · cases hs
  | eraseObj ch x =>
    obtain ⟨th, -, hs⟩ := Option.bind_eq_some_iff.mp hs
    exact h.update hs (shrinks_eraseObj x)
  | clearAll ch =>
    obtain ⟨th, -, hs⟩ := Option.bind_eq_some_iff.mp hs
    exact h.update hs shrinks_clearObjs
  | exitHandler ch => exact h.exitHandler hok hs ha
  | exitThread ch => exact h.exitThread hs

/-- In a tidy run, once the program has let go of everything and the response threads have ended,
every object is destroyed, so that `wait_all` returns. -/
theorem tidy_run_destroys_all (hr : Exec.run State.step State.init as = some s)
    (hm : Exec.Meets State.step Tidy init as) (hidle : s.Idle) :
    s.NoChannels ∧ s.objs.keys = [] := by
  have hinit : init.Ok ∧ init.Clean := ⟨ok_init, fun e he => absurd he OrderedMap.not_mem_empty⟩
  have halways : Exec.Always State.step (fun s => s.Ok ∧ s.Clean) init as :=
    Exec.always_of_invariant hinit
      (fun _ _ _ h ha hs => ⟨h.1.step hs, h.2.step h.1 ha hs⟩) hm
  obtain ⟨hok, hclean⟩ := halways.last hr
  obtain ⟨hiff, hempty⟩ := hok.noChannels_iff hidle
  have hno : s.NoChannels := by
    refine hiff.mpr fun e he hkind => ?_
    by_contra hne
    rcases hclean e he hne with hk | ⟨-, th, hth, -⟩
    · exact hkind hk
    · rw [hidle.2.2] at hth
      exact absurd hth List.not_mem_nil
  exact ⟨hno, hempty hno⟩

theorem tidy_run_destroys_all_closed :
    ∃ s, Exec.run State.step init closedRun = some s ∧ s.NoChannels ∧ s.objs.keys = [] := by
  have hrun : ((Exec.run State.step init closedRun).map fun s => decide s.Idle) = some true := by
    decide +kernel
  obtain ⟨s, hs, hidle⟩ := Option.map_eq_some_iff.mp hrun
  exact ⟨s, hs, tidy_run_destroys_all hs (by decide +kernel) (of_decide_eq_true hidle)⟩

end State

end NNPIHost.Lifetime

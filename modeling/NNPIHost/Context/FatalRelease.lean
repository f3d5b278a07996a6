import NNPIHost.Context.Scheduling

/-! # Release of the copies after a fatal event

The event that ends the response thread releases every scheduled copy, and calls that come
too late release what they took themselves. Between the two steps of the event, and between
the last test of a call and its message, a copy can still be scheduled with nobody left to
release it; and a call and the response thread that both see a mark release its one lock twice.
-/

namespace NNPIHost

open Function (update update_eq_self)

namespace SchedElem

theorem mem_prepareCopies {before cs : List ℕ} {p : ℕ × List ℕ} (hp : p ∈ prepareCopies before cs) :
    p.1 ∈ cs ∧ ∀ c ∈ before, c ∈ p.2 := by
  induction cs generalizing before with
  | nil => cases hp
  | cons c cs ih =>
    rcases List.mem_cons.mp hp with rfl | hp
    · exact ⟨List.mem_cons_self, fun d hd => List.mem_append_left _ hd⟩
    · obtain ⟨hmem, hbefore⟩ := ih hp
      exact ⟨List.mem_cons_of_mem _ hmem, fun d hd => hbefore d (List.mem_append_left _ hd)⟩

theorem pairwise_prepareCopies (before cs : List ℕ) :
    (prepareCopies before cs).Pairwise fun p q => p.1 ∈ q.2 := by
  induction cs generalizing before with
  | nil => exact .nil
  | cons c cs ih =>
    exact .cons (fun q hq => (mem_prepareCopies hq).2 c (by simp)) (ih _)

theorem mem_prepares {e : SchedElem} {p : ℕ × List ℕ} (hp : p ∈ e.prepares) : p.1 ∈ e.copies := by
  cases e with
  | copy c => simp_all [prepares, copies]
  | copyList needPrepare cs =>
    cases needPrepare with
    | true => exact (mem_prepareCopies hp).1
    | false => cases hp
  | infReq => cases hp

theorem pairwise_prepares (e : SchedElem) : e.prepares.Pairwise fun p q => p.1 ∈ q.2 := by
  cases e with
  | copy c => exact List.pairwise_singleton ..
  | copyList needPrepare cs =>
    cases needPrepare with
    | true => exact pairwise_prepareCopies [] cs
    | false => exact .nil
  | infReq => exact .nil

end SchedElem

theorem mem_prepareElems {done : List ℕ} {es : List SchedElem} {p : ℕ × List ℕ}
    (hp : p ∈ prepareElems done es) :
    p.1 ∈ es.flatMap SchedElem.copies ∧ ∀ c ∈ done, c ∈ p.2 := by
  induction es generalizing done with
  | nil => cases hp
  | cons e es ih =>
    rw [List.flatMap_cons]
    rcases List.mem_append.mp hp with hp | hp
    · obtain ⟨q, hq, rfl⟩ := List.mem_map.mp hp
      have hmem : q.1 ∈ e.copies := SchedElem.mem_prepares hq
      exact ⟨List.mem_append_left _ hmem, fun c hc => List.mem_append_right _ hc⟩
    · obtain ⟨hmem, hdone⟩ := ih hp
      exact ⟨List.mem_append_right _ hmem, fun c hc => hdone c (List.mem_append_right _ hc)⟩

theorem pairwise_prepareElems (done : List ℕ) (es : List SchedElem) :
    (prepareElems done es).Pairwise fun p q => p.1 ∈ q.2 := by
  induction es generalizing done with
  | nil => exact .nil
  | cons e es ih =>
    refine List.pairwise_append.mpr ⟨?_, ih _, ?_⟩
    · exact (SchedElem.pairwise_prepares e).map _ fun p q hpq => List.mem_append_left _ hpq
    · intro p hp q hq
      obtain ⟨p', hp', rfl⟩ := List.mem_map.mp hp
      have hmem : p'.1 ∈ e.copies := SchedElem.mem_prepares hp'
      exact (mem_prepareElems hq).2 _ (List.mem_append_left _ hmem)

namespace SchedCall

/-- The call has taken the lock of the copy for a mark to come, or has to release that of a
mark that is gone. -/
def InTransit (call : SchedCall) (c : ℕ) : Bool :=
  match call.phase with
  | .mark d _ | .unlock d _ => d = c
  | _ => false

/-- The copies whose mark the call takes away unless it succeeds. -/
def Pending (call : SchedCall) (c : ℕ) : Prop :=
  match call.phase with
  | .prepare todo | .mark _ todo => c ∈ call.copies ∧ ∀ p ∈ todo, c ∈ p.2
  | .send _ => c ∈ call.copies
  | .release cs | .unlock _ cs => c ∈ cs
  | .found d cs => c = d ∨ c ∈ cs

/-- Each copy is released when a later one is busy, and when the messages are not written. -/
def Ordered (cs : List ℕ) (todo : List (ℕ × List ℕ)) : Prop :=
  todo.Pairwise (fun p q => p.1 ∈ q.2) ∧ ∀ p ∈ todo, p.1 ∈ cs

def WellFormed (call : SchedCall) : Prop :=
  match call.phase with
  | .prepare todo => Ordered call.copies todo
  | .mark c todo => Ordered call.copies ((c, []) :: todo)
  | _ => True

/-- The copy that the call is about to mark. -/
def marking (call : SchedCall) : Option ℕ :=
  match call.phase with
  | .mark c _ => some c
  | _ => none

/-- The copy whose mark the call is about to take away. -/
def unmarking (call : SchedCall) : Option ℕ :=
  match call.phase with
  | .found c _ => some c
  | _ => none

end SchedCall

namespace Handler

def InTransit (h : Handler) (c : ℕ) : Bool :=
  match h with
  | .finish d | .unlock d _ _ => d = c
  | _ => false

/-- The copies that the event has still to be handled for. -/
def todo : Handler → Option (List ℕ)
  | .idle | .found _ _ | .finish _ => none
  | .visit cs _ | .unlock _ cs _ => some cs
  | .see c cs _ => some (c :: cs)
  | .complete | .done => some []

/-- The copy whose mark the response thread is about to take away. -/
def unmarking : Handler → Option ℕ
  | .found c _ | .see c _ _ => some c
  | _ => none

end Handler

namespace SchedState

/-- Once the event has been handled and no call is left, no copy is marked, and the counter of
its host resource stands for the other users of the resource alone. -/
def Released (s : SchedState) : Prop :=
  s.handler = .done → s.calls = [] → ∀ c ∈ s.ids, s.table.scheduled c = false ∧
    ((s.table.kind c).locks = true →
      Lock.Held (s.table.hostres c).readers (s.others (s.table.kind c).hostres))

/-- The copy takes locks and is marked as told. -/
def MarkIs (s : SchedState) (scheduled : Bool) (c : ℕ) : Prop :=
  (s.table.kind c).locks = true → s.table.scheduled c = scheduled

/-- A copy is not marked twice, a mark that was seen is still there when it is taken away, and
no call succeeds with a copy that was scheduled after the event had been handled for it. -/
def InTime (s : SchedState) : SchedOp → Prop
  | .proceed call => (∀ c, call.marking = some c → s.MarkIs false c) ∧
      ∀ c, call.unmarking = some c → s.MarkIs true c
  | .respond => ∀ c, s.handler.unmarking = some c → s.MarkIs true c
  | .write call ok => ok = true → s.killed = false → call.phase = .send 0 →
      ∀ c ∈ call.copies, c ∈ s.visited → s.table.scheduled c = false
  | _ => True

instance (s : SchedState) : Decidable s.Released := inferInstanceAs (Decidable (_ → _ → _))

instance (s : SchedState) (scheduled : Bool) : DecidablePred (s.MarkIs scheduled) := fun c =>
  inferInstanceAs (Decidable ((s.table.kind c).locks = true → _))

instance (s : SchedState) : DecidablePred s.InTime := fun op => by
  unfold InTime
  split <;> infer_instance

/-- The locks of a copy that are on their way to or from its mark. -/
def transit (s : SchedState) (c : ℕ) : ℕ :=
  s.calls.countP (·.InTransit c) + (s.handler.InTransit c).toNat

/-- All locks are accounted for, and a copy that is marked after the event was handled for it
belongs to a call that releases it. -/
structure Inv (s : SchedState) : Prop where
  account : s.table.Accounts s.others s.transit
  wellFormed : ∀ call ∈ s.calls, call.WellFormed
  listed : ∀ call ∈ s.calls, ∀ c ∈ call.copies, c ∈ s.ids
  marked : ∀ c, s.table.scheduled c = true → c ∈ s.ids
  owned : ∀ c ∈ s.visited, s.table.scheduled c = true → ∃ call ∈ s.calls, call.Pending c
  visits : ∀ cs, s.handler.todo = some cs → ∀ c ∈ s.ids, c ∈ s.visited ∨ c ∈ cs

variable {s t : SchedState} {call : SchedCall}

theorem Inv.not_scheduled (h : s.Inv) (hdone : s.handler = .done) (hcalls : s.calls = []) (c : ℕ) :
    s.table.scheduled c = false := by
  by_contra hs
  rw [Bool.not_eq_false] at hs
  have hv : c ∈ s.visited := by
    rcases h.visits [] (by rw [hdone]; rfl) c (h.marked c hs) with hv | hv
    · exact hv
    · cases hv
  obtain ⟨call, hm, _⟩ := h.owned c hv hs
  rw [hcalls] at hm
  cases hm

theorem Inv.released (h : s.Inv) : s.Released := by
  intro hdone hcalls
  have hs := h.not_scheduled hdone hcalls
  have hzero : ∀ c, s.transit c = 0 := by
    intro c
    rw [transit, hcalls, hdone]
    rfl
  refine fun c _ => ⟨hs c, fun hc => ?_⟩
  have hlockless : (s.table.res (s.table.kind c).hostres).lockless = false :=
    (CopyKind.locks_eq_true.mp hc).2
  exact h.account.held_others (fun d _ => ⟨hzero d, hs d⟩) hlockless

theorem Inv.perm (h : s.Inv) {calls : List SchedCall} (hp : s.calls.Perm calls) :
    Inv { s with calls } where
  account := by
    have htransit : ({ s with calls } : SchedState).transit = s.transit := by
      funext c
      rw [transit, transit, hp.countP_eq]
    rw [htransit]
    exact h.account
  wellFormed call hm := h.wellFormed call (hp.mem_iff.mpr hm)
  listed call hm := h.listed call (hp.mem_iff.mpr hm)
  marked := h.marked
  owned c hc hs := by
    obtain ⟨call, hm, hpend⟩ := h.owned c hc hs
    exact ⟨call, hp.mem_iff.mp hm, hpend⟩
  visits := h.visits

theorem transit_add (s : SchedState) (call : SchedCall) :
    (s.add call).transit = fun c => s.transit c + (call.InTransit c).toNat := by
  funext c
  simp only [transit, add, List.countP_cons]
  cases call.InTransit c
  · simp
  · simp only [if_true, Bool.toNat_true]
    omega

theorem Inv.turn (h : (s.add call).Inv) {call' : SchedCall} {table : CopyTable}
    (hcopies : call'.copies = call.copies)
    (hacc : ∀ n : ℕ → ℕ, s.table.Accounts s.others (fun c => n c + (call.InTransit c).toNat) →
      table.Accounts s.others fun c => n c + (call'.InTransit c).toNat)
    (hwf : call'.WellFormed)
    (hmark : ∀ c, table.scheduled c = true →
      s.table.scheduled c = true ∨ c ∈ call.copies ∧ call'.Pending c)
    (hpend : ∀ c, table.scheduled c = true → call.Pending c → call'.Pending c) :
    ({ s with table }.add call').Inv where
  account := by
    have h := h.account
    rw [transit_add] at h ⊢
    exact hacc _ h
  wellFormed := List.forall_mem_cons.mpr ⟨hwf, fun call' hm =>
    h.wellFormed call' (List.mem_cons_of_mem _ hm)⟩
  listed := List.forall_mem_cons.mpr ⟨hcopies ▸ h.listed call List.mem_cons_self,
    fun call' hm => h.listed call' (List.mem_cons_of_mem _ hm)⟩
  marked c hs := by
    rcases hmark c hs with hbefore | ⟨hmem, -⟩
    · exact h.marked c hbefore
    · exact h.listed call List.mem_cons_self c hmem
  owned c hc hs := by
    rcases hmark c hs with hbefore | ⟨-, hown⟩
    · obtain ⟨call'', hm, hp⟩ := h.owned c hc hbefore
      rcases List.mem_cons.mp hm with rfl | hm
      · exact ⟨call', List.mem_cons_self, hpend c hs hp⟩
      · exact ⟨call'', List.mem_cons_of_mem _ hm, hp⟩
    · exact ⟨call', List.mem_cons_self, hown⟩
  visits := h.visits

theorem Inv.pass (h : (s.add call).Inv) {call' : SchedCall} (hcopies : call'.copies = call.copies)
    (htransit : call'.InTransit = call.InTransit) (hwf : call'.WellFormed)
    (hpend : ∀ c, s.table.scheduled c = true → call.Pending c → call'.Pending c) :
    (s.add call').Inv :=
  h.turn hcopies (fun _ hn => htransit ▸ hn) hwf (fun _ hs => .inl hs) hpend

theorem Inv.leave (h : (s.add call).Inv) (htransit : ∀ c, call.InTransit c = false)
    (hpend : ∀ c ∈ s.visited, s.table.scheduled c = true → ¬ call.Pending c) : s.Inv where
  account := by
    have h := h.account
    simp only [transit_add, htransit, Bool.toNat_false, Nat.add_zero] at h
    exact h
  wellFormed call' hm := h.wellFormed call' (List.mem_cons_of_mem _ hm)
  listed call' hm := h.listed call' (List.mem_cons_of_mem _ hm)
  marked := h.marked
  owned c hc hs := by
    obtain ⟨call', hm, hp⟩ := h.owned c hc hs
    rcases List.mem_cons.mp hm with rfl | hm
    · exact absurd hp (hpend c hc hs)
    · exact ⟨call', hm, hp⟩
  visits := h.visits

theorem Inv.congr (h : s.Inv) (htable : t.table = s.table) (hothers : t.others = s.others)
    (hcalls : t.calls = s.calls) (hhandler : t.handler = s.handler) (hids : t.ids = s.ids)
    (hvisited : t.visited = s.visited) : t.Inv := by
  have htransit : t.transit = s.transit := by
    funext c
    rw [transit, transit, hcalls, hhandler]
  refine ⟨?_, ?_, ?_, ?_, ?_, ?_⟩
  · rw [htable, hothers, htransit]
    exact h.account
  · rw [hcalls]
    exact h.wellFormed
  · rw [hcalls, hids]
    exact h.listed
  · rw [htable, hids]
    exact h.marked
  · rw [htable, hcalls, hvisited]
    exact h.owned
  · rw [hhandler, hids, hvisited]
    exact h.visits

theorem Inv.setRes (h : s.Inv) {k : ℕ} {r : HostRes} {m : List Bool}
    (hl : r.lockless = (s.table.res k).lockless)
    (hheld : ∀ modes, r.lockless = false → Lock.Held (s.table.res k).readers (modes ++ s.others k) →
      Lock.Held r.readers (modes ++ m)) :
    Inv { s with table := s.table.setRes k r, others := update s.others k m } :=
  ⟨h.account.setRes hl hheld, h.wellFormed, h.listed, h.marked, h.owned, h.visits⟩

theorem giveUp_eq (s : SchedState) (call : SchedCall) :
    ∃ lists, s.giveUp call = { s with lists } := by
  unfold giveUp
  split
  · exact ⟨s.lists, rfl⟩
  · exact ⟨_, rfl⟩

theorem Inv.proceed (h : (s.add call).Inv)
    (hmark : ∀ c, call.marking = some c → s.MarkIs false c)
    (hunmark : ∀ c, call.unmarking = some c → s.MarkIs true c)
    (hs : s.proceed call = some t) : t.Inv := by
  obtain ⟨list, copies, more, phase⟩ := call
  have hwf := h.wellFormed _ List.mem_cons_self
  cases phase with
  | prepare todo =>
    cases todo with
    | nil =>
      simp only [SchedState.proceed] at hs
      split at hs <;> obtain rfl := Option.some.inj hs
      · exact h.pass rfl rfl trivial fun c _ hp => hp.1
      · exact h.pass rfl rfl trivial fun c _ hp => hp.1
    | cons p todo =>
      obtain ⟨c, undo⟩ := p
      obtain ⟨hpair, hmem⟩ := hwf
      rcases hl : s.table.lock c with ⟨ret, table⟩
      simp only [SchedState.proceed, hl] at hs
      split at hs <;> obtain rfl := Option.some.inj hs
      next hret =>
        subst hret
        have hsched := (CopyTable.lock_follows hl).scheduled
        refine h.turn rfl (fun n hn => hn.lock hl fun d => rfl) ?_ (fun d hd => ?_) ?_
        · exact ⟨List.pairwise_cons.mpr ⟨(List.pairwise_cons.mp hpair).1, hpair.of_cons⟩,
            by simpa using hmem⟩
        · exact .inl (by rwa [hsched] at hd)
        · exact fun d _ hp => ⟨hp.1, fun p hp' => hp.2 p (List.mem_cons_of_mem _ hp')⟩
      next hret =>
        obtain rfl := CopyTable.lock_eq_of_ne hl hret
        exact h.pass rfl rfl trivial fun d _ hp => hp.2 _ List.mem_cons_self
  | mark c todo =>
    obtain ⟨hpair, hmem⟩ := hwf
    obtain rfl := Option.some.inj hs
    refine h.turn rfl (fun n hn => hn.mark (fun d => rfl) (hmark c rfl)) ?_ (fun d hd => ?_) ?_
    · exact ⟨hpair.of_cons, fun p hp => hmem p (List.mem_cons_of_mem _ hp)⟩
    · rcases CopyTable.scheduled_of_mark hd with hd | rfl
      · exact .inl hd
      · have hc : d ∈ copies := hmem _ List.mem_cons_self
        exact .inr ⟨hc, hc, (List.pairwise_cons.mp hpair).1⟩
    · exact fun d _ hp => hp
  | send more => cases hs
  | release cs =>
    cases cs with
    | nil =>
      obtain rfl := Option.some.inj hs
      have hinv : s.Inv := h.leave (fun _ => rfl) fun c _ _ hp => List.not_mem_nil hp
      obtain ⟨lists, hlists⟩ := giveUp_eq s ⟨list, copies, more, .release []⟩
      rw [hlists]
      exact hinv.congr rfl rfl rfl rfl rfl rfl
    | cons c cs =>
      simp only [SchedState.proceed] at hs
      split at hs <;> obtain rfl := Option.some.inj hs
      next => exact h.pass rfl rfl trivial fun d _ hp => List.mem_cons.mp hp
      next hsched =>
        refine h.pass rfl rfl trivial fun d hd hp => ?_
        rcases List.mem_cons.mp hp with rfl | hp
        · exact absurd hd hsched
        · exact hp
  | found c cs =>
    obtain rfl := Option.some.inj hs
    refine h.turn rfl (fun n hn => hn.unmark (fun d => rfl) (hunmark c rfl) false) trivial ?_ ?_
    · exact fun d hd => .inl (CopyTable.scheduled_of_unmark hd).2
    · exact fun d hd hp => hp.resolve_left (CopyTable.scheduled_of_unmark hd).1
  | unlock c cs =>
    obtain rfl := Option.some.inj hs
    have hsched := (CopyTable.unlock_follows (T := s.table) (c := c)).scheduled
    refine h.turn rfl (fun n hn => hn.unlock fun d => rfl) trivial (fun d hd => ?_) ?_
    · exact .inl (by rwa [hsched] at hd)
    · exact fun d _ hp => hp

theorem Inv.write (h : (s.add call).Inv) {ok : Bool}
    (hok : ok = true → s.killed = false → call.phase = .send 0 →
      ∀ c ∈ call.copies, c ∈ s.visited → s.table.scheduled c = false)
    (hs : s.write call ok = some t) : t.Inv := by
  obtain ⟨list, copies, more, phase⟩ := call
  cases phase with
  | send more =>
    simp only [SchedState.write] at hs
    split at hs
    next =>
      obtain rfl := Option.some.inj hs
      exact h.pass rfl rfl trivial fun c _ hp => hp
    next hsent =>
      rw [not_or, not_not, Bool.not_eq_true] at hsent
      cases more with
      | zero =>
        obtain rfl := Option.some.inj hs
        apply h.leave (fun _ => rfl)
        intro c hc hsched hp
        rw [hok hsent.1 hsent.2 rfl c hp hc] at hsched
        cases hsched
      | succ more =>
        obtain rfl := Option.some.inj hs
        exact h.pass rfl rfl trivial fun c _ hp => hp
  | _ => cases hs

theorem Inv.add (h : s.Inv) (htransit : ∀ c, call.InTransit c = false) (hwf : call.WellFormed)
    (hlisted : ∀ c ∈ call.copies, c ∈ s.ids) : (s.add call).Inv where
  account := by
    have hsame : (s.add call).transit = s.transit := by
      funext c
      simp only [transit_add, htransit, Bool.toNat_false, Nat.add_zero]
    rw [hsame]
    exact h.account
  wellFormed := List.forall_mem_cons.mpr ⟨hwf, h.wellFormed⟩
  listed := List.forall_mem_cons.mpr ⟨hlisted, h.listed⟩
  marked := h.marked
  owned c hc hs := by
    obtain ⟨call', hm, hp⟩ := h.owned c hc hs
    exact ⟨call', List.mem_cons_of_mem _ hm, hp⟩
  visits := h.visits

theorem Inv.answer (h : s.Inv) {table : CopyTable} {handler : Handler} {visited : List ℕ}
    (hacc : ∀ n : ℕ → ℕ,
      s.table.Accounts s.others (fun c => n c + (s.handler.InTransit c).toNat) →
        table.Accounts s.others fun c => n c + (handler.InTransit c).toNat)
    (hmark : ∀ c, table.scheduled c = true → s.table.scheduled c = true)
    (hvisited : ∀ c ∈ visited, table.scheduled c = true → c ∈ s.visited)
    (hvisits : ∀ cs, handler.todo = some cs → ∀ c ∈ s.ids, c ∈ visited ∨ c ∈ cs) :
    Inv { s with table, handler, visited } where
  account := hacc _ h.account
  wellFormed := h.wellFormed
  listed := h.listed
  marked c hs := h.marked c (hmark c hs)
  owned c hc hs := h.owned c (hvisited c hc hs) (hmark c hs)
  visits := hvisits

theorem Inv.answer_unmark (h : s.Inv) {c : ℕ} {handler : Handler} {visited : List ℕ}
    (failed : Bool) (hm : s.MarkIs true c) (hbefore : ∀ d, s.handler.InTransit d = false)
    (hafter : ∀ d, handler.InTransit d = decide (c = d))
    (hvisited : ∀ d ∈ visited, d = c ∨ d ∈ s.visited)
    (hvisits : ∀ cs, handler.todo = some cs → ∀ c ∈ s.ids, c ∈ visited ∨ c ∈ cs) :
    Inv { s with table := s.table.unmark c failed, handler, visited } := by
  refine h.answer (fun n hn => hn.unmark (fun d => ?_) hm failed) ?_ ?_ hvisits
  · rw [hbefore, hafter]
    rfl
  · exact fun d hd => (CopyTable.scheduled_of_unmark hd).2
  · exact fun d hd hs => (hvisited d hd).resolve_left (CopyTable.scheduled_of_unmark hs).1

theorem Inv.answer_unlock (h : s.Inv) {c : ℕ} {handler : Handler}
    (hbefore : ∀ d, s.handler.InTransit d = decide (c = d))
    (hafter : ∀ d, handler.InTransit d = false) (htodo : handler.todo = s.handler.todo) :
    Inv { s with table := s.table.unlock c, handler } := by
  have hsched := (CopyTable.unlock_follows (T := s.table) (c := c)).scheduled
  refine h.answer (fun n hn => hn.unlock fun d => ?_) (fun d hd => ?_) (fun d hd _ => hd) ?_
  · rw [hbefore, hafter]
    rfl
  · rwa [hsched] at hd
  · rw [htodo]
    exact h.visits

theorem Inv.answer_skip (h : s.Inv) {handler : Handler} {visited : List ℕ}
    (hbefore : ∀ d, s.handler.InTransit d = false) (hafter : ∀ d, handler.InTransit d = false)
    (hvisited : ∀ c ∈ visited, s.table.scheduled c = true → c ∈ s.visited)
    (hvisits : ∀ cs, handler.todo = some cs → ∀ c ∈ s.ids, c ∈ visited ∨ c ∈ cs) :
    Inv { s with handler, visited } := by
  refine h.answer (fun n hn => ?_) (fun c hs => hs) hvisited hvisits
  simpa only [hbefore, hafter] using hn

/-- A copy that the event is handled for. -/
theorem visits_cons {c : ℕ} {cs visited ids : List ℕ}
    (h : ∀ d ∈ ids, d ∈ visited ∨ d ∈ c :: cs) : ∀ d ∈ ids, d ∈ c :: visited ∨ d ∈ cs := by
  intro d hd
  rcases h d hd with hv | hv
  · exact .inl (List.mem_cons_of_mem _ hv)
  · rcases List.mem_cons.mp hv with rfl | hv
    · exact .inl List.mem_cons_self
    · exact .inr hv

theorem Inv.record (h : s.Inv) (hidle : ∀ d, s.handler.InTransit d = false)
    (htodo : s.handler.todo = some []) (ev : Option EventReport) : (s.record ev).Inv := by
  have hend : ∀ handler : Handler, (∀ d, handler.InTransit d = false) → handler.todo = some [] →
      Inv { s with handler } := by
    intro handler hnew htodo'
    refine h.answer_skip hidle hnew (fun c hc _ => hc) ?_
    rw [htodo', ← htodo]
    exact h.visits
  cases ev with
  | some ev => exact (hend .complete (fun _ => rfl) rfl).congr rfl rfl rfl rfl rfl rfl
  | none =>
    cases hfatal : s.critical.cardFatal
    · exact (hend .complete (fun _ => rfl) rfl).congr rfl rfl rfl
        (by simp [SchedState.record, hfatal]) rfl rfl
    · exact (hend .done (fun _ => rfl) rfl).congr rfl rfl rfl
        (by simp [SchedState.record, hfatal]) rfl rfl

theorem Inv.respond (h : s.Inv) (hm : ∀ c, s.handler.unmarking = some c → s.MarkIs true c)
    (hs : s.respond = some t) : t.Inv := by
  have hvisits := h.visits
  cases hh : s.handler with
  | idle | done => simp [SchedState.respond, hh] at hs
  | found c failed =>
    simp only [SchedState.respond, hh, Option.some.injEq] at hs
    subst hs
    exact h.answer_unmark failed (hm c (by rw [hh]; rfl)) (by simp [hh, Handler.InTransit])
      (fun _ => rfl) (fun d hd => .inr hd) nofun
  | see c cs ev =>
    simp only [SchedState.respond, hh, Option.some.injEq] at hs
    subst hs
    refine h.answer_unmark true (hm c (by rw [hh]; rfl)) (by simp [hh, Handler.InTransit])
      (fun _ => rfl) (fun d hd => List.mem_cons.mp hd) ?_
    rintro _ ⟨⟩
    exact visits_cons (hvisits (c :: cs) (by rw [hh]; rfl))
  | finish c | unlock c cs ev =>
    simp only [SchedState.respond, hh, Option.some.injEq] at hs
    subst hs
    exact h.answer_unlock (by simp [hh, Handler.InTransit]) (fun _ => rfl) (by rw [hh]; rfl)
  | complete =>
    simp only [SchedState.respond, hh, Option.some.injEq] at hs
    subst hs
    have hinv : Inv { s with handler := .done } :=
      h.answer_skip (by simp [hh, Handler.InTransit]) (fun _ => rfl) (fun c hc _ => hc)
        (by rw [hh] at hvisits; exact hvisits)
    exact hinv.congr rfl rfl rfl rfl rfl rfl
  | visit cs ev =>
    have hidle : ∀ d, s.handler.InTransit d = false := by simp [hh, Handler.InTransit]
    cases cs with
    | nil =>
      simp only [SchedState.respond, hh, Option.some.injEq] at hs
      subst hs
      exact h.record hidle (by rw [hh]; rfl) ev
    | cons c cs =>
      have hnext := hvisits (c :: cs) (by rw [hh]; rfl)
      simp only [SchedState.respond, hh] at hs
      split at hs <;> obtain rfl := Option.some.inj hs
      next =>
        refine h.answer_skip hidle (fun _ => rfl) (fun c hc _ => hc) ?_
        rintro _ ⟨⟩
        exact hnext
      next hsched =>
        refine h.answer_skip hidle (fun _ => rfl) (fun d hd hmarked => ?_) ?_
        · rcases List.mem_cons.mp hd with rfl | hd
          · exact absurd hmarked hsched
          · exact hd
        · rintro _ ⟨⟩
          exact visits_cons hnext

theorem Inv.lockOther (h : s.Inv) {k : ℕ} {w : Bool} {r : HostRes}
    (hl : (s.table.res k).lockDeviceAccess w = (.noError, r)) :
    Inv { s with table := s.table.setRes k r, others := update s.others k (w :: s.others k) } := by
  have hlockless : r.lockless = (s.table.res k).lockless := by
    have hr := HostRes.lockDeviceAccess_lockless (s.table.res k) w
    rwa [hl] at hr
  refine h.setRes hlockless fun modes hk hheld => ?_
  rcases HostRes.lockDeviceAccess_cases (hlockless ▸ hk) w with hret | ⟨hfree, hret⟩ <;>
    rw [hret] at hl
  · cases (Prod.mk.inj hl).1
  · obtain rfl := (Prod.mk.inj hl).2
    exact (hheld.take hfree).perm List.perm_middle.symm

theorem Inv.unlockOther (h : s.Inv) {k : ℕ} {w : Bool} (hw : w ∈ s.others k) :
    Inv { s with
      table := s.table.setRes k ((s.table.res k).unlockDeviceAccess w)
      others := update s.others k ((s.others k).erase w) } := by
  refine h.setRes (HostRes.unlockDeviceAccess_lockless ..) fun modes hk hheld => ?_
  rw [HostRes.unlockDeviceAccess_lockless] at hk
  rw [HostRes.unlockDeviceAccess_eq hk]
  exact (hheld.perm (((List.perm_cons_erase hw).append_left _).trans List.perm_middle)).release

theorem Inv.step (h : s.Inv) {op : SchedOp} (hok : s.InTime op) (hs : s.step op = some t) :
    t.Inv := by
  cases op with
  | scheduleCopy c size =>
    simp only [SchedState.step, Option.ite_none_right_eq_some] at hs
    obtain ⟨hc, hs⟩ := hs
    split at hs <;> obtain rfl := Option.some.inj hs
    · exact h
    · exact h.add (fun _ => rfl) ⟨List.pairwise_singleton .., by simp⟩ (by simpa using hc)
  | scheduleList l more =>
    simp only [SchedState.step, Option.ite_none_right_eq_some] at hs
    obtain ⟨hmem, hs⟩ := hs
    split at hs <;> obtain rfl := Option.some.inj hs
    · exact h
    · have hinv : (s.setInFlight l true).Inv := h.congr rfl rfl rfl rfl rfl rfl
      exact hinv.add (fun _ => rfl)
        ⟨pairwise_prepareElems _ _, fun p hp => (mem_prepareElems hp).1⟩ hmem
  | proceed call =>
    simp only [SchedState.step, Option.ite_none_right_eq_some] at hs
    obtain ⟨hm, hs⟩ := hs
    have hinv : ({ s with calls := s.calls.erase call }.add call).Inv :=
      h.perm (List.perm_cons_erase hm)
    exact hinv.proceed hok.1 hok.2 hs
  | write call ok =>
    simp only [SchedState.step, Option.ite_none_right_eq_some] at hs
    obtain ⟨hm, hs⟩ := hs
    have hinv : ({ s with calls := s.calls.erase call }.add call).Inv :=
      h.perm (List.perm_cons_erase hm)
    exact hinv.write hok hs
  | respond => exact h.respond hok hs
  | fatal ev =>
    simp only [SchedState.step, Option.ite_none_right_eq_some] at hs
    obtain ⟨⟨hidle, _⟩, hs⟩ := hs
    obtain rfl := Option.some.inj hs
    refine h.answer_skip (by simp [hidle, Handler.InTransit]) (fun _ => rfl) (fun c hc _ => hc) ?_
    rintro _ ⟨⟩ c hc
    exact .inr hc
  | kill =>
    simp only [SchedState.step, Option.ite_none_right_eq_some] at hs
    obtain ⟨hidle, hs⟩ := hs
    obtain rfl := Option.some.inj hs
    have hinv : Inv { s with handler := .visit s.ids none } := by
      refine h.answer_skip (by simp [hidle, Handler.InTransit]) (fun _ => rfl) (fun c hc _ => hc) ?_
      rintro _ ⟨⟩ c hc
      exact .inr hc
    exact hinv.congr rfl rfl rfl rfl rfl rfl
  | complete c failed =>
    simp only [SchedState.step, Option.ite_none_right_eq_some] at hs
    obtain ⟨hidle, hs⟩ := hs
    split at hs <;> obtain rfl := Option.some.inj hs
    next =>
      exact h.answer_skip (by simp [hidle, Handler.InTransit]) (fun _ => rfl) (fun c hc _ => hc)
        nofun
    next => exact h
  | lockOther k w =>
    rcases hl : (s.table.res k).lockDeviceAccess w with ⟨ret, r⟩
    simp only [SchedState.step, hl] at hs
    split at hs <;> obtain rfl := Option.some.inj hs
    next hret => exact h.lockOther (hret ▸ hl)
    next => exact h
  | unlockOther k w =>
    simp only [SchedState.step, Option.ite_none_right_eq_some] at hs
    obtain ⟨hw, hs⟩ := hs
    obtain rfl := Option.some.inj hs
    exact h.unlockOther hw
  | completeList l | setFailed l failed | setCritical ev =>
    obtain rfl := Option.some.inj hs
    exact h.congr rfl rfl rfl rfl rfl rfl
  | updateCopyFailCount k n =>
    obtain rfl := Option.some.inj hs
    have hinv := h.setRes (k := k) (r := (s.table.res k).updateCopyFailCount n)
      (m := s.others k) rfl fun _ _ hheld => hheld
    exact hinv.congr rfl (update_eq_self ..).symm rfl rfl rfl rfl

/-- No copy is scheduled, no call is in progress, no lock is taken and the response thread
waits. -/
def create (ids : List ℕ) (copies : ℕ → CopyCommand) (hostres : ℕ → ℕ) (lockless : ℕ → Bool)
    (lists : ℕ → SchedList) : SchedState :=
  ⟨.zero, false, ids,
    ⟨fun c => ⟨(copies c).unmark, hostres c⟩, fun k => .create (lockless k) false⟩,
    fun _ => [], lists, [], .idle, []⟩

variable (ids : List ℕ) (copies : ℕ → CopyCommand) (hostres : ℕ → ℕ) (lockless : ℕ → Bool)
  (lists : ℕ → SchedList)

theorem create_inv : (create ids copies hostres lockless lists).Inv where
  account := ⟨[], fun _ _ => rfl, fun _ _ => .nil⟩
  wellFormed := nofun
  listed := nofun
  marked := nofun
  owned := nofun
  visits := nofun

/-- When no copy is marked twice, a mark that was seen is still there when it is taken away, and
no call succeeds with a copy that was scheduled after the event had been handled for it, every
copy is released in the end. -/
theorem released_after_fatal {ops : List SchedOp}
    (hm : Exec.Meets step InTime (create ids copies hostres lockless lists) ops) :
    Exec.Always step Released (create ids copies hostres lockless lists) ops :=
  (Exec.always_of_invariant (create_inv ids copies hostres lockless lists)
    (fun _ _ _ h hok hs => h.step hok hs) hm).mono fun _ h => h.released

/-- A context with one copy of 64 bytes to the device. -/
def oneCopy : SchedState :=
  create [0] (fun _ => .create false 64 64) (fun _ => 0) (fun _ => false)
    fun _ => ⟨[], false, false, false⟩

/-- The event releases the copies, then a call locks its copy and finds the context not broken
yet: its message is written, and nobody releases the copy. -/
theorem late_call_keeps_lock :
    ¬ Exec.Always step Released oneCopy
      [.fatal (.ofCode 122), .scheduleCopy 0 64, .respond,
        .proceed ⟨none, [0], 0, .prepare [(0, [])]⟩, .proceed ⟨none, [0], 0, .mark 0 []⟩,
        .proceed ⟨none, [0], 0, .prepare []⟩, .respond, .respond,
        .write ⟨none, [0], 0, .send 0⟩ true] := by
  decide

/-- Here the event is recorded before the call tests for it. -/
theorem released_after_fatal_in_time :
    Exec.Always step Released oneCopy
      [.fatal (.ofCode 122), .scheduleCopy 0 64, .respond,
        .proceed ⟨none, [0], 0, .prepare [(0, [])]⟩, .proceed ⟨none, [0], 0, .mark 0 []⟩,
        .respond, .respond, .proceed ⟨none, [0], 0, .prepare []⟩,
        .proceed ⟨none, [0], 0, .release [0]⟩, .proceed ⟨none, [0], 0, .found 0 []⟩,
        .proceed ⟨none, [0], 0, .unlock 0 []⟩, .proceed ⟨none, [0], 0, .release []⟩] :=
  released_after_fatal _ _ _ _ _ (by decide)

/-- A call whose message is not written and the event both see the mark, and the lock is released
twice: the counter is at minus one with nobody left. -/
example : (Exec.run step oneCopy
    [.scheduleCopy 0 64, .proceed ⟨none, [0], 0, .prepare [(0, [])]⟩,
      .proceed ⟨none, [0], 0, .mark 0 []⟩, .proceed ⟨none, [0], 0, .prepare []⟩,
      .write ⟨none, [0], 0, .send 0⟩ false, .fatal (.ofCode 122), .respond,
      .proceed ⟨none, [0], 0, .release [0]⟩, .proceed ⟨none, [0], 0, .found 0 []⟩,
      .proceed ⟨none, [0], 0, .unlock 0 []⟩, .proceed ⟨none, [0], 0, .release []⟩,
      .respond, .respond, .respond, .respond]).map
        (fun s => (s.handler, s.calls, (s.table.res 0).readers)) = some (.done, [], -1) := by
  decide

end SchedState

end NNPIHost

import NNPIHost.Exec.Run
import NNPIHost.Store.Entries

/-! # What the host and the card know of each other

The ids of device resources, and likewise those of copies, name objects of the card. A call that
creates one takes an id, sends it to the card and waits for the reply, which it does not read
when the context is broken by then. An id is given back when its creation fails or when the card
reports its object destroyed. Messages are read in the order they were sent in.
-/

namespace NNPIHost

open Store

inductive IdRequest where
  | create (id : ℕ)
  | destroy (id : ℕ)
  deriving DecidableEq, Repr

inductive IdReport where
  | created (id : ℕ) (ok : Bool)
  | destroyed (id : ℕ)
  deriving DecidableEq, Repr

/-- The id of an object that the card still has when it reads the request. -/
def IdRequest.live : IdRequest → Option ℕ
  | .create _ => none
  | .destroy id => some id

def IdRequest.pending : IdRequest → Option ℕ
  | .create id => some id
  | .destroy _ => none

/-- The id of an object that the card has when the report arrives. -/
def IdReport.live : IdReport → Option ℕ
  | .created id true => some id
  | _ => none

def IdReport.pending : IdReport → Option ℕ
  | .created _ true => none
  | .created id false => some id
  | .destroyed id => some id

@[simp] theorem IdRequest.live_create (id : ℕ) : (create id).live = none := rfl

@[simp] theorem IdRequest.live_destroy (id : ℕ) : (destroy id).live = some id := rfl

@[simp] theorem IdRequest.pending_create (id : ℕ) : (create id).pending = some id := rfl

@[simp] theorem IdRequest.pending_destroy (id : ℕ) : (destroy id).pending = none := rfl

@[simp] theorem IdReport.live_true (id : ℕ) : (created id true).live = some id := rfl

@[simp] theorem IdReport.live_false (id : ℕ) : (created id false).live = none := rfl

@[simp] theorem IdReport.live_destroyed (id : ℕ) : (destroyed id).live = none := rfl

@[simp] theorem IdReport.pending_true (id : ℕ) : (created id true).pending = none := rfl

@[simp] theorem IdReport.pending_false (id : ℕ) : (created id false).pending = some id := rfl

@[simp] theorem IdReport.pending_destroyed (id : ℕ) : (destroyed id).pending = some id := rfl

/-- An object of the host, with its number and its id. -/
structure CardObject where
  number : ℕ
  id : ℕ
  deriving DecidableEq, Repr

/-- The objects of one kind. The host numbers them as they are made. -/
structure CardIds where
  broken : Bool
  /-- The ids that the allocator has handed out. -/
  outstanding : List ℕ
  /-- The ids of calls that have not sent their message. -/
  begun : List ℕ
  /-- The call that has the context's mutex and waits for a reply. -/
  waiting : Option ℕ
  /-- `m_create_reply`. -/
  replies : List (ℕ × Bool)
  made : ℕ
  /-- The objects that the card was not asked to destroy. -/
  objects : List CardObject
  /-- The objects that have a handle. -/
  handles : List CardObject
  /-- The calls that destroy an object and have found it. -/
  found : List CardObject
  /-- The calls that go on to take the handle away. -/
  closing : List CardObject
  toCard : List IdRequest
  /-- The ids of the objects that the card has. -/
  card : List ℕ
  /-- Those of them that the card refused to destroy. -/
  kept : List ℕ
  toHost : List IdReport

inductive CardIdOp where
  | alloc (id : ℕ)
  | writeCreate (id : ℕ) (written : Bool)
  | wake (ok : Bool)
  /-- The wait ends because the context is broken. -/
  | wakeBroken
  | find (o : CardObject)
  | writeDestroy (o : CardObject) (written : Bool)
  /-- The card is not asked, as the error is a card-fatal one. -/
  | cardFatal (o : CardObject)
  | removeHandle (o : CardObject)
  /-- The card carries out the next request, or refuses it. -/
  | card (ok : Bool)
  /-- The response thread handles the next report. -/
  | handle
  | breakContext
  | recover

namespace CardIds

def start : CardIds := ⟨false, [], [], none, [], 0, [], [], [], [], [], [], [], []⟩

variable (s : CardIds)

def writeCreate (id : ℕ) (written : Bool) : CardIds :=
  let s := { s with begun := s.begun.erase id }
  if written then { s with toCard := s.toCard ++ [.create id], waiting := some id }
  else { s with outstanding := s.outstanding.erase id }

/-- The end of `createDevRes` or `createCopy`. -/
def wake (id : ℕ) (ok : Bool) : CardIds :=
  let s := { s with replies := s.replies.erase (id, ok), waiting := none }
  if ok then
    { s with
      made := s.made + 1
      objects := ⟨s.made, id⟩ :: s.objects
      handles := ⟨s.made, id⟩ :: s.handles }
  else { s with outstanding := s.outstanding.erase id }

def writeDestroy (o : CardObject) (written : Bool) : CardIds :=
  let s := { s with found := s.found.erase o }
  if written then
    { s with
      toCard := s.toCard ++ [.destroy o.id]
      objects := s.objects.erase o
      closing := o :: s.closing }
  else s

def cardStep (ok : Bool) : Option CardIds :=
  match s.toCard with
  | [] => none
  | .create id :: l =>
      some { s with
        toCard := l
        toHost := s.toHost ++ [.created id ok]
        card := if ok then id :: s.card else s.card }
  | .destroy id :: l =>
      if ok then
        some { s with
          toCard := l, toHost := s.toHost ++ [.destroyed id], card := s.card.erase id }
      else some { s with toCard := l, kept := id :: s.kept }

/-- `response_handler` with `process_create_reply`. -/
def handle : Option CardIds :=
  match s.toHost with
  | [] => none
  | .created id ok :: l =>
      some { s with toHost := l, replies := (id, ok) :: s.replies.filter fun p => p.1 ≠ id }
  | .destroyed id :: l => some { s with toHost := l, outstanding := s.outstanding.erase id }

def step : CardIdOp → Option CardIds
  | .alloc id =>
      if id ∉ s.outstanding then
        some { s with outstanding := id :: s.outstanding, begun := id :: s.begun }
      else none
  | .writeCreate id written =>
      if id ∈ s.begun ∧ s.waiting = none then some (s.writeCreate id written) else none
  | .wake ok =>
      match s.waiting with
      | none => none
      | some id => if ¬ s.broken ∧ (id, ok) ∈ s.replies then some (s.wake id ok) else none
  | .wakeBroken =>
      match s.waiting with
      | none => none
      | some id =>
          if s.broken then
            some { s with waiting := none, outstanding := s.outstanding.erase id }
          else none
  | .find o => if o ∈ s.handles then some { s with found := o :: s.found } else none
  | .writeDestroy o written => if o ∈ s.found then some (s.writeDestroy o written) else none
  | .cardFatal o =>
      if s.broken ∧ o ∈ s.found then
        some { s with found := s.found.erase o, closing := o :: s.closing }
      else none
  | .removeHandle o =>
      if o ∈ s.closing then
        some { s with handles := s.handles.erase o, closing := s.closing.erase o }
      else none
  | .card ok => s.cardStep ok
  | .handle => s.handle
  | .breakContext => some { s with broken := true }
  | .recover => if s.broken then some { s with broken := false } else none

/-- The ids of objects that the card has, as the host and the messages tell. -/
def live : List ℕ :=
  s.toCard.filterMap IdRequest.live ++ (s.toHost.filterMap IdReport.live ++
    (s.replies.filterMap (fun p => (IdReport.created p.1 p.2).live) ++
      (s.objects.map CardObject.id ++ s.kept)))

/-- The other ids that calls and messages are about. -/
def pending : List ℕ :=
  s.begun ++ (s.toCard.filterMap IdRequest.pending ++ (s.toHost.filterMap IdReport.pending ++
    s.replies.filterMap fun p => (IdReport.created p.1 p.2).pending))

def uses : List ℕ := s.live ++ s.pending

/-- No id is in use for two things or free while it is in use, and the card can do what it is
asked to. -/
structure Agreed : Prop where
  distinct : s.uses.Nodup
  taken : ∀ id ∈ s.uses, id ∈ s.outstanding
  fresh : ∀ id, .create id ∈ s.toCard → id ∉ s.card
  known : ∀ id, .destroy id ∈ s.toCard → id ∈ s.card
  objects : ∀ o ∈ s.objects, o.id ∈ s.card

/-- No wait for a reply ends because the context is broken, and no two calls ask the card to
destroy one object. -/
def Keeps : CardIdOp → Prop
  | .wakeBroken => s.broken = true → s.waiting = none
  | .writeDestroy o written => o ∈ s.found → written = true → o ∈ s.objects
  | _ => True

instance (op : CardIdOp) : Decidable (s.Keeps op) := by
  cases op <;> unfold Keeps <;> infer_instance

structure Inv (s : CardIds) : Prop where
  leased : Leased s.uses s.outstanding
  card : s.card.Perm s.live
  waiting : ∀ id, s.waiting = some id →
    .create id ∈ s.toCard ∨ ∃ ok, .created id ok ∈ s.toHost ∨ (id, ok) ∈ s.replies

variable {s} {t : CardIds}

theorem start_inv : start.Inv := ⟨.nil, .nil, nofun⟩

theorem mem_live_of_destroy {id : ℕ} (h : .destroy id ∈ s.toCard) : id ∈ s.live :=
  List.mem_append_left _ (List.mem_filterMap.mpr ⟨_, h, rfl⟩)

theorem mem_live_of_object {o : CardObject} (h : o ∈ s.objects) : o.id ∈ s.live := by
  simp only [live, List.mem_append, List.mem_map]
  exact .inr (.inr (.inr (.inl ⟨o, h, rfl⟩)))

theorem mem_pending_of_create {id : ℕ} (h : .create id ∈ s.toCard) : id ∈ s.pending := by
  simp only [pending, List.mem_append, List.mem_filterMap]
  exact .inr (.inl ⟨_, h, rfl⟩)

theorem mem_uses_of_created {id : ℕ} {ok : Bool} (h : .created id ok ∈ s.toHost) :
    id ∈ s.uses := by
  simp only [uses, live, pending, List.mem_append, List.mem_filterMap]
  cases ok with
  | false => exact .inr (.inr (.inr (.inl ⟨_, h, rfl⟩)))
  | true => exact .inl (.inr (.inl ⟨_, h, rfl⟩))

theorem mem_uses_of_reply {id : ℕ} {ok : Bool} (h : (id, ok) ∈ s.replies) : id ∈ s.uses := by
  simp only [uses, live, pending, List.mem_append, List.mem_filterMap]
  cases ok with
  | false => exact .inr (.inr (.inr (.inr ⟨_, h, rfl⟩)))
  | true => exact .inl (.inr (.inr (.inl ⟨_, h, rfl⟩)))

theorem Inv.agreed (h : s.Inv) : s.Agreed where
  distinct := h.leased.nodup_uses
  taken _ := h.leased.mem_iff.mp
  fresh _ hid hcard :=
    List.disjoint_of_nodup_append h.leased.nodup_uses (h.card.mem_iff.mp hcard)
      (mem_pending_of_create hid)
  known _ hid := h.card.mem_iff.mpr (mem_live_of_destroy hid)
  objects _ ho := h.card.mem_iff.mpr (mem_live_of_object ho)

theorem Inv.mem_uses_of_waiting (h : s.Inv) {id : ℕ} (hw : s.waiting = some id) :
    id ∈ s.uses := by
  obtain hc | ⟨ok, hc | hr⟩ := h.waiting id hw
  · exact List.mem_append_right _ (mem_pending_of_create hc)
  · exact mem_uses_of_created hc
  · exact mem_uses_of_reply hr

theorem Inv.move (h : s.Inv) (hout : t.outstanding = s.outstanding)
    (huses : ∀ id, t.uses.count id = s.uses.count id)
    (hcard : ∀ id, s.card.count id = s.live.count id → t.card.count id = t.live.count id)
    (hwaiting : ∀ id, t.waiting = some id →
      .create id ∈ t.toCard ∨ ∃ ok, .created id ok ∈ t.toHost ∨ (id, ok) ∈ t.replies) :
    t.Inv where
  leased := hout ▸ h.leased.move (List.perm_iff_count.mpr huses)
  card := List.perm_iff_count.mpr fun id => hcard id (h.card.count_eq id)
  waiting := hwaiting

theorem Inv.alloc {id : ℕ} (h : s.Inv) (hid : id ∉ s.outstanding) :
    Inv { s with outstanding := id :: s.outstanding, begun := id :: s.begun } :=
  ⟨h.leased.take hid List.perm_middle, h.card, h.waiting⟩

theorem Inv.writeCreate {id : ℕ} (h : s.Inv) (hid : id ∈ s.begun) (written : Bool) :
    (s.writeCreate id written).Inv := by
  have hbegun := List.perm_cons_erase hid
  cases written with
  | false =>
    refine ⟨h.leased.giveBack ?_, h.card, h.waiting⟩
    exact ((hbegun.append_right _).append_left _).trans List.perm_middle
  | true =>
    refine h.move rfl ?_ ?_ ?_
    · intro j
      have hcount := hbegun.count_eq j
      simp [uses, live, pending, CardIds.writeCreate, List.filterMap_cons,
        List.count_cons] at hcount ⊢
      omega
    · intro j hcard
      simpa [live, CardIds.writeCreate, List.filterMap_cons] using hcard
    · rintro j ⟨⟩
      exact .inl (List.mem_append_right _ List.mem_cons_self)

theorem Inv.wake {id : ℕ} {ok : Bool} (h : s.Inv) (hr : (id, ok) ∈ s.replies) :
    (s.wake id ok).Inv := by
  have hreplies := List.perm_cons_erase hr
  have hlive := hreplies.filterMap fun p => (IdReport.created p.1 p.2).live
  have hpending := hreplies.filterMap fun p => (IdReport.created p.1 p.2).pending
  cases ok with
  | false =>
    refine ⟨h.leased.giveBack (List.perm_iff_count.mpr fun j => ?_),
      h.card.trans (List.perm_iff_count.mpr fun j => ?_), nofun⟩
    all_goals
      have hl := hlive.count_eq j
      have hp := hpending.count_eq j
      simp [uses, live, pending, CardIds.wake, List.filterMap_cons,
        List.count_cons] at hl hp ⊢
      omega
  | true =>
    refine h.move rfl (fun j => ?_) (fun j hcard => hcard.trans ?_) nofun
    all_goals
      have hl := hlive.count_eq j
      have hp := hpending.count_eq j
      simp [uses, live, pending, CardIds.wake, List.filterMap_cons,
        List.count_cons] at hl hp ⊢
      omega

theorem Inv.writeDestroy {o : CardObject} (h : s.Inv) (written : Bool)
    (ho : written = true → o ∈ s.objects) : (s.writeDestroy o written).Inv := by
  cases written with
  | false => exact ⟨h.leased, h.card, h.waiting⟩
  | true =>
    have hobjects := (List.perm_cons_erase (ho rfl)).map CardObject.id
    refine h.move rfl ?_ ?_ ?_
    · intro j
      have hcount := hobjects.count_eq j
      simp [uses, live, pending, CardIds.writeDestroy, List.filterMap_cons,
        List.count_cons] at hcount ⊢
      omega
    · intro j hcard
      have hcount := hobjects.count_eq j
      simp [live, CardIds.writeDestroy, List.count_cons] at hcount hcard ⊢
      omega
    · exact fun id hid => (h.waiting id hid).imp_left (List.mem_append_left _)

theorem Inv.cardStep {ok : Bool} (h : s.Inv) (hs : s.cardStep ok = some t) : t.Inv := by
  unfold CardIds.cardStep at hs
  split at hs
  next => cases hs
  next id l hl =>
    obtain rfl := Option.some.inj hs
    refine h.move rfl ?_ ?_ ?_
    · intro j
      cases ok <;> simp [uses, live, pending, hl, List.filterMap_cons, List.count_cons] <;> omega
    · intro j hcard
      cases ok <;> simp [live, hl, List.filterMap_cons, List.count_cons] at hcard ⊢ <;> omega
    · intro i hi
      have hwaiting := h.waiting i hi
      simp only [hl, List.mem_cons, IdRequest.create.injEq] at hwaiting
      obtain (rfl | hc) | ⟨r, hc | hr⟩ := hwaiting
      · exact .inr ⟨ok, .inl (List.mem_append_right _ List.mem_cons_self)⟩
      · exact .inl hc
      · exact .inr ⟨r, .inl (List.mem_append_left _ hc)⟩
      · exact .inr ⟨r, .inr hr⟩
  next id l hl =>
    have hwaiting : ∀ i, s.waiting = some i →
        .create i ∈ l ∨ ∃ r, .created i r ∈ s.toHost ∨ (i, r) ∈ s.replies := by
      simpa only [hl, List.mem_cons, reduceCtorEq, false_or] using h.waiting
    split at hs <;> obtain rfl := Option.some.inj hs
    · refine h.move rfl ?_ ?_ ?_
      · intro j
        simp [uses, live, pending, hl, List.filterMap_cons, List.count_cons]
        omega
      · intro j hcard
        simp [live, hl, List.filterMap_cons, List.count_cons, List.count_erase] at hcard ⊢
        omega
      · intro i hi
        refine (hwaiting i hi).imp_right fun ⟨r, hr⟩ => ⟨r, hr.imp_left ?_⟩
        exact List.mem_append_left _
    · refine h.move rfl (fun j => ?_) (fun j hcard => ?_) hwaiting
      · simp [uses, live, pending, hl, List.filterMap_cons, List.count_cons]
        omega
      · simp [live, hl, List.count_cons] at hcard ⊢
        omega

theorem Inv.handle (h : s.Inv) (hs : s.handle = some t) : t.Inv := by
  unfold CardIds.handle at hs
  split at hs
  next => cases hs
  next id ok l hl =>
    obtain rfl := Option.some.inj hs
    -- there is no other reply for this id
    have hkeep : s.replies.filter (fun p => p.1 ≠ id) = s.replies := by
      apply List.filter_eq_self.mpr
      rintro ⟨i, r⟩ hr
      apply decide_eq_true
      rintro rfl
      have hcount := List.nodup_iff_count_le_one.mp h.leased.nodup_uses i
      obtain ⟨l₁, l₂, hreplies⟩ := List.append_of_mem hr
      cases ok <;> cases r <;>
        simp [uses, live, pending, hl, hreplies, List.filterMap_cons] at hcount <;> omega
    rw [hkeep]
    refine h.move rfl ?_ ?_ ?_
    · intro j
      cases ok <;> simp [uses, live, pending, hl, List.filterMap_cons, List.count_cons] <;> omega
    · intro j hcard
      refine hcard.trans ?_
      cases ok
      all_goals
        simp [live, hl, List.filterMap_cons, List.count_cons]
      omega
    · intro i hi
      have hwaiting := h.waiting i hi
      simp only [hl, List.mem_cons, IdReport.created.injEq] at hwaiting
      obtain hc | ⟨r, (⟨rfl, rfl⟩ | hc) | hr⟩ := hwaiting
      · exact .inl hc
      · exact .inr ⟨r, .inr List.mem_cons_self⟩
      · exact .inr ⟨r, .inl hc⟩
      · exact .inr ⟨r, .inr (List.mem_cons_of_mem _ hr)⟩
  next id l hl =>
    obtain rfl := Option.some.inj hs
    refine ⟨h.leased.giveBack (List.perm_iff_count.mpr fun j => ?_),
      h.card.trans (List.perm_iff_count.mpr fun j => ?_), fun i hi => ?_⟩
    · simp [uses, live, pending, hl, List.filterMap_cons, List.count_cons]
      omega
    · simp [live, hl, List.filterMap_cons]
    · simpa only [hl, List.mem_cons, reduceCtorEq, false_or] using h.waiting i hi

/-- The id of a call that does not read its reply is free although the card may have the
object. -/
theorem Inv.not_agreed_of_wakeBroken {id : ℕ} (h : s.Inv) (hw : s.waiting = some id) :
    ¬ Agreed { s with waiting := none, outstanding := s.outstanding.erase id } := fun ha =>
  h.leased.not_giveBack (h.mem_uses_of_waiting hw) ha.taken

theorem Inv.not_agreed_of_writeDestroy {o : CardObject} (h : s.Inv) (ho : o ∉ s.objects) :
    ¬ (s.writeDestroy o true).Agreed := fun ha => by
  have hperm : (s.writeDestroy o true).uses.Perm (o.id :: s.uses) := by
    refine List.perm_iff_count.mpr fun j => ?_
    simp [uses, live, pending, CardIds.writeDestroy, List.filterMap_cons, List.count_cons,
      List.erase_of_not_mem ho]
    omega
  exact h.leased.not_twice hperm ⟨ha.distinct, ha.taken⟩

theorem Inv.step {op : CardIdOp} (h : s.Inv) (hok : s.Keeps op) (hs : s.step op = some t) :
    t.Inv := by
  cases op with
  | alloc id =>
    obtain ⟨hid, ⟨⟩⟩ := Option.ite_none_right_eq_some.mp hs
    exact h.alloc hid
  | writeCreate id written =>
    obtain ⟨⟨hid, -⟩, ⟨⟩⟩ := Option.ite_none_right_eq_some.mp hs
    exact h.writeCreate hid written
  | wake ok =>
    simp only [CardIds.step] at hs
    split at hs
    next => cases hs
    next id hw =>
      obtain ⟨⟨-, hr⟩, ⟨⟩⟩ := Option.ite_none_right_eq_some.mp hs
      exact h.wake hr
  | wakeBroken =>
    simp only [CardIds.step] at hs
    split at hs
    next => cases hs
    next id hw =>
      obtain ⟨hb, -⟩ := Option.ite_none_right_eq_some.mp hs
      rw [hok hb] at hw
      cases hw
  | find o =>
    obtain ⟨-, ⟨⟩⟩ := Option.ite_none_right_eq_some.mp hs
    exact ⟨h.leased, h.card, h.waiting⟩
  | writeDestroy o written =>
    obtain ⟨ho, ⟨⟩⟩ := Option.ite_none_right_eq_some.mp hs
    exact h.writeDestroy written (hok ho)
  | cardFatal o | removeHandle o =>
    obtain ⟨-, ⟨⟩⟩ := Option.ite_none_right_eq_some.mp hs
    exact ⟨h.leased, h.card, h.waiting⟩
  | card ok => exact h.cardStep hs
  | handle => exact h.handle hs
  | breakContext =>
    obtain rfl := Option.some.inj hs
    exact ⟨h.leased, h.card, h.waiting⟩
  | recover =>
    obtain ⟨-, ⟨⟩⟩ := Option.ite_none_right_eq_some.mp hs
    exact ⟨h.leased, h.card, h.waiting⟩

theorem Inv.keeps_of_agreed {op : CardIdOp} (h : s.Inv) (hs : s.step op = some t)
    (ha : t.Agreed) : s.Keeps op := by
  cases op with
  | wakeBroken =>
    intro hb
    by_contra hne
    obtain ⟨id, hw⟩ := Option.ne_none_iff_exists'.mp hne
    simp only [CardIds.step, hw, if_pos hb, Option.some.injEq] at hs
    exact h.not_agreed_of_wakeBroken hw (hs ▸ ha)
  | writeDestroy o written =>
    rintro - rfl
    by_contra ho
    obtain ⟨-, ⟨⟩⟩ := Option.ite_none_right_eq_some.mp hs
    exact h.not_agreed_of_writeDestroy ho ha
  | _ => trivial

theorem keeps_of_step_eq_none {op : CardIdOp} (hs : s.step op = none) : s.Keeps op := by
  cases op with
  | wakeBroken =>
    intro hb
    simp only [step, hb, if_true] at hs
    split at hs
    next hw => exact hw
    next => cases hs
  | writeDestroy o written =>
    intro ho
    rw [step, if_pos ho] at hs
    cases hs
  | _ => trivial

/-- In every interleaving of the calls with the card and the response thread, no id stands for
two things, none that is in use can be handed out, and the card is only asked for what it can
do, exactly while no context breaks under a call that waits for its reply and no two calls ask
the card to destroy one object. -/
theorem agreed_iff_keeps (ops : List CardIdOp) :
    Exec.Always step Agreed start ops ↔ Exec.Meets step Keeps start ops := by
  apply Exec.always_iff_meets (I := fun s => s.Agreed → s.Inv) start_inv.agreed fun _ => start_inv
  · intro s op t h ha hs
    have hkeeps := (h ha).keeps_of_agreed hs
    refine ⟨fun ht => (h ha).step (hkeeps ht) hs, hkeeps, fun hok => ?_⟩
    exact ((h ha).step hok hs).agreed
  · exact fun _ _ _ _ hs => keeps_of_step_eq_none hs

/-- The context breaks under a call and recovers, and the next call asks for an id that the
card has. -/
example : (Exec.run step start [.alloc 0, .writeCreate 0 true, .breakContext, .wakeBroken,
    .card true, .recover, .alloc 0, .writeCreate 0 true]).map (fun s => (s.card, s.toCard)) =
      some ([0], [.create 0]) := by
  decide

end CardIds

end NNPIHost

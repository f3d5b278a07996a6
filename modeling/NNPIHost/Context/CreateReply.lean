import Mathlib.Data.List.Pairwise
import NNPIHost.Context.CriticalError
import NNPIHost.Context.ObjId

/-! # Replies to requests

Threads send requests to the card, which answers them in order, and wait for the reply that
is kept under their object's id. A thread that a critical error wakes leaves its answer
behind, and its id may be given to the next request, which then reads that answer.
-/

namespace NNPIHost

/-- The functions that send a request. -/
inductive RequestKind where
  | createContext
  | createDevRes
  | createCopy
  | createOrAdd (isCreate : Bool)
  | setProperty
  | createInfReq
  | finalize
  | updatePeers
  | d2dPair (connect : Bool)
  deriving DecidableEq

namespace RequestKind

/-- The function holds `m_mutex` from before it writes until it has the reply. -/
def lockedWait : RequestKind → Bool
  | .setProperty | .finalize | .d2dPair _ => false
  | _ => true

/-- The function holds `m_mutex` while it writes. -/
def lockedWrite : RequestKind → Bool
  | .setProperty | .finalize => false
  | _ => true

/-- The function tests for a critical error before it writes. -/
def testsBroken : RequestKind → Bool
  | .createOrAdd _ | .finalize => true
  | _ => false

/-- The function waits for the reply; a disconnection of peers does not. -/
def waits : RequestKind → Bool
  | .d2dPair connect => connect
  | _ => true

/-- The function takes a new id for its object. -/
def allocates : RequestKind → Bool
  | .createDevRes | .createCopy | .createOrAdd true | .createInfReq => true
  | _ => false

/-- The function gives the id back when it fails. -/
def freesId : RequestKind → Bool
  | .createDevRes | .createCopy => true
  | _ => false

/-- The id under which the function waits. -/
def objId (kind : RequestKind) (id id2 : ℤ) : InfContextObjID :=
  match kind with
  | .createContext => ⟨.context, -1, -1⟩
  | .createDevRes => ⟨.devres, id, -1⟩
  | .createCopy => ⟨.copy, id, -1⟩
  | .createOrAdd _ | .setProperty => ⟨.devnet, id, -1⟩
  | .createInfReq => ⟨.infreq, id, id2⟩
  | .finalize => ⟨.cmd, id, -1⟩
  | .updatePeers | .d2dPair _ => ⟨.p2p, id, -1⟩

/-- The replies after which the function keeps its id. -/
def succeeded (kind : RequestKind) (ev : EventReport) : Bool :=
  match kind with
  | .createDevRes => ev.eventCode = 5
  | .createCopy => ev.eventCode = 6
  | _ => true

end RequestKind

/-- A request, told apart from all others by its number. -/
structure Request where
  number : ℕ
  kind : RequestKind
  key : InfContextObjID
  deriving DecidableEq

/-- An event of the card with the key it is kept under and the request it answers. -/
structure Answer where
  key : InfContextObjID
  ev : EventReport
  req : Request
  deriving DecidableEq

/-- What `wait_create_command` returns. -/
inductive Reply where
  | critical (ev : EventReport)
  | answer (a : Answer)
  deriving DecidableEq

structure ReplyState where
  critical : EventReport
  next : ℕ
  /-- The ids that are in use. -/
  live : List InfContextObjID
  /-- The request whose thread holds `m_mutex`. -/
  mutex : Option Request
  begun : List Request
  waiting : List Request
  /-- The requests that the card has not answered. -/
  cardQueue : List Request
  /-- The answers that the response thread has not handled. -/
  wire : List Answer
  createReply : List Answer
  results : List (Request × Reply)
  /-- The answers that were overwritten while their requester waited. -/
  overwritten : List Answer

inductive ReplyOp where
  | begin (kind : RequestKind) (id id2 : ℤ)
  | send (r : Request) (ok : Bool)
  | answer (ev : EventReport)
  /-- The response thread keeps an answer, in place of the one that has the same key, if any. -/
  | deliver (old : Option Answer)
  /-- The thread finds an answer under its key. -/
  | wake (r : Request) (a : Answer)
  | wakeBroken (r : Request)
  | event (ev : EventReport)
  | recover
  | free (key : InfContextObjID)

namespace ReplyState

def create : ReplyState := ⟨.zero, 0, [], none, [], [], [], [], [], [], []⟩

/-- The message is written: nothing keeps the function from it and the channel takes it. -/
def sends (s : ReplyState) (r : Request) (ok : Bool) : Bool :=
  ok && !(r.kind.testsBroken && s.critical.broken)

/-- The function fails, or `wait_create_command` returns to it. -/
def leave (s : ReplyState) (r : Request) (failed : Bool) : ReplyState :=
  { s with
    mutex := if s.mutex = some r then none else s.mutex
    live := if failed ∧ r.kind.freesId then s.live.erase r.key else s.live }

def step (s : ReplyState) : ReplyOp → Option ReplyState
  | .begin kind id id2 =>
      let key := kind.objId id id2
      if kind.allocates ∧ key ∈ s.live then none
      else some { s with
        next := s.next + 1
        live := if kind.allocates then key :: s.live else s.live
        begun := ⟨s.next, kind, key⟩ :: s.begun }
  | .send r ok =>
      if r ∈ s.begun ∧ (r.kind.lockedWrite → s.mutex = none) then
        if s.sends r ok then some { s with
          mutex := if r.kind.lockedWait then some r else s.mutex
          begun := s.begun.erase r
          waiting := if r.kind.waits then r :: s.waiting else s.waiting
          cardQueue := s.cardQueue ++ [r] }
        else some ({ s with begun := s.begun.erase r }.leave r true)
      else none
  | .answer ev =>
      match s.cardQueue, ev.replyKey with
      | r :: rest, some key =>
          if key.Answers r.key then
            some { s with cardQueue := rest, wire := s.wire ++ [⟨key, ev, r⟩] }
          else none
      | _, _ => none
  | .deliver old =>
      match s.wire, old with
      | [], _ => none
      | a :: rest, none =>
          if ∀ b ∈ s.createReply, b.key.equiv a.key = false then
            some { s with wire := rest, createReply := a :: s.createReply }
          else none
      | a :: rest, some b =>
          if b ∈ s.createReply ∧ b.key.equiv a.key then some { s with
            wire := rest
            createReply := { a with key := b.key } :: s.createReply.erase b
            overwritten := if b.req ∈ s.waiting then b :: s.overwritten else s.overwritten }
          else none
  | .wake r a =>
      if r ∈ s.waiting ∧ ¬ s.critical.broken ∧ a ∈ s.createReply ∧ a.key.equiv r.key then
        some ({ s with
          waiting := s.waiting.erase r
          createReply := s.createReply.erase a
          results := (r, .answer a) :: s.results }.leave r (¬ r.kind.succeeded a.ev))
      else none
  | .wakeBroken r =>
      if r ∈ s.waiting ∧ s.critical.broken then
        some ({ s with
          waiting := s.waiting.erase r
          results := (r, .critical s.critical) :: s.results }.leave r true)
      else none
  | .event ev => some { s with critical := (s.critical.responseHandler ev).1 }
  | .recover =>
      if s.critical.broken ∧ ¬ s.critical.cardFatal ∧ ¬ s.critical.aborted then
        some { s with critical := .zero }
      else none
  | .free key => some { s with live := s.live.erase key }

/-- The requests that have been sent and whose answer nobody has read. -/
def outstanding (s : ReplyState) : List Request :=
  s.cardQueue ++ (s.wire ++ s.createReply).map Answer.req

/-- The reply is the critical error, or the answer to the request itself. -/
def Own (r : Request) : Reply → Prop
  | .critical ev => ev.broken = true
  | .answer a => a.req = r

/-- Every waiter got its own answer or the critical error, and no answer was overwritten
while its requester waited. -/
def Matched (s : ReplyState) : Prop := (∀ p ∈ s.results, Own p.1 p.2) ∧ s.overwritten = []

/-- The answers to two requests cannot be taken for each other. -/
def Apart (r r' : Request) : Prop := r.key.equiv r'.key = false

instance (r r' : Request) : Decidable (Apart r r') := inferInstanceAs (Decidable (_ = _))

instance : Std.Symm Apart := ⟨fun _ _ h => InfContextObjID.equiv_comm.trans h⟩

/-- A request is sent only when no answer to an earlier request can be taken for its own. -/
def KeyFree (s : ReplyState) : ReplyOp → Prop
  | .send r ok => s.sends r ok = true → ∀ r' ∈ s.outstanding, Apart r r'
  | _ => True

instance (r : Request) : DecidablePred (Own r) := fun reply => by
  unfold Own
  split <;> infer_instance

instance (s : ReplyState) : Decidable s.Matched := inferInstanceAs (Decidable (_ ∧ _))

instance (s : ReplyState) : DecidablePred s.KeyFree := fun op => by
  unfold KeyFree
  split <;> infer_instance

/-- The keys of outstanding requests are all different, so an answer belongs to the only
request that can be waiting for it. -/
structure Inv (s : ReplyState) : Prop where
  apart : s.outstanding.Pairwise Apart
  answers : ∀ a ∈ s.wire ++ s.createReply, a.key.Answers a.req.key
  waiting : ∀ r ∈ s.waiting, r ∈ s.outstanding
  distinct : (s.begun ++ s.waiting).Nodup
  fresh : ∀ r ∈ s.begun ++ s.waiting, r.number < s.next
  matched : s.Matched

variable {s t : ReplyState} {r : Request} {a : Answer}

theorem create_inv : create.Inv where
  apart := .nil
  answers := by simp [create]
  waiting := by simp [create]
  distinct := .nil
  fresh := by simp [create]
  matched := by decide

theorem Inv.apart_answers (h : s.Inv) (ha : a ∈ s.wire ++ s.createReply) {key : InfContextObjID}
    (hkey : key.Answers r.key) (hapart : Apart a.req r) : ¬ a.key.equiv key = true := by
  apply (h.answers a ha).not_equiv hkey
  rw [hapart]
  exact Bool.false_ne_true

theorem Inv.own_answer (h : s.Inv) (hr : r ∈ s.waiting) (ha : a ∈ s.createReply)
    (hkey : a.key.equiv r.key = true) : a.req = r := by
  by_contra hne
  have hreq : a.req ∈ s.outstanding :=
    List.mem_append_right _ (List.mem_map_of_mem (List.mem_append_right _ ha))
  have hapart := h.apart.forall hreq (h.waiting r hr) hne
  exact h.apart_answers (List.mem_append_right _ ha) ⟨rfl, rfl, .inr rfl⟩ hapart hkey

theorem Inv.deliver_fresh (h : s.Inv) {rest : List Answer} (hw : s.wire = a :: rest) {b : Answer}
    (hb : b ∈ s.createReply) : ¬ b.key.equiv a.key = true := by
  have hmap := (List.pairwise_append.mp h.apart).2.1
  rw [hw, List.cons_append, List.map_cons] at hmap
  have hb' : b.req ∈ (rest ++ s.createReply).map Answer.req :=
    List.mem_map_of_mem (List.mem_append_right _ hb)
  have hapart : Apart b.req a.req := symm ((List.pairwise_cons.mp hmap).1 _ hb')
  have ha : a ∈ s.wire ++ s.createReply := by simp [hw]
  exact h.apart_answers (List.mem_append_right _ hb) (h.answers a ha) hapart

theorem Inv.leave (h : s.Inv) (r : Request) (failed : Bool) : (s.leave r failed).Inv :=
  ⟨h.apart, h.answers, h.waiting, h.distinct, h.fresh, h.matched⟩

theorem Inv.begin (h : s.Inv) (kind : RequestKind) (key : InfContextObjID)
    (live : List InfContextObjID) :
    Inv { s with next := s.next + 1, live, begun := ⟨s.next, kind, key⟩ :: s.begun } where
  apart := h.apart
  answers := h.answers
  waiting := h.waiting
  distinct := by
    refine List.nodup_cons.mpr ⟨fun hm => ?_, h.distinct⟩
    exact Nat.lt_irrefl _ (h.fresh _ hm)
  fresh := by
    rintro r (_ | ⟨_, hm⟩)
    · exact Nat.lt_succ_self _
    · exact Nat.lt_succ_of_lt (h.fresh r hm)
  matched := h.matched

theorem Inv.giveUp (h : s.Inv) (r : Request) : Inv { s with begun := s.begun.erase r } where
  apart := h.apart
  answers := h.answers
  waiting := h.waiting
  distinct := h.distinct.sublist (List.erase_sublist.append_right _)
  fresh r' hr' := h.fresh r' ((List.erase_sublist.append_right _).subset hr')
  matched := h.matched

theorem Inv.send (h : s.Inv) (hr : r ∈ s.begun) (hfree : ∀ r' ∈ s.outstanding, Apart r r')
    (mutex : Option Request) :
    Inv { s with
      mutex, begun := s.begun.erase r
      waiting := if r.kind.waits then r :: s.waiting else s.waiting
      cardQueue := s.cardQueue ++ [r] } := by
  have hout : (s.cardQueue ++ [r] ++ (s.wire ++ s.createReply).map Answer.req).Perm
      (r :: s.outstanding) := by
    rw [List.append_assoc]
    exact List.perm_middle
  have hthreads : (s.begun ++ s.waiting).Perm (s.begun.erase r ++ r :: s.waiting) :=
    ((List.perm_cons_erase hr).append_right _).trans List.perm_middle.symm
  have hsub : (s.begun.erase r ++ if r.kind.waits then r :: s.waiting else s.waiting).Sublist
      (s.begun.erase r ++ r :: s.waiting) := by
    refine List.Sublist.append_left ?_ _
    split
    · exact .refl _
    · exact List.sublist_cons_self ..
  refine ⟨hout.symm.pairwise (List.pairwise_cons.mpr ⟨hfree, h.apart⟩) symm, h.answers,
    ?_, ?_, ?_, h.matched⟩
  · intro r' hr'
    apply hout.mem_iff.mpr
    split at hr'
    · rcases List.mem_cons.mp hr' with rfl | hr'
      · exact List.mem_cons_self
      · exact List.mem_cons_of_mem _ (h.waiting r' hr')
    · exact List.mem_cons_of_mem _ (h.waiting r' hr')
  · exact (hthreads.nodup_iff.mp h.distinct).sublist hsub
  · exact fun r' hr' => h.fresh r' (hthreads.mem_iff.mpr (hsub.subset hr'))

theorem Inv.pass (h : s.Inv) {cardQueue : List Request} {wire createReply : List Answer}
    (hout : s.outstanding.Perm (cardQueue ++ (wire ++ createReply).map Answer.req))
    (hanswers : ∀ a ∈ wire ++ createReply, a.key.Answers a.req.key) :
    Inv { s with cardQueue, wire, createReply } where
  apart := hout.pairwise h.apart symm
  answers := hanswers
  waiting r hr := hout.mem_iff.mp (h.waiting r hr)
  distinct := h.distinct
  fresh := h.fresh
  matched := h.matched

theorem Inv.answer (h : s.Inv) {rest : List Request} (hq : s.cardQueue = r :: rest)
    {key : InfContextObjID} (hkey : key.Answers r.key) (ev : EventReport) :
    Inv { s with cardQueue := rest, wire := s.wire ++ [⟨key, ev, r⟩] } := by
  refine h.pass ?_ ?_
  · rw [outstanding, hq]
    simp only [List.map_append, List.map_cons, List.append_assoc, List.cons_append, List.nil_append]
    rw [← List.append_assoc rest, ← List.append_assoc rest]
    exact List.perm_middle.symm
  · intro a ha
    rw [List.append_assoc] at ha
    rcases List.mem_append.mp ha with ha | ha
    · exact h.answers a (List.mem_append_left _ ha)
    · rcases List.mem_cons.mp ha with rfl | ha
      · exact hkey
      · exact h.answers a (List.mem_append_right _ ha)

theorem Inv.deliver (h : s.Inv) {rest : List Answer} (hw : s.wire = a :: rest) :
    Inv { s with wire := rest, createReply := a :: s.createReply } := by
  have hp : (s.wire ++ s.createReply).Perm (rest ++ a :: s.createReply) := by
    rw [hw]
    exact List.perm_middle.symm
  exact h.pass ((hp.map _).append_left _) fun b hb => h.answers b (hp.mem_iff.mpr hb)

theorem Inv.wake (h : s.Inv) (hr : r ∈ s.waiting) (ha : a ∈ s.createReply)
    (hkey : a.key.equiv r.key = true) :
    Inv { s with
      waiting := s.waiting.erase r, createReply := s.createReply.erase a
      results := (r, .answer a) :: s.results } := by
  have hown := h.own_answer hr ha hkey
  have hp : (s.wire ++ s.createReply).Perm (a :: (s.wire ++ s.createReply.erase a)) :=
    ((List.perm_cons_erase ha).append_left _).trans List.perm_middle
  have hout : s.outstanding.Perm
      (r :: (s.cardQueue ++ (s.wire ++ s.createReply.erase a).map Answer.req)) := by
    rw [← hown]
    exact ((hp.map _).append_left _).trans List.perm_middle
  have hwaiting := (List.nodup_append.mp h.distinct).2.1
  refine ⟨(hout.pairwise h.apart symm).of_cons, ?_, ?_, ?_, ?_, ?_⟩
  · exact fun b hb => h.answers b (hp.mem_iff.mpr (List.mem_cons_of_mem _ hb))
  · intro r' hr'
    obtain ⟨hne, hr'⟩ := hwaiting.mem_erase_iff.mp hr'
    exact (List.mem_cons.mp (hout.mem_iff.mp (h.waiting r' hr'))).resolve_left hne
  · exact h.distinct.sublist (List.erase_sublist.append_left _)
  · exact fun r' hr' => h.fresh r' ((List.erase_sublist.append_left _).subset hr')
  · exact ⟨List.forall_mem_cons.mpr ⟨hown, h.matched.1⟩, h.matched.2⟩

theorem Inv.wakeBroken (h : s.Inv) (hb : s.critical.broken = true) (r : Request) :
    Inv { s with
      waiting := s.waiting.erase r, results := (r, .critical s.critical) :: s.results } where
  apart := h.apart
  answers := h.answers
  waiting r' hr' := h.waiting r' (List.mem_of_mem_erase hr')
  distinct := h.distinct.sublist (List.erase_sublist.append_left _)
  fresh r' hr' := h.fresh r' ((List.erase_sublist.append_left _).subset hr')
  matched := ⟨List.forall_mem_cons.mpr ⟨hb, h.matched.1⟩, h.matched.2⟩

theorem Inv.step (h : s.Inv) {op : ReplyOp} (hok : s.KeyFree op) (hs : s.step op = some t) :
    t.Inv := by
  cases op with
  | begin kind id id2 =>
    simp only [ReplyState.step] at hs
    split at hs
    · cases hs
    · obtain rfl := Option.some.inj hs
      exact h.begin ..
  | send r ok =>
    simp only [ReplyState.step, Option.ite_none_right_eq_some] at hs
    obtain ⟨⟨hr, _⟩, hs⟩ := hs
    split at hs <;> obtain rfl := Option.some.inj hs
    next hsends => exact h.send hr (hok hsends) _
    next => exact (h.giveUp r).leave r true
  | answer ev =>
    simp only [ReplyState.step] at hs
    split at hs
    next r rest key hq _ =>
      rw [Option.ite_none_right_eq_some] at hs
      obtain ⟨hkey, hs⟩ := hs
      obtain rfl := Option.some.inj hs
      exact h.answer hq hkey ev
    next => cases hs
  | deliver old =>
    simp only [ReplyState.step] at hs
    split at hs
    next => cases hs
    next a rest hw =>
      rw [Option.ite_none_right_eq_some] at hs
      obtain ⟨_, hs⟩ := hs
      obtain rfl := Option.some.inj hs
      exact h.deliver hw
    next a rest b hw =>
      rw [Option.ite_none_right_eq_some] at hs
      obtain ⟨⟨hb, hkey⟩, _⟩ := hs
      exact absurd hkey (h.deliver_fresh hw hb)
  | wake r a =>
    simp only [ReplyState.step, Option.ite_none_right_eq_some] at hs
    obtain ⟨⟨hr, _, ha, hkey⟩, hs⟩ := hs
    obtain rfl := Option.some.inj hs
    exact (h.wake hr ha hkey).leave r _
  | wakeBroken r =>
    simp only [ReplyState.step, Option.ite_none_right_eq_some] at hs
    obtain ⟨⟨_, hb⟩, hs⟩ := hs
    obtain rfl := Option.some.inj hs
    exact (h.wakeBroken hb r).leave r true
  | event ev | free key =>
    obtain rfl := Option.some.inj hs
    exact ⟨h.apart, h.answers, h.waiting, h.distinct, h.fresh, h.matched⟩
  | recover =>
    simp only [ReplyState.step, Option.ite_none_right_eq_some] at hs
    obtain ⟨_, hs⟩ := hs
    obtain rfl := Option.some.inj hs
    exact ⟨h.apart, h.answers, h.waiting, h.distinct, h.fresh, h.matched⟩

/-- When a request is sent only while its key is free, every waiter gets its own answer or the
critical error, in every state of the run. -/
theorem replies_matched {ops : List ReplyOp} (hm : Exec.Meets step KeyFree create ops) :
    Exec.Always step Matched create ops :=
  (Exec.always_of_invariant create_inv (fun _ _ _ h hok hs => h.step hok hs) hm).mono
    fun _ h => h.matched

/-- A device resource is abandoned when the runtime dies, and the next one gets its id and
the answer to it. -/
theorem reused_id_reads_stale_answer :
    ¬ Exec.Always step Matched create
      [.begin .createDevRes 0 0, .send ⟨0, .createDevRes, ⟨.devres, 0, -1⟩⟩ true,
        .event (.ofCode 97), .wakeBroken ⟨0, .createDevRes, ⟨.devres, 0, -1⟩⟩, .recover,
        .begin .createDevRes 0 0, .send ⟨1, .createDevRes, ⟨.devres, 0, -1⟩⟩ true,
        .answer { EventReport.ofCode 5 with objValid := true }, .deliver none,
        .wake ⟨1, .createDevRes, ⟨.devres, 0, -1⟩⟩
          ⟨⟨.devres, 0, -1⟩, { EventReport.ofCode 5 with objValid := true },
            ⟨0, .createDevRes, ⟨.devres, 0, -1⟩⟩⟩] := by
  decide

/-- Two properties of one network, set one after the other, around a device resource. -/
theorem replies_matched_in_turn :
    Exec.Always step Matched create
      [.begin .setProperty 3 0, .send ⟨0, .setProperty, ⟨.devnet, 3, -1⟩⟩ true,
        .begin .createDevRes 0 0, .send ⟨1, .createDevRes, ⟨.devres, 0, -1⟩⟩ true,
        .answer { EventReport.ofCode 31 with objId := 3, objValid := true }, .deliver none,
        .wake ⟨0, .setProperty, ⟨.devnet, 3, -1⟩⟩
          ⟨⟨.devnet, 3, -1⟩, { EventReport.ofCode 31 with objId := 3, objValid := true },
            ⟨0, .setProperty, ⟨.devnet, 3, -1⟩⟩⟩,
        .begin .setProperty 3 0, .send ⟨2, .setProperty, ⟨.devnet, 3, -1⟩⟩ true,
        .event (.ofCode 97), .wakeBroken ⟨1, .createDevRes, ⟨.devres, 0, -1⟩⟩] :=
  replies_matched (by decide)

end ReplyState

end NNPIHost

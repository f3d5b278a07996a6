import Mathlib.Data.Finset.Card
import NNPIHost.CommandList.Operations
import NNPIHost.CommandList.Pages
import NNPIHost.Context.CriticalError
import NNPIHost.Context.ObjId
import NNPIHost.Store.Entries

/-! # The gate of scheduling

A context counts the command lists that are being finalized, and nothing is scheduled while
there are any. The caller of `finalize` raises the counter, and lowers it again if it cannot
send the list. Once the list is sent the counter is lowered by the response thread, when the
reply comes, even if the caller has given up because of a critical error.
-/

namespace NNPIHost.CommandList

/-- Where a call of `finalize` stands. -/
inductive FinalizePhase where
  /-- The list is counted, and nothing of it is sent. -/
  | starting (list : CmdList)
  | paging (send : CmdListSend)
  /-- The list could not be sent, and is still counted. -/
  | withdrawing
  /-- The last message is written, and the call waits for the reply. -/
  | waiting
  | done

structure FinalizeCall where
  id : BitVec 16
  phase : FinalizePhase

namespace FinalizeCall

def isDone (c : FinalizeCall) : Bool :=
  match c.phase with
  | .done => true
  | _ => false

/-- The list, as long as its last message is not written and it is not withdrawn. -/
def unsent (c : FinalizeCall) : List (BitVec 16) :=
  match c.phase with
  | .waiting | .done => []
  | _ => [c.id]

theorem unsent_of_isDone {c : FinalizeCall} (h : c.isDone = true) : c.unsent = [] := by
  unfold isDone at h
  unfold unsent
  split at h
  next hphase => rw [hphase]
  · cases h

theorem eq_of_mem_unsent {c : FinalizeCall} {id : BitVec 16} (h : id ∈ c.unsent) : id = c.id := by
  unfold unsent at h
  split at h
  · cases h
  · cases h
  · exact List.mem_singleton.mp h

end FinalizeCall

structure GateState where
  critical : EventReport
  cmdlistFinalizedInProgress : UInt32
  calls : List FinalizeCall
  /-- The creations that were sent, as long as their replies are not handled. -/
  unanswered : List (BitVec 16)
  /-- The lists whose replies have been handled and not been read. -/
  createReply : Finset (BitVec 16)

inductive GateOp where
  | finalize (list : CmdList) (batchCopies : Bool)
  /-- What `send_to_card` does before its page loop; `written` is about its only message. -/
  | send (k : ℕ) (written : Bool)
  | page (k : ℕ) (io : PageIO)
  | withdraw (k : ℕ)
  /-- `wait_create_command` returns. -/
  | finish (k : ℕ)
  | event (ev : EventReport)
  /-- Any other change of the recorded error, such as a recovery or the end of the channel. -/
  | setCritical (ev : EventReport)

namespace GateState

def create : GateState := ⟨.zero, 0, [], [], ∅⟩

variable (s : GateState)

def finalizedAdd (i : ℤ) : GateState :=
  { s with cmdlistFinalizedInProgress := s.cmdlistFinalizedInProgress + .ofInt i }

/-- `process_create_reply`, for the reply about a list. -/
def processCreateReply (id : BitVec 16) : GateState :=
  { s with
    createReply := insert id s.createReply
    cmdlistFinalizedInProgress :=
      if 0 < s.cmdlistFinalizedInProgress then s.cmdlistFinalizedInProgress - 1
      else s.cmdlistFinalizedInProgress }

def setCall (k : ℕ) (c : FinalizeCall) (phase : FinalizePhase) : GateState :=
  { s with calls := s.calls.set k { c with phase } }

/-- The last message of the list is written. -/
def sent (k : ℕ) (c : FinalizeCall) : GateState :=
  { s.setCall k c .waiting with unanswered := c.id :: s.unanswered }

/-- The calls of one list wait for each other. Different lists may be finalized without bound, and
the same list again, while its last creation is unanswered, with less than `2 ^ 31` in progress. -/
def Enabled (id : BitVec 16) : Prop :=
  (∀ c ∈ s.calls, c.isDone = true ∨ c.id ≠ id) ∧
    (id ∈ s.unanswered → s.cmdlistFinalizedInProgress.toNat < 2 ^ 31)

instance (id : BitVec 16) : Decidable (s.Enabled id) := inferInstanceAs (Decidable (_ ∧ _))

def step : GateOp → Option GateState
  | .finalize list batchCopies =>
      let id := list.protocolID
      let list := if batchCopies then list.optimizeBatchCopies else list
      if s.Enabled id then
        some { s.finalizedAdd 1 with calls := s.calls ++ [⟨id, .starting list⟩] }
      else none
  | .send k written => s.calls[k]?.bind fun c =>
      match c.phase with
      | .starting list =>
          match list.startPages .chanInfCmdlist s.critical.broken with
          | some send => some (s.setCall k c (.paging send))
          | none =>
              if list.vec.isEmpty ∨ s.critical.broken ∨ ¬ written then
                some (s.setCall k c .withdrawing)
              else some (s.sent k c)
      | _ => none
  | .page k io => s.calls[k]?.bind fun c =>
      match c.phase with
      | .paging send =>
          if io.cont ≠ some pageSize ∨ ¬ io.written then some (s.setCall k c .withdrawing)
          else
            match send.next with
            | some send => some (s.setCall k c (.paging send))
            | none => some (s.sent k c)
      | _ => none
  | .withdraw k => s.calls[k]?.bind fun c =>
      match c.phase with
      | .withdrawing => some ((s.setCall k c .done).finalizedAdd (-1))
      | _ => none
  | .finish k => s.calls[k]?.bind fun c =>
      match c.phase with
      | .waiting =>
          if s.critical.broken then some (s.setCall k c .done)
          else if c.id ∈ s.createReply then
            some { s.setCall k c .done with createReply := s.createReply.erase c.id }
          else none
      | _ => none
  | .event ev =>
      match ev.replyKey with
      | some ⟨.cmd, _, _⟩ =>
          -- The card replies to the creations that it has received, and once to each.
          if ev.objValid ∧ ev.objId ∈ s.unanswered then
            some { s.processCreateReply ev.objId with
              unanswered := s.unanswered.erase ev.objId }
          else none
      | _ => some { s with critical := (s.critical.responseHandler ev).1 }
  | .setCritical ev => some { s with critical := ev }

/-- The predicate that `wait_can_schedule` waits for. -/
def canScheduleCond : Bool := s.cmdlistFinalizedInProgress = 0 || s.critical.broken

/-- The lists that are counted. -/
def inProgress : List (BitVec 16) := s.calls.flatMap (·.unsent) ++ s.unanswered

/-- The counter is the number of calls that are not through with sending and of creations that
are not answered. No call lowers it when it is zero, and on a context that is not broken it lets
a scheduler through exactly when there are none. -/
structure Exact : Prop where
  count : s.cmdlistFinalizedInProgress.toNat = s.inProgress.length
  withdraw : ∀ c ∈ s.calls, c.phase = .withdrawing → 0 < s.cmdlistFinalizedInProgress
  gate : s.critical.broken = false → (s.canScheduleCond = true ↔ s.inProgress = [])

/-- With one creation of each list there is room in the counter. -/
def Room (ids : List (BitVec 16)) : Prop := ids.length ≤ 2 ^ 31 + ids.toFinset.card

section Room

variable {ids ids' : List (BitVec 16)} {id : BitVec 16}

theorem Room.perm (h : Room ids) (hp : ids'.Perm ids) : Room ids' := by
  unfold Room
  rw [hp.length_eq, List.toFinset_eq_of_perm _ _ hp]
  exact h

theorem Room.cons (h : Room ids) (hid : id ∈ ids → ids.length < 2 ^ 31) : Room (id :: ids) := by
  unfold Room at *
  rw [List.length_cons, List.toFinset_cons]
  by_cases hmem : id ∈ ids
  · have hlt := hid hmem
    omega
  · rw [Finset.card_insert_of_notMem (mt List.mem_toFinset.mp hmem)]
    omega

theorem Room.of_cons (h : Room (id :: ids)) : Room ids := by
  unfold Room at *
  rw [List.length_cons, List.toFinset_cons] at h
  have hcard := Finset.card_insert_le id ids.toFinset
  omega

theorem Room.length_lt (h : Room ids) : ids.length + 1 < 2 ^ 32 := by
  have hinj : Set.InjOn BitVec.toNat (ids.toFinset : Set (BitVec 16)) :=
    fun a _ b _ hab => BitVec.eq_of_toNat_eq hab
  have hcard : ids.toFinset.card ≤ (Finset.range (2 ^ 16)).card :=
    Finset.card_le_card_of_injOn BitVec.toNat (fun a _ => Finset.mem_range.mpr a.isLt) hinj
  rw [Finset.card_range] at hcard
  unfold Room at h
  omega

end Room

/-- The counter is right and has room. -/
structure Inv : Prop where
  count : s.cmdlistFinalizedInProgress.toNat = s.inProgress.length
  room : Room s.inProgress

variable {s} {t : GateState} {op : GateOp} {k : ℕ} {c : FinalizeCall} {id : BitVec 16}

theorem create_inv : create.Inv := ⟨rfl, Nat.zero_le _⟩

@[simp] theorem inProgress_finalizedAdd (s : GateState) (i : ℤ) :
    (s.finalizedAdd i).inProgress = s.inProgress := rfl

theorem finalizedAdd_one (s : GateState) :
    (s.finalizedAdd 1).cmdlistFinalizedInProgress = s.cmdlistFinalizedInProgress + 1 := by
  simp only [finalizedAdd, UInt32.ofInt_one]

theorem finalizedAdd_neg_one (s : GateState) :
    (s.finalizedAdd (-1)).cmdlistFinalizedInProgress = s.cmdlistFinalizedInProgress - 1 := by
  simp only [finalizedAdd, UInt32.ofInt_neg, UInt32.ofInt_one, UInt32.sub_eq_add_neg]

theorem Inv.exact (h : s.Inv) : s.Exact where
  count := h.count
  withdraw c hc hphase := by
    have hid : c.id ∈ s.inProgress := by
      apply List.mem_append_left
      exact List.mem_flatMap.mpr ⟨c, hc, by simp [FinalizeCall.unsent, hphase]⟩
    have hpos := List.length_pos_of_mem hid
    rw [← h.count] at hpos
    exact hpos
  gate hbroken := by
    rw [canScheduleCond, hbroken, Bool.or_false, decide_eq_true_eq, ← UInt32.toNat_inj, h.count]
    exact List.length_eq_zero_iff

theorem Inv.perm (h : s.Inv) (hp : t.inProgress.Perm s.inProgress)
    (hcount : t.cmdlistFinalizedInProgress = s.cmdlistFinalizedInProgress) : t.Inv where
  count := by rw [hcount, h.count, hp.length_eq]
  room := h.room.perm hp

theorem Inv.raise (h : s.Inv) (hp : t.inProgress.Perm (id :: s.inProgress))
    (hid : id ∈ s.inProgress → s.cmdlistFinalizedInProgress.toNat < 2 ^ 31)
    (hcount : t.cmdlistFinalizedInProgress = s.cmdlistFinalizedInProgress + 1) : t.Inv where
  count := by
    have hlt := h.room.length_lt
    rw [hcount, UInt32.toNat_add, h.count, hp.length_eq, List.length_cons]
    exact Nat.mod_eq_of_lt hlt
  room := by
    rw [h.count] at hid
    exact (h.room.cons hid).perm hp

theorem Inv.lower (h : s.Inv) (hp : s.inProgress.Perm (id :: t.inProgress))
    (hcount : t.cmdlistFinalizedInProgress = s.cmdlistFinalizedInProgress - 1) : t.Inv where
  count := by
    have hlen := h.count
    rw [hp.length_eq, List.length_cons] at hlen
    have hle : (1 : UInt32) ≤ s.cmdlistFinalizedInProgress :=
      UInt32.le_iff_toNat_le.mpr (hlen ▸ Nat.le_add_left ..)
    rw [hcount, UInt32.toNat_sub_of_le _ _ hle, hlen]
    rfl
  room := (h.room.perm hp.symm).of_cons

theorem exists_inProgress (hc : s.calls[k]? = some c) (phase : FinalizePhase) :
    ∃ rest, s.inProgress.Perm (c.unsent ++ rest) ∧
      (s.setCall k c phase).inProgress.Perm (FinalizeCall.unsent ⟨c.id, phase⟩ ++ rest) := by
  obtain ⟨rest, hbefore, hafter⟩ := Store.exists_perm_set hc { c with phase } (·.unsent)
  refine ⟨rest ++ s.unanswered, ?_, ?_⟩ <;> rw [← List.append_assoc]
  · exact hbefore.append_right _
  · exact hafter.append_right _

theorem Inv.setCall (h : s.Inv) (hc : s.calls[k]? = some c) {phase : FinalizePhase}
    (hunsent : FinalizeCall.unsent ⟨c.id, phase⟩ = c.unsent) : (s.setCall k c phase).Inv := by
  obtain ⟨rest, hbefore, hafter⟩ := exists_inProgress hc phase
  rw [hunsent] at hafter
  exact h.perm (hafter.trans hbefore.symm) rfl

theorem Inv.sent (h : s.Inv) (hc : s.calls[k]? = some c) (hunsent : c.unsent = [c.id]) :
    (s.sent k c).Inv := by
  obtain ⟨rest, hbefore, hafter⟩ := exists_inProgress hc .waiting
  rw [hunsent] at hbefore
  have hsent : (s.sent k c).inProgress.Perm (c.id :: (s.setCall k c .waiting).inProgress) :=
    List.perm_middle
  exact h.perm (hsent.trans ((hafter.cons _).trans hbefore.symm)) rfl

theorem Inv.step (h : s.Inv) (hs : s.step op = some t) : t.Inv := by
  cases op with
  | finalize list batchCopies =>
    obtain ⟨⟨hcalls, hroom⟩, hs⟩ := Option.ite_none_right_eq_some.mp hs
    obtain rfl := Option.some.inj hs
    have hroom : list.protocolID ∈ s.inProgress →
        s.cmdlistFinalizedInProgress.toNat < 2 ^ 31 := by
      intro hid
      rcases List.mem_append.mp hid with hid | hid
      · obtain ⟨c, hc, hid⟩ := List.mem_flatMap.mp hid
        rcases hcalls c hc with hdone | hne
        · rw [FinalizeCall.unsent_of_isDone hdone] at hid
          cases hid
        · exact absurd (FinalizeCall.eq_of_mem_unsent hid).symm hne
      · exact hroom hid
    refine h.raise ?_ hroom (finalizedAdd_one s)
    simp only [inProgress, List.flatMap_append, List.flatMap_singleton, List.append_assoc]
    exact List.perm_middle
  | send k written =>
    obtain ⟨c, hc, hs⟩ := Option.bind_eq_some_iff.mp hs
    split at hs
    next list hphase =>
      have hunsent : c.unsent = [c.id] := by rw [FinalizeCall.unsent, hphase]
      split at hs
      · obtain rfl := Option.some.inj hs
        exact h.setCall hc hunsent.symm
      · split at hs <;> obtain rfl := Option.some.inj hs
        · exact h.setCall hc hunsent.symm
        · exact h.sent hc hunsent
    · cases hs
  | page k io =>
    obtain ⟨c, hc, hs⟩ := Option.bind_eq_some_iff.mp hs
    split at hs
    next send hphase =>
      have hunsent : c.unsent = [c.id] := by rw [FinalizeCall.unsent, hphase]
      split at hs
      · obtain rfl := Option.some.inj hs
        exact h.setCall hc hunsent.symm
      · split at hs <;> obtain rfl := Option.some.inj hs
        · exact h.setCall hc hunsent.symm
        · exact h.sent hc hunsent
    · cases hs
  | withdraw k =>
    obtain ⟨c, hc, hs⟩ := Option.bind_eq_some_iff.mp hs
    split at hs
    next hphase =>
      obtain rfl := Option.some.inj hs
      obtain ⟨rest, hbefore, hafter⟩ := exists_inProgress hc .done
      have hunsent : c.unsent = [c.id] := by rw [FinalizeCall.unsent, hphase]
      rw [hunsent] at hbefore
      have hp : s.inProgress.Perm
          (c.id :: ((s.setCall k c .done).finalizedAdd (-1)).inProgress) := by
        rw [inProgress_finalizedAdd]
        exact hbefore.trans (hafter.symm.cons _)
      exact h.lower hp (finalizedAdd_neg_one _)
    · cases hs
  | finish k =>
    obtain ⟨c, hc, hs⟩ := Option.bind_eq_some_iff.mp hs
    split at hs
    next hphase =>
      have hunsent : c.unsent = [] := by rw [FinalizeCall.unsent, hphase]
      have hdone : (s.setCall k c .done).Inv := h.setCall hc hunsent.symm
      split at hs
      · exact Option.some.inj hs ▸ hdone
      · obtain ⟨_, hs⟩ := Option.ite_none_right_eq_some.mp hs
        obtain rfl := Option.some.inj hs
        exact ⟨hdone.count, hdone.room⟩
    · cases hs
  | event ev =>
    simp only [GateState.step] at hs
    split at hs
    · obtain ⟨⟨_, hid⟩, hs⟩ := Option.ite_none_right_eq_some.mp hs
      obtain rfl := Option.some.inj hs
      have hp : s.inProgress.Perm
          (ev.objId :: (s.calls.flatMap (·.unsent) ++ s.unanswered.erase ev.objId)) :=
        ((List.perm_cons_erase hid).append_left _).trans List.perm_middle
      have hpos : 0 < s.cmdlistFinalizedInProgress := by
        have hlen := hp.length_eq
        rw [← h.count, List.length_cons] at hlen
        exact UInt32.lt_iff_toNat_lt.mpr (hlen ▸ Nat.succ_pos _)
      exact h.lower hp (if_pos hpos)
    · obtain rfl := Option.some.inj hs
      exact ⟨h.count, h.room⟩
  | setCritical ev =>
    obtain rfl := Option.some.inj hs
    exact ⟨h.count, h.room⟩

/-- Whatever the order of the calls, the replies and the changes of the error, the counter of a
context is exact. -/
theorem finalized_in_progress_exact (ops : List GateOp) : Exec.Always step Exact create ops :=
  (Exec.always_of_preserved create_inv fun _ _ _ h hs => h.step hs).mono fun _ h => h.exact

end GateState

end NNPIHost.CommandList

import NNPIHost.CommandList.EditPages
import NNPIHost.CommandList.Pages
import NNPIHost.DevNet.Pages
import NNPIHost.InfReq.Create

/-! # The pages of a call and their messages

Networks, infer requests and the edits of command lists are sent as pages, each with a message
that announces it. What the message and the page have to say follows from the arguments of the
call and the number of the page, and this is what the page loops write.
-/

namespace NNPIHost

open CommandList

/-- A message that announces a page. -/
inductive PageMsg where
  | network (msg : NetworkMsg)
  | infReq (msg : InfReqMsg)
  | cmdList (msg : CmdListMsg)
  deriving DecidableEq

/-- The page loops, each with its variables. -/
inductive Sender where
  | network (s : NetworkSend)
  | infReq (s : InfReqSend)
  | cmdList (s : CmdListSend)

/-- The calls that send pages, with what they find in their environment. -/
inductive SendCall where
  | network (r : NetworkRequest) (broken : Bool)
  | infReq (r : InfReqRequest) (broken : Bool) (id : Option (BitVec 16))
  | cmdList (l : CmdList) (opcode : CmdListOpcode) (broken : Bool)

/-- The page loop of a call, unless the call ends before it. -/
def SendCall.start : SendCall → Option Sender
  | .network r broken => (r.start broken).toOption.map .network
  | .infReq r broken id => (r.start broken id).toOption.map .infReq
  | .cmdList l opcode broken => (l.startPages opcode broken).map .cmdList

namespace Sender

/-- The message of the next page. -/
def msg : Sender → PageMsg
  | .network s => .network s.msg
  | .infReq s => .infReq s.msg
  | .cmdList s => .cmdList s.pageMsg

/-- What is put into the next page. -/
def bytes : Sender → List UInt8
  | .network s => s.bytes
  | .infReq s => s.bytes
  | .cmdList s => s.bytes

def next : Sender → Option Sender
  | .network s => s.next.map .network
  | .infReq _ => none
  | .cmdList s => s.next.map .cmdList

/-- The mutex of the context is locked during the call. -/
def locksContext : Sender → Bool
  | .cmdList _ => false
  | _ => true

/-- A page that is not contiguous is given back. -/
def checksCont : Sender → Bool
  | .cmdList _ => true
  | _ => false

end Sender

/-- The page loop of a call at the page with this number, if it gets there. -/
def SendCall.sender (c : SendCall) : ℕ → Option Sender
  | 0 => c.start
  | q + 1 => (c.sender q).bind Sender.next

/-- The message that describes the page of a network with this number. -/
def NetworkRequest.pageMsg (r : NetworkRequest) (q : ℕ) : NetworkMsg where
  chanId := r.chanId
  netID := r.protocolId
  rbId := 0
  destroy := false
  create := r.isCreate
  numRes := .ofNat 24 r.devresVec.length
  size := .ofNat 32 r.totalDataSize - 1
  startResIdx := .ofNat 24 (min (2048 * q) r.devresVec.length)
  chained := 4096 < r.totalDataSize

/-- The message that describes the page of an infer request. -/
def InfReqRequest.pageMsg (r : InfReqRequest) (id : BitVec 16) : InfReqMsg where
  chanId := r.chanId
  netID := r.netID
  infreqID := id
  size := .ofNat 12 r.packetSize
  rbId := 0
  destroy := false

/-- The message that describes one of the pages of a list with these bytes. -/
def CommandList.CmdList.pageMsg (l : CmdList) (opcode : CmdListOpcode) (isFirst isLast : Bool)
    (bytes : List UInt8) : CmdListMsg where
  opcode := opcode
  chanId := l.chanId
  cmdID := l.protocolID
  destroy := false
  isFirst := isFirst
  isLast := isLast
  optDependencies := opcode == .chanInfCmdlist && l.optDependencies
  size := .ofNat bytes.length

/-- The message describes the page of the call with this number, and the page starts with what
the call puts there. -/
def SendCall.Describes (c : SendCall) (q : ℕ) (m : PageMsg) (page : List UInt8) : Prop :=
  match c, m with
  | .network r _, .network msg =>
      (q = 0 ∨ 4096 * q < r.totalDataSize) ∧ msg = r.pageMsg q ∧
        (r.payload.drop (4096 * q)).take 4096 <+: page
  | .infReq r _ (some id), .infReq msg =>
      q = 0 ∧ msg = r.pageMsg id ∧ r.bytes.take 4096 <+: page
  | .cmdList l opcode _, .cmdList msg =>
      ∃ pages bytes, Pages l.numEdits true l.vec pages ∧ pages[q]? = some bytes ∧
        msg = l.pageMsg opcode (q = 0) (q + 1 = pages.length) bytes ∧ bytes <+: page
  | _, _ => False

section Network

variable {r : NetworkRequest} {q : ℕ} {s t : NetworkSend}

/-- The variables of the page loop at the page with this number. -/
structure NetworkSend.At (r : NetworkRequest) (q : ℕ) (s : NetworkSend) : Prop where
  req : s.req = r
  msg : s.msg = r.pageMsg q
  sent : s.sent = min (2048 * q) r.devresVec.length
  rest : s.rest = r.payload.drop (4096 * q)
  more : q = 0 ∨ 4096 * q < r.totalDataSize

theorem NetworkSend.at_start {broken : Bool} (h : r.start broken = .ok s) : s.At r 0 := by
  unfold NetworkRequest.start at h
  dsimp only at h
  split_ifs at h
  obtain rfl := Except.ok.inj h
  refine ⟨rfl, ?_, by simp, ?_, .inl rfl⟩
  · have hzero : min (2048 * 0) r.devresVec.length = 0 := by simp
    simp only [NetworkRequest.pageMsg, hzero]
    rfl
  · simp [NetworkSend.rest, NetworkRequest.payload]

theorem NetworkSend.length_bytes_of_next (h : s.next = some t) : s.bytes.length = 4096 := by
  have hlen := congrArg List.length (rest_of_next h)
  rw [List.length_append, length_rest, length_rest, s.next_remaining.2 t h] at hlen
  have hlt : ¬ s.remaining ≤ 4096 := fun hle => by
    rw [s.next_remaining.1.mpr hle] at h
    cases h
  omega

theorem NetworkSend.At.next (h : s.At r q) (hn : s.next = some t) : t.At r (q + 1) := by
  obtain ⟨hmore, rfl⟩ := next_eq_some hn
  have hres : s.nRes = min (s.req.devresVec.length - s.sent) 2048 := rfl
  have hsent : s.sent + s.nRes = min (2048 * (q + 1)) r.devresVec.length := by
    rw [hres, h.req, h.sent]
    omega
  refine ⟨h.req, ?_, hsent, ?_, ?_⟩
  · rw [h.msg]
    simp only [NetworkRequest.pageMsg, ← BitVec.ofNat_add, ← hsent, ← h.sent]
  · have hbytes := length_bytes_of_next hn
    have hrest := rest_of_next hn
    rw [h.rest] at hrest
    rw [Nat.mul_succ, ← List.drop_drop, hrest, ← hbytes, List.drop_left]
  · have hlt : ¬ s.remaining ≤ 4096 := fun hle => by
      rw [s.next_remaining.1.mpr hle] at hn
      cases hn
    have hlen := congrArg List.length h.rest
    have htotal : r.payload.length = r.totalDataSize := by
      simp [NetworkRequest.payload, NetworkRequest.totalDataSize, List.length_flatMap,
        List.map_const']
    rw [length_rest, List.length_drop, htotal] at hlen
    omega

theorem NetworkSend.At.bytes (h : s.At r q) :
    s.bytes = (r.payload.drop (4096 * q)).take 4096 := by
  rw [← h.rest]
  cases hn : s.next with
  | none => rw [rest_of_last hn, List.take_of_length_le s.length_bytes_le]
  | some t => rw [rest_of_next hn, ← length_bytes_of_next hn, List.take_left]

end Network

theorem InfReqRequest.start_eq {r : InfReqRequest} {broken : Bool} {id : Option (BitVec 16)}
    {s : InfReqSend} (h : r.start broken id = .ok s) :
    ∃ n, id = some n ∧ s = ⟨r.pageMsg n, r.bytes⟩ := by
  unfold InfReqRequest.start at h
  split_ifs at h
  cases id with
  | none => cases h
  | some n => exact ⟨n, rfl, (Except.ok.inj h).symm⟩

section CmdList

variable {l : CmdList} {opcode : CmdListOpcode} {q : ℕ} {s t : CmdListSend}
  {pages : List (List UInt8)}

/-- The variables of the page loop at the page with this number. -/
structure CommandList.CmdListSend.At (l : CmdList) (opcode : CmdListOpcode)
    (pages : List (List UInt8)) (q : ℕ) (s : CmdListSend) : Prop where
  msg : s.msg = l.cmdMsg opcode
  numEdits : s.numEdits = l.numEdits
  isFirst : s.isFirst = decide (q = 0)
  ne_nil : s.vec ≠ []
  pages : Pages l.numEdits s.isFirst s.vec (pages.drop q)

theorem CommandList.Pages.eq_cons {numEdits : UInt16} {isFirst : Bool} {es : List SchedParams}
    (h : Pages numEdits isFirst es pages) (hne : es ≠ []) : ∃ left,
      let room := pageSize - (countBytes numEdits isFirst).length
      pages = (countBytes numEdits isFirst ++ (packPage es room).1) :: left ∧
        Pages numEdits false (packPage es room).2.2 left := by
  cases h with
  | nil => exact absurd rfl hne
  | page _ hpack hleft => exact ⟨_, by rw [hpack], by rw [hpack]; exact hleft⟩

theorem CommandList.CmdListSend.At.drop (h : s.At l opcode pages q) :
    pages.drop q = s.bytes :: pages.drop (q + 1) ∧
      Pages l.numEdits false s.rest (pages.drop (q + 1)) := by
  obtain ⟨left, hdrop, hleft⟩ := h.pages.eq_cons h.ne_nil
  rw [← h.numEdits] at hdrop hleft ⊢
  have hnext : pages.drop (q + 1) = left := by
    rw [← List.drop_drop, hdrop, List.drop_one, List.tail_cons]
  rw [hnext]
  exact ⟨hdrop, hleft⟩

theorem CommandList.CmdListSend.At.next (h : s.At l opcode pages q) (hn : s.next = some t) :
    t.At l opcode pages (q + 1) := by
  unfold CmdListSend.next at hn
  split at hn
  · cases hn
  next hne =>
    obtain rfl := Option.some.inj hn
    exact ⟨h.msg, h.numEdits, by simp, by simpa using hne, h.drop.2⟩

theorem CommandList.CmdListSend.At.describes (h : s.At l opcode pages q) :
    pages[q]? = some s.bytes ∧ s.bytes.length ≤ 4096 ∧
      s.pageMsg = l.pageMsg opcode (q = 0) (q + 1 = pages.length) s.bytes := by
  obtain ⟨hdrop, hrest⟩ := h.drop
  have hpage : pages[q]? = some s.bytes := by
    rw [← List.head?_drop, hdrop, List.head?_cons]
  have hlt : q < pages.length := (List.getElem?_eq_some_iff.mp hpage).1
  have hlast : s.rest.isEmpty = decide (q + 1 = pages.length) := by
    rw [Bool.eq_iff_iff, List.isEmpty_iff, decide_eq_true_iff]
    have hend : pages.drop (q + 1) = [] ↔ q + 1 = pages.length := by
      rw [List.drop_eq_nil_iff]
      omega
    rw [← hend]
    constructor
    · intro hnil
      rw [hnil] at hrest
      generalize pages.drop (q + 1) = left at hrest
      cases hrest with
      | nil => rfl
      | page hne => exact absurd rfl hne
    · intro hnil
      rw [hnil] at hrest
      generalize s.rest = rest at hrest
      cases hrest
      rfl
  refine ⟨hpage, ?_, ?_⟩
  · exact @length_page_le s.numEdits s.isFirst s.vec _ _ _ rfl
  · rw [CmdListSend.pageMsg, h.msg, h.isFirst, hlast]
    rfl

end CmdList

theorem eq_ok_of_toOption {ε α : Type} {x : Except ε α} {a : α} (h : x.toOption = some a) :
    x = .ok a := by
  cases x with
  | error e => cases h
  | ok b => exact congrArg Except.ok (Option.some.inj h)

namespace SendCall

variable {q : ℕ} {snd : Sender}

theorem sender_network {r : NetworkRequest} {broken : Bool}
    (h : (network r broken).sender q = some snd) : ∃ s, snd = .network s ∧ s.At r q := by
  induction q generalizing snd with
  | zero =>
    obtain ⟨s, hs, rfl⟩ := Option.map_eq_some_iff.mp h
    exact ⟨s, rfl, NetworkSend.at_start (eq_ok_of_toOption hs)⟩
  | succ q ih =>
    obtain ⟨before, hbefore, hnext⟩ := Option.bind_eq_some_iff.mp h
    obtain ⟨s, rfl, hs⟩ := ih hbefore
    obtain ⟨t, ht, rfl⟩ := Option.map_eq_some_iff.mp hnext
    exact ⟨t, rfl, hs.next ht⟩

theorem sender_infReq {r : InfReqRequest} {broken : Bool} {id : Option (BitVec 16)}
    (h : (infReq r broken id).sender q = some snd) :
    q = 0 ∧ ∃ n, id = some n ∧ snd = .infReq ⟨r.pageMsg n, r.bytes⟩ := by
  induction q generalizing snd with
  | zero =>
    obtain ⟨s, hs, rfl⟩ := Option.map_eq_some_iff.mp h
    obtain ⟨n, hn, rfl⟩ := InfReqRequest.start_eq (eq_ok_of_toOption hs)
    exact ⟨rfl, n, hn, rfl⟩
  | succ q ih =>
    obtain ⟨before, hbefore, hnext⟩ := Option.bind_eq_some_iff.mp h
    obtain ⟨-, n, -, rfl⟩ := ih hbefore
    cases hnext

theorem sender_cmdList {l : CmdList} {opcode : CmdListOpcode} {broken : Bool}
    {pages : List (List UInt8)} (hpages : Pages l.numEdits true l.vec pages)
    (h : (cmdList l opcode broken).sender q = some snd) :
    ∃ s, snd = .cmdList s ∧ s.At l opcode pages q := by
  induction q generalizing snd with
  | zero =>
    obtain ⟨s, hs, rfl⟩ := Option.map_eq_some_iff.mp h
    unfold CmdList.startPages at hs
    split at hs
    · cases hs
    next hstart =>
      obtain rfl := Option.some.inj hs
      have hne : l.vec ≠ [] := fun hnil => hstart (.inl (by rw [hnil]; rfl))
      exact ⟨_, rfl, rfl, rfl, rfl, hne, hpages⟩
  | succ q ih =>
    obtain ⟨before, hbefore, hnext⟩ := Option.bind_eq_some_iff.mp h
    obtain ⟨s, rfl, hs⟩ := ih hbefore
    obtain ⟨t, ht, rfl⟩ := Option.map_eq_some_iff.mp hnext
    exact ⟨t, rfl, hs.next ht⟩

theorem describes {c : SendCall} (h : c.sender q = some snd) {page : List UInt8}
    (hp : snd.bytes.take 4096 <+: page) : c.Describes q snd.msg page := by
  cases c with
  | network r broken =>
    obtain ⟨s, rfl, hs⟩ := sender_network h
    have hbytes : s.bytes.take 4096 = s.bytes := List.take_of_length_le s.length_bytes_le
    exact ⟨hs.more, hs.msg, by rwa [← hs.bytes, ← hbytes]⟩
  | infReq r broken id =>
    obtain ⟨rfl, n, rfl, rfl⟩ := sender_infReq h
    exact ⟨rfl, rfl, hp⟩
  | cmdList l opcode broken =>
    obtain ⟨pages, hpages⟩ := exists_pages l.numEdits true l.vec
    obtain ⟨s, rfl, hs⟩ := sender_cmdList hpages h
    obtain ⟨hpage, hle, hmsg⟩ := hs.describes
    have hbytes : s.bytes.take 4096 = s.bytes := List.take_of_length_le hle
    exact ⟨pages, s.bytes, hpages, hpage, hmsg, by rwa [← hbytes]⟩

end SendCall

end NNPIHost

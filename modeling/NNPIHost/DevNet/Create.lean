import NNPIHost.Ipc.Events
import NNPIHost.Memory.Block

/-! # Sending a network

`send_create_or_add` sends the ids of the resources of a network and then its configuration
data, a page at a time. Each page has a message, which tells how many resources went before.
-/

namespace NNPIHost

namespace EventReport

def createDevnetSuccess : BitVec 7 := 11

def devnetAddResSuccess : BitVec 7 := 17

def createDevnetFailed : BitVec 7 := 60

def devnetAddResFailed : BitVec 7 := 67

/-- What `send_create_or_add` makes of its reply. -/
def createOrAddResult (reply : EventReport) : NNPError :=
  if reply.eventCode = createDevnetFailed ∨ reply.eventCode = devnetAddResFailed then
    eventValToNNPError reply.eventVal.toNat
  else if reply.isContextFatalEvent then .contextBroken
  else if reply.eventCode ≠ createDevnetSuccess ∧ reply.eventCode ≠ devnetAddResSuccess then
    .ioError
  else .noError

end EventReport

/-- Whether the ring has room for a page, and whether the message of the page is written. -/
structure RingPage where
  space : Bool
  written : Bool
  deriving DecidableEq, Repr

/-- `h2c_ChanInferenceNetworkOp`, with the widths of its bit fields. -/
structure NetworkMsg where
  chanId : BitVec 10
  netID : BitVec 16
  rbId : BitVec 1
  destroy : Bool
  create : Bool
  numRes : BitVec 24
  size : BitVec 32
  startResIdx : BitVec 24
  chained : Bool
  deriving DecidableEq, Repr

/-- The arguments of `send_create_or_add`, with the ids of `devres_vec`. -/
structure NetworkRequest where
  chanId : BitVec 10
  protocolId : BitVec 16
  isCreate : Bool
  devresVec : List UInt16
  configData : ℕ → UInt8
  configDataSize : UInt32

/-- The variables of its page loop. -/
structure NetworkSend where
  req : NetworkRequest
  msg : NetworkMsg
  sent : ℕ
  sentConf : ℕ

/-- What is done before the page loop, in a context that is `broken` or not. -/
def NetworkRequest.start (r : NetworkRequest) (broken : Bool) : Except NNPError NetworkSend :=
  let totalDataSize := r.devresVec.length * 2 + r.configDataSize.toNat
  if 0x1000000 < r.devresVec.length then .error .notSupported
  else if 0x100000000 < totalDataSize then .error .notSupported
  else if broken then .error .contextBroken
  else .ok {
    req := r
    msg := {
      chanId := r.chanId
      netID := r.protocolId
      rbId := 0
      destroy := false
      create := r.isCreate
      numRes := .ofNat 24 r.devresVec.length
      size := .ofNat 32 totalDataSize - 1
      startResIdx := 0
      chained := 4096 < totalDataSize }
    sent := 0
    sentConf := 0 }

namespace NetworkSend

variable (s : NetworkSend)

def nRes : ℕ := min (s.req.devresVec.length - s.sent) 2048

def nConf : ℕ :=
  let spaceLeft := 4096 - s.nRes * 2
  if 0 < spaceLeft ∧ s.sentConf < s.req.configDataSize.toNat then
    min (s.req.configDataSize.toNat - s.sentConf) spaceLeft
  else 0

/-- The bytes that are put into the next page. -/
def bytes : List UInt8 :=
  ((s.req.devresVec.drop s.sent).take s.nRes).flatMap Codec.u16.encode ++
    Memory.read s.req.configData s.sentConf s.nConf

/-- The loop variables after the page, or nothing when the loop ends. -/
def next : Option NetworkSend :=
  let t := { s with
    msg := { s.msg with startResIdx := s.msg.startResIdx + .ofNat 24 s.nRes }
    sent := s.sent + s.nRes
    sentConf := s.sentConf + s.nConf }
  if t.sent < s.req.devresVec.length ∨ t.sentConf < s.req.configDataSize.toNat then some t
  else none

/-- The page loop: the pages that are filled, each as the loop variables before it. It fails on
a page without an outcome as on one without room. -/
def sendPages (s : NetworkSend) : List RingPage → List NetworkSend × NNPError
  | [] => ([], .ioError)
  | io :: ios =>
      if ¬ io.space then ([], .ioError)
      else if ¬ io.written then ([s], .ioError)
      else
        match s.next with
        | none => ([s], .noError)
        | some t =>
            let (pages, ret) := t.sendPages ios
            (s :: pages, ret)

/-- The resources whose ids are put into the page. -/
def resources {α : Type*} (devresVec : List α) : List α := (devresVec.drop s.sent).take s.nRes

theorem nConf_eq : s.nConf =
    min (s.req.configDataSize.toNat - s.sentConf) (4096 - s.nRes * 2) := by
  unfold nConf
  dsimp only
  split <;> omega

/-- A page is never overfilled. -/
theorem length_bytes_le : s.bytes.length ≤ 4096 := by
  have hids : (((s.req.devresVec.drop s.sent).take s.nRes).flatMap Codec.u16.encode).length ≤
      s.nRes * 2 := by
    simp only [List.length_flatMap, Codec.length_u16, List.map_const', List.sum_replicate_nat,
      List.length_take]
    omega
  have hconf : s.nConf ≤ 4096 - s.nRes * 2 := nConf_eq s ▸ Nat.min_le_right ..
  have hres : s.nRes ≤ 2048 := Nat.min_le_right ..
  rw [bytes, List.length_append, Memory.length_read]
  omega

end NetworkSend

namespace NetworkSend

variable {s t : NetworkSend}

theorem next_eq_some (h : s.next = some t) :
    (s.sent + s.nRes < s.req.devresVec.length ∨
      s.sentConf + s.nConf < s.req.configDataSize.toNat) ∧
    t = { s with
      msg := { s.msg with startResIdx := s.msg.startResIdx + .ofNat 24 s.nRes }
      sent := s.sent + s.nRes
      sentConf := s.sentConf + s.nConf } := by
  unfold next at h
  dsimp only at h
  split at h
  next hmore => exact ⟨hmore, (Option.some.inj h).symm⟩
  next => cases h

theorem next_eq_none : s.next = none ↔ s.req.devresVec.length ≤ s.sent + s.nRes ∧
    s.req.configDataSize.toNat ≤ s.sentConf + s.nConf := by
  unfold next
  simp only [ite_eq_right_iff, reduceCtorEq, imp_false, not_or, Nat.not_lt]

/-- The bytes that are left to send. -/
def remaining (s : NetworkSend) : ℕ :=
  (s.req.devresVec.length - s.sent) * 2 + (s.req.configDataSize.toNat - s.sentConf)

theorem next_remaining :
    (s.next = none ↔ s.remaining ≤ 4096) ∧
      ∀ t, s.next = some t → t.remaining = s.remaining - 4096 := by
  have hres : s.nRes = min (s.req.devresVec.length - s.sent) 2048 := rfl
  have hconf := s.nConf_eq
  unfold remaining
  constructor
  · rw [next_eq_none]
    omega
  · intro t ht
    obtain ⟨_, rfl⟩ := next_eq_some ht
    dsimp only
    omega

/-- The loop succeeds exactly when all the pages that it needs do. -/
theorem sendPages_eq_noError {ios : List RingPage} :
    (s.sendPages ios).2 = .noError ↔
      ∀ k, k = 0 ∨ k * 4096 < s.remaining → ∃ io, ios[k]? = some io ∧ io.space ∧ io.written := by
  induction ios generalizing s with
  | nil =>
    refine iff_of_false nofun fun h => ?_
    obtain ⟨io, hio, _⟩ := h 0 (.inl rfl)
    cases hio
  | cons io ios ih =>
    obtain ⟨hlast, hnext⟩ := s.next_remaining
    unfold sendPages
    by_cases hio : io.space = true ∧ io.written = true
    · simp only [hio.1, hio.2, not_true_eq_false, if_false]
      cases hn : s.next with
      | none =>
        have hle := hlast.mp hn
        refine iff_of_true rfl ?_
        rintro (_ | k) hk
        · exact ⟨io, rfl, hio⟩
        · omega
      | some t =>
        have ht := hnext t hn
        have hlt : ¬ s.remaining ≤ 4096 := fun hle => by rw [hlast.mpr hle] at hn; cases hn
        refine (ih (s := t)).trans ⟨?_, ?_⟩
        · rintro h (_ | k) hk
          · exact ⟨io, rfl, hio⟩
          · exact h k (by omega)
        · exact fun h k hk => h (k + 1) (by omega)
    · refine iff_of_false ?_ fun h => ?_
      · cases hspace : io.space <;> cases hwritten : io.written <;> simp_all
      · obtain ⟨_, ⟨⟩, hok⟩ := h 0 (.inl rfl)
        exact hio hok

end NetworkSend

/-- How many pages the ring has room for, as long as the messages before are written. -/
def reachedPages : List RingPage → ℕ
  | [] => 0
  | io :: ios => if io.space then if io.written then reachedPages ios + 1 else 1 else 0

namespace NetworkSend

variable {α : Type*} {s t : NetworkSend} {devresVec : List α}

theorem resources_eq (h : devresVec.length = s.req.devresVec.length) :
    s.resources devresVec = (devresVec.drop s.sent).take 2048 := by
  have hlen : (devresVec.drop s.sent).length = s.req.devresVec.length - s.sent := by
    rw [List.length_drop, h]
  rw [resources, nRes, ← hlen, ← List.take_take, List.take_take, Nat.min_comm, ← List.take_take,
    List.take_length]

theorem drop_next (h : devresVec.length = s.req.devresVec.length) (hn : s.next = some t) :
    t.req = s.req ∧ devresVec.drop t.sent = devresVec.drop (s.sent + 2048) := by
  obtain ⟨_, rfl⟩ := next_eq_some hn
  refine ⟨rfl, ?_⟩
  rcases Nat.le_total (s.req.devresVec.length - s.sent) 2048 with hle | hle
  · rw [List.drop_eq_nil_of_le (by simp only [nRes]; omega), List.drop_eq_nil_of_le (by omega)]
  · rw [nRes, Nat.min_eq_right hle]

theorem drop_of_next_eq_none (h : devresVec.length = s.req.devresVec.length)
    (hn : s.next = none) : devresVec.drop (s.sent + 2048) = [] := by
  obtain ⟨hdone, _⟩ := next_eq_none.mp hn
  apply List.drop_eq_nil_of_le
  have hres : s.nRes ≤ 2048 := Nat.min_le_right ..
  omega

theorem flatMap_resources (h : devresVec.length = s.req.devresVec.length) (ios : List RingPage) :
    (s.sendPages ios).1.flatMap (·.resources devresVec) =
      (devresVec.drop s.sent).take (2048 * reachedPages ios) := by
  induction ios generalizing s with
  | nil => rfl
  | cons io ios ih =>
    unfold sendPages reachedPages
    by_cases hspace : io.space = true
    · by_cases hwritten : io.written = true
      · simp only [hspace, hwritten, not_true_eq_false, if_false, if_true]
        rw [Nat.mul_add_one, Nat.add_comm, List.take_add, List.drop_drop, ← resources_eq h]
        cases hn : s.next with
        | none =>
          rw [drop_of_next_eq_none h hn, List.take_nil, List.append_nil]
          exact List.flatMap_singleton ..
        | some t =>
          obtain ⟨hreq, hdrop⟩ := drop_next h hn
          have hrest := ih (s := t) (by rw [hreq, h])
          rw [hdrop] at hrest
          rw [← hrest]
          rfl
      · simp [hspace, hwritten, resources_eq h]
    · simp [hspace]

end NetworkSend

namespace NetworkRequest

/-- `send_create_or_add`: the pages that are filled, and what it returns. `reply` is what
`wait_create_command` gives, if it does not fail. -/
def send (r : NetworkRequest) (broken : Bool) (ios : List RingPage) (reply : Option EventReport) :
    List NetworkSend × NNPError :=
  match r.start broken with
  | .error e => ([], e)
  | .ok s =>
      match s.sendPages ios with
      | (pages, .noError) =>
          (pages, match reply with
            | none => .ioError
            | some reply => reply.createOrAddResult)
      | (pages, ret) => (pages, ret)

def totalDataSize (r : NetworkRequest) : ℕ := r.devresVec.length * 2 + r.configDataSize.toNat

/-- Nothing that can go wrong after the id of the network was taken does: the sizes are in
range, the context is not broken, every page finds room and has its message written, and the
reply comes and reports a success. -/
structure Completes (r : NetworkRequest) (broken : Bool) (ios : List RingPage)
    (reply : Option EventReport) : Prop where
  resources : r.devresVec.length ≤ 0x1000000
  data : r.totalDataSize ≤ 0x100000000
  unbroken : broken = false
  pages : ∀ k, k = 0 ∨ k * 4096 < r.totalDataSize →
    ∃ io, ios[k]? = some io ∧ io.space ∧ io.written
  reply : ∃ ev, reply = some ev ∧ ev.createOrAddResult = .noError

variable {α : Type*} {r : NetworkRequest} {broken : Bool} {ios : List RingPage}
  {reply : Option EventReport} {devresVec : List α}

theorem start_eq_ok {s : NetworkSend} (h : r.start broken = .ok s) :
    (r.devresVec.length ≤ 0x1000000 ∧ r.totalDataSize ≤ 0x100000000 ∧ broken = false) ∧
      s.req = r ∧ s.sent = 0 ∧ s.sentConf = 0 := by
  unfold start at h
  dsimp only at h
  split_ifs at h with hres hdata hbroken
  obtain rfl := Except.ok.inj h
  exact ⟨⟨Nat.le_of_not_lt hres, Nat.le_of_not_lt hdata, Bool.eq_false_iff.mpr hbroken⟩, rfl, rfl,
    rfl⟩

theorem exists_start (hres : r.devresVec.length ≤ 0x1000000)
    (hdata : r.totalDataSize ≤ 0x100000000) (hbroken : broken = false) :
    ∃ s, r.start broken = .ok s := by
  rw [totalDataSize] at hdata
  unfold start
  dsimp only
  rw [if_neg (Nat.not_lt.mpr hres), if_neg (Nat.not_lt.mpr hdata), if_neg (by simp [hbroken])]
  exact ⟨_, rfl⟩

theorem send_pages_of_error {e : NNPError} (h : r.start broken = .error e) :
    r.send broken ios reply = ([], e) := by simp only [send, h]

theorem send_pages_of_ok {s : NetworkSend} (h : r.start broken = .ok s) :
    (r.send broken ios reply).1 = (s.sendPages ios).1 := by
  simp only [send, h]
  split <;> simp only [*]

theorem send_resources {s : NetworkSend} (h : r.start broken = .ok s)
    (hlen : devresVec.length = r.devresVec.length) :
    (r.send broken ios reply).1.flatMap (·.resources devresVec) =
      devresVec.take (2048 * reachedPages ios) := by
  obtain ⟨_, hreq, hsent, _⟩ := start_eq_ok h
  rw [send_pages_of_ok h, NetworkSend.flatMap_resources (by rw [hreq, hlen]), hsent,
    List.drop_zero]

/-- The request succeeds exactly when nothing goes wrong. -/
theorem send_eq_noError :
    (r.send broken ios reply).2 = .noError ↔ r.Completes broken ios reply := by
  cases hstart : r.start broken with
  | error e =>
    rw [send_pages_of_error hstart]
    refine iff_of_false ?_ fun h => ?_
    · rintro rfl
      unfold start at hstart
      dsimp only at hstart
      split_ifs at hstart <;> cases hstart
    · obtain ⟨s, hs⟩ := exists_start h.resources h.data h.unbroken
      rw [hs] at hstart
      cases hstart
  | ok s =>
    obtain ⟨⟨hres, hdata, hbroken⟩, hreq, hsent, hconf⟩ := start_eq_ok hstart
    have hremaining : s.remaining = r.totalDataSize := by
      rw [NetworkSend.remaining, hreq, hsent, hconf, Nat.sub_zero, Nat.sub_zero, totalDataSize]
    have hpages := @NetworkSend.sendPages_eq_noError s ios
    rw [hremaining] at hpages
    have hsend : (r.send broken ios reply).2 = .noError ↔ (s.sendPages ios).2 = .noError ∧
        ∃ ev, reply = some ev ∧ ev.createOrAddResult = .noError := by
      simp only [send, hstart]
      rcases s.sendPages ios with ⟨pages, ret⟩
      cases ret
      case noError => cases reply <;> simp
      all_goals simp
    rw [hsend, hpages]
    exact ⟨fun h => ⟨hres, hdata, hbroken, h.1, h.2⟩, fun h => ⟨h.pages, h.reply⟩⟩

end NetworkRequest

end NNPIHost

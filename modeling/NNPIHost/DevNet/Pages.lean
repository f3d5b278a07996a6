import Mathlib.Algebra.GroupWithZero.Nat
import NNPIHost.DevNet.Create

/-! # What the receiver of a network reads

The pages of a request are full but for the last one, and hold the ids and the configuration
data one after the other. The fields of the messages tell how to take them apart, unless a
count does not fit into its field.
-/

namespace NNPIHost

/-- A page in the ring after some bytes were put over what was there before. -/
def ringPage (bytes : List UInt8) (old : Vector UInt8 4096) : List UInt8 :=
  bytes ++ old.toList.drop bytes.length

namespace NetworkSend

variable {s t : NetworkSend} {ios : List RingPage} {pages : List NetworkSend}

/-- The pages in the ring one after the other. -/
def ringBytes : List NetworkSend → (ℕ → Vector UInt8 4096) → List UInt8
  | [], _ => []
  | p :: ps, old => ringPage p.bytes (old 0) ++ ringBytes ps fun k => old (k + 1)

/-- The bytes that the page loop has not sent yet. -/
def rest (s : NetworkSend) : List UInt8 :=
  (s.req.devresVec.drop s.sent).flatMap Codec.u16.encode ++
    Memory.read s.req.configData s.sentConf (s.req.configDataSize.toNat - s.sentConf)

theorem length_rest (s : NetworkSend) : s.rest.length = s.remaining := by
  rw [rest, List.length_append, Memory.length_read, remaining]
  simp [List.length_flatMap, List.map_const']

theorem rest_eq (s : NetworkSend) : s.rest = s.bytes ++
    ((s.req.devresVec.drop (s.sent + s.nRes)).flatMap Codec.u16.encode ++
      Memory.read s.req.configData (s.sentConf + s.nConf)
        (s.req.configDataSize.toNat - (s.sentConf + s.nConf))) := by
  have hconf := s.nConf_eq
  have hsplit : s.req.configDataSize.toNat - s.sentConf =
      s.nConf + (s.req.configDataSize.toNat - (s.sentConf + s.nConf)) := by omega
  rcases Nat.lt_or_ge (s.req.devresVec.length - s.sent) 2048 with hlt | hge
  · have hres : s.nRes = s.req.devresVec.length - s.sent := Nat.min_eq_left (Nat.le_of_lt hlt)
    have htake : (s.req.devresVec.drop s.sent).take s.nRes = s.req.devresVec.drop s.sent :=
      List.take_of_length_le (Nat.le_of_eq (by rw [List.length_drop, hres]))
    have hdrop : s.req.devresVec.drop (s.sent + s.nRes) = [] :=
      List.drop_eq_nil_of_le (by omega)
    rw [rest, bytes, htake, hdrop, hsplit, Memory.read_add]
    simp only [List.flatMap_nil, List.nil_append, List.append_assoc]
  · have hres : s.nRes = 2048 := Nat.min_eq_right hge
    have hzero : s.nConf = 0 := by omega
    have hnone : Memory.read s.req.configData s.sentConf 0 = [] := rfl
    rw [bytes, hzero, Nat.add_zero, hnone, List.append_nil, ← List.append_assoc,
      ← List.flatMap_append, ← List.drop_drop, List.take_append_drop, rest]

theorem rest_of_next (h : s.next = some t) : s.rest = s.bytes ++ t.rest := by
  obtain ⟨_, rfl⟩ := next_eq_some h
  exact s.rest_eq

theorem rest_of_last (h : s.next = none) : s.rest = s.bytes := by
  obtain ⟨hres, hconf⟩ := next_eq_none.mp h
  rw [rest_eq, List.drop_eq_nil_of_le hres, Nat.sub_eq_zero_of_le hconf, List.flatMap_nil,
    List.nil_append]
  exact List.append_nil _

/-- The pages of a loop that was not interrupted. -/
inductive Pages : NetworkSend → List NetworkSend → Prop
  | last {s : NetworkSend} : s.next = none → Pages s [s]
  | cons {s t : NetworkSend} {ps : List NetworkSend} : s.next = some t → Pages t ps →
      Pages s (s :: ps)

theorem pages_of_noError (h : (s.sendPages ios).2 = .noError) : Pages s (s.sendPages ios).1 := by
  induction ios generalizing s with
  | nil => cases h
  | cons io ios ih =>
    unfold sendPages at h ⊢
    split at h
    next => cases h
    next hspace =>
      split at h
      next => cases h
      next hwritten =>
        simp only [if_neg hspace, if_neg hwritten]
        cases hn : s.next with
        | none => exact .last hn
        | some t =>
          rw [hn] at h
          exact .cons hn (ih h)

theorem Pages.cons_tail (h : Pages s pages) : ∃ ps, pages = s :: ps := by
  cases h with
  | last => exact ⟨[], rfl⟩
  | cons => exact ⟨_, rfl⟩

theorem Pages.one_lt_length (h : Pages s pages) : 1 < pages.length ↔ 4096 < s.remaining := by
  obtain ⟨hlast, _⟩ := s.next_remaining
  cases h with
  | last hn =>
    have := hlast.mp hn
    exact iff_of_false (Nat.lt_irrefl 1) (by omega)
  | cons hn h =>
    obtain ⟨ps, rfl⟩ := h.cons_tail
    have hlt : ¬ s.remaining ≤ 4096 := fun hle => by rw [hlast.mpr hle] at hn; cases hn
    exact iff_of_true (by simp) (by omega)

theorem next_msg (h : s.next = some t) : t.req = s.req ∧ t.msg.numRes = s.msg.numRes ∧
    t.msg.size = s.msg.size ∧ t.msg.chained = s.msg.chained ∧ t.sent = s.sent + s.nRes ∧
      t.msg.startResIdx = s.msg.startResIdx + .ofNat 24 s.nRes := by
  obtain ⟨_, rfl⟩ := next_eq_some h
  exact ⟨rfl, rfl, rfl, rfl, rfl, rfl⟩

theorem Pages.msg (h : Pages s pages) : ∀ p ∈ pages, p.msg.numRes = s.msg.numRes ∧
    p.msg.size = s.msg.size ∧ p.msg.chained = s.msg.chained := by
  induction h with
  | last => rintro p hp; obtain rfl := List.mem_singleton.mp hp; exact ⟨rfl, rfl, rfl⟩
  | cons hn _ ih =>
    obtain ⟨_, hnum, hsize, hchained, _⟩ := next_msg hn
    intro p hp
    rcases List.mem_cons.mp hp with rfl | hp
    · exact ⟨rfl, rfl, rfl⟩
    · obtain ⟨h1, h2, h3⟩ := ih p hp
      exact ⟨h1.trans hnum, h2.trans hsize, h3.trans hchained⟩

theorem Pages.startResIdx (h : Pages s pages) (hidx : s.msg.startResIdx = .ofNat 24 s.sent) {k : ℕ}
    {p : NetworkSend} (hp : pages[k]? = some p) :
    p.msg.startResIdx = .ofNat 24 (s.sent + ((pages.take k).map nRes).sum) := by
  induction h generalizing k with
  | last =>
    cases k with
    | zero => obtain rfl := Option.some.inj hp; simpa using hidx
    | succ k => cases hp
  | @cons s t ps hn h ih =>
    obtain ⟨_, _, _, _, hsent, hstart⟩ := next_msg hn
    cases k with
    | zero => obtain rfl := Option.some.inj hp; simpa using hidx
    | succ k =>
      have := ih (by rw [hstart, hidx, hsent, BitVec.ofNat_add]) hp
      rw [this, hsent, List.take_succ_cons, List.map_cons, List.sum_cons, Nat.add_assoc]

theorem Pages.sum_le (h : Pages s pages) (hle : s.sent ≤ s.req.devresVec.length) (k : ℕ) :
    s.sent + ((pages.take k).map nRes).sum ≤ s.req.devresVec.length := by
  have hres : ∀ s : NetworkSend, s.nRes ≤ s.req.devresVec.length - s.sent :=
    fun s => Nat.min_le_left ..
  induction h generalizing k with
  | @last s _ =>
    have := hres s
    cases k with
    | zero => simpa using hle
    | succ k => simp; omega
  | @cons s t ps hn h ih =>
    have := hres s
    obtain ⟨hreq, _, _, _, hsent, _⟩ := next_msg hn
    cases k with
    | zero => simpa using hle
    | succ k =>
      have := ih (by rw [hsent, hreq]; omega) k
      rw [hsent, hreq] at this
      rw [List.take_succ_cons, List.map_cons, List.sum_cons]
      omega

theorem Pages.ringBytes_take (h : Pages s pages) (old : ℕ → Vector UInt8 4096) :
    (ringBytes pages old).take s.rest.length = s.rest := by
  induction h generalizing old with
  | @last s hn =>
    rw [ringBytes, ringBytes, List.append_nil, ringPage, rest_of_last hn, List.take_left]
  | @cons s t ps hn h ih =>
    have hlt : ¬ s.remaining ≤ 4096 := fun hle => by rw [s.next_remaining.1.mpr hle] at hn; cases hn
    have hlen := congrArg List.length (rest_of_next hn)
    rw [List.length_append, length_rest, length_rest, s.next_remaining.2 t hn] at hlen
    have hpage : ringPage s.bytes (old 0) = s.bytes := by
      rw [ringPage, List.drop_eq_nil_of_le, List.append_nil]
      rw [Vector.length_toList]
      omega
    rw [ringBytes, hpage, rest_of_next hn, List.length_append, List.take_length_add_append, ih]

end NetworkSend

namespace NetworkRequest

variable {r : NetworkRequest} {broken : Bool} {ios : List RingPage} {s : NetworkSend}

/-- The ids of the resources, and then the configuration data. -/
def payload (r : NetworkRequest) : List UInt8 :=
  r.devresVec.flatMap Codec.u16.encode ++ Memory.read r.configData 0 r.configDataSize.toNat

/-- The request can be told from the messages and the pages. -/
structure Rebuilds (r : NetworkRequest) (pages : List NetworkSend) : Prop where
  numRes : ∀ p ∈ pages, p.msg.numRes.toNat = r.devresVec.length
  size : ∀ p ∈ pages, p.msg.size.toNat + 1 = r.totalDataSize
  startResIdx : ∀ k p, pages[k]? = some p →
    p.msg.startResIdx.toNat = ((pages.take k).map NetworkSend.nRes).sum
  chained : ∀ p ∈ pages, p.msg.chained = true ↔ 1 < pages.length
  data : ∀ old, (NetworkSend.ringBytes pages old).take r.totalDataSize = r.payload

theorem start_msg (h : r.start broken = .ok s) :
    s.msg.numRes = .ofNat 24 r.devresVec.length ∧ s.msg.size = .ofNat 32 r.totalDataSize - 1 ∧
      s.msg.startResIdx = 0 ∧ s.msg.chained = decide (4096 < r.totalDataSize) := by
  unfold start at h
  dsimp only at h
  split_ifs at h
  obtain rfl := Except.ok.inj h
  exact ⟨rfl, rfl, rfl, rfl⟩

theorem size_toNat_iff {n : ℕ} (hn : n ≤ 2 ^ 32) :
    ((BitVec.ofNat 32 n - 1).toNat + 1 = n) ↔ 0 < n := by
  rw [BitVec.toNat_sub, BitVec.toNat_ofNat]
  have h1 : (1 : BitVec 32).toNat = 1 := rfl
  rw [h1]
  omega

/-- A request that was sent can be rebuilt unless it is empty or has the most resources. -/
theorem rebuilds_iff (h : r.start broken = .ok s) (hok : (s.sendPages ios).2 = .noError) :
    r.Rebuilds (s.sendPages ios).1 ↔ 0 < r.totalDataSize ∧ r.devresVec.length < 2 ^ 24 := by
  obtain ⟨⟨hres, hdata, _⟩, hreq, hsent, hconf⟩ := start_eq_ok h
  obtain ⟨hnum, hsize, hidx, hchained⟩ := start_msg h
  have hpages := NetworkSend.pages_of_noError hok
  have hrest : s.rest = r.payload := by
    rw [NetworkSend.rest, hreq, hsent, hconf, Nat.sub_zero, List.drop_zero, payload]
  have hlen : s.rest.length = r.totalDataSize := by
    rw [NetworkSend.length_rest, NetworkSend.remaining, hreq, hsent, hconf, Nat.sub_zero,
      Nat.sub_zero, totalDataSize]
  have hnum' : s.msg.numRes.toNat = r.devresVec.length ↔ r.devresVec.length < 2 ^ 24 := by
    rw [hnum, BitVec.toNat_ofNat]
    omega
  have hsize' : s.msg.size.toNat + 1 = r.totalDataSize ↔ 0 < r.totalDataSize := by
    rw [hsize]
    exact size_toNat_iff hdata
  constructor
  · intro hr
    obtain ⟨ps, hps⟩ := hpages.cons_tail
    have hmem : s ∈ (s.sendPages ios).1 := hps ▸ List.mem_cons_self
    exact ⟨hsize'.mp (hr.size s hmem), hnum'.mp (hr.numRes s hmem)⟩
  · rintro ⟨hpos, hlt⟩
    refine ⟨fun p hp => ?_, fun p hp => ?_, fun k p hp => ?_, fun p hp => ?_, fun old => ?_⟩
    · rw [(hpages.msg p hp).1, hnum'.mpr hlt]
    · rw [(hpages.msg p hp).2.1, hsize'.mpr hpos]
    · have hle := hpages.sum_le (by rw [hsent]; exact Nat.zero_le _) k
      rw [hsent, Nat.zero_add, hreq] at hle
      rw [hpages.startResIdx (by rw [hidx, hsent]; rfl) hp, hsent, Nat.zero_add, BitVec.toNat_ofNat]
      omega
    · rw [(hpages.msg p hp).2.2, hchained, decide_eq_true_eq, hpages.one_lt_length,
        ← NetworkSend.length_rest, hlen]
    · rw [← hlen, hpages.ringBytes_take, hrest]

/-- A request of two resources, whose config block ends in a second page. -/
def twoPages : NetworkRequest where
  chanId := 3
  protocolId := 1
  isCreate := true
  devresVec := [5, 6]
  configData := fun _ => 7
  configDataSize := 5000

/-- The request of the most resources that is not refused. -/
def largest : NetworkRequest where
  chanId := 3
  protocolId := 1
  isCreate := true
  devresVec := List.replicate 0x1000000 5
  configData := fun _ => 7
  configDataSize := 0

theorem twoPages_rebuilds_iff : ∃ s, twoPages.start false = .ok s ∧
    (twoPages.Rebuilds (s.sendPages (List.replicate 2 ⟨true, true⟩)).1 ↔
      0 < twoPages.totalDataSize ∧ twoPages.devresVec.length < 2 ^ 24) := by
  have htotal : twoPages.totalDataSize = 5004 := rfl
  obtain ⟨s, hs⟩ := exists_start (r := twoPages) (by decide) (by rw [htotal]; decide) rfl
  obtain ⟨_, hreq, hsent, hconf⟩ := start_eq_ok hs
  have hremaining : s.remaining = 5004 := by
    rw [NetworkSend.remaining, hreq, hsent, hconf]
    rfl
  have hok : (s.sendPages (List.replicate 2 ⟨true, true⟩)).2 = .noError := by
    refine NetworkSend.sendPages_eq_noError.mpr fun k hk => ⟨⟨true, true⟩, ?_, rfl, rfl⟩
    rw [List.getElem?_replicate, if_pos]
    rw [hremaining] at hk
    omega
  exact ⟨s, hs, rebuilds_iff hs hok⟩

/-- The number of the resources is sent as zero. -/
theorem largest_not_rebuilt : ∃ s, largest.start false = .ok s ∧
    (s.sendPages (List.replicate 0x2000 ⟨true, true⟩)).2 = .noError ∧
      ¬ largest.Rebuilds (s.sendPages (List.replicate 0x2000 ⟨true, true⟩)).1 := by
  have hlen : largest.devresVec.length = 0x1000000 := List.length_replicate
  have htotal : largest.totalDataSize = 0x2000000 := by rw [totalDataSize, hlen]; rfl
  obtain ⟨s, hs⟩ := exists_start (r := largest) (Nat.le_of_eq hlen) (by rw [htotal]; decide) rfl
  obtain ⟨_, hreq, hsent, hconf⟩ := start_eq_ok hs
  have hremaining : s.remaining = 0x2000000 := by
    rw [NetworkSend.remaining, hreq, hsent, hconf, hlen]
    rfl
  have hok : (s.sendPages (List.replicate 0x2000 ⟨true, true⟩)).2 = .noError := by
    refine NetworkSend.sendPages_eq_noError.mpr fun k hk => ⟨⟨true, true⟩, ?_, rfl, rfl⟩
    rw [List.getElem?_replicate, if_pos]
    rw [hremaining] at hk
    omega
  refine ⟨s, hs, hok, fun hr => ?_⟩
  obtain ⟨ps, hps⟩ := (NetworkSend.pages_of_noError hok).cons_tail
  have hnum := hr.numRes s (hps ▸ List.mem_cons_self)
  rw [(start_msg hs).1, hlen] at hnum
  exact absurd hnum (by decide)

end NetworkRequest

end NNPIHost

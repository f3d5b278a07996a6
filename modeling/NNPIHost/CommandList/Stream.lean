import NNPIHost.CommandList.Pack

/-! # The edit stream of a transaction

Sending to the card with every page and write succeeding produces one transaction: the count
and the pending bytes of all elements, cut into pages, with the first and the last message
marked. On consistent edit flags the pending bytes are the records of the edited elements.
-/

namespace NNPIHost.CommandList

namespace SchedParams

def pending : SchedParams → List UInt8
  | .copy c => c.pending
  | .copyList l => l.pending
  | .infReq r => r.pending

def cleared : SchedParams → SchedParams
  | .copy c => .copy c.clearEdits
  | .copyList l => .copyList l.cleared
  | .infReq r => .infReq r.clearEdits

def Consistent : SchedParams → Prop
  | .copyList l => l.Consistent
  | _ => True

theorem pack_spec {e : SchedParams} (h : e.Consistent) (room : ℕ) :
    PackSpec pending cleared e room (e.pack room) := by
  cases e with
  | copy c =>
    obtain ⟨hb, hf, hk, hd, hs⟩ := c.pack_spec room
    exact ⟨hb, hf, congrArg SchedParams.copy hk, fun h => congrArg SchedParams.copy (hd h), hs⟩
  | copyList l =>
    obtain ⟨hb, hf, hk, hd, hs⟩ := CopyListParams.pack_spec h room
    exact ⟨hb, hf, congrArg SchedParams.copyList hk,
      fun h => congrArg SchedParams.copyList (hd h), hs⟩
  | infReq r =>
    obtain ⟨hb, hf, hk, hd, hs⟩ := r.pack_spec room
    exact ⟨hb, hf, congrArg SchedParams.infReq hk, fun h => congrArg SchedParams.infReq (hd h), hs⟩

theorem pack_consistent {e : SchedParams} (h : e.Consistent) (room : ℕ) :
    (e.pack room).2.2.Consistent := by
  cases e with
  | copy c => trivial
  | copyList l => exact CopyListParams.pack_consistent h room
  | infReq r => trivial

theorem consistent_cleared (e : SchedParams) : e.cleared.Consistent := by
  cases e with
  | copy c => trivial
  | copyList l => exact l.consistent_cleared
  | infReq r => trivial

@[simp] theorem cleared_cleared (e : SchedParams) : e.cleared.cleared = e.cleared := by
  cases e with
  | copy c => rfl
  | copyList l => simp [cleared, CopyListParams.cleared]
  | infReq r => rfl

@[simp] theorem pending_cleared (e : SchedParams) : e.cleared.pending = [] := by
  cases e with
  | copy c => rfl
  | copyList l =>
    simp [cleared, CopyListParams.cleared, pending, CopyListParams.pending,
      CopyListParams.copiesPending]
  | infReq r => rfl

theorem clearEdits_eq {e : SchedParams} (h : e.Consistent) : e.clearEdits = e.cleared := by
  cases e with
  | copy c => rfl
  | copyList l => exact congrArg SchedParams.copyList (CopyListParams.clearEdits_eq h)
  | infReq r => rfl

theorem length_pending_lt (e : SchedParams) : e.pending.length < 16 * (1 + e.numOfSubcmds) := by
  cases e with
  | copy c => exact Nat.lt_of_le_of_lt c.length_pending_le (by simp [numOfSubcmds])
  | copyList l =>
    have hc := CopyListParams.length_copiesPending_le l.copies
    simp only [pending, CopyListParams.pending, numOfSubcmds, List.length_append]
    split
    · rw [l.length_header]; omega
    · rw [List.length_nil]; omega
  | infReq r => exact Nat.lt_of_le_of_lt r.length_pending_le (by simp [numOfSubcmds])

end SchedParams

def pendingAll (es : List SchedParams) : List UInt8 := es.flatMap SchedParams.pending

theorem length_pendingAll_le (es : List SchedParams) :
    es.length + (pendingAll es).length ≤ pagesBound es := by
  induction es with
  | nil => exact Nat.zero_le _
  | cons e es ih =>
    have he := e.length_pending_lt
    simp only [pendingAll, pagesBound, List.length_cons, List.flatMap_cons, List.length_append,
      List.map_cons, List.sum_cons] at ih ⊢
    omega

/-- What one page takes from the elements: a prefix of their bytes, and some progress. -/
structure PageSpec (es : List SchedParams) (room : ℕ)
    (r : List UInt8 × List SchedParams × List SchedParams) : Prop where
  bytes : pendingAll es = r.1 ++ pendingAll r.2.2
  fits : r.1.length ≤ room
  kept : r.2.1 ++ r.2.2.map SchedParams.cleared = es.map SchedParams.cleared
  consistent : ∀ e ∈ r.2.2, e.Consistent
  progress : es ≠ [] → 16 ≤ room →
    r.2.2.length + (pendingAll r.2.2).length < es.length + (pendingAll es).length

theorem packPage_spec {es : List SchedParams} (h : ∀ e ∈ es, e.Consistent) (room : ℕ) :
    PageSpec es room (packPage es room) := by
  induction es generalizing room with
  | nil => exact ⟨rfl, Nat.zero_le _, rfl, h, fun h => absurd rfl h⟩
  | cons e es ih =>
    obtain ⟨he, hes⟩ := List.forall_mem_cons.mp h
    by_cases hroom : room = 0
    · simp only [packPage, hroom, if_true]
      exact ⟨rfl, Nat.zero_le _, rfl, h, fun _ h => absurd h (by decide)⟩
    · have hp := SchedParams.pack_spec he room
      have hc := SchedParams.pack_consistent he room
      rcases hpack : e.pack room with ⟨_ | _, bs, e'⟩ <;> rw [hpack] at hp hc
      · simp only [packPage, hroom, if_false, hpack]
        have hbytes : pendingAll (e :: es) = bs ++ pendingAll (e' :: es) := by
          simpa [pendingAll] using congrArg (· ++ pendingAll es) hp.bytes
        refine ⟨hbytes, hp.fits, ?_, List.forall_mem_cons.mpr ⟨hc, hes⟩, fun _ hr => ?_⟩
        · simpa using hp.kept
        · have hstuck := hp.stuck rfl
          have hlen := congrArg List.length hbytes
          simp only [List.length_append] at hstuck hlen
          simp only [List.length_cons]
          omega
      · have hpage := ih hes (room - bs.length)
        rcases hrest : packPage es (room - bs.length) with ⟨bs', done, rest⟩
        rw [hrest] at hpage
        simp only [packPage, hroom, if_false, hpack, hrest]
        have hdone := hp.done rfl
        have hfits := hp.fits
        have hfits' := hpage.fits
        have hbytes := hp.bytes
        have hbytes' := hpage.bytes
        simp only at hdone hfits hfits' hbytes hbytes'
        rw [hdone, SchedParams.pending_cleared, List.append_nil] at hbytes
        have hall : pendingAll (e :: es) = (bs ++ bs') ++ pendingAll rest := by
          rw [pendingAll, List.flatMap_cons, hbytes, List.append_assoc, ← hbytes', pendingAll]
        refine ⟨hall, ?_, ?_, hpage.consistent, fun _ _ => ?_⟩
        · rw [List.length_append]; omega
        · simpa [hdone] using hpage.kept
        · have hlen := congrArg List.length hall
          have hcount := congrArg List.length hpage.kept
          simp only [List.length_append, List.length_map] at hlen hcount
          simp only [List.length_cons]
          omega

/-- Messages that carry the bytes as one transaction, or as the rest of one after its first
message: only the last message is marked as such. -/
structure Streamed (isFirst : Bool) (bytes : List UInt8) (sent : List Sent) : Prop where
  payload : sent.flatMap Sent.payload = bytes
  flags : ∃ k, sent.map (·.msg.isFirst) = isFirst :: List.replicate k false ∧
    sent.map (·.msg.isLast) = List.replicate k false ++ [true]
  sizes : ∀ s ∈ sent, s.msg.size.toNat ≤ pageSize

theorem payload_forPage {msg : CmdListMsg} {isFirst isLast : Bool} {bytes stale : List UInt8}
    (h : bytes.length ≤ pageSize) :
    Sent.payload ⟨msg.forPage isFirst isLast bytes.length, bytes ++ stale⟩ = bytes := by
  have hlen : (UInt16.ofNat bytes.length).toNat = bytes.length :=
    UInt16.toNat_ofNat_of_lt' (Nat.lt_of_le_of_lt h (by decide))
  simp only [Sent.payload, CmdListMsg.forPage, hlen]
  exact List.take_left

theorem Streamed.single {isFirst : Bool} {s : Sent} {bs : List UInt8}
    (hf : s.msg.isFirst = isFirst) (hl : s.msg.isLast = true) (hs : s.msg.size.toNat ≤ pageSize)
    (hp : s.payload = bs) : Streamed isFirst bs [s] where
  payload := hp ▸ List.append_nil _
  flags := ⟨0, by simp [hf], by simp [hl]⟩
  sizes := by simpa using hs

theorem Streamed.cons {isFirst : Bool} {s : Sent} {bs bytes : List UInt8} {sent : List Sent}
    (hf : s.msg.isFirst = isFirst) (hl : s.msg.isLast = false) (hs : s.msg.size.toNat ≤ pageSize)
    (hp : s.payload = bs) (h : Streamed false bytes sent) :
    Streamed isFirst (bs ++ bytes) (s :: sent) where
  payload := by rw [List.flatMap_cons, hp, h.payload]
  flags := by
    obtain ⟨k, hk, hk'⟩ := h.flags
    exact ⟨k + 1, by simp [hf, hk, List.replicate_succ], by simp [hl, hk', List.replicate_succ]⟩
  sizes := List.forall_mem_cons.mpr ⟨hs, h.sizes⟩

/-- The page loop on consistent elements: an error keeps the parameters and never marks a
last message, and success sends all pending bytes and clears every edit. -/
structure SendSpec (fuel : ℕ) (numEdits : UInt16) (io : ℕ → PageIO) (isFirst : Bool)
    (es : List SchedParams) (out : PagesOut) : Prop where
  nil : es = [] → out = ⟨.noError, [], []⟩
  kept : out.vec.map SchedParams.cleared = es.map SchedParams.cleared
  consistent : ∀ e ∈ out.vec, e.Consistent
  done : out.ret = .noError → out.vec = es.map SchedParams.cleared
  streamed : out.ret = .noError → es ≠ [] →
    Streamed isFirst ((if isFirst then Codec.u32.encode numEdits.toUInt32 else []) ++ pendingAll es)
      out.sent
  failed : out.ret ≠ .noError → out.ret = .ioError ∧ ∀ s ∈ out.sent, s.msg.isLast = false
  succeeds : (∀ k < fuel, (io k).Succeeds) → out.ret = .noError

theorem PageSpec.consistent_done {es : List SchedParams} {room : ℕ}
    {r : List UInt8 × List SchedParams × List SchedParams} (h : PageSpec es room r) :
    ∀ e ∈ r.2.1, e.Consistent := by
  intro e he
  have hmem : e ∈ es.map SchedParams.cleared := h.kept ▸ List.mem_append_left _ he
  obtain ⟨e', _, rfl⟩ := List.mem_map.mp hmem
  exact e'.consistent_cleared

theorem PageSpec.kept_of_rest {es vec : List SchedParams} {room : ℕ}
    {r : List UInt8 × List SchedParams × List SchedParams} (h : PageSpec es room r)
    (hv : vec.map SchedParams.cleared = r.2.2.map SchedParams.cleared) :
    (r.2.1 ++ vec).map SchedParams.cleared = es.map SchedParams.cleared := by
  have hk := congrArg (List.map SchedParams.cleared) h.kept
  rw [List.map_append, hv]
  simpa [Function.comp_def] using hk

theorem SendSpec.of_nil (fuel : ℕ) (numEdits : UInt16) (io : ℕ → PageIO) (isFirst : Bool) :
    SendSpec fuel numEdits io isFirst [] ⟨.noError, [], []⟩ where
  nil _ := rfl
  kept := rfl
  consistent := nofun
  done _ := rfl
  streamed _ h := absurd rfl h
  failed h := absurd rfl h
  succeeds _ := rfl

theorem SendSpec.of_failed {fuel : ℕ} {numEdits : UInt16} {io : ℕ → PageIO} {isFirst : Bool}
    {es vec : List SchedParams} (hne : es ≠ [])
    (hk : vec.map SchedParams.cleared = es.map SchedParams.cleared)
    (hc : ∀ e ∈ vec, e.Consistent) (hio : ¬ (io 0).Succeeds) :
    SendSpec (fuel + 1) numEdits io isFirst es ⟨.ioError, [], vec⟩ where
  nil h := absurd h hne
  kept := hk
  consistent := hc
  done := nofun
  streamed := nofun
  failed _ := ⟨rfl, nofun⟩
  succeeds hs := absurd (hs 0 (Nat.succ_pos fuel)) hio

theorem SendSpec.of_page {fuel : ℕ} {msg : CmdListMsg} {numEdits : UInt16} {io : ℕ → PageIO}
    {isFirst : Bool} {es done rest : List SchedParams} {bs stale : List UInt8} {room : ℕ}
    {out : PagesOut} (hne : es ≠ []) (hpage : PageSpec es room (bs, done, rest))
    (hspec : SendSpec fuel numEdits (fun k => io (k + 1)) false rest out)
    {count : List UInt8}
    (hcount : (if isFirst then Codec.u32.encode numEdits.toUInt32 else []) = count)
    (hlen : (count ++ bs).length ≤ pageSize) :
    SendSpec (fuel + 1) numEdits io isFirst es
      ⟨out.ret, ⟨msg.forPage isFirst rest.isEmpty (count ++ bs).length, count ++ bs ++ stale⟩ ::
        out.sent, done ++ out.vec⟩ := by
  have hbytes : pendingAll es = bs ++ pendingAll rest := hpage.bytes
  have hsize : (UInt16.ofNat (count ++ bs).length).toNat ≤ pageSize :=
    Nat.le_trans (Nat.mod_le _ _) hlen
  refine ⟨fun h => absurd h hne, hpage.kept_of_rest hspec.kept,
    List.forall_mem_append.mpr ⟨hpage.consistent_done, hspec.consistent⟩, fun hret => ?_,
    fun hret _ => ?_, fun hret => ?_, fun hs => hspec.succeeds fun k hk =>
      hs (k + 1) (Nat.succ_lt_succ hk)⟩
  · have hdone : out.vec = rest.map SchedParams.cleared := hspec.done hret
    exact hdone ▸ hpage.kept
  · rw [hcount, hbytes, ← List.append_assoc]
    cases rest with
    | nil =>
      obtain rfl := hspec.nil rfl
      rw [pendingAll, List.flatMap_nil, List.append_nil]
      exact .single rfl rfl hsize (payload_forPage hlen)
    | cons e es =>
      exact .cons rfl rfl hsize (payload_forPage hlen)
        (hspec.streamed hret (List.cons_ne_nil _ _))
  · obtain ⟨hio, hlast⟩ := hspec.failed hret
    refine ⟨hio, List.forall_mem_cons.mpr ⟨?_, hlast⟩⟩
    cases rest with
    | nil => exact absurd (congrArg PagesOut.ret (hspec.nil rfl)) hret
    | cons e es => rfl

theorem sendPages_spec (msg : CmdListMsg) (numEdits : UInt16) {fuel : ℕ} (io : ℕ → PageIO)
    (isFirst : Bool) {es : List SchedParams} (h : ∀ e ∈ es, e.Consistent)
    (hfuel : es.length + (pendingAll es).length ≤ fuel) :
    ∃ out, sendPages msg numEdits fuel io isFirst es = some out ∧
      SendSpec fuel numEdits io isFirst es out := by
  induction fuel generalizing io isFirst es with
  | zero =>
    obtain rfl : es = [] := List.length_eq_zero_iff.mp (by omega)
    exact ⟨_, rfl, .of_nil ..⟩
  | succ fuel ih =>
    cases es with
    | nil => exact ⟨_, rfl, .of_nil ..⟩
    | cons e es =>
      have hne := List.cons_ne_nil e es
      by_cases hcont : (io 0).cont ≠ some pageSize
      · exact ⟨_, if_pos hcont, .of_failed hne rfl h fun hs => hcont hs.1⟩
      · simp only [sendPages, hcont, if_false]
        generalize hcount : (if isFirst then Codec.u32.encode numEdits.toUInt32 else []) = count
        have hlen : count.length ≤ 4 := by
          rw [← hcount]
          split <;> simp
        have hpage := packPage_spec h (pageSize - count.length)
        rcases hpack : packPage (e :: es) (pageSize - count.length) with ⟨bs, done, rest⟩
        rw [hpack] at hpage
        have hprog : rest.length + (pendingAll rest).length < _ :=
          hpage.progress hne (by unfold pageSize; omega)
        have hfits : bs.length ≤ pageSize - count.length := hpage.fits
        have hbytes : (count ++ bs).length ≤ pageSize := by
          rw [List.length_append]
          unfold pageSize at hfits ⊢
          omega
        cases hw : (io 0).written with
        | false =>
          refine ⟨_, rfl, .of_failed hne (hpage.kept_of_rest rfl) ?_ fun hs => ?_⟩
          · exact List.forall_mem_append.mpr ⟨hpage.consistent_done, hpage.consistent⟩
          · exact absurd hs.2 (by simp [hw])
        | true =>
          obtain ⟨out, hout, hspec⟩ := ih (fun k => io (k + 1)) false hpage.consistent
            (Nat.le_of_lt_succ (Nat.lt_of_lt_of_le hprog hfuel))
          simp only [if_true, hout, Option.map_some]
          exact ⟨_, rfl, .of_page hne hpage hspec hcount hbytes⟩

namespace SchedParams

/-- The record of an element, with the copies of a list that are edited. -/
def record : SchedParams → Record
  | .copy c => .copy c.idx.toUInt32 c.record
  | .copyList l =>
      .copyList l.idx.toUInt32 ((l.copies.filter (·.edited)).map CopyParams.indexed)
  | .infReq r => .infReq r.idx.toUInt32 r.record

/-- A copy list is edited when it counts edits, and it counts its edited copies. -/
def EditsOk : SchedParams → Prop
  | .copyList l =>
      (l.edited = true ↔ 0 < l.numEdits) ∧
        l.numEdits.toNat = l.copies.countP (·.edited)
  | _ => True

instance : DecidablePred EditsOk
  | .copy _ | .infReq _ => .isTrue trivial
  | .copyList _ => inferInstanceAs (Decidable (_ ∧ _))

theorem EditsOk.consistent {e : SchedParams} (h : e.EditsOk) : e.Consistent := by
  cases e with
  | copy c => trivial
  | copyList l =>
    intro h0
    obtain ⟨hiff, hn⟩ := h
    simp only [h0, UInt16.toNat_zero, UInt16.lt_irrefl, iff_false, Bool.not_eq_true] at hiff hn
    exact ⟨hiff, fun c hc => by simpa using List.countP_eq_zero.mp hn.symm c hc⟩
  | infReq r => trivial

theorem EditsOk.fits {e : SchedParams} (h : e.EditsOk) : e.record.Fits := by
  cases e with
  | copy c => trivial
  | copyList l =>
    simp only [record, Record.Fits, List.length_map, ← List.countP_eq_length_filter, ← h.2]
    exact l.numEdits.toNat_lt
  | infReq r => trivial

end SchedParams

theorem copiesPending_eq (cs : List CopyParams) : CopyListParams.copiesPending cs =
    ((cs.filter (·.edited)).map CopyParams.indexed).flatMap copyCodec.encode := by
  induction cs with
  | nil => rfl
  | cons c cs ih =>
    rw [CopyListParams.copiesPending] at ih ⊢
    cases hc : c.edited <;> simp [CopyParams.pending, hc, ih]

theorem pending_of_editsOk {e : SchedParams} (h : e.EditsOk) :
    e.pending = if e.isEdited then e.record.encode else [] := by
  cases e with
  | copy c => rfl
  | copyList l =>
    simp only [SchedParams.pending, CopyListParams.pending, SchedParams.isEdited,
      SchedParams.record, Record.encode, List.length_map, ← List.countP_eq_length_filter, ← h.2,
      UInt16.ofNat_toNat, copiesPending_eq]
    split
    next => rfl
    next he =>
      have hnil : l.copies.filter (·.edited) = [] := by
        refine List.length_eq_zero_iff.mp (List.countP_eq_length_filter ▸ h.2 ▸ ?_)
        have hn := mt h.1.mpr he
        rw [UInt16.lt_iff_toNat_lt, UInt16.toNat_zero] at hn
        omega
      simp [hnil]
  | infReq r => rfl

/-- The records of the edited elements in list order. -/
def editedRecords (es : List SchedParams) : List Record :=
  (es.filter (·.isEdited)).map SchedParams.record

theorem pendingAll_of_editsOk {es : List SchedParams} (h : ∀ e ∈ es, e.EditsOk) :
    pendingAll es = (editedRecords es).flatMap Record.encode := by
  induction es with
  | nil => rfl
  | cons e es ih =>
    obtain ⟨he, hes⟩ := List.forall_mem_cons.mp h
    have ih := ih hes
    rw [pendingAll, editedRecords] at ih ⊢
    cases hc : e.isEdited <;> simp [pending_of_editsOk he, hc, ih]

theorem fits_editedRecords {es : List SchedParams} (h : ∀ e ∈ es, e.EditsOk) :
    ∀ r ∈ editedRecords es, r.Fits := by
  intro r hr
  obtain ⟨e, he, rfl⟩ := List.mem_map.mp hr
  exact (h e (List.mem_of_mem_filter he)).fits

namespace CmdList

variable {l : CmdList} {opcode : CmdListOpcode} {io : ℕ → PageIO}

/-- The list counts its edited elements, and its copy lists count theirs. -/
def EditsOk (l : CmdList) : Prop :=
  l.numEdits.toNat = l.vec.countP (·.isEdited) ∧ ∀ e ∈ l.vec, e.EditsOk

instance : Decidable l.EditsOk := inferInstanceAs (Decidable (_ ∧ _))

theorem EditsOk.vec_ne_nil (h : l.EditsOk) (hpos : l.numEdits ≠ 0) : l.vec ≠ [] := by
  intro hnil
  rw [EditsOk, hnil] at h
  exact hpos (UInt16.toNat_inj.mp h.1)

theorem sendToCard_of_edits (opcode : CmdListOpcode) (io : ℕ → PageIO) (hne : l.vec ≠ [])
    (hpos : l.numEdits ≠ 0) (hc : ∀ e ∈ l.vec, e.Consistent) :
    ∃ out, SendSpec (pagesBound l.vec) l.numEdits io true l.vec out ∧ l.sendToCard opcode false io =
      some (out.ret, out.sent, { l with
        vec := if out.ret = .noError then out.vec else out.vec.map SchedParams.clearEdits
        numEdits := 0 }) := by
  obtain ⟨out, hout, hspec⟩ :=
    sendPages_spec (l.cmdMsg opcode) l.numEdits io true hc (length_pendingAll_le l.vec)
  refine ⟨out, hspec, ?_⟩
  have hemp : l.vec.isEmpty = false := by simpa using hne
  simp [sendToCard, hemp, hpos, hout]

/-- With edit flags in order and every page and write succeeding, the messages sent are one
transaction: the count and the records of the edited elements, which a sequential reader
recovers. All edits are cleared afterwards. -/
theorem sendToCard_stream (l : CmdList) (opcode : CmdListOpcode) (io : ℕ → PageIO)
    (h : l.EditsOk) (hpos : 1 ≤ l.numEdits.toNat) (hio : ∀ k, (io k).Succeeds) :
    ∃ sent, l.sendToCard opcode false io = some (.noError, sent,
        { l with vec := l.vec.map SchedParams.cleared, numEdits := 0 }) ∧
      (∃ k, sent.map (·.msg.isFirst) = true :: List.replicate k false ∧
        sent.map (·.msg.isLast) = List.replicate k false ++ [true]) ∧
      (∀ s ∈ sent, s.msg.size.toNat ≤ pageSize) ∧
      sent.flatMap Sent.payload =
        Codec.u32.encode l.numEdits.toUInt32 ++ (editedRecords l.vec).flatMap Record.encode ∧
      (∀ r ∈ editedRecords l.vec, r.encode.length = r.byteSize) ∧
      readTransaction (sent.flatMap Sent.payload) =
        some (l.numEdits.toUInt32, editedRecords l.vec) := by
  have hne : l.numEdits ≠ 0 := fun h0 => by simp [h0] at hpos
  have hvec := h.vec_ne_nil hne
  obtain ⟨out, hspec, hsend⟩ := sendToCard_of_edits opcode io hvec hne
    fun e he => (h.2 e he).consistent
  have hret := hspec.succeeds fun k _ => hio k
  have hs := hspec.streamed hret hvec
  have hpay := hs.payload
  simp only [if_true, pendingAll_of_editsOk h.2] at hpay
  refine ⟨out.sent, ?_, hs.flags, hs.sizes, hpay, fun r _ => r.length_encode, ?_⟩
  · rw [hsend, if_pos hret, hspec.done hret, hret]
  · rw [hpay, readTransaction_encode (fits_editedRecords h.2)]

/-- A copy list with one of two copies edited, an unedited infer request and a copy. -/
def mixedList : CmdList where
  protocolID := 7
  chanId := 3
  optDependencies := true
  finalized := true
  inFlight := false
  failedCommands := 0
  vec :=
    [.copyList ⟨[⟨⟨4, false, false, 64⟩, 0, 64, 0, false⟩, ⟨⟨5, false, false, 64⟩, 1, 8, 1, true⟩],
        1, 0, true⟩,
      .infReq ⟨2, 9, true, 0, 0, false, false, 1, false⟩,
      .copy ⟨⟨6, true, false, 128⟩, 2, 100, 2, true⟩]
  numEdits := 2

theorem sendToCard_stream_mixedList :
    ∃ sent, mixedList.sendToCard .chanScheduleCmdlist false (fun _ => ⟨some pageSize, [], true⟩) =
        some (.noError, sent,
          { mixedList with vec := mixedList.vec.map SchedParams.cleared, numEdits := 0 }) ∧
      readTransaction (sent.flatMap Sent.payload) =
        some (2, [.copyList 0 [(1, ⟨5, 1, 8⟩)], .copy 2 ⟨6, 2, 100⟩]) := by
  obtain ⟨sent, hsend, _, _, _, _, hread⟩ := sendToCard_stream mixedList .chanScheduleCmdlist
    (fun _ => ⟨some pageSize, [], true⟩) (by decide) (by decide) fun _ => ⟨rfl, rfl⟩
  exact ⟨sent, hsend, hread⟩

end CmdList

end NNPIHost.CommandList

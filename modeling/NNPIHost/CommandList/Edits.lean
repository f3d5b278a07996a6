import NNPIHost.Exec.Run
import NNPIHost.CommandList.Operations
import NNPIHost.CommandList.Stream

/-! # The edit count of a transaction

The edit flags stay in order over every operation but one: batching counts all elements as
edited. As long as it runs on a list whose elements are edited, the count at the start of
every transaction is the number of records that follow.
-/

namespace NNPIHost.CommandList

/-- The count at the start of a transaction is the number of its records. A message without
edits has no page and no count. -/
def CountOk (bs : List UInt8) : Prop :=
  match readTransaction bs with
  | some (n, rs) => n.toNat = rs.length
  | none => bs = []

instance (bs : List UInt8) : Decidable (CountOk bs) := by
  unfold CountOk
  split <;> infer_instance

section Receive

variable {p : List UInt8} {done : List (List UInt8)} {sent : List Sent} {bytes : List UInt8}

theorem foldl_receive_rest {k : ℕ} (hf : sent.map (·.msg.isFirst) = List.replicate (k + 1) false)
    (hl : sent.map (·.msg.isLast) = List.replicate k false ++ [true]) :
    sent.foldl receive (some p, done) = (none, done ++ [p ++ sent.flatMap Sent.payload]) := by
  induction k generalizing sent p with
  | zero =>
    obtain ⟨s, rfl⟩ : ∃ s, sent = [s] := by
      apply List.length_eq_one_iff.mp
      simpa using congrArg List.length hf
    simp only [List.map_cons, List.map_nil, List.replicate_succ, List.replicate_zero,
      List.nil_append, List.cons.injEq, and_true] at hf hl
    simp [receive, hf, hl]
  | succ k ih =>
    cases sent with
    | nil => simp at hf
    | cons s sent =>
      rw [List.map_cons, List.replicate_succ, List.cons.injEq] at hf
      rw [List.map_cons, List.replicate_succ, List.cons_append, List.cons.injEq] at hl
      have hs : receive (some p, done) s = (some (p ++ s.payload), done) := by
        simp [receive, hf.1, hl.1]
      rw [List.foldl_cons, hs, ih hf.2 hl.2, List.flatMap_cons, List.append_assoc]

/-- A transaction is received as a whole, whatever was left of an earlier one. -/
theorem foldl_receive_streamed (h : Streamed true bytes sent) (w : Option (List UInt8)) :
    sent.foldl receive (w, done) = (none, done ++ [bytes]) := by
  obtain ⟨k, hf, hl⟩ := h.flags
  cases sent with
  | nil => simp at hf
  | cons s sent =>
    rw [List.map_cons, List.cons.injEq] at hf
    cases k with
    | zero =>
      obtain rfl : sent = [] := List.map_eq_nil_iff.mp hf.2
      simp only [List.map_cons, List.map_nil, List.replicate_zero, List.nil_append,
        List.cons.injEq, and_true] at hl
      have hpay := h.payload
      rw [List.flatMap_cons, List.flatMap_nil, List.append_nil] at hpay
      simp [receive, hf.1, hl, hpay]
    | succ k =>
      rw [List.map_cons, List.replicate_succ, List.cons_append, List.cons.injEq] at hl
      have hs : receive (w, done) s = (some s.payload, done) := by
        simp [receive, hf.1, hl.1]
      rw [List.foldl_cons, hs, foldl_receive_rest hf.2 hl.2, ← List.flatMap_cons, h.payload]

theorem foldl_receive_failed (h : ∀ s ∈ sent, s.msg.isLast = false) (w : Option (List UInt8)) :
    (sent.foldl receive (w, done)).2 = done := by
  induction sent generalizing w with
  | nil => rfl
  | cons s sent ih =>
    obtain ⟨hs, hsent⟩ := List.forall_mem_cons.mp h
    simp only [List.foldl_cons, receive, hs]
    exact ih hsent _

end Receive

namespace CmdList

variable {l : CmdList} {io : ℕ → PageIO}

/-- The list with every edit cleared. -/
def cleared (l : CmdList) : CmdList :=
  { l with vec := l.vec.map SchedParams.cleared, numEdits := 0 }

/-- What a call of `send_to_card` can do: refuse, write a message without edits, send all
edits, or fail on the way and clear them. -/
inductive Sending (l : CmdList) (broken : Bool) (io : ℕ → PageIO) :
    NNPError → List Sent → CmdList → Prop
  | refused {ret} : ret ≠ .noError → Sending l broken io ret [] l
  | noEdits {msg} : l.numEdits = 0 → msg.isFirst = true → msg.isLast = true →
      Sending l broken io .noError [⟨msg, []⟩] l
  | edits {sent} : l.numEdits ≠ 0 →
      Streamed true (Codec.u32.encode l.numEdits.toUInt32 ++ pendingAll l.vec) sent →
      Sending l broken io .noError sent l.cleared
  | failed {ret sent} : broken = false → l.numEdits ≠ 0 → ret ≠ .noError →
      (¬ ∀ k < pagesBound l.vec, (io k).Succeeds) →
      (∀ s ∈ sent, s.msg.isLast = false) → Sending l broken io ret sent l.cleared

theorem sendToCard_cases (opcode : CmdListOpcode) (broken : Bool) (io : ℕ → PageIO)
    (hc : ∀ e ∈ l.vec, e.Consistent) :
    ∃ ret sent l', l.sendToCard opcode broken io = some (ret, sent, l') ∧
      Sending l broken io ret sent l' := by
  by_cases hvec : l.vec = []
  · exact ⟨.notSupported, [], l, by simp [sendToCard, hvec], .refused (by decide)⟩
  have hemp : l.vec.isEmpty = false := by simpa using hvec
  by_cases hb : broken = true
  · exact ⟨.contextBroken, [], l, by simp [sendToCard, hemp, hb], .refused (by decide)⟩
  obtain rfl : broken = false := by simpa using hb
  by_cases h0 : l.numEdits = 0
  · cases hw : (io 0).written with
    | true =>
      exact ⟨.noError, [⟨l.cmdMsg opcode, []⟩], l, by simp [sendToCard, hemp, h0, hw],
        .noEdits h0 rfl rfl⟩
    | false => exact ⟨.ioError, [], l, by simp [sendToCard, hemp, h0, hw], .refused (by decide)⟩
  · obtain ⟨out, hspec, hsend⟩ := sendToCard_of_edits opcode io hvec h0 hc
    by_cases hret : out.ret = .noError
    · refine ⟨_, _, _, hsend, ?_⟩
      rw [if_pos hret, hspec.done hret, hret]
      exact .edits h0 (hspec.streamed hret hvec)
    · have hvec' : out.vec.map SchedParams.clearEdits = l.vec.map SchedParams.cleared := by
        rw [← hspec.kept]
        exact List.map_congr_left fun e he => SchedParams.clearEdits_eq (hspec.consistent e he)
      refine ⟨_, _, _, hsend, ?_⟩
      rw [if_neg hret, hvec']
      exact .failed rfl h0 hret (fun hs => hret (hspec.succeeds hs)) (hspec.failed hret).2

end CmdList

namespace SchedParams

variable {onCopy : CopyParams → CopyParams} {onInfReq : InfReqParams → InfReqParams} {i : ℕ}
  {e e' : SchedParams}

def numCopies : SchedParams → ℕ
  | .copyList l => l.copies.length
  | _ => 0

/-- The edit flags are in order and the copies can be counted in 16 bits. -/
def InOrder (e : SchedParams) : Prop := e.EditsOk ∧ e.numCopies ≤ 0xffff

@[simp] theorem isEdited_cleared (e : SchedParams) : e.cleared.isEdited = false := by
  cases e <;> rfl

theorem editsOk_cleared (e : SchedParams) : e.cleared.EditsOk := by
  cases e with
  | copy c => trivial
  | copyList l =>
    refine ⟨by simp [CopyListParams.cleared], (List.countP_eq_zero.mpr fun c hc => ?_).symm⟩
    obtain ⟨c', _, rfl⟩ := List.mem_map.mp hc
    exact Bool.false_ne_true
  | infReq r => trivial

theorem InOrder.cleared (h : e.InOrder) : e.cleared.InOrder := by
  refine ⟨e.editsOk_cleared, ?_⟩
  cases e with
  | copy c => exact Nat.zero_le _
  | copyList l => simpa [SchedParams.cleared, CopyListParams.cleared, numCopies] using h.2
  | infReq r => exact Nat.zero_le _

@[simp] theorem isEdited_setIndex (j : UInt16) (e : SchedParams) :
    (e.setIndex j).isEdited = e.isEdited := by
  cases e <;> rfl

theorem inOrder_setIndex (j : UInt16) : (e.setIndex j).InOrder ↔ e.InOrder := by
  cases e <;> rfl

theorem getCmdForOverwrite_editsOk {l l' : CopyListParams}
    (hc : ∀ c, (onCopy c).edited = c.edited) (h : (copyList l).InOrder)
    (hl : l.getCmdForOverwrite i onCopy = some l') :
    (copyList l').InOrder ∧ l'.edited = true := by
  obtain ⟨⟨hiff, hn⟩, hsmall⟩ := h
  rw [CopyListParams.getCmdForOverwrite, Option.map_eq_some_iff] at hl
  obtain ⟨c, hci, rfl⟩ := hl
  obtain ⟨hi, hci⟩ := List.getElem?_eq_some_iff.mp hci
  have hset := List.countP_set (p := fun c : CopyParams => c.edited)
    (a := onCopy c.getCmdForOverwrite) hi
  have hmem : c ∈ l.copies := hci ▸ List.getElem_mem hi
  simp only [hci, hc, CopyParams.getCmdForOverwrite, if_true] at hset
  simp only [numCopies] at hsmall
  split
  next he =>
    have hpos : 0 < l.copies.countP (·.edited) := List.countP_pos_iff.mpr ⟨c, hmem, he⟩
    have hedit : l.edited = true := hiff.mpr (UInt16.lt_iff_toNat_lt.mpr (hn ▸ hpos))
    rw [if_pos he, Nat.sub_add_cancel hpos] at hset
    exact ⟨⟨⟨hiff, hn.trans hset.symm⟩, by simpa [numCopies] using hsmall⟩, hedit⟩
  next he =>
    have hlt : l.copies.countP (·.edited) < l.copies.length := by
      refine Nat.lt_of_le_of_ne List.countP_le_length fun heq => he ?_
      exact List.countP_eq_length.mp heq c hmem
    have hadd : (l.numEdits + 1).toNat = l.numEdits.toNat + 1 := by
      rw [UInt16.toNat_add, UInt16.toNat_one, Nat.mod_eq_of_lt (by omega)]
    rw [if_neg he, Nat.sub_zero, ← hn, ← hadd] at hset
    refine ⟨⟨⟨iff_of_true rfl ?_, hset.symm⟩, by simpa [numCopies] using hsmall⟩, rfl⟩
    rw [UInt16.lt_iff_toNat_lt, hadd]
    exact Nat.succ_pos _

theorem edit_spec (hc : ∀ c, (onCopy c).edited = c.edited)
    (hr : ∀ r, (onInfReq r).edited = r.edited) (h : e.InOrder)
    (he : e.edit onCopy onInfReq i = some e') : e'.InOrder ∧ e'.isEdited = true := by
  cases e with
  | copy c =>
    obtain rfl := Option.some.inj he
    exact ⟨⟨trivial, Nat.zero_le _⟩, hc _⟩
  | copyList l =>
    obtain ⟨l', hl, rfl⟩ := Option.map_eq_some_iff.mp he
    exact getCmdForOverwrite_editsOk hc h hl
  | infReq r =>
    obtain rfl := Option.some.inj he
    exact ⟨⟨trivial, Nat.zero_le _⟩, hr _⟩

end SchedParams

section Operations

variable {onCopy : CopyParams → CopyParams} {onInfReq : InfReqParams → InfReqParams}
  {es es' : List SchedParams}

theorem editAt_forall {P : SchedParams → Prop}
    (hP : ∀ e e' i, P e → e.edit onCopy onInfReq i = some e' → P e') (h : ∀ e ∈ es, P e) {u : ℕ}
    {was : Bool} (he : editAt onCopy onInfReq es u = some (was, es')) : ∀ e ∈ es', P e := by
  induction es generalizing u es' with
  | nil => cases he
  | cons e es ih =>
    obtain ⟨hPe, hes⟩ := List.forall_mem_cons.mp h
    rw [editAt] at he
    split at he
    · obtain ⟨⟨was', es''⟩, he', heq⟩ := Option.map_eq_some_iff.mp he
      obtain ⟨rfl, rfl⟩ := Prod.mk.inj heq
      exact List.forall_mem_cons.mpr ⟨hPe, ih hes he'⟩
    · obtain ⟨e', he', heq⟩ := Option.map_eq_some_iff.mp he
      obtain ⟨rfl, rfl⟩ := Prod.mk.inj heq
      exact List.forall_mem_cons.mpr ⟨hP e e' _ hPe he', hes⟩

theorem editAt_map {β : Type*} {f : SchedParams → β}
    (hf : ∀ e e' i, e.edit onCopy onInfReq i = some e' → f e' = f e) {u : ℕ} {was : Bool}
    (he : editAt onCopy onInfReq es u = some (was, es')) : es'.map f = es.map f := by
  induction es generalizing u es' with
  | nil => cases he
  | cons e es ih =>
    rw [editAt] at he
    split at he
    · obtain ⟨⟨was', es''⟩, he', heq⟩ := Option.map_eq_some_iff.mp he
      obtain ⟨rfl, rfl⟩ := Prod.mk.inj heq
      simp only [List.map_cons, ih he']
    · obtain ⟨e', he', heq⟩ := Option.map_eq_some_iff.mp he
      obtain ⟨rfl, rfl⟩ := Prod.mk.inj heq
      simp only [List.map_cons, hf e e' _ he']

theorem editAt_count (hc : ∀ c, (onCopy c).edited = c.edited)
    (hr : ∀ r, (onInfReq r).edited = r.edited) (h : ∀ e ∈ es, e.InOrder) {u : ℕ} {was : Bool}
    (he : editAt onCopy onInfReq es u = some (was, es')) :
    es'.countP (·.isEdited) + was.toNat = es.countP (·.isEdited) + 1 := by
  induction es generalizing u es' with
  | nil => cases he
  | cons e es ih =>
    obtain ⟨hin, hes⟩ := List.forall_mem_cons.mp h
    rw [editAt] at he
    split at he
    · obtain ⟨⟨was', es''⟩, he', heq⟩ := Option.map_eq_some_iff.mp he
      obtain ⟨rfl, rfl⟩ := Prod.mk.inj heq
      have hcount := ih hes he'
      simp only [List.countP_cons]
      omega
    · obtain ⟨e', he', heq⟩ := Option.map_eq_some_iff.mp he
      obtain ⟨rfl, rfl⟩ := Prod.mk.inj heq
      obtain ⟨_, hedit⟩ := SchedParams.edit_spec hc hr hin he'
      cases hwas : e.isEdited <;> simp [hedit, hwas]

theorem joinsBatch_eq_some {batch : List CopyParams} {e : SchedParams} {c : CopyParams}
    (h : joinsBatch batch e = some c) :
    e = .copy c ∧ (batch ++ [c]).length ≤ maxCopiesPerBatch := by
  cases e with
  | copy c' =>
    simp only [joinsBatch] at h
    split at h
    · cases h
    · split at h
      · obtain rfl := Option.some.inj h
        exact ⟨rfl, by simp [maxCopiesPerBatch]⟩
      · rw [Option.ite_none_right_eq_some] at h
        obtain ⟨⟨_, hlt⟩, hc⟩ := h
        obtain rfl := Option.some.inj hc
        refine ⟨rfl, ?_⟩
        rw [List.length_append]
        exact hlt
  | copyList l => cases h
  | infReq r => cases h

theorem closeBatch_spec {batch : List CopyParams} (hne : batch ≠ [])
    (hlen : batch.length ≤ maxCopiesPerBatch) (h : ∀ c ∈ batch, c.edited = true) :
    (closeBatch batch).InOrder ∧ (closeBatch batch).isEdited = true := by
  unfold closeBatch
  split
  next c => exact ⟨⟨trivial, Nat.zero_le _⟩, h c (List.mem_singleton_self c)⟩
  next =>
    have hn : (UInt16.ofNat batch.length).toNat = batch.length :=
      UInt16.toNat_ofNat_of_lt' (Nat.lt_of_le_of_lt hlen (by decide))
    have hcount : (batch.mapIdx fun i c => c.setIndex (UInt16.ofNat i)).countP (·.edited) =
        batch.length := by
      rw [List.countP_eq_length.mpr, List.length_mapIdx]
      intro c hc
      obtain ⟨i, hi, rfl⟩ := List.mem_mapIdx.mp hc
      exact h batch[i] (List.getElem_mem hi)
    refine ⟨⟨⟨iff_of_true rfl ?_, hn.trans hcount.symm⟩, ?_⟩, rfl⟩
    · rw [UInt16.lt_iff_toNat_lt]
      exact hn ▸ List.length_pos_of_ne_nil hne
    · simpa [SchedParams.numCopies, CopyListParams.create, maxCopiesPerBatch] using hlen

theorem batchLoop_forall {P : SchedParams → Prop}
    (hclose : ∀ batch, batch ≠ [] → batch.length ≤ maxCopiesPerBatch →
      (∀ c ∈ batch, P (.copy c)) → P (closeBatch batch))
    {batch : List CopyParams} (hlen : batch.length ≤ maxCopiesPerBatch)
    (hb : ∀ c ∈ batch, P (.copy c)) (h : ∀ e ∈ es, P e) : ∀ e ∈ batchLoop es batch, P e := by
  induction es generalizing batch with
  | nil => exact nofun
  | cons e es ih =>
    obtain ⟨he, hes⟩ := List.forall_mem_cons.mp h
    rw [batchLoop]
    split
    next c hj =>
      obtain ⟨rfl, hlen'⟩ := joinsBatch_eq_some hj
      have hb' : ∀ c' ∈ batch ++ [c], P (.copy c') :=
        List.forall_mem_append.mpr ⟨hb, List.forall_mem_singleton.mpr he⟩
      split
      · exact List.forall_mem_singleton.mpr (hclose _ (by simp) hlen' hb')
      · exact ih hlen' hb' hes
    next hj =>
      have hall : ∀ e' ∈ batchLoop es [], P e' := ih (Nat.zero_le _) nofun hes
      split
      next => exact List.forall_mem_cons.mpr ⟨he, hall⟩
      next hbatch =>
        have hne : batch ≠ [] := by simpa using hbatch
        exact List.forall_mem_cons.mpr
          ⟨hclose batch hne hlen hb, List.forall_mem_cons.mpr ⟨he, hall⟩⟩

theorem length_batchLoop_le (es : List SchedParams) (batch : List CopyParams) :
    (batchLoop es batch).length ≤ es.length + batch.length := by
  induction es generalizing batch with
  | nil => exact Nat.zero_le _
  | cons e es ih =>
    rw [batchLoop]
    split
    next c hj =>
      have hl := ih (batch ++ [c])
      split
      all_goals
        simp only [List.length_append, List.length_cons, List.length_nil] at hl ⊢
        omega
    next hj =>
      have hl := ih []
      split
      next =>
        simp only [List.length_cons, List.length_nil] at hl ⊢
        omega
      next hbatch =>
        have hpos : 0 < batch.length := List.length_pos_of_ne_nil (by simpa using hbatch)
        simp only [List.length_cons, List.length_nil] at hl ⊢
        omega

end Operations

namespace CmdList

variable {l l' : CmdList} {cmd : SchedParams} {onCopy : CopyParams → CopyParams}
  {onInfReq : InfReqParams → InfReqParams} {broken : Bool} {io : ℕ → PageIO} {ret : NNPError}
  {sent : List Sent}

/-- The list counts its edited elements, whose own flags are in order. -/
structure InOrder (l : CmdList) : Prop where
  count : l.numEdits.toNat = l.vec.countP (·.isEdited)
  elems : ∀ e ∈ l.vec, e.InOrder
  small : l.vec.length ≤ 0xffff

theorem InOrder.editsOk (h : l.InOrder) : l.EditsOk := ⟨h.count, fun e he => (h.elems e he).1⟩

theorem InOrder.consistent (h : l.InOrder) : ∀ e ∈ l.vec, e.Consistent :=
  fun e he => (h.elems e he).1.consistent

theorem create_inOrder (protocolID : BitVec 16) (chanId : BitVec 10) (optDependencies : Bool) :
    (create protocolID chanId optDependencies).InOrder := ⟨rfl, nofun, Nat.zero_le _⟩

theorem InOrder.append (h : l.InOrder) (hcmd : cmd.InOrder) (he : cmd.isEdited = true) :
    (l.append cmd).2.InOrder := by
  unfold CmdList.append
  split
  · exact h
  split
  · exact h
  next hlen =>
    have hle : l.vec.countP (·.isEdited) ≤ l.vec.length := List.countP_le_length
    have hcount := h.count
    refine ⟨?_, List.forall_mem_append.mpr ⟨h.elems, ?_⟩, ?_⟩
    · simp only [List.countP_append, List.countP_singleton, SchedParams.isEdited_setIndex, he,
        if_true, UInt16.toNat_add, UInt16.toNat_one]
      omega
    · exact List.forall_mem_singleton.mpr ((SchedParams.inOrder_setIndex _).mpr hcmd)
    · rw [List.length_append, List.length_singleton]
      omega

theorem InOrder.overwrite (h : l.InOrder) (hc : ∀ c, (onCopy c).edited = c.edited)
    (hr : ∀ r, (onInfReq r).edited = r.edited) (usrIdx : UInt16) :
    (l.overwrite usrIdx onCopy onInfReq).InOrder := by
  unfold CmdList.overwrite
  split
  next => exact h
  next was vec he =>
    have hin := editAt_forall (P := SchedParams.InOrder)
      (fun _ _ _ h he => (SchedParams.edit_spec hc hr h he).1) h.elems he
    have hlen : vec.length = l.vec.length := by
      simpa using congrArg List.length (editAt_map (f := fun _ => ()) (fun _ _ _ _ => rfl) he)
    have hcount := editAt_count hc hr h.elems he
    have hle : vec.countP (·.isEdited) ≤ vec.length := List.countP_le_length
    have hsmall := h.small
    have hl := h.count
    refine ⟨?_, hin, hlen ▸ hsmall⟩
    cases was with
    | true => simpa using hl.trans (Nat.succ.inj hcount).symm
    | false =>
      simp only [Bool.toNat_false, Bool.false_eq_true, if_false, UInt16.toNat_add,
        UInt16.toNat_one] at hcount ⊢
      omega

theorem InOrder.optimizeBatchCopies (h : l.InOrder) (hall : ∀ e ∈ l.vec, e.isEdited = true) :
    l.optimizeBatchCopies.InOrder := by
  have hspec : ∀ e ∈ batchLoop l.vec [], e.InOrder ∧ e.isEdited = true :=
    batchLoop_forall (fun batch hne hlen hb => closeBatch_spec hne hlen fun c hc => (hb c hc).2)
      (Nat.zero_le _) nofun fun e he => ⟨h.elems e he, hall e he⟩
  have hlen := length_batchLoop_le l.vec []
  have hsmall := h.small
  rw [List.length_nil] at hlen
  have hmem : ∀ e ∈ l.optimizeBatchCopies.vec, e.InOrder ∧ e.isEdited = true := by
    intro e he
    obtain ⟨i, hi, rfl⟩ := List.mem_mapIdx.mp he
    obtain ⟨hin, hedit⟩ := hspec _ (List.getElem_mem hi)
    exact ⟨(SchedParams.inOrder_setIndex _).mpr hin,
      (SchedParams.isEdited_setIndex _ _).trans hedit⟩
  have hcount : l.optimizeBatchCopies.vec.countP (·.isEdited) =
      l.optimizeBatchCopies.vec.length := List.countP_eq_length.mpr fun e he => (hmem e he).2
  have hvec : l.optimizeBatchCopies.vec.length ≤ 0xffff := by
    simp only [CmdList.optimizeBatchCopies, List.length_mapIdx]
    omega
  refine ⟨?_, fun e he => (hmem e he).1, hvec⟩
  rw [hcount]
  exact UInt16.toNat_ofNat_of_lt' (Nat.lt_succ_of_le hvec)

theorem InOrder.cleared (h : l.InOrder) : l.cleared.InOrder := by
  refine ⟨(List.countP_eq_zero.mpr ?_).symm, ?_, by simpa [CmdList.cleared] using h.small⟩
  · intro e he
    obtain ⟨e', _, rfl⟩ := List.mem_map.mp he
    simp
  · intro e he
    obtain ⟨e', he', rfl⟩ := List.mem_map.mp he
    exact (h.elems e' he').cleared

theorem Sending.inOrder (h : l.InOrder) (hs : Sending l broken io ret sent l') : l'.InOrder := by
  cases hs with
  | refused => exact h
  | noEdits => exact h
  | edits => exact h.cleared
  | failed => exact h.cleared

theorem Sending.received (h : l.InOrder) (hs : Sending l broken io ret sent l')
    (w : Option (List UInt8) × List (List UInt8)) :
    (sent.foldl receive w).2 = w.2 ∨ (sent.foldl receive w).2 = w.2 ++ [[]] ∨
      (sent.foldl receive w).2 = w.2 ++
        [Codec.u32.encode l.numEdits.toUInt32 ++ (editedRecords l.vec).flatMap Record.encode] := by
  cases hs with
  | refused => exact .inl rfl
  | noEdits _ hf hl => exact .inr (.inl (by simp [receive, hf, hl, Sent.payload]))
  | edits _ hst =>
    rw [pendingAll_of_editsOk h.editsOk.2] at hst
    exact .inr (.inr (by rw [foldl_receive_streamed hst w.1]))
  | failed _ _ _ _ hl => exact .inl (foldl_receive_failed hl w.1)

theorem InOrder.countOk (h : l.InOrder) :
    CountOk (Codec.u32.encode l.numEdits.toUInt32 ++
      (editedRecords l.vec).flatMap Record.encode) := by
  rw [CountOk, readTransaction_encode (fits_editedRecords h.editsOk.2)]
  simp only [UInt16.toNat_toUInt32, h.count, editedRecords, List.length_map,
    List.countP_eq_length_filter]

end CmdList

namespace ListState

variable {s : ListState}

/-- The flags of the list are in order and every transaction received has the right count. -/
structure Inv (s : ListState) : Prop where
  list : s.list.InOrder
  counts : ∀ bs ∈ s.transactions, CountOk bs

/-- Batching is asked for on lists whose elements are all edited. -/
def BatchesEdited (s : ListState) : ListOp → Prop
  | .finalize true _ _ _ => ∀ e ∈ s.list.vec, e.isEdited = true
  | _ => True

instance (s : ListState) : DecidablePred s.BatchesEdited := fun op => by
  unfold BatchesEdited
  split <;> infer_instance

theorem Inv.setList (h : s.Inv) {l : CmdList} (hl : l.InOrder) : (s.setList l).Inv := ⟨hl, h.counts⟩

theorem Inv.send (h : s.Inv) (opcode : CmdListOpcode) (broken : Bool) (io : ℕ → PageIO) :
    ∃ ret s', s.send opcode broken io = some (ret, s') ∧ s'.Inv := by
  obtain ⟨ret, sent, l', hsend, hs⟩ :=
    CmdList.sendToCard_cases opcode broken io h.list.consistent
  refine ⟨ret, s.received sent l', congrArg (Option.map _) hsend, hs.inOrder h.list, ?_⟩
  simp only [ListState.received]
  rcases hs.received h.list (s.partialTransaction, s.transactions) with hw | hw | hw
  · exact hw ▸ h.counts
  · exact hw ▸ List.forall_mem_append.mpr ⟨h.counts, List.forall_mem_singleton.mpr rfl⟩
  · exact hw ▸ List.forall_mem_append.mpr
      ⟨h.counts, List.forall_mem_singleton.mpr h.list.countOk⟩

theorem Inv.finalize (h : s.Inv) {batchCopies : Bool} (broken : Bool) (io : ℕ → PageIO)
    (reply : Option EventReport)
    (hall : batchCopies = true → ∀ e ∈ s.list.vec, e.isEdited = true) :
    ∃ t, s.finalize batchCopies broken io reply = some t ∧ t.Inv := by
  have hlist : (if batchCopies then s.list.optimizeBatchCopies else s.list).InOrder := by
    split
    next hb => exact h.list.optimizeBatchCopies (hall hb)
    next => exact h.list
  obtain ⟨ret, s', hsend, hs'⟩ := (h.setList hlist).send .chanInfCmdlist broken io
  refine ⟨_, congrArg (Option.map _) hsend, ?_⟩
  simp only
  split
  · exact ⟨⟨hs'.list.count, hs'.list.elems, hs'.list.small⟩, hs'.counts⟩
  · exact hs'

theorem Inv.schedule (h : s.Inv) (numErrors : ℕ) (canSchedule prepared broken : Bool)
    (io : ℕ → PageIO) :
    ∃ t, s.schedule numErrors canSchedule prepared broken io = some t ∧ t.Inv := by
  unfold ListState.schedule
  split
  · exact ⟨_, rfl, h.setList h.list⟩
  · obtain ⟨ret, s', hsend, hs'⟩ := h.send .chanScheduleCmdlist broken io
    exact ⟨_, congrArg (Option.map _) hsend,
      ⟨hs'.list.count, hs'.list.elems, hs'.list.small⟩, hs'.counts⟩

theorem Inv.step (h : s.Inv) {op : ListOp} (hok : s.BatchesEdited op) :
    ∃ t, s.step op = some t ∧ t.Inv := by
  cases op with
  | appendCopy copy byteSize priority skip =>
    exact ⟨_, rfl, h.setList (h.list.append ⟨trivial, Nat.zero_le _⟩ rfl)⟩
  | appendInferRequest netId id params =>
    refine ⟨_, rfl, h.setList (h.list.append ⟨trivial, Nat.zero_le _⟩ ?_)⟩
    cases params <;> rfl
  | finalize batchCopies broken io reply =>
    apply h.finalize broken io reply
    intro hb
    subst hb
    exact hok
  | overwriteCopy idx byteSize priority skip =>
    refine ⟨_, rfl, h.setList (h.list.overwrite (fun c => ?_) (fun r => ?_) idx)⟩ <;> rfl
  | overwriteInferRequest idx params =>
    refine ⟨_, rfl, h.setList (h.list.overwrite (fun c => rfl) (fun r => ?_) idx)⟩
    cases params <;> rfl
  | schedule numErrors canSchedule prepared broken io =>
    exact h.schedule numErrors canSchedule prepared broken io
  | complete => exact ⟨_, rfl, h.setList ⟨h.list.count, h.list.elems, h.list.small⟩⟩
  | addError => exact ⟨_, rfl, h.setList ⟨h.list.count, h.list.elems, h.list.small⟩⟩
  | clearErrors queried =>
    refine ⟨_, rfl, h.setList ?_⟩
    split
    · exact ⟨h.list.count, h.list.elems, h.list.small⟩
    · exact h.list

theorem create_inv (protocolID : BitVec 16) (chanId : BitVec 10) (optDependencies : Bool) :
    (create (.create protocolID chanId optDependencies)).Inv :=
  ⟨CmdList.create_inOrder .., nofun⟩

/-- As long as batching is asked for on edited elements only, every run goes through and
every transaction starts with the number of its records. -/
theorem counts_match (protocolID : BitVec 16) (chanId : BitVec 10) (optDependencies : Bool)
    (ops : List ListOp)
    (hm : Exec.Meets step BatchesEdited (create (.create protocolID chanId optDependencies)) ops) :
    (∃ t, Exec.run step (create (.create protocolID chanId optDependencies)) ops = some t) ∧
      Exec.Always step (fun s => ∀ bs ∈ s.transactions, CountOk bs)
        (create (.create protocolID chanId optDependencies)) ops := by
  have hinv := create_inv protocolID chanId optDependencies
  obtain ⟨t, ht, _⟩ := Exec.run_of_invariant hinv (fun s op h hok => h.step hok) hm
  refine ⟨⟨t, ht⟩, Exec.Always.mono (fun s h => Inv.counts h) ?_⟩
  refine Exec.always_of_invariant hinv (fun s op t h hok hs => ?_) hm
  obtain ⟨t', ht', hinv'⟩ := h.step hok
  exact Option.some.inj (hs.symm.trans ht') ▸ hinv'

/-- Finalizing with batching again after a failed attempt: two elements are counted, and no
record follows. -/
theorem retried_finalize_miscounts :
    ¬ Exec.Always step (fun s => ∀ bs ∈ s.transactions, CountOk bs)
      (create (.create 0 0 true))
      [.appendCopy ⟨1, false, false, 64⟩ 0 0 false, .appendInferRequest 0 0 none,
        .finalize true false (fun _ => ⟨some pageSize, [], false⟩) none,
        .finalize true false (fun _ => ⟨some pageSize, [], true⟩) none] := by
  decide

theorem counts_match_finalize :
    (∃ t, Exec.run step (create (.create 0 0 true))
      [.appendCopy ⟨1, false, false, 64⟩ 0 0 false, .appendCopy ⟨2, false, false, 64⟩ 0 0 false,
        .finalize true false (fun _ => ⟨some pageSize, [], true⟩) none,
        .overwriteCopy 1 8 0 false] = some t) ∧
      Exec.Always step (fun s => ∀ bs ∈ s.transactions, CountOk bs) (create (.create 0 0 true))
      [.appendCopy ⟨1, false, false, 64⟩ 0 0 false, .appendCopy ⟨2, false, false, 64⟩ 0 0 false,
        .finalize true false (fun _ => ⟨some pageSize, [], true⟩) none,
        .overwriteCopy 1 8 0 false] :=
  counts_match 0 0 true _ (by decide)

end ListState

end NNPIHost.CommandList

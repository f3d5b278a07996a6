import Mathlib.Data.List.Nodup
import NNPIHost.Store.Entries
import NNPIHost.CommandList.Edits

/-! # The parameters the card holds

The card keeps a table of parameters and applies the records of a transaction once it has
received the last message. What the host has not edited since agrees with the table, so a
schedule that succeeds leaves both sides with the same parameters, as long as no send of
pending edits has failed.
-/

namespace NNPIHost.CommandList

/-- The parameters of one command on the card; those of a copy list by the index of the copy. -/
inductive Slot where
  | empty
  | copy (r : CopyRecord)
  | infReq (r : InfReqRecord)
  | copyList (copies : UInt32 → Option CopyRecord)

namespace Slot

def copy? : Slot → Option CopyRecord
  | .copy r => some r
  | _ => none

def infReq? : Slot → Option InfReqRecord
  | .infReq r => some r
  | _ => none

def sub? : Slot → UInt32 → Option CopyRecord
  | .copyList copies, i => copies i
  | _, _ => none

/-- A record replaces the parameters it has; of a copy list those of the edited copies. -/
def put (slot : Slot) : Record → Slot
  | .copy _ r => .copy r
  | .infReq _ r => .infReq r
  | .copyList _ copies => .copyList (Store.updates Prod.fst (fun _ r => some r.2) slot.sub? copies)

end Slot

def Record.idx : Record → UInt32
  | .copy idx _ | .infReq idx _ | .copyList idx _ => idx

abbrev Table := UInt32 → Slot

def applyRecords (T : Table) (rs : List Record) : Table := Store.updates Record.idx Slot.put T rs

/-- A transaction without a page changes nothing. -/
def applyTransaction (T : Table) (bs : List UInt8) : Table :=
  match readTransaction bs with
  | some (_, rs) => applyRecords T rs
  | none => T

/-- The table after the transactions that the card has received in full. -/
def ListState.table (s : ListState) : Table := s.transactions.foldl applyTransaction fun _ => .empty

namespace SchedParams

/-- The card holds the parameters of the element. -/
def Agrees (T : Table) : SchedParams → Prop
  | .copy c => (T c.idx.toUInt32).copy? = some c.record
  | .copyList l => ∀ c ∈ l.copies, (T l.idx.toUInt32).sub? c.idx.toUInt32 = some c.record
  | .infReq r => (T r.idx.toUInt32).infReq? = some r.record

instance (T : Table) : DecidablePred (Agrees T)
  | .copy _ | .infReq _ => inferInstanceAs (Decidable (_ = _))
  | .copyList l => inferInstanceAs (Decidable (∀ c ∈ l.copies, _ = _))

/-- The card holds the parameters of what is not edited. -/
def Synced (T : Table) : SchedParams → Prop
  | .copy c => c.edited = false → Agrees T (.copy c)
  | .copyList l =>
      ∀ c ∈ l.copies, c.edited = false →
        (T l.idx.toUInt32).sub? c.idx.toUInt32 = some c.record
  | .infReq r => r.edited = false → Agrees T (.infReq r)

/-- The copies of a list have indices of their own. -/
def CopiesIndexed : SchedParams → Prop
  | .copyList l => (l.copies.map (·.idx)).Nodup
  | _ => True

/-- The element is edited with all its copies. -/
def FullyEdited : SchedParams → Prop
  | .copy c => c.edited = true
  | .copyList l => l.edited = true ∧ ∀ c ∈ l.copies, c.edited = true
  | .infReq r => r.edited = true

instance : DecidablePred FullyEdited
  | .copy _ | .infReq _ => inferInstanceAs (Decidable (_ = true))
  | .copyList l => inferInstanceAs (Decidable (l.edited = true ∧ ∀ c ∈ l.copies, c.edited = true))

variable {T T' : Table} {e : SchedParams}

theorem FullyEdited.isEdited (h : e.FullyEdited) : e.isEdited = true := by
  cases e with
  | copy c => exact h
  | copyList l => exact h.1
  | infReq r => exact h

theorem FullyEdited.synced (h : e.FullyEdited) : e.Synced T := by
  cases e with
  | copy c => exact fun hf => absurd (h.symm.trans hf) (by decide)
  | copyList l => exact fun c hc hf => absurd ((h.2 c hc).symm.trans hf) (by decide)
  | infReq r => exact fun hf => absurd (h.symm.trans hf) (by decide)

theorem Agrees.synced (h : e.Agrees T) : e.Synced T := by
  cases e with
  | copy c => exact fun _ => h
  | copyList l => exact fun c hc _ => h c hc
  | infReq r => exact fun _ => h

theorem Agrees.cleared (h : e.Agrees T) : e.cleared.Agrees T := by
  cases e with
  | copy c => exact h
  | copyList l =>
    intro c hc
    obtain ⟨c', hc', rfl⟩ := List.mem_map.mp hc
    exact h c' hc'
  | infReq r => exact h

theorem Synced.agrees (h : e.Synced T) (hok : e.EditsOk) (he : e.isEdited = false) :
    e.Agrees T := by
  cases e with
  | copy c => exact h he
  | copyList l =>
    have hn : l.numEdits = 0 := by
      have hpos := mt hok.1.mpr (Bool.eq_false_iff.mp he)
      rw [UInt16.lt_iff_toNat_lt, UInt16.toNat_zero] at hpos
      exact UInt16.toNat_inj.mp (by rw [UInt16.toNat_zero]; omega)
    exact fun c hc => h c hc ((hok.consistent hn).2 c hc)
  | infReq r => exact h he

theorem Agrees.congr (h : e.Agrees T) (hT : T' e.idx.toUInt32 = T e.idx.toUInt32) :
    e.Agrees T' := by
  cases e with
  | copy c => exact (congrArg Slot.copy? hT).trans h
  | copyList l => exact fun c hc => (congrArg (Slot.sub? · _) hT).trans (h c hc)
  | infReq r => exact (congrArg Slot.infReq? hT).trans h

@[simp] theorem idx_record (e : SchedParams) : e.record.idx = e.idx.toUInt32 := by
  cases e <;> rfl

theorem nodup_keys {α : Type*} {xs : List α} {idx : α → UInt16} (h : (xs.map idx).Nodup)
    (p : α → Bool) : ((xs.filter p).map fun x => (idx x).toUInt32).Nodup := by
  have hsub := h.sublist ((List.filter_sublist (p := p)).map idx)
  simpa [Function.comp_def] using hsub.map fun _ _ => UInt16.toUInt32_inj.mp

theorem Synced.agrees_put (h : e.Synced T) (hidx : e.CopiesIndexed)
    (hT : T' e.idx.toUInt32 = (T e.idx.toUInt32).put e.record) : e.Agrees T' := by
  cases e with
  | copy c => exact congrArg Slot.copy? hT
  | infReq r => exact congrArg Slot.infReq? hT
  | copyList l =>
    intro c hc
    apply (congrArg (Slot.sub? · c.idx.toUInt32) hT).trans
    have hinj : ∀ c' ∈ l.copies, c'.idx.toUInt32 = c.idx.toUInt32 → c' = c := fun c' hc' he =>
      List.inj_on_of_nodup_map hidx hc' hc (UInt16.toUInt32_inj.mp he)
    simp only [record, Slot.put, Slot.sub?]
    cases hedit : c.edited with
    | false =>
      refine (Store.updates_of_ne fun r hr he => ?_).trans (h c hc hedit)
      obtain ⟨c', hc', rfl⟩ := List.mem_map.mp hr
      obtain ⟨hmem, hedit'⟩ := List.mem_filter.mp hc'
      rw [hinj c' hmem he, hedit] at hedit'
      cases hedit'
    | true =>
      have hmem : c.indexed ∈ (l.copies.filter (·.edited)).map CopyParams.indexed :=
        List.mem_map_of_mem (List.mem_filter.mpr ⟨hc, hedit⟩)
      refine Store.updates_of_mem ?_ hmem
      rw [List.map_map]
      exact nodup_keys hidx _

end SchedParams

theorem agrees_applyRecords {T : Table} {es : List SchedParams} (hok : ∀ e ∈ es, e.EditsOk)
    (hidx : (es.map (·.idx)).Nodup) (hcopies : ∀ e ∈ es, e.CopiesIndexed)
    (h : ∀ e ∈ es, e.Synced T) : ∀ e ∈ es, e.Agrees (applyRecords T (editedRecords es)) := by
  intro e he
  cases hedit : e.isEdited with
  | false =>
    refine ((h e he).agrees (hok e he) hedit).congr (Store.updates_of_ne fun r hr heq => ?_)
    obtain ⟨e', he', rfl⟩ := List.mem_map.mp hr
    obtain ⟨hmem, hedit'⟩ := List.mem_filter.mp he'
    rw [SchedParams.idx_record, UInt16.toUInt32_inj] at heq
    rw [List.inj_on_of_nodup_map hidx hmem he heq, hedit] at hedit'
    cases hedit'
  | true =>
    have hmem : e.record ∈ editedRecords es :=
      List.mem_map_of_mem (List.mem_filter.mpr ⟨he, hedit⟩)
    apply (h e he).agrees_put (hcopies e he)
    rw [← SchedParams.idx_record]
    refine Store.updates_of_mem ?_ hmem
    rw [editedRecords, List.map_map]
    simpa [Function.comp_def] using SchedParams.nodup_keys hidx (·.isEdited)

section Indices

variable {onCopy : CopyParams → CopyParams} {onInfReq : InfReqParams → InfReqParams}
  {e e' : SchedParams} {es : List SchedParams} {T : Table} {i : ℕ}

/-- The elements carry their positions as indices. -/
def Indexed (es : List SchedParams) : Prop :=
  es.map (·.idx) = (List.range es.length).map UInt16.ofNat

theorem nodup_ofNat {n : ℕ} (h : n ≤ 0x10000) : ((List.range n).map UInt16.ofNat).Nodup := by
  apply List.nodup_range.map_on
  intro i hi j hj he
  rw [List.mem_range] at hi hj
  have hlt : ∀ k < n, k < UInt16.size := fun k hk => Nat.lt_of_lt_of_le hk h
  have := congrArg UInt16.toNat he
  rwa [UInt16.toNat_ofNat_of_lt' (hlt i hi), UInt16.toNat_ofNat_of_lt' (hlt j hj)] at this

theorem Indexed.nodup (h : Indexed es) (hlen : es.length ≤ 0xffff) : (es.map (·.idx)).Nodup :=
  h ▸ nodup_ofNat (by omega)

theorem Indexed.append (h : Indexed es) (e : SchedParams) :
    Indexed (es ++ [e.setIndex (UInt16.ofNat es.length)]) := by
  simpa [Indexed, List.range_succ] using h

theorem indexed_mapIdx (es : List SchedParams) :
    Indexed (es.mapIdx fun i e => e.setIndex (UInt16.ofNat i)) := by
  rw [Indexed, List.length_mapIdx]
  apply List.ext_getElem (by simp)
  intro i _ _
  simp

theorem idx_edit (hc : ∀ c, (onCopy c).idx = c.idx) (hr : ∀ r, (onInfReq r).idx = r.idx)
    (he : e.edit onCopy onInfReq i = some e') : e'.idx = e.idx := by
  cases e with
  | copy c => exact Option.some.inj he ▸ hc _
  | copyList l =>
    obtain ⟨l', hl, rfl⟩ := Option.map_eq_some_iff.mp he
    obtain ⟨c, _, rfl⟩ := Option.map_eq_some_iff.mp hl
    simp only [SchedParams.idx]
    split <;> rfl
  | infReq r => exact Option.some.inj he ▸ hr _

theorem getCmdForOverwrite_eq_some {l l' : CopyListParams}
    (h : l.getCmdForOverwrite i onCopy = some l') :
    ∃ c, l.copies[i]? = some c ∧ l'.idx = l.idx ∧
      l'.copies = l.copies.set i (onCopy c.getCmdForOverwrite) := by
  obtain ⟨c, hc, rfl⟩ := Option.map_eq_some_iff.mp h
  refine ⟨c, hc, ?_⟩
  simp only
  split <;> exact ⟨rfl, rfl⟩

theorem map_set_of_eq {α β : Type*} {xs : List α} {x y : α} {f : α → β} (h : xs[i]? = some x)
    (hf : f y = f x) : (xs.set i y).map f = xs.map f := by
  obtain ⟨hi, rfl⟩ := List.getElem?_eq_some_iff.mp h
  rw [List.map_set, hf, ← List.getElem_map f (h := by simpa using hi), List.set_getElem_self]

theorem synced_edit (hc : ∀ c, (onCopy c).idx = c.idx ∧ (onCopy c).edited = c.edited)
    (hr : ∀ r, (onInfReq r).edited = r.edited) (he : e.edit onCopy onInfReq i = some e')
    (hidx : e.CopiesIndexed) (h : e.Synced T) : e'.CopiesIndexed ∧ e'.Synced T := by
  cases e with
  | copy c =>
    obtain rfl := Option.some.inj he
    exact ⟨trivial, fun hf => absurd ((hc _).2.symm.trans hf)
      (by simp [CopyParams.getCmdForOverwrite])⟩
  | infReq r =>
    obtain rfl := Option.some.inj he
    exact ⟨trivial, fun hf => absurd ((hr _).symm.trans hf)
      (by simp [InfReqParams.getCmdForOverwrite])⟩
  | copyList l =>
    obtain ⟨l', hl, rfl⟩ := Option.map_eq_some_iff.mp he
    obtain ⟨c, hci, hl, hcopies⟩ := getCmdForOverwrite_eq_some hl
    refine ⟨?_, fun c' hc' hf => ?_⟩
    · have hmap : (l.copies.set i (onCopy c.getCmdForOverwrite)).map (·.idx) =
          l.copies.map (·.idx) := map_set_of_eq hci (hc _).1
      rw [SchedParams.CopiesIndexed, hcopies, hmap]
      exact hidx
    · rw [hcopies] at hc'
      rcases List.mem_or_eq_of_mem_set hc' with hmem | rfl
      · exact hl ▸ h c' hmem hf
      · exact absurd ((hc _).2.symm.trans hf) (by simp [CopyParams.getCmdForOverwrite])

end Indices

namespace CmdList

variable {l l' : CmdList} {T : Table} {cmd : SchedParams} {onCopy : CopyParams → CopyParams}
  {onInfReq : InfReqParams → InfReqParams} {broken : Bool} {io : ℕ → PageIO} {ret : NNPError}
  {sent : List Sent}

/-- The flags and the indices of the list are in order, and the card holds what is not
edited. -/
structure Tracked (l : CmdList) (T : Table) : Prop where
  inOrder : l.InOrder
  indexed : Indexed l.vec
  copies : ∀ e ∈ l.vec, e.CopiesIndexed
  synced : ∀ e ∈ l.vec, e.Synced T

theorem Tracked.append (h : l.Tracked T) (hin : cmd.InOrder) (he : cmd.FullyEdited)
    (hcopies : cmd.CopiesIndexed) : (l.append cmd).2.Tracked T := by
  refine ⟨h.inOrder.append hin he.isEdited, ?_, ?_, ?_⟩ <;> unfold CmdList.append <;> split
  · exact h.indexed
  · split
    · exact h.indexed
    · exact h.indexed.append cmd
  · exact h.copies
  · split
    · exact h.copies
    · refine List.forall_mem_append.mpr ⟨h.copies, List.forall_mem_singleton.mpr ?_⟩
      cases cmd <;> exact hcopies
  · exact h.synced
  · split
    · exact h.synced
    · refine List.forall_mem_append.mpr ⟨h.synced, List.forall_mem_singleton.mpr ?_⟩
      apply SchedParams.FullyEdited.synced
      cases cmd <;> exact he

theorem Tracked.overwrite (h : l.Tracked T)
    (hc : ∀ c, (onCopy c).idx = c.idx ∧ (onCopy c).edited = c.edited)
    (hr : ∀ r, (onInfReq r).idx = r.idx ∧ (onInfReq r).edited = r.edited) (usrIdx : UInt16) :
    (l.overwrite usrIdx onCopy onInfReq).Tracked T := by
  have hin := h.inOrder.overwrite (fun c => (hc c).2) (fun r => (hr r).2) usrIdx
  revert hin
  unfold CmdList.overwrite
  split
  next => exact fun _ => h
  next was vec he =>
    intro hin
    have hmap : vec.map (·.idx) = l.vec.map (·.idx) :=
      editAt_map (fun _ _ _ => idx_edit (fun c => (hc c).1) fun r => (hr r).1) he
    have hlen : vec.length = l.vec.length := by simpa using congrArg List.length hmap
    have hboth : ∀ e ∈ vec, e.CopiesIndexed ∧ e.Synced T :=
      editAt_forall (fun _ _ _ hP he' => synced_edit hc (fun r => (hr r).2) he' hP.1 hP.2)
        (fun e he => ⟨h.copies e he, h.synced e he⟩) he
    refine ⟨hin, ?_, fun e he => (hboth e he).1, fun e he => (hboth e he).2⟩
    simp only [Indexed, hmap, hlen]
    exact h.indexed

theorem closeBatch_fullyEdited {batch : List CopyParams} (hlen : batch.length ≤ maxCopiesPerBatch)
    (h : ∀ c ∈ batch, c.edited = true) :
    (closeBatch batch).FullyEdited ∧ (closeBatch batch).CopiesIndexed := by
  unfold closeBatch
  split
  next c => exact ⟨h c (List.mem_singleton_self c), trivial⟩
  next =>
    refine ⟨⟨rfl, fun c hc => ?_⟩, ?_⟩
    · obtain ⟨i, hi, rfl⟩ := List.mem_mapIdx.mp hc
      exact h batch[i] (List.getElem_mem hi)
    · have hmap : (batch.mapIdx fun i c => c.setIndex (UInt16.ofNat i)).map (·.idx) =
          (List.range batch.length).map UInt16.ofNat := by
        apply List.ext_getElem (by simp)
        intro i _ _
        simp [CopyParams.setIndex]
      simp only [SchedParams.CopiesIndexed, CopyListParams.create, hmap]
      exact nodup_ofNat (Nat.le_trans hlen (by decide))

theorem Tracked.optimizeBatchCopies (h : l.Tracked T) (hall : ∀ e ∈ l.vec, e.FullyEdited) :
    l.optimizeBatchCopies.Tracked T := by
  have hspec : ∀ e ∈ batchLoop l.vec [], e.FullyEdited ∧ e.CopiesIndexed :=
    batchLoop_forall
      (fun batch _ hlen hb => closeBatch_fullyEdited hlen fun c hc => (hb c hc).1)
      (Nat.zero_le _) nofun fun e he => ⟨hall e he, h.copies e he⟩
  have hmem : ∀ e ∈ l.optimizeBatchCopies.vec, e.FullyEdited ∧ e.CopiesIndexed := by
    intro e he
    obtain ⟨i, hi, rfl⟩ := List.mem_mapIdx.mp he
    have hi := hspec _ (List.getElem_mem hi)
    revert hi
    cases (batchLoop l.vec [])[i] <;> exact id
  exact ⟨h.inOrder.optimizeBatchCopies fun e he => (hall e he).isEdited, indexed_mapIdx _,
    fun e he => (hmem e he).2, fun e he => (hmem e he).1.synced⟩

theorem Tracked.cleared (h : l.Tracked T) {T' : Table} (ha : ∀ e ∈ l.vec, e.Agrees T') :
    l.cleared.Tracked T' ∧ ∀ e ∈ l.cleared.vec, e.Agrees T' := by
  have hmem : ∀ e ∈ l.cleared.vec, e.CopiesIndexed ∧ e.Agrees T' := by
    intro e he
    obtain ⟨e', he', rfl⟩ := List.mem_map.mp he
    refine ⟨?_, (ha e' he').cleared⟩
    have hc := h.copies e' he'
    cases e' with
    | copy c => trivial
    | copyList l =>
      simpa [SchedParams.CopiesIndexed, SchedParams.cleared, CopyListParams.cleared,
        Function.comp_def, CopyParams.clearEdits] using hc
    | infReq r => trivial
  refine ⟨⟨h.inOrder.cleared, ?_, fun e he => (hmem e he).1, fun e he => (hmem e he).2.synced⟩,
    fun e he => (hmem e he).2⟩
  have hidx : ∀ e : SchedParams, e.cleared.idx = e.idx := fun e => by cases e <;> rfl
  simpa [Indexed, CmdList.cleared, Function.comp_def, hidx] using h.indexed

/-- No page lock or channel write of a send with pending edits fails. -/
def Delivered (l : CmdList) (broken : Bool) (io : ℕ → PageIO) : Prop :=
  l.numEdits ≠ 0 → broken = false → ∀ k < pagesBound l.vec, (io k).Succeeds

instance : Decidable (l.Delivered broken io) :=
  inferInstanceAs (Decidable (_ → _ → ∀ k < _, (io k).Succeeds))

theorem Sending.tracked (h : l.Tracked T) (hd : l.Delivered broken io)
    (hs : Sending l broken io ret sent l') {w : Option (List UInt8) × List (List UInt8)}
    {T₀ : Table} (hT : w.2.foldl applyTransaction T₀ = T) :
    l'.Tracked ((sent.foldl receive w).2.foldl applyTransaction T₀) ∧
      (ret = .noError →
        ∀ e ∈ l'.vec, e.Agrees ((sent.foldl receive w).2.foldl applyTransaction T₀)) := by
  cases hs with
  | refused hret => exact ⟨hT ▸ h, fun h => absurd h hret⟩
  | noEdits h0 hf hl =>
    simp only [List.foldl_cons, List.foldl_nil, receive, hf, hl, if_true, Sent.payload,
      List.take_nil, List.foldl_append, hT, Option.toList_some]
    rw [show applyTransaction T [] = T from rfl]
    refine ⟨h, fun _ e he => (h.synced e he).agrees (h.inOrder.elems e he).1 ?_⟩
    have hcount := h.inOrder.count
    rw [h0, UInt16.toNat_zero, eq_comm, List.countP_eq_zero] at hcount
    simpa using hcount e he
  | edits _ hst =>
    rw [pendingAll_of_editsOk h.inOrder.editsOk.2] at hst
    rw [foldl_receive_streamed hst w.1, List.foldl_append, hT, List.foldl_cons, List.foldl_nil,
      applyTransaction, readTransaction_encode (fits_editedRecords h.inOrder.editsOk.2)]
    have hall := agrees_applyRecords h.inOrder.editsOk.2 (h.indexed.nodup h.inOrder.small) h.copies
      h.synced
    exact ⟨(h.cleared hall).1, fun _ => (h.cleared hall).2⟩
  | failed hb h0 _ hio => exact absurd (hd h0 hb) hio

end CmdList

namespace ListState

variable {s : ListState}

/-- When the last call was a schedule that succeeded, the card holds all parameters of the
host. -/
def ScheduledInSync (s : ListState) : Prop :=
  s.scheduled = true → ∀ e ∈ s.list.vec, e.Agrees s.table

instance : Decidable s.ScheduledInSync :=
  inferInstanceAs (Decidable (_ → ∀ e ∈ s.list.vec, e.Agrees s.table))

/-- Sends of pending edits do not fail, and batching is asked for on new commands only. -/
def EditsDelivered (s : ListState) : ListOp → Prop
  | .finalize true broken io _ =>
      (∀ e ∈ s.list.vec, e.FullyEdited) ∧ s.list.optimizeBatchCopies.Delivered broken io
  | .finalize false broken io _ => s.list.Delivered broken io
  | .schedule numErrors canSchedule prepared broken io =>
      s.list.busy numErrors = false → canSchedule = true → prepared = true →
        s.list.Delivered broken io
  | _ => True

instance : DecidablePred s.EditsDelivered
  | .finalize true broken io _ =>
      inferInstanceAs (Decidable (_ ∧ s.list.optimizeBatchCopies.Delivered broken io))
  | .finalize false broken io _ => inferInstanceAs (Decidable (s.list.Delivered broken io))
  | .schedule _ _ _ broken io =>
      inferInstanceAs (Decidable (_ → _ → _ → s.list.Delivered broken io))
  | .appendCopy .. | .appendInferRequest .. | .overwriteCopy .. | .overwriteInferRequest ..
  | .complete | .addError | .clearErrors .. => .isTrue trivial

structure CardInv (s : ListState) : Prop where
  tracked : s.list.Tracked s.table
  inSync : s.ScheduledInSync

theorem cardInv_setList {l : CmdList} (hl : l.Tracked s.table) : (s.setList l).CardInv :=
  ⟨hl, nofun⟩

theorem CardInv.send (h : s.CardInv) (opcode : CmdListOpcode) {broken : Bool} {io : ℕ → PageIO}
    (hd : s.list.Delivered broken io) :
    ∃ ret s', s.send opcode broken io = some (ret, s') ∧ s'.scheduled = s.scheduled ∧
      s'.list.Tracked s'.table ∧ (ret = .noError → ∀ e ∈ s'.list.vec, e.Agrees s'.table) := by
  obtain ⟨ret, sent, l', hsend, hs⟩ :=
    CmdList.sendToCard_cases opcode broken io h.tracked.inOrder.consistent
  exact ⟨ret, s.received sent l', congrArg (Option.map _) hsend, rfl, hs.tracked h.tracked hd rfl⟩

theorem CardInv.finalize (h : s.CardInv) {batchCopies broken : Bool} {io : ℕ → PageIO}
    (reply : Option EventReport) (hok : s.EditsDelivered (.finalize batchCopies broken io reply)) :
    ∃ t, s.finalize batchCopies broken io reply = some t ∧ t.CardInv := by
  have hlist : (if batchCopies then s.list.optimizeBatchCopies else s.list).Tracked s.table ∧
      (if batchCopies then s.list.optimizeBatchCopies else s.list).Delivered broken io := by
    cases batchCopies with
    | true => exact ⟨h.tracked.optimizeBatchCopies hok.1, hok.2⟩
    | false => exact ⟨h.tracked, hok⟩
  obtain ⟨ret, s', hsend, hsched, hs', _⟩ :=
    (cardInv_setList hlist.1).send .chanInfCmdlist hlist.2
  refine ⟨_, congrArg (Option.map _) hsend, ?_⟩
  have hfalse : s'.scheduled = false := hsched
  simp only
  split
  · exact ⟨⟨⟨hs'.inOrder.count, hs'.inOrder.elems, hs'.inOrder.small⟩, hs'.indexed, hs'.copies,
      hs'.synced⟩, fun h => absurd (hfalse.symm.trans h) (by decide)⟩
  · exact ⟨hs', fun h => absurd (hfalse.symm.trans h) (by decide)⟩

theorem CardInv.schedule (h : s.CardInv) {numErrors : ℕ} {canSchedule prepared broken : Bool}
    {io : ℕ → PageIO}
    (hok : s.EditsDelivered (.schedule numErrors canSchedule prepared broken io)) :
    ∃ t, s.schedule numErrors canSchedule prepared broken io = some t ∧ t.CardInv := by
  unfold ListState.schedule
  split
  · exact ⟨_, rfl, cardInv_setList h.tracked⟩
  next hguard =>
    simp only [not_or, Bool.not_eq_true, Bool.not_eq_false] at hguard
    obtain ⟨ret, s', hsend, _, hs', hsync⟩ :=
      h.send .chanScheduleCmdlist (hok hguard.1 hguard.2.1 hguard.2.2)
    refine ⟨_, congrArg (Option.map _) hsend,
      ⟨⟨⟨hs'.inOrder.count, hs'.inOrder.elems, hs'.inOrder.small⟩, hs'.indexed, hs'.copies,
        hs'.synced⟩, fun hret => hsync (by simpa using hret)⟩⟩

theorem CardInv.step (h : s.CardInv) {op : ListOp} (hok : s.EditsDelivered op) :
    ∃ t, s.step op = some t ∧ t.CardInv := by
  have hframe : ∀ l : CmdList, l.vec = s.list.vec → l.numEdits = s.list.numEdits →
      l.Tracked s.table := by
    intro l hvec hn
    refine ⟨⟨?_, ?_, ?_⟩, ?_, ?_, ?_⟩
    · rw [hn, hvec]; exact h.tracked.inOrder.count
    · rw [hvec]; exact h.tracked.inOrder.elems
    · rw [hvec]; exact h.tracked.inOrder.small
    · rw [hvec]; exact h.tracked.indexed
    · rw [hvec]; exact h.tracked.copies
    · rw [hvec]; exact h.tracked.synced
  cases op with
  | appendCopy copy byteSize priority skip =>
    exact ⟨_, rfl, cardInv_setList (h.tracked.append ⟨trivial, Nat.zero_le _⟩ rfl trivial)⟩
  | appendInferRequest netId id params =>
    refine ⟨_, rfl, cardInv_setList (h.tracked.append ⟨trivial, Nat.zero_le _⟩ ?_ trivial)⟩
    cases params <;> rfl
  | finalize batchCopies broken io reply => exact h.finalize reply hok
  | overwriteCopy idx byteSize priority skip =>
    refine ⟨_, rfl, cardInv_setList (h.tracked.overwrite (fun c => ?_) (fun r => ?_) idx)⟩ <;>
      exact ⟨rfl, rfl⟩
  | overwriteInferRequest idx params =>
    refine ⟨_, rfl, cardInv_setList (h.tracked.overwrite (fun c => ⟨rfl, rfl⟩) (fun r => ?_) idx)⟩
    cases params <;> exact ⟨rfl, rfl⟩
  | schedule numErrors canSchedule prepared broken io => exact h.schedule hok
  | complete => exact ⟨_, rfl, cardInv_setList (hframe _ rfl rfl)⟩
  | addError => exact ⟨_, rfl, cardInv_setList (hframe _ rfl rfl)⟩
  | clearErrors queried =>
    refine ⟨_, rfl, cardInv_setList ?_⟩
    split
    · exact hframe _ rfl rfl
    · exact h.tracked

theorem create_cardInv (protocolID : BitVec 16) (chanId : BitVec 10) (optDependencies : Bool) :
    (create (.create protocolID chanId optDependencies)).CardInv :=
  ⟨⟨CmdList.create_inOrder .., rfl, nofun, nofun⟩, nofun⟩

/-- As long as no send of pending edits fails, a schedule that succeeds leaves the card with
the parameters of every command of the host. -/
theorem schedule_in_sync (protocolID : BitVec 16) (chanId : BitVec 10) (optDependencies : Bool)
    (ops : List ListOp)
    (hm : Exec.Meets step EditsDelivered (create (.create protocolID chanId optDependencies)) ops) :
    (∃ t, Exec.run step (create (.create protocolID chanId optDependencies)) ops = some t) ∧
      Exec.Always step ScheduledInSync
        (create (.create protocolID chanId optDependencies)) ops := by
  have hinv := create_cardInv protocolID chanId optDependencies
  obtain ⟨t, ht, _⟩ := Exec.run_of_invariant hinv (fun s op h hok => h.step hok) hm
  refine ⟨⟨t, ht⟩, Exec.Always.mono (fun s h => CardInv.inSync h) ?_⟩
  refine Exec.always_of_invariant hinv (fun s op t h hok hs => ?_) hm
  obtain ⟨t', ht', hinv'⟩ := h.step hok
  exact Option.some.inj (hs.symm.trans ht') ▸ hinv'

/-- A failed write drops an overwrite: the next schedule succeeds and the card still has the
size it was told first. -/
theorem failed_schedule_loses_overwrite :
    ¬ Exec.Always step ScheduledInSync (create (.create 0 0 true))
      [.appendCopy ⟨1, false, false, 64⟩ 0 0 false,
        .finalize true false (fun _ => ⟨some pageSize, [], true⟩) (some (.ofCode 28)),
        .overwriteCopy 0 8 0 false,
        .schedule 0 true true false (fun _ => ⟨some pageSize, [], false⟩),
        .schedule 0 true true false (fun _ => ⟨some pageSize, [], true⟩)] := by
  decide

theorem schedule_in_sync_overwrite :
    (∃ t, Exec.run step (create (.create 0 0 true))
      [.appendCopy ⟨1, false, false, 64⟩ 0 0 false,
        .finalize true false (fun _ => ⟨some pageSize, [], true⟩) (some (.ofCode 28)),
        .overwriteCopy 0 8 0 false,
        .schedule 0 true true false (fun _ => ⟨some pageSize, [], true⟩)] = some t) ∧
      Exec.Always step ScheduledInSync (create (.create 0 0 true))
      [.appendCopy ⟨1, false, false, 64⟩ 0 0 false,
        .finalize true false (fun _ => ⟨some pageSize, [], true⟩) (some (.ofCode 28)),
        .overwriteCopy 0 8 0 false,
        .schedule 0 true true false (fun _ => ⟨some pageSize, [], true⟩)] :=
  schedule_in_sync 0 0 true _ (by decide)

end ListState

end NNPIHost.CommandList

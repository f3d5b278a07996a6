import NNPIHost.CommandList.Overwrite

/-! # Overwritten commands are sent like new ones

The record that the next send packs for an overwritten command is the one of a new command
with the same parameters, but that an infer request keeps the priority it was appended with,
and as long as no 16-bit count of edits wraps around to zero.
-/

namespace NNPIHost.CommandList

open SchedParams (commands unindexed pieces slots)

theorem Record.encode_injective {r r' : Record} (h : r.Fits) (h' : r'.Fits)
    (heq : r.encode = r'.encode) : r = r' := by
  have hdec := decode_encode h []
  rw [heq, decode_encode h' []] at hdec
  exact (Prod.mk.inj (Option.some.inj hdec)).1.symm

namespace OverwriteCall

/-- A new command with the parameters of the call, for the copy or the infer request of a
command. -/
def fresh : OverwriteCall → SchedParams → SchedParams
  | .copy byteSize priority skip, e =>
      match e with
      | .copy c => .copy (.create c.copy priority (copySize byteSize skip))
      | e => e
  | .inferRequest params, e =>
      match e with
      | .infReq r => .infReq (.create r.netId r.id params)
      | e => e

/-- The call gives no other priority than the command has. -/
def KeepsPriority : OverwriteCall → SchedParams → Prop
  | .copy .., _ => True
  | .inferRequest none, _ => True
  | .inferRequest (some p), e =>
      match e with
      | .infReq r => p.priority = r.priority
      | _ => True

/-- What a call that succeeds makes the next send pack: whether or not it is a `finalize` that
batches copies, the record of the command is that of a new one at its place. -/
def SentAsNew (l : CmdList) (idx : UInt16) (call : OverwriteCall) : Prop :=
  ∀ c, commandAt l.vec idx.toNat = some c → (call.run l idx).1 = .noError →
    ∀ (batchCopies : Bool) opcode broken io sent l'',
      let l' := (call.run l idx).2
      let l' := if batchCopies then l'.optimizeBatchCopies else l'
      l'.sendToCard opcode broken io = some (.noError, sent, l'') →
        ∃ c', commandAt l'.vec idx.toNat = some c' ∧
          sent.flatMap Sent.payload = (l'.placeAt idx.toNat).before ++
            ((call.fresh c).setIndex c'.idx).pending ++ (l'.placeAt idx.toNat).after

/-- The call keeps the priority of an infer request, and the counts of edits of the list and
of its copy list are not zero with the edit. -/
def Refreshes (l : CmdList) (idx : UInt16) (call : OverwriteCall) : Prop :=
  ∀ e i c, elementAt l.vec idx.toNat = some (e, i) → e.commands[i]? = some c →
    c.type = call.type →
      call.KeepsPriority c ∧ countEdit e.isEdited l.numEdits ≠ 0 ∧ e.CountsAfter i

variable {l : CmdList} {idx : UInt16} {c : SchedParams}

theorem setIndex_setIndex (i j : UInt16) (e : SchedParams) :
    (e.setIndex i).setIndex j = e.setIndex j := by
  cases e <;> rfl

theorem setIndex_idx (e : SchedParams) : e.setIndex e.idx = e := by
  cases e <;> rfl

theorem pieces_overwritten_iff (call : OverwriteCall) (htype : c.type = call.type) (j : UInt16) :
    ((c.overwritten call.onCopy call.onInfReq).setIndex j).pieces.flatten =
      ((call.fresh c).setIndex j).pending ↔ call.KeepsPriority c := by
  cases call with
  | copy byteSize priority skip =>
    cases c with
    | copy c =>
      exact iff_of_true (CopyParams.flatten_pieces _) trivial
    | copyList l => cases htype
    | infReq r => cases htype
  | inferRequest params =>
    cases c with
    | copy c => cases htype
    | copyList l => cases htype
    | infReq r =>
      have hpieces : ((SchedParams.infReq r).overwritten id (·.overwrite params)).setIndex j =
          .infReq { r.getCmdForOverwrite.overwrite params with idx := j } := rfl
      simp only [onCopy, onInfReq, hpieces, SchedParams.pieces, InfReqParams.flatten_pieces]
      cases params with
      | none => exact iff_of_true rfl trivial
      | some p =>
        have hrecord : ∀ r : InfReqParams, r.edited = true →
            r.pending = (Record.infReq r.idx.toUInt32 r.record).encode := fun r h => if_pos h
        simp only [fresh, SchedParams.setIndex, SchedParams.pending, KeepsPriority]
        rw [hrecord _ rfl, hrecord _ rfl]
        constructor
        · intro h
          have hfits : ∀ (i : UInt32) (r : InfReqRecord), (Record.infReq i r).Fits :=
            fun _ _ => trivial
          have heq := Record.encode_injective (hfits _ _) (hfits _ _) h
          simp only [InfReqParams.record, InfReqParams.overwrite, InfReqParams.create,
            InfReqParams.getCmdForOverwrite, Bool.false_eq_true, if_false, Record.infReq.injEq,
            InfReqRecord.mk.injEq, Option.some.injEq, SchedRecord.mk.injEq] at heq
          exact heq.2.2.2.2.1.symm
        · intro h
          simp [InfReqParams.record, InfReqParams.overwrite, InfReqParams.create,
            InfReqParams.getCmdForOverwrite, h]

theorem pending_fresh_ne_nil (call : OverwriteCall) (htype : c.type = call.type) (j : UInt16) :
    ((call.fresh c).setIndex j).pending ≠ [] := by
  cases call with
  | copy byteSize priority skip =>
    cases c with
    | copy c =>
      apply List.ne_nil_of_length_pos
      simp [fresh, SchedParams.setIndex, SchedParams.pending, CopyParams.pending,
        CopyParams.setIndex, CopyParams.create]
    | copyList l => cases htype
    | infReq r => cases htype
  | inferRequest params =>
    cases c with
    | copy c => cases htype
    | copyList l => cases htype
    | infReq r =>
      have hpending : ((fresh (.inferRequest params) (.infReq r)).setIndex j).pending =
          (Record.infReq j.toUInt32 (InfReqParams.create r.netId r.id params).record).encode := by
        cases params <;> rfl
      rw [hpending]
      exact Record.encode_ne_nil _

theorem exists_sent_slot {l : CmdList} {u : ℕ} {c : SchedParams} {b : Bool} (batchCopies : Bool)
    (h : (l.vec.flatMap slots)[u]? = some (c, b)) :
    ∃ c', ((if batchCopies then l.optimizeBatchCopies else l).vec.flatMap slots)[u]? =
      some (c', b) ∧ c' = c.setIndex c'.idx := by
  cases batchCopies with
  | false => exact ⟨c, h, (setIndex_idx c).symm⟩
  | true =>
    have hmap := congrArg (·[u]?) l.optimizeBatchCopies_slots
    simp only [List.getElem?_map, h, Option.map_some] at hmap
    obtain ⟨⟨c', b'⟩, hc', heq⟩ := Option.map_eq_some_iff.mp hmap
    obtain ⟨hun, rfl⟩ := Prod.mk.inj heq
    refine ⟨c', hc', ?_⟩
    have hset := congrArg (SchedParams.setIndex c'.idx) hun
    simp only [unindexed, setIndex_setIndex] at hset
    rwa [setIndex_idx] at hset

theorem optimizeBatchCopies_numEdits_ne_zero {l : CmdList} (hne : l.vec.flatMap slots ≠ [])
    (hsmall : l.vec.length ≤ 0xffff) : l.optimizeBatchCopies.numEdits ≠ 0 := by
  have hlen := length_batchLoop_le l.vec []
  rw [List.length_nil, Nat.add_zero] at hlen
  have hslots := l.optimizeBatchCopies_slots
  have hvec : l.optimizeBatchCopies.vec.length = (batchLoop l.vec []).length :=
    List.length_mapIdx
  intro h
  have hzero := congrArg UInt16.toNat h
  rw [CmdList.optimizeBatchCopies, List.length_mapIdx,
    UInt16.toNat_ofNat_of_lt' (Nat.lt_of_le_of_lt (Nat.le_trans hlen hsmall) (by decide))] at hzero
  have hnil : l.optimizeBatchCopies.vec = [] := List.length_eq_zero_iff.mp (hvec.trans hzero)
  rw [hnil] at hslots
  exact hne (List.map_eq_nil_iff.mp hslots.symm)

theorem record_of_slot {l : CmdList} {u : ℕ} {c : SchedParams} {b : Bool}
    (h : (l.vec.flatMap slots)[u]? = some (c, b)) :
    (l.placeAt u).record = if l.numEdits ≠ 0 ∧ b = true then c.pieces.flatten else [] := by
  have hrecord := placeAt_record l.vec u
  rw [h] at hrecord
  by_cases h0 : l.numEdits = 0
  · rw [CmdList.placeAt, if_pos h0, if_neg fun h => h.1 h0]
  · rw [CmdList.placeAt, if_neg h0]
    cases b with
    | true => exact hrecord.trans (if_pos ⟨h0, rfl⟩).symm
    | false => exact hrecord.trans (if_neg fun h => Bool.false_ne_true h.2).symm

theorem length_overwrite (l : CmdList) (idx : UInt16) (onCopy : CopyParams → CopyParams)
    (onInfReq : InfReqParams → InfReqParams) :
    (l.overwrite idx onCopy onInfReq).vec.length = l.vec.length := by
  unfold CmdList.overwrite
  split
  next => rfl
  next was vec he =>
    simpa using congrArg List.length (editAt_map (f := fun _ => ()) (fun _ _ _ _ => rfl) he)

/-- A call on a list of at most 65535 elements makes the next send pack a new record exactly
when it refreshes the command. -/
theorem sentAsNew_iff_refreshes (call : OverwriteCall) (hsmall : l.vec.length ≤ 0xffff)
    (idx : UInt16) : call.SentAsNew l idx ↔ call.Refreshes l idx := by
  constructor
  · intro h e i c he hc htype
    have hcmd := commandAt_of_elementAt he hc
    have hrun := call.run_of_eq hcmd htype
    obtain ⟨c', b, hc', hslot, hb, hn⟩ :=
      CmdList.overwrite_slots call.onCopy call.onInfReq he
    obtain rfl := Option.some.inj (hc.symm.trans hc')
    have hvec : (l.overwrite idx call.onCopy call.onInfReq).vec ≠ [] := by
      intro hnil
      rw [hnil] at hslot
      cases hslot
    obtain ⟨sent, l'', hsend⟩ := CmdList.exists_send hvec .chanScheduleCmdlist
      (fun _ => ⟨some pageSize, [], true⟩) fun _ => ⟨rfl, rfl⟩
    have hsent := h c hcmd (congrArg Prod.fst hrun) false .chanScheduleCmdlist false
      (fun _ => ⟨some pageSize, [], true⟩) sent l''
    rw [hrun] at hsent
    obtain ⟨c₁, hc₁, hbytes⟩ := hsent hsend
    rw [CmdList.payload_of_send hsend idx.toNat, Place.bytes] at hbytes
    have hrecord := List.append_cancel_left (List.append_cancel_right hbytes)
    have hslot' := commandAt_eq_slots (l.overwrite idx call.onCopy call.onInfReq).vec idx.toNat
    rw [hslot] at hslot'
    obtain rfl := Option.some.inj (hc₁.symm.trans hslot')
    have hsame := setIndex_idx (c.overwritten call.onCopy call.onInfReq)
    have hrecord : ((l.overwrite idx call.onCopy call.onInfReq).placeAt idx.toNat).record =
        ((call.fresh c).setIndex (c.overwritten call.onCopy call.onInfReq).idx).pending := hrecord
    rw [record_of_slot hslot] at hrecord
    split at hrecord
    next hpacked =>
      refine ⟨?_, hn ▸ hpacked.1, hb.mp hpacked.2⟩
      rw [← pieces_overwritten_iff call htype, hsame]
      exact hrecord
    next => exact absurd hrecord.symm (pending_fresh_ne_nil call htype _)
  · intro h c hcmd hret batchCopies opcode broken io sent l''
    obtain ⟨e, i, he, hc⟩ := exists_of_commandAt hcmd
    have htype : c.type = call.type := by
      by_contra hne
      rw [call.run_of_ne hcmd hne] at hret
      exact call.noSuchHandle_ne hret
    obtain ⟨hkeeps, hcount, hafter⟩ := h e i c he hc htype
    obtain ⟨c', b, hc', hslot, hb, hn⟩ :=
      CmdList.overwrite_slots call.onCopy call.onInfReq he
    obtain rfl := Option.some.inj (hc.symm.trans hc')
    obtain rfl : b = true := hb.mpr hafter
    obtain ⟨c₁, hslot₁, hc₁⟩ := exists_sent_slot batchCopies hslot
    rw [call.run_of_eq hcmd htype]
    intro l' l₁ hsend
    have hnum : l₁.numEdits ≠ 0 := by
      cases batchCopies with
      | false => exact hn ▸ hcount
      | true =>
        refine optimizeBatchCopies_numEdits_ne_zero (fun hnil => ?_) ?_
        · rw [hnil] at hslot
          cases hslot
        · rw [length_overwrite]
          exact hsmall
    refine ⟨c₁, ?_, ?_⟩
    · rw [commandAt_eq_slots, hslot₁]
      rfl
    · have hrecord := record_of_slot (l := l₁) hslot₁
      rw [if_pos ⟨hnum, rfl⟩, hc₁, (pieces_overwritten_iff call htype _).mpr hkeeps] at hrecord
      rw [CmdList.payload_of_send hsend idx.toNat, Place.bytes, hrecord]

end OverwriteCall

namespace CmdList

variable {l l' : CmdList}

theorem length_append_le (l : CmdList) (cmd : SchedParams) (h : l.vec.length ≤ 0xffff) :
    (l.append cmd).2.vec.length ≤ 0xffff := by
  unfold CmdList.append
  split
  · exact h
  split
  · exact h
  · rw [List.length_append, List.length_singleton]
    omega

theorem length_optimizeBatchCopies_le (l : CmdList) :
    l.optimizeBatchCopies.vec.length ≤ l.vec.length := by
  rw [optimizeBatchCopies, List.length_mapIdx]
  simpa using length_batchLoop_le l.vec []

end CmdList

namespace ListState

open OverwriteCall (length_overwrite)

variable {s t : ListState}

theorem step_small {op : ListOp} (h : s.list.vec.length ≤ 0xffff) (hs : s.step op = some t) :
    t.list.vec.length ≤ 0xffff := by
  have hsend : ∀ {s s' : ListState} {opcode broken io ret}, s.list.vec.length ≤ 0xffff →
      s.send opcode broken io = some (ret, s') → s'.list.vec.length ≤ 0xffff := by
    intro s s' opcode broken io ret h hs
    obtain ⟨⟨ret', sent, l'⟩, hsend, heq⟩ := Option.map_eq_some_iff.mp hs
    obtain ⟨rfl, rfl⟩ := Prod.mk.inj heq
    exact Nat.le_trans (Nat.le_of_eq (CmdList.length_of_send hsend)) h
  cases op with
  | appendCopy copy byteSize priority skip =>
    obtain rfl := Option.some.inj hs
    exact CmdList.length_append_le _ _ h
  | appendInferRequest netId id params =>
    obtain rfl := Option.some.inj hs
    exact CmdList.length_append_le _ _ h
  | finalize batchCopies broken io reply =>
    obtain ⟨⟨ret, s'⟩, hs', rfl⟩ := Option.map_eq_some_iff.mp hs
    have hlist : (s.setList (if batchCopies then s.list.optimizeBatchCopies else
        s.list)).list.vec.length ≤ 0xffff := by
      cases batchCopies with
      | false => exact h
      | true => exact Nat.le_trans s.list.length_optimizeBatchCopies_le h
    have := hsend hlist hs'
    simp only
    split <;> exact this
  | overwriteCopy idx byteSize priority skip =>
    obtain rfl := Option.some.inj hs
    exact Nat.le_trans (Nat.le_of_eq (length_overwrite ..)) h
  | overwriteInferRequest idx params =>
    obtain rfl := Option.some.inj hs
    exact Nat.le_trans (Nat.le_of_eq (length_overwrite ..)) h
  | schedule numErrors canSchedule prepared broken io =>
    rw [step, schedule] at hs
    split at hs
    · obtain rfl := Option.some.inj hs
      exact h
    · obtain ⟨⟨ret, s'⟩, hs', rfl⟩ := Option.map_eq_some_iff.mp hs
      have := hsend h hs'
      exact this
  | complete =>
    obtain rfl := Option.some.inj hs
    exact h
  | addError =>
    obtain rfl := Option.some.inj hs
    exact h
  | clearErrors queried =>
    obtain rfl := Option.some.inj hs
    simp only [setList]
    split <;> exact h

/-- In every state that a list gets into, a call makes the next send pack the record of a new
command exactly when it refreshes the command. -/
theorem overwrites_sentAsNew_iff (protocolID : BitVec 16) (chanId : BitVec 10)
    (optDependencies : Bool) (ops : List ListOp) :
    Exec.Always step (fun s => ∀ (call : OverwriteCall) (idx : UInt16),
        call.SentAsNew s.list idx ↔ call.Refreshes s.list idx)
      (create (.create protocolID chanId optDependencies)) ops := by
  have hsmall : Exec.Always step (fun s => s.list.vec.length ≤ 0xffff)
      (create (.create protocolID chanId optDependencies)) ops :=
    Exec.always_of_preserved (Nat.zero_le _) fun _ _ _ h hs => step_small h hs
  exact hsmall.mono fun s h call idx => call.sentAsNew_iff_refreshes h idx

/-- An infer request appended with priority 0 is still sent with it after an overwrite with
priority 1. -/
theorem overwritten_priority_not_sent :
    ¬ Exec.Always step (fun s => ∀ (call : OverwriteCall) (idx : UInt16),
        call.SentAsNew s.list idx) (create (.create 0 0 true))
      [.appendInferRequest 0 0 (some ⟨1, 0, false, false⟩)] := by
  intro h
  have hsent := (h.2 _ rfl).head (.inferRequest (some ⟨1, 1, false, false⟩)) 0
  rw [OverwriteCall.sentAsNew_iff_refreshes _ (by decide)] at hsent
  exact absurd (hsent _ _ _ rfl rfl rfl).1 (by decide : (1 : UInt8) ≠ 0)

end ListState

end NNPIHost.CommandList

import NNPIHost.CommandList.Places

/-! # Overwriting a command

A call looks the command up, which marks it as edited, and then checks its kind. A call for
the other kind fails after that, and leaves the list as it was only if the command was edited
already.
-/

namespace NNPIHost.CommandList

open SchedParams (commands unindexed pieces slots)

namespace CmdList

/-- The overwrite of a command of one type, on a list that was found. -/
def overwriteCommand (l : CmdList) (idx : UInt16) (type : CmdListCommandType)
    (noSuchHandle : NNPError) (onCopy : CopyParams → CopyParams)
    (onInfReq : InfReqParams → InfReqParams) : NNPError × CmdList :=
  match commandAt l.vec idx.toNat with
  | none => (.invalidArgument, l)
  | some command =>
      if command.type ≠ type then (noSuchHandle, l.overwrite idx id id)
      else (.noError, l.overwrite idx onCopy onInfReq)

/-- `nnpdrvCommandListOverwriteCopy`. -/
def overwriteCopy (l : CmdList) (copyIdx : UInt16) (byteSize : UInt64) (priority : UInt8)
    (skip : Bool) : NNPError × CmdList :=
  l.overwriteCommand copyIdx .copy .noSuchCopyHandle
    (·.overwrite priority (copySize byteSize skip)) id

/-- `nnpdrvCommandListOverwriteInferRequest`. -/
def overwriteInferRequest (l : CmdList) (infreqIdx : UInt16) (params : Option InfSchedParams) :
    NNPError × CmdList :=
  l.overwriteCommand infreqIdx .infreq .noSuchInfreqHandle id (·.overwrite params)

end CmdList

/-- A call that overwrites a command. -/
inductive OverwriteCall where
  | copy (byteSize : UInt64) (priority : UInt8) (skip : Bool)
  | inferRequest (params : Option InfSchedParams)

namespace OverwriteCall

def run (l : CmdList) (idx : UInt16) : OverwriteCall → NNPError × CmdList
  | .copy byteSize priority skip => l.overwriteCopy idx byteSize priority skip
  | .inferRequest params => l.overwriteInferRequest idx params

/-- The call as an operation on a list. -/
def op (idx : UInt16) : OverwriteCall → ListOp
  | .copy byteSize priority skip => .overwriteCopy idx byteSize priority skip
  | .inferRequest params => .overwriteInferRequest idx params

def type : OverwriteCall → CmdListCommandType
  | .copy .. => .copy
  | .inferRequest _ => .infreq

def noSuchHandle : OverwriteCall → NNPError
  | .copy .. => .noSuchCopyHandle
  | .inferRequest _ => .noSuchInfreqHandle

def onCopy : OverwriteCall → CopyParams → CopyParams
  | .copy byteSize priority skip => (·.overwrite priority (copySize byteSize skip))
  | .inferRequest _ => id

def onInfReq : OverwriteCall → InfReqParams → InfReqParams
  | .copy .. => id
  | .inferRequest params => (·.overwrite params)

variable {l : CmdList} {idx : UInt16} {c : SchedParams}

theorem run_eq (call : OverwriteCall) (l : CmdList) (idx : UInt16) :
    call.run l idx =
      l.overwriteCommand idx call.type call.noSuchHandle call.onCopy call.onInfReq := by
  cases call <;> rfl

theorem noSuchHandle_ne (call : OverwriteCall) : call.noSuchHandle ≠ .noError := by
  cases call <;> exact nofun

theorem run_of_none (call : OverwriteCall) (h : commandAt l.vec idx.toNat = none) :
    call.run l idx = (.invalidArgument, l) := by
  rw [run_eq, CmdList.overwriteCommand, h]

theorem run_of_ne (call : OverwriteCall) (h : commandAt l.vec idx.toNat = some c)
    (hc : c.type ≠ call.type) : call.run l idx = (call.noSuchHandle, l.overwrite idx id id) := by
  rw [run_eq, CmdList.overwriteCommand, h]
  exact if_pos hc

theorem run_of_eq (call : OverwriteCall) (h : commandAt l.vec idx.toNat = some c)
    (hc : c.type = call.type) :
    call.run l idx = (.noError, l.overwrite idx call.onCopy call.onInfReq) := by
  rw [run_eq, CmdList.overwriteCommand, h]
  exact if_neg (not_not.mpr hc)

end OverwriteCall

/-- An edit is counted unless it was counted already, in 16 bits. -/
def countEdit (was : Bool) (numEdits : UInt16) : UInt16 := if was then numEdits else numEdits + 1

theorem countEdit_eq_self {was : Bool} {n : UInt16} : countEdit was n = n ↔ was = true := by
  cases was with
  | true => simp [countEdit]
  | false =>
    simp only [countEdit, Bool.false_eq_true, if_false, iff_false]
    intro h
    have := congrArg UInt16.toNat h
    rw [UInt16.toNat_add, UInt16.toNat_one] at this
    have := n.toNat_lt
    omega

theorem CopyListParams.getCmdForOverwrite_eq {l : CopyListParams} {i : ℕ}
    (f : CopyParams → CopyParams) (hi : i < l.copies.length) :
    l.getCmdForOverwrite i f = some
      { l with
        copies := l.copies.set i (f l.copies[i].getCmdForOverwrite)
        numEdits := countEdit l.copies[i].edited l.numEdits
        edited := l.edited || !l.copies[i].edited } := by
  rw [getCmdForOverwrite, List.getElem?_eq_getElem hi]
  cases he : l.copies[i].edited <;> simp [he, countEdit]

namespace SchedParams

/-- The copy list of the edited copy counts edits afterwards. -/
def CountsAfter (i : ℕ) : SchedParams → Prop
  | .copyList l => ∀ c ∈ l.copies[i]?, countEdit c.edited l.numEdits ≠ 0
  | _ => True

variable {e e' : SchedParams} {i : ℕ} {onCopy : CopyParams → CopyParams}
  {onInfReq : InfReqParams → InfReqParams}

theorem edit_slots (e : SchedParams) (onCopy : CopyParams → CopyParams)
    (onInfReq : InfReqParams → InfReqParams) (hi : i < e.numOfSubcmds) :
    ∃ e' c b, e.edit onCopy onInfReq i = some e' ∧ e.commands[i]? = some c ∧
      e'.slots[i]? = some (c.overwritten onCopy onInfReq, b) ∧
      (b = true ↔ e.CountsAfter i) ∧ e'.numOfSubcmds = e.numOfSubcmds := by
  cases e with
  | copy c =>
    obtain rfl : i = 0 := Nat.lt_one_iff.mp hi
    exact ⟨_, _, true, rfl, rfl, rfl, iff_of_true rfl trivial, rfl⟩
  | infReq r =>
    obtain rfl : i = 0 := Nat.lt_one_iff.mp hi
    exact ⟨_, _, true, rfl, rfl, rfl, iff_of_true rfl trivial, rfl⟩
  | copyList l =>
    have hi : i < l.copies.length := hi
    have hget : l.copies[i]? = some l.copies[i] := List.getElem?_eq_getElem hi
    refine ⟨_, .copy l.copies[i], countEdit l.copies[i].edited l.numEdits ≠ 0,
      congrArg (Option.map copyList) (CopyListParams.getCmdForOverwrite_eq onCopy hi), ?_, ?_, ?_,
      ?_⟩
    · simp [commands, hget]
    · simp [slots, overwritten, hi]
    · simp [CountsAfter, hget]
    · simp [numOfSubcmds]

theorem edit_id {c : SchedParams} (hc : e.commands[i]? = some c) (he : e.isEdited = true)
    (hce : c.isEdited = true) : e.edit id id i = some e := by
  cases e with
  | copy c' =>
    obtain ⟨copy, priority, size, idx, edited⟩ := c'
    obtain rfl : edited = true := he
    rfl
  | infReq r =>
    obtain ⟨netId, reqId, nullParams, batchSize, priority, debugOn, collectInfo, idx, edited⟩ := r
    obtain rfl : edited = true := he
    rfl
  | copyList l =>
    rw [commands, List.getElem?_map] at hc
    obtain ⟨c', hget, rfl⟩ := Option.map_eq_some_iff.mp hc
    obtain ⟨hi, rfl⟩ := List.getElem?_eq_some_iff.mp hget
    have hedited : l.copies[i].edited = true := hce
    have hmark : l.copies[i].getCmdForOverwrite = l.copies[i] := by
      rw [CopyParams.getCmdForOverwrite, ← hedited]
    simp only [edit, CopyListParams.getCmdForOverwrite, hget, Option.map_some, hedited, if_true,
      id_eq, hmark, List.set_getElem_self]

end SchedParams

section EditAt

variable {es : List SchedParams} {e : SchedParams} {u i : ℕ}

theorem elementAt_lt (h : elementAt es u = some (e, i)) : i < e.numOfSubcmds := by
  induction es generalizing u with
  | nil => cases h
  | cons e' es ih =>
    rw [elementAt] at h
    split at h
    · exact ih h
    next hu =>
      cases h
      exact Nat.lt_of_not_le hu

theorem exists_of_commandAt {c : SchedParams} (h : commandAt es u = some c) :
    ∃ e i, elementAt es u = some (e, i) ∧ e.commands[i]? = some c := by
  obtain ⟨⟨e, i⟩, he, hc⟩ := Option.bind_eq_some_iff.mp h
  exact ⟨e, i, he, hc⟩

theorem commandAt_of_elementAt {c : SchedParams} (h : elementAt es u = some (e, i))
    (hc : e.commands[i]? = some c) : commandAt es u = some c := by
  rw [commandAt, h]
  exact hc

theorem editAt_slots (onCopy : CopyParams → CopyParams) (onInfReq : InfReqParams → InfReqParams)
    (h : elementAt es u = some (e, i)) :
    ∃ es' c b, editAt onCopy onInfReq es u = some (e.isEdited, es') ∧
      e.commands[i]? = some c ∧
      (es'.flatMap slots)[u]? = some (c.overwritten onCopy onInfReq, b) ∧
      (b = true ↔ e.CountsAfter i) := by
  induction es generalizing u with
  | nil => cases h
  | cons e₁ es ih =>
    rw [elementAt] at h
    rw [editAt]
    have hlen := e₁.length_slots
    split at h
    next hu =>
      obtain ⟨es', c, b, hedit, hc, hslot, hb⟩ := ih h
      refine ⟨e₁ :: es', c, b, ?_, hc, ?_, hb⟩
      · rw [if_pos hu, hedit]
        rfl
      · rwa [List.flatMap_cons, List.getElem?_append_right (hlen ▸ hu), hlen]
    next hu =>
      cases h
      obtain ⟨e', c, b, hedit, hc, hslot, hb, hn⟩ :=
        e.edit_slots onCopy onInfReq (Nat.lt_of_not_le hu)
      refine ⟨e' :: es, c, b, ?_, hc, ?_, hb⟩
      · rw [if_neg hu, hedit]
        rfl
      · have hlt : i < e'.slots.length := by
          rw [e'.length_slots, hn]
          exact Nat.lt_of_not_le hu
        rwa [List.flatMap_cons, List.getElem?_append_left hlt]

theorem editAt_id {c : SchedParams} (h : elementAt es u = some (e, i))
    (hc : e.commands[i]? = some c) (he : e.isEdited = true) (hce : c.isEdited = true) :
    editAt id id es u = some (true, es) := by
  induction es generalizing u with
  | nil => cases h
  | cons e₁ es ih =>
    rw [elementAt] at h
    rw [editAt]
    split at h
    next hu => rw [if_pos hu, ih h, Option.map_some]
    next hu =>
      cases h
      have hedit := SchedParams.edit_id hc he hce
      rw [if_neg hu, hedit, Option.map_some, he]

end EditAt

namespace CmdList

variable {l : CmdList} {idx : UInt16} {e c : SchedParams} {i : ℕ}

theorem overwrite_slots (onCopy : CopyParams → CopyParams)
    (onInfReq : InfReqParams → InfReqParams) (h : elementAt l.vec idx.toNat = some (e, i)) :
    ∃ c b, e.commands[i]? = some c ∧
      ((l.overwrite idx onCopy onInfReq).vec.flatMap slots)[idx.toNat]? =
        some (c.overwritten onCopy onInfReq, b) ∧
      (b = true ↔ e.CountsAfter i) ∧
      (l.overwrite idx onCopy onInfReq).numEdits = countEdit e.isEdited l.numEdits := by
  obtain ⟨es', c, b, hedit, hc, hslot, hb⟩ := editAt_slots onCopy onInfReq h
  have heq : l.overwrite idx onCopy onInfReq =
      { l with vec := es', numEdits := countEdit e.isEdited l.numEdits } := by
    rw [overwrite, hedit]
    rfl
  refine ⟨c, b, hc, ?_, hb, ?_⟩
  · rw [heq]
    exact hslot
  · rw [heq]

/-- A look-up alone leaves a list as it is exactly when the command and its element are edited
already. -/
theorem overwrite_id_eq_iff (h : elementAt l.vec idx.toNat = some (e, i))
    (hc : e.commands[i]? = some c) :
    l.overwrite idx id id = l ↔ e.isEdited = true ∧ c.isEdited = true := by
  constructor
  · intro heq
    obtain ⟨c', b, hc', hslot, _, hn⟩ := overwrite_slots (l := l) id id h
    obtain rfl : c = c' := Option.some.inj (hc.symm.trans hc')
    rw [heq] at hslot hn
    have hcmd := commandAt_eq_slots l.vec idx.toNat
    rw [hslot, commandAt_of_elementAt h hc] at hcmd
    have hself : c = c.overwritten id id := Option.some.inj hcmd
    refine ⟨countEdit_eq_self.mp hn.symm, ?_⟩
    have hcopy : ∀ l', c ≠ .copyList l' := by
      rintro l' rfl
      cases e with
      | copy c' => cases i <;> cases hc
      | infReq r => cases i <;> cases hc
      | copyList l =>
        rw [SchedParams.commands, List.getElem?_map] at hc
        obtain ⟨_, _, hl⟩ := Option.map_eq_some_iff.mp hc
        cases hl
    rw [hself]
    cases c with
    | copy c => rfl
    | infReq r => rfl
    | copyList l' => exact absurd rfl (hcopy l')
  · rintro ⟨he, hce⟩
    rw [overwrite, editAt_id h hc he hce]
    rfl

theorem overwrite_congr {onCopy : CopyParams → CopyParams} {onInfReq : InfReqParams → InfReqParams}
    (h : ∀ e i, elementAt l.vec idx.toNat = some (e, i) →
      e.edit onCopy onInfReq i = e.edit id id i) :
    l.overwrite idx onCopy onInfReq = l.overwrite idx id id := by
  have hedit : ∀ (es : List SchedParams) (u : ℕ),
      (∀ e i, elementAt es u = some (e, i) → e.edit onCopy onInfReq i = e.edit id id i) →
      editAt onCopy onInfReq es u = editAt id id es u := by
    intro es
    induction es with
    | nil => exact fun _ _ => rfl
    | cons e es ih =>
      intro u h
      rw [editAt, editAt]
      split
      next hu => rw [ih _ fun e' i he => h e' i (by rw [elementAt, if_pos hu, he])]
      next hu => rw [h e u (by rw [elementAt, if_neg hu])]
  rw [overwrite, overwrite, hedit _ _ h]

end CmdList

namespace OverwriteCall

variable {l : CmdList} {idx : UInt16}

theorem run_snd (call : OverwriteCall) (l : CmdList) (idx : UInt16) :
    (call.run l idx).2 = l.overwrite idx call.onCopy call.onInfReq := by
  cases hcmd : commandAt l.vec idx.toNat with
  | none =>
    have hnone : editAt call.onCopy call.onInfReq l.vec idx.toNat = none := by
      have hedit := editAt_commands call.onCopy call.onInfReq l.vec idx.toNat
      rw [← commandAt_eq, hcmd] at hedit
      exact Option.map_eq_none_iff.mp hedit
    rw [call.run_of_none hcmd, CmdList.overwrite, hnone]
  | some c =>
    by_cases htype : c.type = call.type
    · rw [call.run_of_eq hcmd htype]
    · rw [call.run_of_ne hcmd htype]
      refine (CmdList.overwrite_congr fun e i he => ?_).symm
      obtain ⟨e', i', he', hc⟩ := exists_of_commandAt hcmd
      obtain ⟨rfl, rfl⟩ := Prod.mk.inj (Option.some.inj (he.symm.trans he'))
      cases e with
      | copy c' =>
        obtain rfl : i = 0 := Nat.lt_one_iff.mp (elementAt_lt he)
        obtain rfl := Option.some.inj hc
        cases call with
        | copy => exact absurd rfl htype
        | inferRequest => rfl
      | infReq r =>
        obtain rfl : i = 0 := Nat.lt_one_iff.mp (elementAt_lt he)
        obtain rfl := Option.some.inj hc
        cases call with
        | copy => rfl
        | inferRequest => exact absurd rfl htype
      | copyList l' =>
        rw [commands, List.getElem?_map] at hc
        obtain ⟨c', _, rfl⟩ := Option.map_eq_some_iff.mp hc
        cases call with
        | copy => exact absurd rfl htype
        | inferRequest => rfl

theorem step_op (call : OverwriteCall) (s : ListState) (idx : UInt16) :
    s.step (call.op idx) = some (s.setList (call.run s.list idx).2) := by
  rw [run_snd]
  cases call <;> rfl

/-- A command of the other kind that the call finds is edited already, and so is its element. -/
def FindsEdited (l : CmdList) (idx : UInt16) (call : OverwriteCall) : Prop :=
  ∀ e i c, elementAt l.vec idx.toNat = some (e, i) → e.commands[i]? = some c →
    c.type ≠ call.type → e.isEdited = true ∧ c.isEdited = true

/-- A call that fails leaves the list as it was exactly when the command it found was edited
before. -/
theorem failed_unchanged_iff (call : OverwriteCall) (l : CmdList) (idx : UInt16) :
    ((call.run l idx).1 ≠ .noError → (call.run l idx).2 = l) ↔ call.FindsEdited l idx := by
  cases hcmd : commandAt l.vec idx.toNat with
  | none =>
    rw [call.run_of_none hcmd]
    apply iff_of_true
    · exact fun _ => rfl
    · intro e i c he hc
      rw [commandAt_of_elementAt he hc] at hcmd
      cases hcmd
  | some c =>
    obtain ⟨e, i, he, hc⟩ := exists_of_commandAt hcmd
    by_cases htype : c.type = call.type
    · rw [call.run_of_eq hcmd htype]
      apply iff_of_true
      · exact fun h => absurd rfl h
      · intro e' i' c' he' hc' hne
        rw [commandAt_of_elementAt he' hc'] at hcmd
        obtain rfl := Option.some.inj hcmd
        exact absurd htype hne
    · rw [call.run_of_ne hcmd htype]
      simp only [ne_eq, call.noSuchHandle_ne, not_false_eq_true, true_implies,
        CmdList.overwrite_id_eq_iff he hc]
      constructor
      · intro h e' i' c' he' hc' _
        obtain ⟨rfl, rfl⟩ := Prod.mk.inj (Option.some.inj (he.symm.trans he'))
        obtain rfl := Option.some.inj (hc.symm.trans hc')
        exact h
      · intro h
        exact h e i c he hc htype

/-- A copy that the card knows. -/
def sentCopy : CmdList :=
  { CmdList.create 0 0 true with
    finalized := true
    vec := [.copy ((CopyParams.create ⟨1, false, false, 64⟩ 0 64).setIndex 0).clearEdits] }

/-- Overwriting the copy as an infer request fails, and the copy is to be sent again. -/
theorem failed_call_marks_copy :
    ¬ ((OverwriteCall.run sentCopy 0 (.inferRequest none)).1 ≠ .noError →
      (OverwriteCall.run sentCopy 0 (.inferRequest none)).2 = sentCopy) := by
  intro h
  have hn := congrArg CmdList.numEdits (h (by decide))
  exact absurd hn (by decide)

end OverwriteCall

end NNPIHost.CommandList

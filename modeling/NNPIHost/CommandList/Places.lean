import NNPIHost.CommandList.EditPages
import NNPIHost.CommandList.Regroup

/-! # The place of a command in a transaction

The bytes of a transaction before, of and after the record of one command, which is found by
the index that the user gives. A command sends nothing when its copy list counts no edits.
-/

namespace NNPIHost.CommandList

open SchedParams (commands unindexed pieces)

/-- The loop of `get_cmd_for_overwrite`: the element that a user index falls in, with what is
left of the index. -/
def elementAt : List SchedParams → ℕ → Option (SchedParams × ℕ)
  | [], _ => none
  | e :: es, usrIdx =>
      if e.numOfSubcmds ≤ usrIdx then elementAt es (usrIdx - e.numOfSubcmds)
      else some (e, usrIdx)

/-- The command that `get_cmd_for_overwrite` finds. -/
def commandAt (es : List SchedParams) (usrIdx : ℕ) : Option SchedParams :=
  (elementAt es usrIdx).bind fun (e, i) => e.commands[i]?

/-- The bytes of a transaction around the record of a command. -/
structure Place where
  before : List UInt8
  record : List UInt8
  after : List UInt8

def Place.bytes (p : Place) : List UInt8 := p.before ++ p.record ++ p.after

namespace SchedParams

/-- The commands of an element, and whether packing looks at them. -/
def slots : SchedParams → List (SchedParams × Bool)
  | .copyList l => l.copies.map fun c => (.copy c, l.numEdits ≠ 0)
  | e => [(e, true)]

def place : SchedParams → ℕ → Place
  | .copyList l, i =>
      let header := if l.edited then l.header else []
      if l.numEdits = 0 then ⟨header, [], []⟩
      else
        ⟨header ++ CopyListParams.copiesPending (l.copies.take i),
          (l.copies[i]?.map CopyParams.pending).getD [],
          CopyListParams.copiesPending (l.copies.drop (i + 1))⟩
  | e, _ => ⟨[], e.pieces.flatten, []⟩

variable {e : SchedParams} {i : ℕ}

theorem map_fst_slots (e : SchedParams) : e.slots.map Prod.fst = e.commands := by
  cases e with
  | copy c => rfl
  | copyList l => simp [slots, commands]
  | infReq r => rfl

theorem length_slots (e : SchedParams) : e.slots.length = e.numOfSubcmds := by
  cases e <;> simp [slots, numOfSubcmds]

end SchedParams

theorem CopyListParams.flatten_copyPieces (cs : List CopyParams) :
    (copyPieces cs).flatten = copiesPending cs := by
  induction cs with
  | nil => rfl
  | cons c cs ih =>
    rw [copyPieces, List.flatMap_cons, List.flatten_append, CopyParams.flatten_pieces]
    exact congrArg (c.pending ++ ·) ih

namespace SchedParams

variable {e : SchedParams} {i : ℕ}

theorem place_bytes (hi : i < e.numOfSubcmds) : (e.place i).bytes = e.pieces.flatten := by
  cases e with
  | copy c => simp [place, Place.bytes]
  | infReq r => simp [place, Place.bytes]
  | copyList l =>
    have hi : i < l.copies.length := hi
    have hheader : (if l.edited then [l.header] else []).flatten =
        if l.edited then l.header else [] := by split <;> simp
    rw [pieces, CopyListParams.pieces, List.flatten_append, hheader]
    simp only [place, Place.bytes]
    split
    · simp
    · rw [CopyListParams.flatten_copyPieces, List.getElem?_eq_getElem hi, Option.map_some,
        Option.getD_some]
      have hsplit : l.copies = l.copies.take i ++ l.copies[i] :: l.copies.drop (i + 1) := by
        rw [← List.drop_eq_getElem_cons hi, List.take_append_drop]
      have hpending := congrArg CopyListParams.copiesPending hsplit
      simp only [CopyListParams.copiesPending, List.flatMap_append, List.flatMap_cons] at hpending ⊢
      rw [hpending, List.append_assoc, List.append_assoc]

theorem place_record (hi : i < e.numOfSubcmds) :
    (e.place i).record =
      match e.slots[i]? with
      | some (c, true) => c.pieces.flatten
      | _ => [] := by
  cases e with
  | copy c =>
    obtain rfl : i = 0 := Nat.lt_one_iff.mp hi
    rfl
  | infReq r =>
    obtain rfl : i = 0 := Nat.lt_one_iff.mp hi
    rfl
  | copyList l =>
    have hi : i < l.copies.length := hi
    simp only [place, slots, List.getElem?_map, List.getElem?_eq_getElem hi, Option.map_some]
    by_cases h0 : l.numEdits = 0
    · simp [h0]
    · simp [h0, pieces]

end SchedParams

open SchedParams (slots)

/-- The place of the command at a user index in the bytes of the elements. -/
def placeAt : List SchedParams → ℕ → Place
  | [], _ => ⟨[], [], []⟩
  | e :: es, usrIdx =>
      if e.numOfSubcmds ≤ usrIdx then
        let p := placeAt es (usrIdx - e.numOfSubcmds)
        { p with before := e.pieces.flatten ++ p.before }
      else
        let p := e.place usrIdx
        { p with after := p.after ++ (piecesAll es).flatten }

theorem commandAt_eq (es : List SchedParams) (u : ℕ) :
    commandAt es u = (es.flatMap commands)[u]? := by
  unfold commandAt
  induction es generalizing u with
  | nil => rfl
  | cons e es ih =>
    have hlen := e.commands_length
    rw [elementAt, List.flatMap_cons]
    split
    next hu =>
      rw [ih, List.getElem?_append_right (hlen ▸ hu), hlen]
    next hu =>
      rw [List.getElem?_append_left (by omega)]
      rfl

theorem commandAt_eq_slots (es : List SchedParams) (u : ℕ) :
    commandAt es u = (es.flatMap slots)[u]?.map Prod.fst := by
  rw [commandAt_eq, ← List.getElem?_map, List.map_flatMap]
  simp only [SchedParams.map_fst_slots]

theorem placeAt_bytes (es : List SchedParams) (u : ℕ) :
    (placeAt es u).bytes = (piecesAll es).flatten := by
  induction es generalizing u with
  | nil => rfl
  | cons e es ih =>
    have hall : (piecesAll (e :: es)).flatten = e.pieces.flatten ++ (piecesAll es).flatten := by
      rw [piecesAll, List.flatMap_cons, List.flatten_append]
      rfl
    rw [hall, placeAt]
    split
    next hu =>
      have hes := ih (u - e.numOfSubcmds)
      rw [Place.bytes] at hes ⊢
      simp only [List.append_assoc] at hes ⊢
      rw [hes]
    next hu =>
      have he := SchedParams.place_bytes (e := e) (Nat.lt_of_not_le hu)
      rw [Place.bytes] at he ⊢
      rw [← he]
      simp only [List.append_assoc]

theorem placeAt_record (es : List SchedParams) (u : ℕ) :
    (placeAt es u).record =
      match (es.flatMap slots)[u]? with
      | some (c, true) => c.pieces.flatten
      | _ => [] := by
  induction es generalizing u with
  | nil => rfl
  | cons e es ih =>
    have hlen := e.length_slots
    rw [placeAt, List.flatMap_cons]
    split
    next hu => rw [List.getElem?_append_right (hlen ▸ hu), hlen, ← ih]
    next hu =>
      rw [List.getElem?_append_left (by omega)]
      exact SchedParams.place_record (Nat.lt_of_not_le hu)

namespace CmdList

variable {l l' : CmdList}

/-- The place of a command in the transaction that is sent for a list; a list that counts no
edits sends none. -/
def placeAt (l : CmdList) (u : ℕ) : Place :=
  if l.numEdits = 0 then ⟨[], [], []⟩
  else
    let p := CommandList.placeAt l.vec u
    { p with before := countBytes l.numEdits true ++ p.before }

theorem payload_of_send {opcode : CmdListOpcode} {broken : Bool} {io : ℕ → PageIO}
    {sent : List Sent} (h : l.sendToCard opcode broken io = some (.noError, sent, l')) (u : ℕ) :
    sent.flatMap Sent.payload = (l.placeAt u).bytes := by
  -- The result is an index of the cases, so it has to be a variable for them to be split.
  generalize hret : NNPError.noError = ret at h
  cases sendToCard_sends h with
  | refused hne => exact absurd hret.symm hne
  | noEdits h0 =>
    rw [placeAt, if_pos h0, List.flatMap_singleton, Sent.payload, List.take_nil]
    rfl
  | pages hne h0 hpages hc =>
    have hbytes := CommandList.placeAt_bytes l.vec u
    rw [List.flatMap_def, (hc.done hret.symm).1, hpages.flatten hne, placeAt, if_neg h0]
    rw [Place.bytes] at hbytes ⊢
    simp only [List.append_assoc] at hbytes ⊢
    rw [hbytes]

/-- A send keeps the elements of a list, whatever it returns. -/
theorem length_of_send {opcode : CmdListOpcode} {broken : Bool} {io : ℕ → PageIO}
    {ret : NNPError} {sent : List Sent}
    (h : l.sendToCard opcode broken io = some (ret, sent, l')) :
    l'.vec.length = l.vec.length := by
  cases sendToCard_sends h with
  | refused => rfl
  | noEdits => rfl
  | pages _ _ _ hc =>
    have hlen := congrArg List.length hc.kept
    rw [List.length_map, List.length_map] at hlen
    simp only
    split
    · exact hlen
    · rwa [List.length_map]

theorem exists_send (h : l.vec ≠ []) (opcode : CmdListOpcode) (io : ℕ → PageIO)
    (hio : ∀ k, (io k).Succeeds) :
    ∃ sent l', l.sendToCard opcode false io = some (.noError, sent, l') := by
  by_cases h0 : l.numEdits = 0
  · have hemp : l.vec.isEmpty = false := by simpa using h
    exact ⟨[⟨l.cmdMsg opcode, []⟩], l, by simp [sendToCard, hemp, h0, (hio 0).2]⟩
  · obtain ⟨pages, hpages⟩ := exists_pages l.numEdits true l.vec
    obtain ⟨out, hc, hsend⟩ := sendToCard_carries opcode io h h0 hpages
    exact ⟨_, _, hc.succeeds hio ▸ hsend⟩

end CmdList

section Batches

/-- A command without its place in a list, and whether packing looks at it. -/
def unplaced (s : SchedParams × Bool) : SchedParams × Bool := (unindexed s.1, s.2)

theorem slots_setIndex (j : UInt16) (e : SchedParams) :
    (e.setIndex j).slots.map unplaced = e.slots.map unplaced := by
  cases e <;> rfl

theorem closeBatch_slots {batch : List CopyParams} (hne : batch ≠ [])
    (hlen : batch.length ≤ maxCopiesPerBatch) :
    (closeBatch batch).slots.map unplaced =
      ((batch.map SchedParams.copy).flatMap slots).map unplaced := by
  have hone : (batch.map SchedParams.copy).flatMap slots =
      batch.map fun c => (SchedParams.copy c, true) := by
    rw [List.flatMap_map]
    exact List.flatMap_pure_eq_map _ batch
  unfold closeBatch
  split
  · rfl
  next =>
    have hn : (UInt16.ofNat batch.length) ≠ 0 := by
      intro h
      have := congrArg UInt16.toNat h
      rw [UInt16.toNat_ofNat_of_lt' (Nat.lt_of_le_of_lt hlen (by decide))] at this
      exact hne (List.length_eq_zero_iff.mp this)
    rw [hone]
    simp only [slots, CopyListParams.create, List.map_map]
    refine map_mapIdx_eq (fun i c => ?_) batch
    simp [unplaced, unindexed, SchedParams.setIndex, CopyParams.setIndex, hn]

theorem batchLoop_slots (es : List SchedParams) {batch : List CopyParams}
    (hlen : batch.length ≤ maxCopiesPerBatch) (h : es ≠ [] ∨ batch = []) :
    ((batchLoop es batch).flatMap slots).map unplaced =
      ((batch.map SchedParams.copy ++ es).flatMap slots).map unplaced := by
  induction es generalizing batch with
  | nil =>
    obtain rfl : batch = [] := h.neg_resolve_left (by simp)
    rfl
  | cons e es ih =>
    have hrest : ((batchLoop es []).flatMap slots).map unplaced =
        (es.flatMap slots).map unplaced := ih (Nat.zero_le _) (.inr rfl)
    rw [batchLoop]
    split
    next c hj =>
      obtain ⟨rfl, hlen'⟩ := joinsBatch_eq_some hj
      split
      next hemp =>
        obtain rfl : es = [] := List.isEmpty_iff.mp hemp
        simpa using closeBatch_slots (List.append_ne_nil_of_right_ne_nil _ (by simp)) hlen'
      next hne =>
        have hne' : es ≠ [] := fun h => hne (List.isEmpty_iff.mpr h)
        rw [ih hlen' (.inl hne')]
        simp
    next =>
      split
      next hb =>
        obtain rfl : batch = [] := List.isEmpty_iff.mp hb
        simpa using congrArg (e.slots.map unplaced ++ ·) hrest
      next hb =>
        have hne : batch ≠ [] := fun h => hb (List.isEmpty_iff.mpr h)
        have hclose := closeBatch_slots hne hlen
        simp only [List.flatMap_cons, List.map_append, hclose, hrest, List.flatMap_append]

theorem CmdList.optimizeBatchCopies_slots (l : CmdList) :
    (l.optimizeBatchCopies.vec.flatMap slots).map unplaced =
      (l.vec.flatMap slots).map unplaced := by
  have hmap : l.optimizeBatchCopies.vec.map (fun e => e.slots.map unplaced) =
      (batchLoop l.vec []).map fun e => e.slots.map unplaced := by
    refine map_mapIdx_eq (fun i e => ?_) _
    exact slots_setIndex _ e
  rw [List.map_flatMap, List.flatMap_def, hmap, ← List.flatMap_def, ← List.map_flatMap,
    batchLoop_slots l.vec (Nat.zero_le _) (.inr rfl)]
  rfl

end Batches

end NNPIHost.CommandList

import NNPIHost.CommandList.Batches
import NNPIHost.CommandList.Edits

/-! # Copies regrouped in copy lists

The loop of `optimize_batch_copies` with its 16-bit indices ends and computes the batches. The
new list has the commands of the old one in their order, and an overwrite by the position of a
command still reaches that command.
-/

namespace NNPIHost.CommandList

namespace SchedParams

/-- The commands that a user appended for an element. -/
def commands : SchedParams → List SchedParams
  | .copyList l => l.copies.map .copy
  | e => [e]

/-- A command without its place in a list. -/
def unindexed (e : SchedParams) : SchedParams := e.setIndex 0

/-- A command after `get_cmd_for_overwrite` and the overwrite that follows it. -/
def overwritten (onCopy : CopyParams → CopyParams) (onInfReq : InfReqParams → InfReqParams) :
    SchedParams → SchedParams
  | .copy c => .copy (onCopy c.getCmdForOverwrite)
  | .copyList l => .copyList l
  | .infReq r => .infReq (onInfReq r.getCmdForOverwrite)

/-- A copy list has several copies, all of one direction between host and card, and each
knows its place. -/
def WellBatched : SchedParams → Prop
  | .copyList l => 2 ≤ l.copies.length ∧
      (∃ isC2h, ∀ c ∈ l.copies, c.copy.isD2d = false ∧ c.copy.isC2h = isC2h) ∧
      ∀ (j : ℕ) (c : CopyParams), l.copies[j]? = some c → c.idx.toNat = j
  | _ => True

end SchedParams

/-- The variables of `optimize_batch_copies` between two rounds of its loop. -/
structure BatchScan where
  i : UInt16
  batchStartIdx : UInt16
  firstCopyCmd : Option CopyParams
  newList : List SchedParams
  newIdx : UInt16

namespace BatchScan

def create : BatchScan := ⟨0, 0, none, [], 0⟩

def push (s : BatchScan) (e : SchedParams) : BatchScan :=
  { s with newList := s.newList ++ [e.setIndex s.newIdx], newIdx := s.newIdx + 1 }

/-- A batch of one copy stays as it is; the number of copies is passed in 16 bits. -/
def pushBatch (s : BatchScan) (vec : List SchedParams) (batchSize : ℕ) : BatchScan :=
  let batch := vec.drop s.batchStartIdx.toNat
  if batchSize = 1 then
    match batch with
    | e :: _ => s.push e
    | [] => s
  else
    s.push (.copyList
      (.create ((batch.take (UInt16.ofNat batchSize).toNat).filterMap SchedParams.copy?)))

/-- The first half of a round: whether the element breaks the batch, or starts one. -/
def enter (s : BatchScan) : SchedParams → Bool × BatchScan
  | .copy c =>
      if c.copy.isD2d then (true, s)
      else
        match s.firstCopyCmd with
        | none => (false, { s with batchStartIdx := s.i, firstCopyCmd := some c })
        | some first =>
            (!(c.copy.isC2h == first.copy.isC2h &&
              s.i.toNat - s.batchStartIdx.toNat < maxCopiesPerBatch), s)
  | _ => (true, s)

/-- The second half: an element outside of a batch is moved, and a batch is closed when it is
broken or at the last element. -/
def leave (s : BatchScan) (vec : List SchedParams) (e : SchedParams) (breakBatch : Bool) :
    BatchScan :=
  if s.firstCopyCmd.isNone then s.push e
  else if breakBatch ∨ s.i.toNat = vec.length - 1 then
    let batchSize := s.i.toNat - s.batchStartIdx.toNat + if breakBatch then 0 else 1
    let closed := { s.pushBatch vec batchSize with firstCopyCmd := none }
    if breakBatch then closed.push e else closed
  else s

def round (s : BatchScan) (vec : List SchedParams) (e : SchedParams) : BatchScan :=
  match s.enter e with
  | (breakBatch, s) => { s.leave vec e breakBatch with i := s.i + 1 }

/-- The loop, for at most the given number of rounds. -/
def scan (vec : List SchedParams) : ℕ → BatchScan → Option BatchScan
  | 0, s => if s.i.toNat < vec.length then none else some s
  | n + 1, s =>
      match vec[s.i.toNat]? with
      | none => some s
      | some e => scan vec n (s.round vec e)

end BatchScan

/-- `optimize_batch_copies`, for at most one round per element. -/
def CmdList.optimizeScan (l : CmdList) : Option CmdList :=
  (BatchScan.scan l.vec l.vec.length .create).map fun s =>
    { l with vec := s.newList, numEdits := UInt16.ofNat s.newList.length }

namespace BatchScan

variable {s : BatchScan} {vec done rest : List SchedParams} {batch : List CopyParams}
  {e : SchedParams}

theorem pushBatch_eq (hne : batch ≠ []) (hlen : batch.length ≤ maxCopiesPerBatch)
    (hvec : ∃ rest, vec.drop s.batchStartIdx.toNat = batch.map .copy ++ rest) :
    s.pushBatch vec batch.length = s.push (closeBatch batch) := by
  obtain ⟨rest, hvec⟩ := hvec
  have hn : (UInt16.ofNat batch.length).toNat = batch.length :=
    UInt16.toNat_ofNat_of_lt' (Nat.lt_of_le_of_lt hlen (by decide))
  have htake : ((batch.map SchedParams.copy ++ rest).take batch.length).filterMap
      SchedParams.copy? = batch := by
    rw [List.take_left' (List.length_map _), List.filterMap_map]
    exact List.filterMap_some
  rw [pushBatch, hvec, hn, htake]
  rcases batch with _ | ⟨c, _ | ⟨d, batch⟩⟩
  · exact absurd rfl hne
  · rfl
  · rfl

/-- The scan stands before `rest`, after an open batch. -/
structure Before (s : BatchScan) (vec done : List SchedParams) (batch : List CopyParams)
    (rest : List SchedParams) : Prop where
  vec : vec = done ++ batch.map .copy ++ rest
  i : s.i.toNat = done.length + batch.length
  first : s.firstCopyCmd = batch.head?
  start : batch ≠ [] → s.batchStartIdx.toNat = done.length
  newIdx : s.newIdx = UInt16.ofNat s.newList.length

/-- The elements that are still to be moved, with their places behind the new list. -/
def placed (s : BatchScan) (es : List SchedParams) : List SchedParams :=
  es.mapIdx fun j e => e.setIndex (UInt16.ofNat (s.newList.length + j))

theorem push_newIdx (h : s.newIdx = UInt16.ofNat s.newList.length) (e : SchedParams) :
    (s.push e).newIdx = UInt16.ofNat (s.push e).newList.length := by
  simp only [push, h, List.length_append, List.length_singleton, UInt16.ofNat_add]
  rfl

theorem newList_append_placed (h : s.newIdx = UInt16.ofNat s.newList.length)
    (e : SchedParams) (es : List SchedParams) :
    s.newList ++ s.placed (e :: es) = (s.push e).newList ++ (s.push e).placed es := by
  simp only [placed, push, List.mapIdx_cons, List.append_assoc, List.singleton_append,
    List.length_append, List.length_singleton, Nat.add_zero, h]
  congr 3
  ext j e' : 2
  rw [Nat.add_assoc, Nat.add_comm j 1]

theorem enter_of_join (h : s.Before vec done batch (e :: rest)) {c : CopyParams}
    (hj : joinsBatch batch e = some c) :
    ∃ start, start.toNat = done.length ∧ s.enter e =
      (false, { s with batchStartIdx := start, firstCopyCmd := (batch ++ [c]).head? }) := by
  obtain ⟨rfl, _⟩ := joinsBatch_eq_some hj
  cases hd : c.copy.isD2d with
  | true => simp [joinsBatch, hd] at hj
  | false =>
    rcases batch with _ | ⟨first, batch⟩
    · refine ⟨s.i, by simpa using h.i, ?_⟩
      have hfirst : s.firstCopyCmd = none := h.first
      simp [enter, hd, hfirst]
    · have hfirst : s.firstCopyCmd = some first := h.first
      have hstart := h.start (List.cons_ne_nil _ _)
      refine ⟨s.batchStartIdx, hstart, ?_⟩
      have hi := h.i
      have hlen : s.i.toNat - s.batchStartIdx.toNat = (first :: batch).length := by omega
      simp only [joinsBatch, hd, Bool.false_eq_true, if_false] at hj
      rw [Option.ite_none_right_eq_some] at hj
      simp only [enter, hd, hfirst, hlen, Bool.false_eq_true, if_false, List.cons_append,
        List.head?_cons]
      rw [← hfirst]
      simpa [hj.1.1] using hj.1.2

theorem enter_of_break (h : s.Before vec done batch (e :: rest))
    (hj : joinsBatch batch e = none) : s.enter e = (true, s) := by
  cases e with
  | copy c =>
    cases hd : c.copy.isD2d with
    | true => simp [enter, hd]
    | false =>
      rcases batch with _ | ⟨first, batch⟩
      · simp [joinsBatch, hd] at hj
      · have hfirst : s.firstCopyCmd = some first := h.first
        have hi := h.i
        have hstart := h.start (List.cons_ne_nil _ _)
        have hlen : s.i.toNat - s.batchStartIdx.toNat = (first :: batch).length := by omega
        simp only [joinsBatch, hd, Bool.false_eq_true, if_false, ite_eq_right_iff,
          reduceCtorEq, imp_false] at hj
        simp only [enter, hd, hfirst, hlen, Bool.false_eq_true, if_false]
        simpa [imp_iff_not_or] using hj
  | copyList l => rfl
  | infReq r => rfl

theorem pushBatch_of_before (s : BatchScan) (start : UInt16) (first : Option CopyParams) {n : ℕ}
    (hvec : vec = done ++ batch.map .copy ++ rest) (hstart : start.toNat = done.length)
    (hn : n = batch.length) (hne : batch ≠ []) (hlen : batch.length ≤ maxCopiesPerBatch) :
    ({ s with batchStartIdx := start, firstCopyCmd := first } : BatchScan).pushBatch vec n =
      { s.push (closeBatch batch) with batchStartIdx := start, firstCopyCmd := first } := by
  subst hn
  refine pushBatch_eq hne hlen ⟨rest, ?_⟩
  rw [hvec, hstart, List.append_assoc, List.drop_left]

theorem Before.length (h : s.Before vec done batch (e :: rest)) :
    vec.length = done.length + batch.length + 1 + rest.length := by
  simp only [h.vec, List.length_append, List.length_map, List.length_cons]
  omega

theorem Before.next (h : s.Before vec done batch (e :: rest)) (hsmall : vec.length ≤ 0xffff) :
    (s.i + 1).toNat = s.i.toNat + 1 := by
  have hi := h.i
  have hlen := h.length
  rw [UInt16.toNat_add, UInt16.toNat_one, Nat.mod_eq_of_lt (by omega)]

theorem round_of_join (hsmall : vec.length ≤ 0xffff) (h : s.Before vec done batch (e :: rest))
    {c : CopyParams} (hj : joinsBatch batch e = some c) :
    ∃ done' batch', (s.round vec e).Before vec done' batch' rest ∧
      (s.round vec e).newList ++ (s.round vec e).placed (batchLoop rest batch') =
        s.newList ++ s.placed (batchLoop (e :: rest) batch) := by
  have hi := h.i
  have hlen := h.length
  have hnext := h.next hsmall
  have hlast : s.i.toNat = vec.length - 1 ↔ rest = [] := by
    rw [← List.length_eq_zero_iff]
    omega
  obtain ⟨rfl, hmax⟩ := joinsBatch_eq_some hj
  obtain ⟨start, hstart, henter⟩ := enter_of_join h hj
  have hvec : vec = done ++ (batch ++ [c]).map .copy ++ rest := by simpa using h.vec
  have hsome : (batch ++ [c]).head?.isNone = false := by cases batch <;> rfl
  simp only [round, henter, leave, hsome, Bool.false_eq_true, if_false, false_or, hlast]
  by_cases hrest : rest = []
  · subst hrest
    have hsize : s.i.toNat - start.toNat + 1 = (batch ++ [c]).length := by
      rw [List.length_append, List.length_singleton]
      omega
    refine ⟨done ++ (batch ++ [c]).map .copy, [], ?_, ?_⟩
    · simp only [if_true, pushBatch_of_before _ _ _ hvec hstart hsize (by simp) hmax]
      refine ⟨by simpa using hvec, ?_, rfl, fun hne => absurd rfl hne, push_newIdx h.newIdx _⟩
      simp [hnext, hi]
      omega
    · have hloop : batchLoop [.copy c] batch = [closeBatch (batch ++ [c])] := by
        rw [batchLoop, hj]
        rfl
      rw [hloop, newList_append_placed h.newIdx]
      simp only [if_true, pushBatch_of_before _ _ _ hvec hstart hsize (by simp) hmax]
      rfl
  · have hloop : batchLoop (.copy c :: rest) batch = batchLoop rest (batch ++ [c]) := by
      rw [batchLoop, hj]
      simp [hrest]
    refine ⟨done, batch ++ [c], ?_, ?_⟩
    · rw [if_neg hrest]
      refine ⟨hvec, ?_, rfl, fun _ => hstart, h.newIdx⟩
      simp [hnext, hi]
      omega
    · rw [hloop, if_neg hrest]
      rfl

theorem round_of_break (hsmall : vec.length ≤ 0xffff) (h : s.Before vec done batch (e :: rest))
    (hj : joinsBatch batch e = none) :
    ∃ done' batch', (s.round vec e).Before vec done' batch' rest ∧
      (s.round vec e).newList ++ (s.round vec e).placed (batchLoop rest batch') =
        s.newList ++ s.placed (batchLoop (e :: rest) batch) := by
  have hi := h.i
  have hlen := h.length
  have hnext := h.next hsmall
  have hround := enter_of_break h hj
  by_cases hb : batch = []
  · subst hb
    have hfirst : s.firstCopyCmd = none := h.first
    have hloop : batchLoop (e :: rest) [] = e :: batchLoop rest [] := by
      rw [batchLoop, hj]
      rfl
    refine ⟨done ++ [e], [], ?_, ?_⟩
    · simp only [round, hround, leave, hfirst, Option.isNone_none, if_true]
      refine ⟨by simpa using h.vec, ?_, hfirst, fun hne => absurd rfl hne, push_newIdx h.newIdx e⟩
      simpa [hnext] using hi
    · rw [hloop, newList_append_placed h.newIdx]
      simp only [round, hround, leave, hfirst, Option.isNone_none, if_true]
      rfl
  · have hsome : s.firstCopyCmd.isNone = false := by
      rw [h.first]
      cases batch with
      | nil => exact absurd rfl hb
      | cons first batch => rfl
    have hstart := h.start hb
    have hsize : s.i.toNat - s.batchStartIdx.toNat + 0 = batch.length := by omega
    have hmax : batch.length ≤ maxCopiesPerBatch := by
      rw [maxCopiesPerBatch]
      omega
    have hclose := pushBatch_of_before s _ s.firstCopyCmd h.vec hstart hsize hb hmax
    have hloop : batchLoop (e :: rest) batch = closeBatch batch :: e :: batchLoop rest [] := by
      rw [batchLoop, hj]
      simp [hb]
    refine ⟨done ++ batch.map .copy ++ [e], [], ?_, ?_⟩
    · simp only [round, hround, leave, hsome, Bool.false_eq_true, if_false, true_or, if_true]
      rw [hclose]
      refine ⟨by simpa using h.vec, ?_, rfl, fun hne => absurd rfl hne,
        push_newIdx (push_newIdx h.newIdx _) e⟩
      simp [hnext, hi]
      omega
    · rw [hloop, newList_append_placed h.newIdx,
        newList_append_placed (push_newIdx h.newIdx _)]
      simp only [round, hround, leave, hsome, Bool.false_eq_true, if_false, true_or, if_true]
      rw [hclose]
      rfl

theorem round_spec (hsmall : vec.length ≤ 0xffff) (h : s.Before vec done batch (e :: rest)) :
    ∃ done' batch', (s.round vec e).Before vec done' batch' rest ∧
      (s.round vec e).newList ++ (s.round vec e).placed (batchLoop rest batch') =
        s.newList ++ s.placed (batchLoop (e :: rest) batch) := by
  cases hj : joinsBatch batch e with
  | some c => exact round_of_join hsmall h hj
  | none => exact round_of_break hsmall h hj

theorem scan_eq (hsmall : vec.length ≤ 0xffff) (h : s.Before vec done batch rest) :
    ∃ t, scan vec rest.length s = some t ∧
      t.newList = s.newList ++ s.placed (batchLoop rest batch) := by
  induction rest generalizing s done batch with
  | nil =>
    have hi : s.i.toNat = vec.length := by simp [h.vec, h.i]
    exact ⟨s, by simp [scan, hi], by simp [batchLoop, placed]⟩
  | cons e rest ih =>
    have he : vec[s.i.toNat]? = some e := by
      rw [h.vec, h.i, List.getElem?_append_right (by simp)]
      simp
    obtain ⟨done', batch', hbefore, hlist⟩ := round_spec hsmall h
    obtain ⟨t, ht, hlist'⟩ := ih hbefore
    exact ⟨t, by simp only [List.length_cons, scan, he, ht], hlist'.trans hlist⟩

end BatchScan

theorem CmdList.optimizeScan_eq (l : CmdList) (hsmall : l.vec.length ≤ 0xffff) :
    l.optimizeScan = some l.optimizeBatchCopies := by
  have hbefore : BatchScan.create.Before l.vec [] [] l.vec :=
    ⟨rfl, rfl, rfl, fun hne => absurd rfl hne, rfl⟩
  obtain ⟨t, ht, hlist⟩ := BatchScan.scan_eq hsmall hbefore
  have hnew : t.newList =
      (batchLoop l.vec []).mapIdx fun i e => e.setIndex (UInt16.ofNat i) := by
    simpa [BatchScan.create, BatchScan.placed] using hlist
  rw [optimizeScan, ht, Option.map_some, hnew]
  rfl

namespace SchedParams

variable {e : SchedParams} {i : ℕ}

theorem commands_length (e : SchedParams) : e.commands.length = e.numOfSubcmds := by
  cases e <;> simp [commands, numOfSubcmds]

theorem commands_setIndex (j : UInt16) (e : SchedParams) :
    (e.setIndex j).commands.map unindexed = e.commands.map unindexed := by
  cases e <;> rfl

theorem wellBatched_setIndex (j : UInt16) : (e.setIndex j).WellBatched ↔ e.WellBatched := by
  cases e <;> rfl

theorem edit_commands (e : SchedParams) (onCopy : CopyParams → CopyParams)
    (onInfReq : InfReqParams → InfReqParams) (he : i < e.numOfSubcmds) :
    (e.edit onCopy onInfReq i).map commands =
      e.commands[i]?.map fun c => e.commands.set i (c.overwritten onCopy onInfReq) := by
  cases e with
  | copy c =>
    obtain rfl : i = 0 := Nat.lt_one_iff.mp he
    rfl
  | copyList l =>
    have hi : i < l.copies.length := he
    simp only [edit, CopyListParams.getCmdForOverwrite, commands, List.getElem?_map,
      List.getElem?_eq_getElem hi, Option.map_some, Option.some.injEq]
    split <;> simp [overwritten]
  | infReq r =>
    obtain rfl : i = 0 := Nat.lt_one_iff.mp he
    rfl

end SchedParams

open SchedParams (commands unindexed)

theorem editAt_commands (onCopy : CopyParams → CopyParams)
    (onInfReq : InfReqParams → InfReqParams) (es : List SchedParams) (u : ℕ) :
    (editAt onCopy onInfReq es u).map (fun x => x.2.flatMap commands) =
      (es.flatMap commands)[u]?.map fun c =>
        (es.flatMap commands).set u (c.overwritten onCopy onInfReq) := by
  induction es generalizing u with
  | nil => rfl
  | cons e es ih =>
    have hlen := e.commands_length
    rw [editAt, List.flatMap_cons]
    by_cases hu : e.numOfSubcmds ≤ u
    · have hrest := congrArg (Option.map (e.commands ++ ·)) (ih (u - e.numOfSubcmds))
      rw [Option.map_map, Option.map_map] at hrest
      rw [if_pos hu, List.getElem?_append_right (hlen ▸ hu), hlen, Option.map_map]
      refine hrest.trans ?_
      congr 1
      ext c : 1
      rw [List.set_append_right _ _ (hlen ▸ hu), hlen]
      rfl
    · have hlt : u < e.commands.length := by omega
      have hedit := congrArg (Option.map (· ++ es.flatMap commands))
        (e.edit_commands onCopy onInfReq (Nat.lt_of_not_le hu))
      rw [Option.map_map, Option.map_map] at hedit
      rw [if_neg hu, List.getElem?_append_left hlt, Option.map_map]
      refine hedit.trans ?_
      congr 1
      ext c : 1
      exact (List.set_append_left _ _ hlt).symm

theorem map_mapIdx_eq {α β γ : Type*} {f : ℕ → α → β} {g : β → γ} {h : α → γ}
    (hf : ∀ i a, g (f i a) = h a) (as : List α) : (as.mapIdx f).map g = as.map h := by
  apply List.ext_getElem?
  intro i
  simp [Function.comp_def, hf]

theorem closeBatch_commands (batch : List CopyParams) :
    (closeBatch batch).commands.map unindexed = (batch.map SchedParams.copy).map unindexed := by
  unfold closeBatch
  split
  · rfl
  next =>
    simp only [commands, CopyListParams.create, List.map_map]
    refine map_mapIdx_eq (fun i c => ?_) batch
    rfl

theorem flatMap_batchLoop (es : List SchedParams) (batch : List CopyParams)
    (h : es ≠ [] ∨ batch = []) :
    ((batchLoop es batch).flatMap commands).map unindexed =
      (batch.map SchedParams.copy ++ es.flatMap commands).map unindexed := by
  induction es generalizing batch with
  | nil =>
    obtain rfl : batch = [] := h.neg_resolve_left (by simp)
    rfl
  | cons e es ih =>
    have hrest := ih [] (.inr rfl)
    rw [batchLoop]
    split
    next c hj =>
      obtain ⟨rfl, _⟩ := joinsBatch_eq_some hj
      split
      next hemp =>
        obtain rfl : es = [] := List.isEmpty_iff.mp hemp
        simpa [commands] using closeBatch_commands (batch ++ [c])
      next hne =>
        have hne' : es ≠ [] := fun h => hne (List.isEmpty_iff.mpr h)
        rw [ih _ (.inl hne')]
        simp [commands]
    next =>
      split
      next hb =>
        obtain rfl : batch = [] := List.isEmpty_iff.mp hb
        simpa using hrest
      next =>
        simp only [List.flatMap_cons, List.map_append, closeBatch_commands, hrest]
        simp

theorem CmdList.flatMap_optimizeBatchCopies (l : CmdList) :
    (l.optimizeBatchCopies.vec.flatMap commands).map unindexed =
      (l.vec.flatMap commands).map unindexed := by
  have hmap : l.optimizeBatchCopies.vec.map (fun e => e.commands.map unindexed) =
      (batchLoop l.vec []).map fun e => e.commands.map unindexed := by
    refine map_mapIdx_eq (fun i e => ?_) _
    exact SchedParams.commands_setIndex _ e
  rw [List.map_flatMap, List.flatMap_def, hmap, ← List.flatMap_def, ← List.map_flatMap,
    flatMap_batchLoop _ [] (.inr rfl)]
  rfl

theorem flatMap_commands {es : List SchedParams} (hnew : ∀ e ∈ es, e.type ≠ .copyList) :
    es.flatMap commands = es := by
  induction es with
  | nil => rfl
  | cons e es ih =>
    obtain ⟨he, hes⟩ := List.forall_mem_cons.mp hnew
    rw [List.flatMap_cons, ih hes]
    cases e with
    | copy c => rfl
    | copyList l => exact absurd rfl he
    | infReq r => rfl

/-- Copies between host and card that all go one way. -/
def OneWay (batch : List CopyParams) : Prop :=
  ∃ isC2h, ∀ c ∈ batch, c.copy.isD2d = false ∧ c.copy.isC2h = isC2h

theorem oneWay_nil : OneWay [] := ⟨false, by simp⟩

theorem oneWay_of_joins {batch : List CopyParams} {e : SchedParams} {c : CopyParams}
    (hb : OneWay batch) (hj : joinsBatch batch e = some c) : OneWay (batch ++ [c]) := by
  obtain ⟨rfl, _⟩ := joinsBatch_eq_some hj
  simp only [joinsBatch] at hj
  split at hj
  · cases hj
  next hd =>
    have hd' : c.copy.isD2d = false := by simpa using hd
    rcases batch with _ | ⟨first, batch⟩
    · exact ⟨c.copy.isC2h, by simpa using hd'⟩
    · obtain ⟨isC2h, hall⟩ := hb
      rw [Option.ite_none_right_eq_some] at hj
      refine ⟨isC2h, List.forall_mem_append.mpr ⟨hall, List.forall_mem_singleton.mpr ⟨hd', ?_⟩⟩⟩
      exact hj.1.1.trans (hall first List.mem_cons_self).2

theorem closeBatch_wellBatched {batch : List CopyParams} (hne : batch ≠ [])
    (hlen : batch.length ≤ maxCopiesPerBatch) (hb : OneWay batch) :
    (closeBatch batch).WellBatched := by
  unfold closeBatch
  split
  · trivial
  next hmany =>
    obtain ⟨isC2h, hall⟩ := hb
    refine ⟨?_, ⟨isC2h, fun c hc => ?_⟩, fun j c hc => ?_⟩
    · rcases batch with _ | ⟨c, _ | ⟨d, batch⟩⟩
      · exact absurd rfl hne
      · exact absurd rfl (hmany c)
      · simp [CopyListParams.create]
    · obtain ⟨i, hi, rfl⟩ := List.mem_mapIdx.mp hc
      exact hall batch[i] (List.getElem_mem hi)
    · simp only [CopyListParams.create, List.getElem?_mapIdx, Option.map_eq_some_iff] at hc
      obtain ⟨c', hc', rfl⟩ := hc
      have hj : j < batch.length := (List.getElem?_eq_some_iff.mp hc').1
      exact UInt16.toNat_ofNat_of_lt' (Nat.lt_of_lt_of_le hj (Nat.le_trans hlen (by decide)))

theorem batchLoop_wellBatched {es : List SchedParams} (hnew : ∀ e ∈ es, e.type ≠ .copyList)
    {batch : List CopyParams} (hb : OneWay batch) (hlen : batch.length ≤ maxCopiesPerBatch) :
    ∀ e ∈ batchLoop es batch, e.WellBatched := by
  induction es generalizing batch with
  | nil => simp [batchLoop]
  | cons e es ih =>
    obtain ⟨he, hes⟩ := List.forall_mem_cons.mp hnew
    have hone : e.WellBatched := by
      cases e with
      | copy c => trivial
      | copyList l => exact absurd rfl he
      | infReq r => trivial
    have hrest := ih hes oneWay_nil (Nat.zero_le _)
    rw [batchLoop]
    split
    next c hj =>
      have hb' := oneWay_of_joins hb hj
      have hlen' := (joinsBatch_eq_some hj).2
      split
      · exact List.forall_mem_singleton.mpr (closeBatch_wellBatched (by simp) hlen' hb')
      · exact ih hes hb' hlen'
    next =>
      split
      · exact List.forall_mem_cons.mpr ⟨hone, hrest⟩
      next hne =>
        have hclose := closeBatch_wellBatched (by simpa using hne) hlen hb
        exact List.forall_mem_cons.mpr ⟨hclose, List.forall_mem_cons.mpr ⟨hone, hrest⟩⟩

/-- Regrouping ends, keeps the commands in their order, puts several copies of one direction
into each copy list, numbers the elements, and every user index still means its command. -/
theorem optimizeScan_regroups (l : CmdList) (hsmall : l.vec.length ≤ 0xffff)
    (hnew : ∀ e ∈ l.vec, e.type ≠ .copyList) :
    ∃ l', l.optimizeScan = some l' ∧
      (l'.vec.flatMap commands).map unindexed = l.vec.map unindexed ∧
      (∀ e ∈ l'.vec, e.WellBatched) ∧
      (∀ (i : ℕ) (e : SchedParams), l'.vec[i]? = some e → e.idx.toNat = i) ∧
      l'.numEdits.toNat = l'.vec.length ∧
      ∀ usrIdx : UInt16, ∃ found : Option SchedParams,
        found.map unindexed = l.vec[usrIdx.toNat]?.map unindexed ∧
        ∀ onCopy onInfReq, (editAt onCopy onInfReq l'.vec usrIdx.toNat).map
            (fun x => x.2.flatMap commands) =
          found.map fun c =>
            (l'.vec.flatMap commands).set usrIdx.toNat (c.overwritten onCopy onInfReq) := by
  have hshort : l.optimizeBatchCopies.vec.length ≤ 0xffff := by
    rw [CmdList.optimizeBatchCopies, List.length_mapIdx]
    exact Nat.le_trans (length_batchLoop_le l.vec []) (by simpa using hsmall)
  have hflat : (l.optimizeBatchCopies.vec.flatMap commands).map unindexed =
      l.vec.map unindexed := by
    rw [l.flatMap_optimizeBatchCopies, flatMap_commands hnew]
  refine ⟨_, l.optimizeScan_eq hsmall, hflat, ?_, ?_, ?_, fun usrIdx => ?_⟩
  · intro e he
    obtain ⟨i, hi, rfl⟩ := List.mem_mapIdx.mp he
    rw [SchedParams.wellBatched_setIndex]
    exact batchLoop_wellBatched hnew oneWay_nil (Nat.zero_le _) _ (List.getElem_mem hi)
  · intro i e he
    have hi := (List.getElem?_eq_some_iff.mp he).1
    simp only [CmdList.optimizeBatchCopies, List.getElem?_mapIdx, Option.map_eq_some_iff] at he
    obtain ⟨e', _, rfl⟩ := he
    rw [SchedParams.idx_setIndex]
    exact UInt16.toNat_ofNat_of_lt' (Nat.lt_of_lt_of_le hi (Nat.le_trans hshort (by decide)))
  · exact UInt16.toNat_ofNat_of_lt' (Nat.lt_of_le_of_lt hshort (by decide))
  · refine ⟨(l.optimizeBatchCopies.vec.flatMap commands)[usrIdx.toNat]?, ?_,
      fun onCopy onInfReq => editAt_commands onCopy onInfReq _ _⟩
    rw [← List.getElem?_map, hflat, List.getElem?_map]

/-- Two copies to the card, a copy back, and an infer request. -/
def mixedList : CmdList :=
  let copy (isC2h : Bool) : SchedParams := .copy (.create ⟨0, isC2h, false, 64⟩ 0 64)
  { CmdList.create 0 0 true with
    vec := [copy false, copy false, copy true, .infReq (.create 0 0 none)], numEdits := 4 }

theorem mixedList_regrouped : ∃ l', mixedList.optimizeScan = some l' ∧
    (l'.vec.flatMap commands).map unindexed = mixedList.vec.map unindexed ∧
    l'.numEdits.toNat = l'.vec.length := by
  obtain ⟨l', hl, hflat, _, _, hn, _⟩ := optimizeScan_regroups mixedList (by decide) (by decide)
  exact ⟨l', hl, hflat, hn⟩

end NNPIHost.CommandList

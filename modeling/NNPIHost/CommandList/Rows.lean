import NNPIHost.CommandList.Regroup
import NNPIHost.Store.Rows

/-! # Neighbouring copies in one copy list

Copies of one direction that follow each other share a copy list unless the first of them broke
the batch of the other direction: it is moved alone and starts no batch. In a row of copies
between host and card this keeps together exactly the neighbours that go as the row began.
-/

namespace NNPIHost.CommandList

open SchedParams (commands unindexed)
open Store (rowWayAt groupWay groupWayAt SameWay)

/-- The direction of a copy between host and card: whether it goes to the host. -/
def SchedParams.direction? : SchedParams → Option Bool
  | .copy c => if c.copy.isD2d then none else some c.copy.isC2h
  | _ => none

def directions (es : List SchedParams) : List (Option Bool) := es.map SchedParams.direction?

/-- The number of commands before an element. -/
def position (es : List SchedParams) (k : ℕ) : ℕ := ((es.take k).flatMap commands).length

/-- The command at a position and the one before it are in one copy list. -/
def SharesCopyList (es : List SchedParams) (p : ℕ) : Prop :=
  ∃ (k : ℕ) (l : CopyListParams), es[k]? = some (.copyList l) ∧
    position es k < p ∧ p < position es k + l.copies.length

/-- The direction of the copies of an open batch. -/
def batchWay (batch : List CopyParams) : Option Bool := batch.head?.map fun c => c.copy.isC2h

variable {es es' : List SchedParams} {e : SchedParams} {batch : List CopyParams} {c : CopyParams}
  {k p : ℕ}

@[simp] theorem position_zero (es : List SchedParams) : position es 0 = 0 := rfl

@[simp] theorem position_cons (e : SchedParams) (es : List SchedParams) (k : ℕ) :
    position (e :: es) (k + 1) = e.commands.length + position es k := by
  simp [position]

theorem not_sharesCopyList_zero : ¬ SharesCopyList es 0 := by
  rintro ⟨k, l, _, hlt, _⟩
  exact absurd hlt (Nat.not_lt_zero _)

theorem sharesCopyList_cons :
    SharesCopyList (e :: es) (e.commands.length + p) ↔ SharesCopyList es p := by
  constructor
  · rintro ⟨_ | k, l, hk, hlt, hp⟩
    · obtain rfl : e = .copyList l := Option.some.inj hk
      have hlen : (SchedParams.copyList l).commands.length = l.copies.length := List.length_map _
      rw [position_zero] at hp
      omega
    · rw [position_cons] at hlt hp
      exact ⟨k, l, hk, by omega, by omega⟩
  · rintro ⟨k, l, hk, hlt, hp⟩
    refine ⟨k + 1, l, hk, ?_⟩
    rw [position_cons]
    omega

theorem length_closeBatch (batch : List CopyParams) :
    (closeBatch batch).commands.length = batch.length := by
  simpa using congrArg List.length (closeBatch_commands batch)

theorem sharesCopyList_closeBatch (h0 : 0 < p) (hp : p < batch.length) :
    SharesCopyList (closeBatch batch :: es) p := by
  refine ⟨0, .create batch, ?_, h0, by simpa [CopyListParams.create] using hp⟩
  rcases batch with _ | ⟨c, _ | ⟨d, batch⟩⟩
  · exact absurd hp (Nat.not_lt_zero _)
  · exact absurd hp (Nat.not_lt_of_le h0)
  · rfl

theorem batchLoop_eq_cons (hne : es ≠ []) (hb : batch ≠ []) :
    ∃ cs es', batchLoop es batch = closeBatch (batch ++ cs) :: es' := by
  induction es generalizing batch with
  | nil => exact absurd rfl hne
  | cons e es ih =>
    rw [batchLoop]
    split
    next c _ =>
      split
      next => exact ⟨[c], [], rfl⟩
      next hes =>
        obtain ⟨cs, es', h⟩ := ih (by simpa using hes) (List.append_ne_nil_of_left_ne_nil hb [c])
        exact ⟨c :: cs, es', by simpa using h⟩
    next =>
      rw [if_neg (by simpa using hb)]
      exact ⟨[], _, by rw [List.append_nil]⟩

theorem direction_of_join (hj : joinsBatch batch e = some c) :
    e.direction? = some c.copy.isC2h ∧ (batch ≠ [] → batchWay batch = some c.copy.isC2h) := by
  obtain ⟨rfl, _⟩ := joinsBatch_eq_some hj
  simp only [joinsBatch] at hj
  split at hj
  · cases hj
  next hd =>
    refine ⟨by simp [SchedParams.direction?, hd], fun hne => ?_⟩
    rcases batch with _ | ⟨first, batch⟩
    · exact absurd rfl hne
    · rw [Option.ite_none_right_eq_some] at hj
      simp [batchWay, hj.1.1]

theorem direction_of_break (hlen : batch.length < maxCopiesPerBatch)
    (hj : joinsBatch batch e = none) :
    e.direction? = none ∨ ∃ w, e.direction? = some w ∧ batchWay batch = some (!w) := by
  cases e with
  | copyList l => exact .inl rfl
  | infReq r => exact .inl rfl
  | copy c =>
    cases hd : c.copy.isD2d with
    | true => exact .inl (by simp [SchedParams.direction?, hd])
    | false =>
      refine .inr ⟨c.copy.isC2h, by simp [SchedParams.direction?, hd], ?_⟩
      rcases batch with _ | ⟨first, batch⟩
      · simp [joinsBatch, hd] at hj
      · have hne : first.copy.isC2h ≠ c.copy.isC2h := by
          intro heq
          simp only [joinsBatch, hd, heq, hlen, true_and, Bool.false_eq_true, if_false, if_true,
            reduceCtorEq] at hj
        simpa [batchWay] using Bool.eq_not_of_ne hne

theorem groupWay_of_join (hj : joinsBatch batch e = some c) :
    groupWay (batchWay batch) e.direction? = batchWay (batch ++ [c]) := by
  obtain ⟨hdir, hway⟩ := direction_of_join hj
  rcases batch with _ | ⟨first, batch⟩
  · simp [hdir, groupWay, batchWay]
  · have hfirst : batchWay (first :: batch ++ [c]) = batchWay (first :: batch) := rfl
    rw [hfirst, hway (List.cons_ne_nil _ _), hdir]
    simp [groupWay]

theorem groupWay_of_break (hlen : batch.length < maxCopiesPerBatch)
    (hj : joinsBatch batch e = none) : groupWay (batchWay batch) e.direction? = none := by
  rcases direction_of_break hlen hj with hdir | ⟨w, hdir, hway⟩
  · rw [hdir]
    rfl
  · simp [hdir, hway, groupWay]

theorem sharesCopyList_open (hne : es ≠ []) (h0 : 0 < p) (hp : p < batch.length) :
    SharesCopyList (batchLoop es batch) p := by
  have hb : batch ≠ [] := List.ne_nil_of_length_pos (Nat.zero_lt_of_lt hp)
  obtain ⟨cs, es', hloop⟩ := batchLoop_eq_cons hne hb
  rw [hloop]
  apply sharesCopyList_closeBatch h0
  rw [List.length_append]
  omega

/-- The batch that is open before an element, and the element, go one way. -/
def JoinsOpen (way : Option Bool) (es : List SchedParams) (k : ℕ) : Prop :=
  ∃ w, ((directions es).take k).foldl groupWay way = some w ∧
    (directions es)[k]? = some (some w)

theorem joinsOpen_succ (way : Option Bool) :
    JoinsOpen way (e :: es) (k + 1) ↔ JoinsOpen (groupWay way e.direction?) es k := Iff.rfl

theorem joinsOpen_zero_of_join (hj : joinsBatch batch e = some c) :
    JoinsOpen (batchWay batch) (e :: es) 0 ↔ batch ≠ [] := by
  obtain ⟨hdir, hway⟩ := direction_of_join hj
  constructor
  · rintro ⟨w, hw, -⟩ rfl
    cases hw
  · intro hb
    exact ⟨c.copy.isC2h, hway hb, congrArg some hdir⟩

theorem not_joinsOpen_zero_of_break (hlen : batch.length < maxCopiesPerBatch)
    (hj : joinsBatch batch e = none) : ¬ JoinsOpen (batchWay batch) (e :: es) 0 := by
  rintro ⟨w, hw, hdir⟩
  have hdir' : e.direction? = some w := Option.some.inj hdir
  have hw' : batchWay batch = some w := hw
  have hgroup := groupWay_of_break hlen hj
  rw [hw', hdir'] at hgroup
  simp [groupWay] at hgroup

/-- An element shares a copy list with the command before it when it goes the way of the batch
that is open before it. -/
theorem sharesCopyList_batchLoop (hne : es ≠ [] ∨ batch = [])
    (hlen : batch.length + es.length ≤ maxCopiesPerBatch) (hk : k < es.length) :
    SharesCopyList (batchLoop es batch) (batch.length + position es k) ↔
      JoinsOpen (batchWay batch) es k := by
  induction es generalizing batch k with
  | nil => exact absurd hk (Nat.not_lt_zero _)
  | cons e es ih =>
    have hlt : batch.length < maxCopiesPerBatch := by
      rw [List.length_cons] at hlen
      omega
    rw [batchLoop]
    split
    next c hj =>
      cases k with
      | zero =>
        rw [position_zero, Nat.add_zero, joinsOpen_zero_of_join hj]
        constructor
        · rintro hs rfl
          split at hs <;> exact not_sharesCopyList_zero hs
        · intro hb
          have hpos := List.length_pos_of_ne_nil hb
          split
          next => exact sharesCopyList_closeBatch hpos (by simp)
          next hes => exact sharesCopyList_open (by simpa using hes) hpos (by simp)
      | succ k =>
        obtain ⟨rfl, -⟩ := joinsBatch_eq_some hj
        have hk' : k < es.length := Nat.lt_of_succ_lt_succ hk
        have hes : es ≠ [] := List.ne_nil_of_length_pos (Nat.zero_lt_of_lt hk')
        have hlen' : (batch ++ [c]).length + es.length ≤ maxCopiesPerBatch := by
          simp only [List.length_append, List.length_cons, List.length_nil] at hlen ⊢
          omega
        have hpos : batch.length + position (.copy c :: es) (k + 1) =
            (batch ++ [c]).length + position es k := by
          simp [commands, Nat.add_assoc]
        rw [if_neg (by simpa using hes), hpos, ih (.inl hes) hlen' hk', joinsOpen_succ,
          groupWay_of_join hj]
    next hj =>
      cases k with
      | zero =>
        refine iff_of_false ?_ (not_joinsOpen_zero_of_break hlt hj)
        rw [position_zero, Nat.add_zero]
        split
        next hb =>
          obtain rfl : batch = [] := List.isEmpty_iff.mp hb
          exact not_sharesCopyList_zero
        next =>
          rw [← length_closeBatch batch, ← Nat.add_zero (closeBatch batch).commands.length,
            sharesCopyList_cons]
          exact not_sharesCopyList_zero
      | succ k =>
        -- no batch is open behind the element, whether or not one was open before it
        have hlen' : ([] : List CopyParams).length + es.length ≤ maxCopiesPerBatch := by
          simp only [List.length_cons, List.length_nil] at hlen ⊢
          omega
        have hrest := ih (.inr rfl) hlen' (Nat.lt_of_succ_lt_succ hk)
        rw [List.length_nil, Nat.zero_add] at hrest
        rw [joinsOpen_succ, groupWay_of_break hlt hj, position_cons]
        refine Iff.trans ?_ hrest
        split
        next hb =>
          obtain rfl : batch = [] := List.isEmpty_iff.mp hb
          rw [List.length_nil, Nat.zero_add, sharesCopyList_cons]
        next =>
          rw [← length_closeBatch batch, sharesCopyList_cons, sharesCopyList_cons]

theorem length_commands_setIndex (i : UInt16) (e : SchedParams) :
    (e.setIndex i).commands.length = e.commands.length := by
  cases e <;> rfl

theorem sharesCopyList_mapIdx (f : ℕ → UInt16) :
    SharesCopyList (es.mapIdx fun i e => e.setIndex (f i)) p ↔ SharesCopyList es p := by
  have hpos (k : ℕ) : position (es.mapIdx fun i e => e.setIndex (f i)) k = position es k := by
    have hmap : (es.mapIdx fun i e => e.setIndex (f i)).map (fun e => e.commands.length) =
        es.map fun e => e.commands.length :=
      map_mapIdx_eq (g := fun e : SchedParams => e.commands.length)
        (fun i e => length_commands_setIndex (f i) e) es
    simp only [position, List.length_flatMap, List.map_take, hmap]
  simp only [SharesCopyList, hpos, List.getElem?_mapIdx, Option.map_eq_some_iff]
  constructor
  · rintro ⟨k, l, ⟨e, he, hl⟩, hlt, hp⟩
    cases e with
    | copyList l' =>
      obtain rfl : { l' with idx := f k } = l := SchedParams.copyList.inj hl
      exact ⟨k, l', he, hlt, hp⟩
    | copy c => cases hl
    | infReq r => cases hl
  · rintro ⟨k, l, he, hlt, hp⟩
    exact ⟨k, { l with idx := f k }, ⟨_, he, rfl⟩, hlt, hp⟩

/-- Regrouping puts all neighbouring copies of one direction in one copy list exactly when, in
every row of copies between host and card, neighbours of one direction go as the row began. -/
theorem copies_share_list_iff (l : CmdList) (hsmall : l.vec.length ≤ 0xffff) :
    ∃ l', l.optimizeScan = some l' ∧
      (l'.vec.flatMap commands).map unindexed = (l.vec.flatMap commands).map unindexed ∧
      ((∀ (i : ℕ) (isC2h : Bool), SameWay (directions l.vec) i isC2h →
          SharesCopyList l'.vec (position l.vec (i + 1))) ↔
        ∀ (i : ℕ) (isC2h : Bool), SameWay (directions l.vec) i isC2h →
          rowWayAt (directions l.vec) (i + 1) = some isC2h) := by
  refine ⟨_, l.optimizeScan_eq hsmall, l.flatMap_optimizeBatchCopies, ?_⟩
  rw [← Store.pairs_grouped_iff]
  refine forall_congr' fun i => forall_congr' fun w => imp_congr_right fun hp => ?_
  have hi : i + 1 < l.vec.length := by
    simpa [directions] using (List.getElem?_eq_some_iff.mp hp.2).1
  have hlen : ([] : List CopyParams).length + l.vec.length ≤ maxCopiesPerBatch := by
    simpa [maxCopiesPerBatch] using hsmall
  have hshare := sharesCopyList_batchLoop (.inr rfl) hlen hi
  rw [List.length_nil, Nat.zero_add] at hshare
  rw [CmdList.optimizeBatchCopies, sharesCopyList_mapIdx, hshare]
  constructor
  · rintro ⟨v, hv, heq⟩
    rw [hp.2] at heq
    obtain rfl : w = v := Option.some.inj (Option.some.inj heq)
    exact hv
  · intro hv
    exact ⟨w, hv, hp.2⟩

theorem mixedList_copies_share_list_iff :
    ∃ l', mixedList.optimizeScan = some l' ∧
      ((∀ (i : ℕ) (isC2h : Bool), SameWay (directions mixedList.vec) i isC2h →
          SharesCopyList l'.vec (position mixedList.vec (i + 1))) ↔
        ∀ (i : ℕ) (isC2h : Bool), SameWay (directions mixedList.vec) i isC2h →
          rowWayAt (directions mixedList.vec) (i + 1) = some isC2h) := by
  obtain ⟨l', hl, _, hiff⟩ := copies_share_list_iff mixedList (by decide)
  exact ⟨l', hl, hiff⟩

/-- A copy to the card and two copies back. -/
def turnedList : CmdList :=
  let copy (isC2h : Bool) : SchedParams := .copy (.create ⟨0, isC2h, false, 64⟩ 0 64)
  { CmdList.create 0 0 true with vec := [copy false, copy true, copy true], numEdits := 3 }

/-- The first copy back ends the batch before it, and the second one finds no batch. -/
theorem turnedList_not_shared :
    ∃ l', turnedList.optimizeScan = some l' ∧ turnedList.vec.length ≤ 0xffff ∧
      SameWay (directions turnedList.vec) 1 true ∧
      ¬ SharesCopyList l'.vec (position turnedList.vec 2) := by
  refine ⟨_, turnedList.optimizeScan_eq (by decide), by decide, ⟨rfl, rfl⟩, ?_⟩
  rintro ⟨k, l, hk, -⟩
  have hmem := List.mem_of_getElem? hk
  have hcopies : ∀ e ∈ turnedList.optimizeBatchCopies.vec, e.type ≠ .copyList := by decide
  exact hcopies _ hmem rfl

end NNPIHost.CommandList

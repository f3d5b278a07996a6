import NNPIHost.CommandList.Operations
import NNPIHost.Context.Scheduling
import NNPIHost.Copy.Holding

/-! # Runs of a list with and without batches

A command list is finalized with its copies in batches or one by one, scheduled, and the
card completes its elements in some order. Both runs lock alike. A batch of copies on
LOCKLESS resources only is never prepared, though, so its failure breaks no host resource.
-/

namespace NNPIHost

namespace SchedElem

/-- `prepare_schedule`. A copy list that finds a copy busy gives back what it prepared, and
releases the busy copy too. -/
def prepareSchedule : SchedElem → CopyTable → Bool × CopyTable
  | .copy c, T => T.preSchedule c
  | .copyList needPrepare cs, T =>
      if needPrepare then
        match CopyTable.prepareLoop (fun c T => T.preSchedule c) T cs with
        | (true, _, T) => (true, T)
        | (false, i, T) => (false, T.postScheduleAll ((cs.take (i + 1)).map (·, false)))
      else (true, T)
  | .infReq, T => (true, T)

/-- `schedule_done`; `failed` tells that it is given an error list. -/
def scheduleDone (e : SchedElem) (failed : Bool) (T : CopyTable) : CopyTable :=
  T.postScheduleAll (e.copies.map (·, failed))

/-- What the response handler does with the copies of an element that has completed; the
failure of a copy that has no host resource is only counted. -/
def respond (e : SchedElem) (failed : Bool) (T : CopyTable) : CopyTable :=
  match e with
  | .copy c => if failed ∧ (T.kind c).isD2d then T else T.postSchedule c failed
  | e => e.scheduleDone failed T

/-- The completions that `respond` passes on. -/
def completions (K : ℕ → CopyKind) (e : SchedElem) (failed : Bool) : List (ℕ × Bool) :=
  match e with
  | .copy c => if failed ∧ (K c).isD2d then [] else [(c, failed)]
  | e => e.copies.map (·, failed)

theorem respond_eq (e : SchedElem) (failed : Bool) (T : CopyTable) :
    e.respond failed T = T.postScheduleAll (e.completions T.kind failed) := by
  cases e with
  | copy c =>
    rw [respond, completions]
    split <;> rfl
  | copyList needPrepare cs => rfl
  | infReq => rfl

theorem mem_completions {K : ℕ → CopyKind} {e : SchedElem} {failed failed' : Bool} {c : ℕ}
    (hd : (K c).isD2d = false) :
    (c, failed') ∈ e.completions K failed ↔ c ∈ e.copies ∧ failed = failed' := by
  cases e with
  | copy d =>
    rw [completions, copies, List.mem_singleton]
    split
    next hf =>
      refine iff_of_false List.not_mem_nil ?_
      rintro ⟨rfl, _⟩
      exact absurd hf.2 (by simp [hd])
    next => simp [eq_comm]
  | copyList needPrepare cs => simp [completions]
  | infReq => simp [completions, copies]

theorem prepareSchedule_of_busy {T : CopyTable} {c : ℕ} (h : ¬ T.CanLock c) (cs : List ℕ) :
    (copyList true (c :: cs)).prepareSchedule T = (false, T.postSchedule c false) ∧
      (copy c).prepareSchedule T = (false, T) := by
  have hbusy := CopyTable.preSchedule_of_not_canLock h
  simp [prepareSchedule, CopyTable.prepareLoop, hbusy, CopyTable.postScheduleAll]

theorem prepares_prepareSchedule (K : ℕ → CopyKind) (e : SchedElem) :
    CopyTable.Prepares K e.prepareSchedule e.copies := by
  have hnil : CopyTable.Prepares K (fun T => (true, T)) [] :=
    fun T _ _ hT => ⟨fun _ => ⟨T, rfl, .nil hT⟩, fun ha => absurd hT.admits ha⟩
  rcases e with c | ⟨_ | _, cs⟩ | _
  · exact CopyTable.prepares_preSchedule K c
  · exact hnil
  · have hloop := CopyTable.prepares_prepareLoop cs fun c _ => CopyTable.prepares_preSchedule K c
    rw [List.flatMap_singleton'] at hloop
    refine hloop.congr (fun T hret => ?_) (fun T hret => ?_)
    all_goals
      simp only [prepareSchedule, if_true]
      rcases hp : CopyTable.prepareLoop (fun c T => T.preSchedule c) T cs with ⟨_ | _, i, U⟩ <;>
        simp_all
  · exact hnil

end SchedElem

/-- A list with the copies of its context. -/
structure ListRun where
  table : CopyTable
  list : SchedList

namespace ListRun

/-- `canSchedule` is what `wait_can_schedule` returns, `sent` what `send_to_card` does. -/
def schedule (s : ListRun) (canSchedule : Bool) (sent : NNPError) : NNPError × ListRun :=
  let elems := s.list.elems
  if ¬ s.list.finalized ∨ s.list.inFlight ∨ s.list.failed then (.deviceBusy, s)
  else if ¬ canSchedule then (.contextBroken, s)
  else
    match CopyTable.prepareLoop SchedElem.prepareSchedule s.table elems with
    | (false, i, T) =>
        (.deviceBusy, { s with table := (elems.take i).foldr (·.scheduleDone false) T })
    | (true, _, T) =>
        if sent = .noError then (.noError, ⟨T, { s.list with inFlight := true }⟩)
        else (sent, { s with table := elems.foldl (fun T e => e.scheduleDone false T) T })

end ListRun

/-- The plan of a call, followed without any other thread in between. -/
def followPlan (T : CopyTable) : List (ℕ × List ℕ) → Bool × CopyTable
  | [] => (true, T)
  | (c, undo) :: todo =>
      match T.preSchedule c with
      | (true, T) => followPlan T todo
      | (false, T) => (false, T.postScheduleAll (undo.map (·, false)))

section FollowPlan

variable {rest : List (ℕ × List ℕ)} {done : List ℕ}

theorem followPlan_prepareCopies (cs before : List ℕ) (T : CopyTable) :
    followPlan T ((SchedElem.prepareCopies before cs).map (fun p => (p.1, p.2 ++ done)) ++ rest) =
      match CopyTable.prepareLoop (fun c T => T.preSchedule c) T cs with
      | (true, _, U) => followPlan U rest
      | (false, i, U) =>
          (false, U.postScheduleAll ((before ++ cs.take (i + 1) ++ done).map (·, false))) := by
  induction cs generalizing before T with
  | nil => rfl
  | cons c cs ih =>
    simp only [SchedElem.prepareCopies, List.map_cons, List.cons_append, followPlan,
      CopyTable.prepareLoop]
    rcases T.preSchedule c with ⟨_ | _, U⟩
    · simp
    · simp only [ih]
      rcases CopyTable.prepareLoop (fun c T => T.preSchedule c) U cs with ⟨_ | _, i, V⟩
      · simp
      · rfl

theorem followPlan_prepares (e : SchedElem) (T : CopyTable) :
    followPlan T (e.prepares.map (fun p => (p.1, p.2 ++ done)) ++ rest) =
      match e.prepareSchedule T with
      | (true, U) => followPlan U rest
      | (false, U) => (false, U.postScheduleAll (done.map (·, false))) := by
  rcases e with c | ⟨_ | _, cs⟩ | _
  · simp only [SchedElem.prepares, List.map_cons, List.map_nil, List.cons_append, List.nil_append,
      followPlan, SchedElem.prepareSchedule]
  · rfl
  · simp only [SchedElem.prepares, if_true, followPlan_prepareCopies, SchedElem.prepareSchedule]
    rcases CopyTable.prepareLoop (fun c T => T.preSchedule c) T cs with ⟨_ | _, i, V⟩
    · simp [CopyTable.postScheduleAll_append]
    · rfl
  · rfl

theorem followPlan_prepareElems (es : List SchedElem) (T : CopyTable) :
    followPlan T (prepareElems done es) =
      match CopyTable.prepareLoop SchedElem.prepareSchedule T es with
      | (true, _, U) => (true, U)
      | (false, i, U) => (false, ((es.take i).foldr (·.scheduleDone false) U).postScheduleAll
          (done.map (·, false))) := by
  induction es generalizing done T with
  | nil => rfl
  | cons e es ih =>
    simp only [prepareElems, followPlan_prepares, CopyTable.prepareLoop]
    rcases e.prepareSchedule T with ⟨_ | _, U⟩
    · rfl
    · simp only [ih]
      rcases CopyTable.prepareLoop SchedElem.prepareSchedule U es with ⟨_ | _, i, V⟩
      · simp [CopyTable.postScheduleAll_append, SchedElem.scheduleDone]
      · rfl

end FollowPlan

/-- A command that was appended to the list: its copy, if it is no infer request, and
whether the card fails it when it is not in a batch. -/
structure Command where
  copy : Option ℕ
  failed : Bool
  deriving DecidableEq

section Grouping

variable {α : Type} (dir : α → Option Bool)

/-- Whether an element joins the batch; `dir` is the direction of an element that is a copy
between the host and the card. -/
def joinsGroup (group : List α) (e : α) : Bool :=
  match dir e, group with
  | none, _ => false
  | some _, [] => true
  | some isC2h, first :: _ =>
      dir first == some isC2h && group.length < CommandList.maxCopiesPerBatch

/-- The loop of `optimize_batch_copies`: a group of several elements becomes a copy list. -/
def groupLoop : List α → List α → List (List α)
  | [], _ => []
  | e :: es, group =>
      if joinsGroup dir group e then
        if es.isEmpty then [group ++ [e]] else groupLoop es (group ++ [e])
      else if group.isEmpty then [e] :: groupLoop es []
      else group :: [e] :: groupLoop es []

variable {dir}

theorem flatten_groupLoop (es group : List α) (h : es ≠ [] ∨ group = []) :
    (groupLoop dir es group).flatten = group ++ es := by
  induction es generalizing group with
  | nil => simpa [groupLoop] using h.neg_resolve_left (by simp)
  | cons e es ih =>
    unfold groupLoop
    split_ifs with hj he hg
    · simp [List.isEmpty_iff.mp he]
    · have hne : es ≠ [] := fun h => he (List.isEmpty_iff.mpr h)
      rw [ih _ (.inl hne), List.append_assoc, List.singleton_append]
    · simp [List.isEmpty_iff.mp hg, ih [] (.inr rfl)]
    · simp [ih [] (.inr rfl)]

end Grouping

namespace CommandList

def SchedParams.dir : SchedParams → Option Bool
  | .copy c => if c.copy.isD2d then none else some c.copy.isC2h
  | _ => none

def SchedParams.copy? : SchedParams → Option CopyParams
  | .copy c => some c
  | _ => none

def closeGroup : List SchedParams → SchedParams
  | [e] => e
  | group => .copyList (.create (group.filterMap SchedParams.copy?))

theorem closeGroup_map_copy (batch : List CopyParams) :
    closeGroup (batch.map .copy) = closeBatch batch := by
  have hmap : (batch.map SchedParams.copy).filterMap SchedParams.copy? = batch := by
    rw [List.filterMap_map]
    exact List.filterMap_some
  rcases batch with _ | ⟨c, _ | ⟨d, batch⟩⟩
  · rfl
  · rfl
  · exact congrArg (fun cs => SchedParams.copyList (.create cs)) hmap

theorem joinsBatch_eq (batch : List CopyParams) (hb : ∀ c ∈ batch, c.copy.isD2d = false)
    (e : SchedParams) :
    joinsBatch batch e =
      if joinsGroup SchedParams.dir (batch.map .copy) e then e.copy? else none := by
  cases e with
  | copy c =>
    cases hd : c.copy.isD2d with
    | true => simp [joinsGroup, SchedParams.dir, joinsBatch, hd]
    | false =>
      rcases batch with _ | ⟨first, batch⟩
      · simp [joinsGroup, SchedParams.dir, SchedParams.copy?, joinsBatch, hd]
      · have hf : first.copy.isD2d = false := hb first List.mem_cons_self
        cases hc : c.copy.isC2h <;> cases hfc : first.copy.isC2h <;>
          simp [joinsGroup, SchedParams.dir, SchedParams.copy?, joinsBatch, hd, hf, hc, hfc]
  | copyList l => rfl
  | infReq r => rfl

theorem batchLoop_eq_groupLoop (es : List SchedParams) (batch : List CopyParams)
    (hb : ∀ c ∈ batch, c.copy.isD2d = false) :
    batchLoop es batch = (groupLoop SchedParams.dir es (batch.map .copy)).map closeGroup := by
  induction es generalizing batch with
  | nil => rfl
  | cons e es ih =>
    rw [batchLoop, groupLoop, joinsBatch_eq batch hb]
    cases hj : joinsGroup SchedParams.dir (batch.map .copy) e with
    | false =>
      have hnil := ih [] nofun
      rw [List.map_nil] at hnil
      cases batch <;> simp [hnil, closeGroup, ← closeGroup_map_copy]
    | true =>
      obtain ⟨c, rfl, hd⟩ : ∃ c, e = .copy c ∧ c.copy.isD2d = false := by
        cases e with
        | copy c =>
          refine ⟨c, rfl, Bool.eq_false_iff.mpr fun hd => ?_⟩
          simp [joinsGroup, SchedParams.dir, hd] at hj
        | copyList l => cases hj
        | infReq r => cases hj
      have hb' : ∀ c' ∈ batch ++ [c], c'.copy.isD2d = false :=
        List.forall_mem_append.mpr ⟨hb, List.forall_mem_singleton.mpr hd⟩
      have hmap : batch.map SchedParams.copy ++ [.copy c] = (batch ++ [c]).map .copy := by simp
      simp only [SchedParams.copy?, if_true, hmap, ih _ hb']
      split
      · simp [← closeGroup_map_copy]
      · rfl

end CommandList

namespace Command

def dir (K : ℕ → CopyKind) (e : Command) : Option Bool :=
  match e.copy with
  | some c => if (K c).isD2d then none else some (K c).isC2h
  | none => none

end Command

/-- The element that a group becomes; a copy needs no preparation when it takes no lock. -/
def groupElem (K : ℕ → CopyKind) : List Command → SchedElem
  | [⟨some c, _⟩] => .copy c
  | [⟨none, _⟩] => .infReq
  | group => .copyList ((group.filterMap (·.copy)).any fun c => (K c).locks)
      (group.filterMap (·.copy))

/-- A copy list fails when all its copies do. -/
def groupFails (group : List Command) : Bool := group.all (·.failed)

/-- A list when it is scheduled, with what its commands do on the card. -/
structure ListCase where
  table : CopyTable
  commands : List Command
  inFlight : Bool
  failed : Bool
  canSchedule : Bool
  sent : NNPError
  counts : ∀ k, 0 ≤ (table.res k).failedCopyOps

section GroupElem

variable {K : ℕ → CopyKind} {c : ℕ}

theorem groupElem_copies (K : ℕ → CopyKind) (group : List Command) :
    (groupElem K group).copies = group.filterMap (·.copy) ∨
      (groupElem K group).copies = [] ∧ ∀ c ∈ group.filterMap (·.copy), (K c).locks = false := by
  unfold groupElem
  split
  · exact .inl rfl
  · exact .inl rfl
  · cases hany : (group.filterMap (·.copy)).any fun c => (K c).locks with
    | true => exact .inl rfl
    | false =>
      exact .inr ⟨rfl, fun c hc => Bool.eq_false_iff.mpr (List.any_eq_false.mp hany c hc)⟩

theorem mem_of_mem_groupElem {group : List Command} (h : c ∈ (groupElem K group).copies) :
    c ∈ group.filterMap (·.copy) := by
  rcases groupElem_copies K group with he | ⟨he, _⟩ <;> rw [he] at h
  · exact h
  · cases h

theorem filter_locks_groupElem (K : ℕ → CopyKind) (group : List Command) :
    ((groupElem K group).copies.filter fun c => (K c).locks) =
      (group.filterMap (·.copy)).filter fun c => (K c).locks := by
  rcases groupElem_copies K group with he | ⟨he, hno⟩ <;> rw [he]
  exact (List.filter_eq_nil_iff.mpr fun c hc => by simp [hno c hc]).symm

end GroupElem

namespace ListCase

variable (x : ListCase)

def groups (batchCopies : Bool) : List (List Command) :=
  if batchCopies then groupLoop (Command.dir x.table.kind) x.commands []
  else x.commands.map fun e => [e]

/-- The list after `finalize`. -/
def finalized (batchCopies : Bool) : ListRun :=
  ⟨x.table, (x.groups batchCopies).map (groupElem x.table.kind), true, x.inFlight, x.failed⟩

def scheduled (batchCopies : Bool) : NNPError × ListRun :=
  (x.finalized batchCopies).schedule x.canSchedule x.sent

/-- The copies and host resources once the elements have completed in the order of their
groups. -/
def completed (batchCopies : Bool) (order : List (List Command)) : CopyTable :=
  order.foldl (fun T group => (groupElem x.table.kind group).respond (groupFails group) T)
    (x.scheduled batchCopies).2.table

/-- A copy of the command uses the host resource. -/
def Uses (k : ℕ) (e : Command) : Prop :=
  ∃ c, e.copy = some c ∧ (x.table.kind c).isD2d = false ∧ (x.table.kind c).hostres = k

/-- The card reports the same failures of copies on the host resource in both runs. -/
def SameFailures (k : ℕ) : Prop :=
  ∀ group ∈ x.groups true, ∀ e ∈ group, x.Uses k e → e.failed = groupFails group

/-- What is expected of the two runs. -/
structure Agrees : Prop where
  result : (x.scheduled true).1 = (x.scheduled false).1
  locks : (x.scheduled false).1 = .noError → ∀ k,
    ((x.scheduled true).2.table.res k).readers = ((x.scheduled false).2.table.res k).readers
  released : (x.scheduled false).1 = .noError → ∀ batchCopies order,
    order.Perm (x.groups batchCopies) → ∀ k,
      ((x.completed batchCopies order).res k).readers = (x.table.res k).readers
  broken : (x.scheduled false).1 = .noError → ∀ batched single,
    batched.Perm (x.groups true) → single.Perm (x.groups false) → ∀ k, x.SameFailures k →
      ((x.completed true batched).res k).broken = ((x.completed false single).res k).broken

def copies : List ℕ := x.commands.filterMap (·.copy)

/-- The locks of the copies can all be taken at the same time. -/
def Admitted : Prop :=
  ∀ k, Lock.Admits (x.table.res k).readers (lockModes x.table.kind k x.copies)

def Starts : Prop :=
  x.inFlight = false ∧ x.failed = false ∧ x.canSchedule = true ∧ x.sent = .noError ∧ x.Admitted

/-- No copy that takes a lock occurs twice. -/
def LocksOnce : Prop := ∀ c, (x.table.kind c).locks = true → x.copies.count c ≤ 1

/-- Some copy on the host resource is prepared, and all elements that it is prepared with
fail. -/
def FailsAlways (batchCopies : Bool) (k : ℕ) : Prop :=
  ∃ c, (x.table.kind c).isD2d = false ∧ (x.table.kind c).hostres = k ∧
    (∃ group ∈ x.groups batchCopies, c ∈ (groupElem x.table.kind group).copies) ∧
    ∀ group ∈ x.groups batchCopies, c ∈ (groupElem x.table.kind group).copies →
      groupFails group = true

/-- A failure on a host resource that is not broken comes from a copy that always fails, and
one from a copy list that has to be prepared. -/
def FailuresCount : Prop :=
  ∀ k, (x.table.res k).broken = false → x.SameFailures k →
    (∃ e ∈ x.commands, x.Uses k e ∧ e.failed = true) →
    x.FailsAlways false k ∧ x.FailsAlways true k

variable {x}

/-- The copies that `schedule` prepares. -/
def prepared (x : ListCase) (batchCopies : Bool) : List ℕ :=
  (x.groups batchCopies).flatMap fun group => (groupElem x.table.kind group).copies

theorem flatten_groups (x : ListCase) (batchCopies : Bool) :
    (x.groups batchCopies).flatten = x.commands := by
  cases batchCopies with
  | true => exact flatten_groupLoop _ _ (.inr rfl)
  | false => simp [groups, ← List.flatMap_def]

theorem filter_locks_prepared (x : ListCase) (batchCopies : Bool) :
    ((x.prepared batchCopies).filter fun c => (x.table.kind c).locks) =
      x.copies.filter fun c => (x.table.kind c).locks := by
  rw [copies, ← flatten_groups x batchCopies, prepared, List.filter_flatMap]
  simp only [filter_locks_groupElem]
  rw [← List.filter_flatMap, List.filterMap_flatten, List.flatMap_def]

theorem lockModes_prepared (x : ListCase) (batchCopies : Bool) (k : ℕ) :
    lockModes x.table.kind k (x.prepared batchCopies) = lockModes x.table.kind k x.copies := by
  rw [← lockModes_filter_locks, filter_locks_prepared, lockModes_filter_locks]

theorem count_prepared {c : ℕ} (hl : (x.table.kind c).locks = true) (batchCopies : Bool) :
    (x.prepared batchCopies).count c = x.copies.count c := by
  have hcount : ∀ l : List ℕ, (l.filter fun c => (x.table.kind c).locks).count c = l.count c :=
    fun l => List.count_filter (p := fun c => (x.table.kind c).locks) (a := c) hl
  rw [← hcount, filter_locks_prepared, hcount]

theorem prepares_groups (x : ListCase) (batchCopies : Bool) :
    let elems := (x.groups batchCopies).map (groupElem x.table.kind)
    CopyTable.Prepares x.table.kind
      (fun T => ((CopyTable.prepareLoop SchedElem.prepareSchedule T elems).1,
        (CopyTable.prepareLoop SchedElem.prepareSchedule T elems).2.2))
      (x.prepared batchCopies) := by
  intro elems
  have hprep := CopyTable.prepares_prepareLoop elems
    fun e _ => SchedElem.prepares_prepareSchedule x.table.kind e
  rwa [List.flatMap_map] at hprep

theorem admitted_iff (x : ListCase) (batchCopies : Bool) :
    x.Admitted ↔ ∀ k, Lock.Admits (x.table.res k).readers
      (lockModes x.table.kind k (x.prepared batchCopies ++ [])) :=
  forall_congr' fun k => by rw [List.append_nil, lockModes_prepared]

theorem prepareLoop_of_admitted (h : x.Admitted) (batchCopies : Bool) :
    ∃ i U, CopyTable.prepareLoop SchedElem.prepareSchedule x.table
        ((x.groups batchCopies).map (groupElem x.table.kind)) = (true, i, U) ∧
      x.table.Prepared U x.table.kind (fun k => (x.table.res k).readers) []
        (x.prepared batchCopies) := by
  obtain ⟨U, hU, hp⟩ := (prepares_groups x batchCopies _ _ _ (.nil x.table)).1
    ((admitted_iff x batchCopies).mp h)
  obtain ⟨hret, rfl⟩ := Prod.mk.inj hU
  exact ⟨_, _, Prod.ext hret rfl, hp⟩

theorem prepareLoop_of_not_admitted (h : ¬ x.Admitted) (batchCopies : Bool) :
    ∃ i U, CopyTable.prepareLoop SchedElem.prepareSchedule x.table
      ((x.groups batchCopies).map (groupElem x.table.kind)) = (false, i, U) := by
  have hret := (prepares_groups x batchCopies _ _ _ (.nil x.table)).2
    (mt (admitted_iff x batchCopies).mpr h)
  exact ⟨_, _, Prod.ext hret rfl⟩

theorem scheduled_fst (x : ListCase) (batchCopies : Bool) :
    x.Admitted ∧ (x.scheduled batchCopies).1 =
        (if x.inFlight ∨ x.failed then .deviceBusy else if ¬ x.canSchedule then .contextBroken
          else x.sent) ∨
      ¬ x.Admitted ∧ (x.scheduled batchCopies).1 =
        if x.inFlight ∨ x.failed then .deviceBusy else if ¬ x.canSchedule then .contextBroken
          else .deviceBusy := by
  by_cases h : x.Admitted
  · obtain ⟨i, U, hU, _⟩ := prepareLoop_of_admitted h batchCopies
    refine .inl ⟨h, ?_⟩
    simp only [scheduled, ListRun.schedule, finalized, hU]
    split_ifs <;> simp_all
  · obtain ⟨i, U, hU⟩ := prepareLoop_of_not_admitted h batchCopies
    refine .inr ⟨h, ?_⟩
    simp only [scheduled, ListRun.schedule, finalized, hU]
    split_ifs <;> simp_all

/-- Both runs lock the same, so they are refused alike. -/
theorem scheduled_fst_eq (x : ListCase) :
    (x.scheduled true).1 = (x.scheduled false).1 := by
  rcases scheduled_fst x true with ⟨h, hret⟩ | ⟨h, hret⟩ <;>
    rcases scheduled_fst x false with ⟨h', hret'⟩ | ⟨h', hret'⟩
  · rw [hret, hret']
  · exact absurd h h'
  · exact absurd h' h
  · rw [hret, hret']

theorem scheduled_fst_iff (x : ListCase) (batchCopies : Bool) :
    (x.scheduled batchCopies).1 = .noError ↔ x.Starts := by
  rcases scheduled_fst x batchCopies with ⟨h, hret⟩ | ⟨h, hret⟩ <;> rw [hret, Starts] <;>
    cases x.inFlight <;> cases x.failed <;> cases x.canSchedule <;> simp [h]

theorem prepared_of_starts (h : x.Starts) (batchCopies : Bool) :
    x.table.Prepared (x.scheduled batchCopies).2.table x.table.kind
      (fun k => (x.table.res k).readers) [] (x.prepared batchCopies) := by
  obtain ⟨hin, hfailed, hcan, hsent, hall⟩ := h
  obtain ⟨i, U, hU, hp⟩ := prepareLoop_of_admitted hall batchCopies
  simpa [scheduled, ListRun.schedule, finalized, hin, hfailed, hcan, hsent, hU] using hp

/-- The completions of copies in the order of their groups. -/
def completions (x : ListCase) (order : List (List Command)) : List (ℕ × Bool) :=
  order.flatMap fun group =>
    (groupElem x.table.kind group).completions x.table.kind (groupFails group)

theorem foldl_respond {K : ℕ → CopyKind} {T : CopyTable} (hk : T.kind = K)
    (order : List (List Command)) :
    order.foldl (fun T group => (groupElem K group).respond (groupFails group) T) T =
      T.postScheduleAll
        (order.flatMap fun group => (groupElem K group).completions K (groupFails group)) := by
  induction order generalizing T with
  | nil => rfl
  | cons group order ih =>
    rw [List.foldl_cons, List.flatMap_cons, CopyTable.postScheduleAll_append, SchedElem.respond_eq,
      hk, ih ((CopyTable.kind_postScheduleAll ..).trans hk)]

theorem completed_eq (h : x.Starts) (batchCopies : Bool) (order : List (List Command)) :
    x.completed batchCopies order =
      (x.scheduled batchCopies).2.table.postScheduleAll (x.completions order) :=
  foldl_respond (prepared_of_starts h batchCopies).holds.kind order

theorem mem_completions {c : ℕ} {failed : Bool} {order : List (List Command)}
    (hd : (x.table.kind c).isD2d = false) :
    (c, failed) ∈ x.completions order ↔ ∃ group ∈ order,
      c ∈ (groupElem x.table.kind group).copies ∧ groupFails group = failed := by
  rw [completions, List.mem_flatMap]
  exact exists_congr fun group => and_congr_right fun _ => SchedElem.mem_completions hd

theorem mem_map_completions {c : ℕ} {order : List (List Command)}
    (hd : (x.table.kind c).isD2d = false) :
    c ∈ (x.completions order).map Prod.fst ↔ ∃ group ∈ order,
      c ∈ (groupElem x.table.kind group).copies := by
  rw [List.mem_map]
  constructor
  · rintro ⟨⟨_, failed⟩, hev, rfl⟩
    obtain ⟨group, hg, hc, _⟩ := (mem_completions hd).mp hev
    exact ⟨group, hg, hc⟩
  · rintro ⟨group, hg, hc⟩
    exact ⟨(c, groupFails group), (mem_completions hd).mpr ⟨group, hg, hc, rfl⟩, rfl⟩

theorem locks_eq (h : x.Starts) (k : ℕ) :
    ((x.scheduled true).2.table.res k).readers = ((x.scheduled false).2.table.res k).readers := by
  rw [(prepared_of_starts h true).holds.readers, (prepared_of_starts h false).holds.readers,
    List.append_nil, List.append_nil, lockModes_prepared, lockModes_prepared]

theorem released_iff (h : x.Starts) {batchCopies : Bool} {order : List (List Command)}
    (hp : order.Perm (x.groups batchCopies)) :
    (∀ k, ((x.completed batchCopies order).res k).readers = (x.table.res k).readers) ↔
      x.LocksOnce := by
  have hprep := prepared_of_starts h batchCopies
  have hmem : ∀ c, c ∈ x.prepared batchCopies ++ [] ↔ ∃ group ∈ x.groups batchCopies,
      c ∈ (groupElem x.table.kind group).copies := by
    simp [prepared]
  rw [completed_eq h, hprep.holds.released_postScheduleAll_iff]
  · refine forall_congr' fun c => forall_congr' fun hl => ?_
    rw [List.append_nil, count_prepared hl]
  · intro c hl
    rw [mem_map_completions (CopyKind.locks_eq_true.mp hl).1, hmem]
    simp only [hp.mem_iff]
  · intro c hc hl
    rw [List.append_nil] at hc
    exact (hprep.scheduled c).mpr (.inr ⟨hc, (CopyKind.locks_eq_true.mp hl).1⟩)

theorem broken_completed_iff (h : x.Starts) {batchCopies : Bool} {order : List (List Command)}
    (hp : order.Perm (x.groups batchCopies)) (k : ℕ) :
    ((x.completed batchCopies order).res k).broken = true ↔ (x.table.res k).broken = true ∨
      ∃ c, (x.table.kind c).isD2d = false ∧ (x.table.kind c).hostres = k ∧
        FirstFails (x.completions order) c := by
  have hprep := prepared_of_starts h batchCopies
  rw [completed_eq h, CopyTable.broken_postScheduleAll_iff fun k => by
    rw [hprep.failedCopyOps]
    exact x.counts k, hprep.holds.kind]
  have hbroken : ((x.scheduled batchCopies).2.table.res k).broken = (x.table.res k).broken := by
    rw [HostRes.broken, hprep.failedCopyOps, HostRes.broken]
  rw [hbroken]
  refine or_congr_right (exists_congr fun c => ⟨fun hc => hc.2, fun hc => ⟨?_, hc⟩⟩)
  obtain ⟨hd, _, hfirst⟩ := hc
  obtain ⟨group, hg, hmem, _⟩ := (mem_completions hd).mp hfirst.mem
  refine (hprep.scheduled c).mpr (.inr ⟨?_, hd⟩)
  exact List.mem_flatMap.mpr ⟨group, hp.mem_iff.mp hg, hmem⟩

/-- Some copy on the host resource is prepared with an element that fails. -/
def FailsOnce (x : ListCase) (batchCopies : Bool) (k : ℕ) : Prop :=
  ∃ c, (x.table.kind c).isD2d = false ∧ (x.table.kind c).hostres = k ∧
    ∃ group ∈ x.groups batchCopies,
      c ∈ (groupElem x.table.kind group).copies ∧ groupFails group = true

theorem completions_append (x : ListCase) (order order' : List (List Command)) :
    x.completions (order ++ order') = x.completions order ++ x.completions order' :=
  List.flatMap_append

/-- The resource breaks for sure when a copy fails whenever it completes: otherwise the
elements that succeed may complete first. -/
theorem broken_always_iff (h : x.Starts) (batchCopies : Bool) (k : ℕ) :
    (∀ order, order.Perm (x.groups batchCopies) →
      ((x.completed batchCopies order).res k).broken = true) ↔
    (x.table.res k).broken = true ∨ x.FailsAlways batchCopies k := by
  constructor
  · intro hall
    let good := (x.groups batchCopies).filter fun group => !groupFails group
    let bad := (x.groups batchCopies).filter fun group => !!groupFails group
    have hp : (good ++ bad).Perm (x.groups batchCopies) := List.filter_append_perm ..
    refine ((broken_completed_iff h hp k).mp (hall _ hp)).imp_right ?_
    rintro ⟨c, hd, hk, hfirst⟩
    have hmem := (mem_completions hd).mp hfirst.mem
    refine ⟨c, hd, hk, ?_, fun group hg hc => ?_⟩
    · obtain ⟨group, hg, hc, _⟩ := hmem
      exact ⟨group, hp.mem_iff.mp hg, hc⟩
    · by_contra hsucc
      have hgood : group ∈ good := List.mem_filter.mpr ⟨hg, by simpa using hsucc⟩
      have hin : c ∈ (x.completions good).map Prod.fst :=
        (mem_map_completions hd).mpr ⟨group, hgood, hc⟩
      rw [completions_append, firstFails_append hin] at hfirst
      obtain ⟨group', hg', _, hf⟩ := (mem_completions hd).mp hfirst.mem
      simpa [hf] using (List.mem_filter.mp hg').2
  · rintro (hb | ⟨c, hd, hk, ⟨group, hg, hc⟩, hall⟩) order hp
    · exact (broken_completed_iff h hp k).mpr (.inl hb)
    · refine (broken_completed_iff h hp k).mpr (.inr ⟨c, hd, hk, ?_⟩)
      refine firstFails_of_forall ((mem_map_completions hd).mpr ⟨group, hp.mem_iff.mpr hg, hc⟩) ?_
      intro failed hmem
      obtain ⟨group', hg', hc', rfl⟩ := (mem_completions hd).mp hmem
      exact hall group' (hp.mem_iff.mp hg') hc'

theorem broken_once_iff (h : x.Starts) (batchCopies : Bool) (k : ℕ) :
    (∃ order, order.Perm (x.groups batchCopies) ∧
      ((x.completed batchCopies order).res k).broken = true) ↔
    (x.table.res k).broken = true ∨ x.FailsOnce batchCopies k := by
  constructor
  · rintro ⟨order, hp, hb⟩
    refine ((broken_completed_iff h hp k).mp hb).imp_right ?_
    rintro ⟨c, hd, hk, hfirst⟩
    obtain ⟨group, hg, hc, hf⟩ := (mem_completions hd).mp hfirst.mem
    exact ⟨c, hd, hk, group, hp.mem_iff.mp hg, hc, hf⟩
  · rintro (hb | ⟨c, hd, hk, group, hg, hc, hf⟩)
    · exact ⟨_, .refl _, (broken_completed_iff h (.refl _) k).mpr (.inl hb)⟩
    · have hp : ([group] ++ (x.groups batchCopies).erase group).Perm (x.groups batchCopies) :=
        (List.perm_cons_erase hg).symm
      refine ⟨_, hp, (broken_completed_iff h hp k).mpr (.inr ⟨c, hd, hk, ?_⟩)⟩
      have hin : c ∈ (x.completions [group]).map Prod.fst :=
        (mem_map_completions hd).mpr ⟨group, List.mem_singleton_self _, hc⟩
      rw [completions_append, firstFails_append hin]
      refine firstFails_of_forall hin fun failed hmem => ?_
      obtain ⟨group', hg', _, rfl⟩ := (mem_completions hd).mp hmem
      rwa [List.mem_singleton.mp hg']

theorem FailsOnce.command {batchCopies : Bool} {k : ℕ} (h : x.FailsOnce batchCopies k) :
    ∃ e ∈ x.commands, x.Uses k e ∧ e.failed = true := by
  obtain ⟨c, hd, hk, group, hg, hc, hf⟩ := h
  obtain ⟨e, he, hcopy⟩ := List.mem_filterMap.mp (mem_of_mem_groupElem hc)
  refine ⟨e, ?_, ⟨c, hcopy, hd, hk⟩, List.all_eq_true.mp hf e he⟩
  rw [← flatten_groups x batchCopies]
  exact List.mem_flatten_of_mem hg he

theorem failsOnce_false_iff {k : ℕ} :
    x.FailsOnce false k ↔ ∃ e ∈ x.commands, x.Uses k e ∧ e.failed = true := by
  refine ⟨FailsOnce.command, ?_⟩
  rintro ⟨⟨_, failed⟩, he, ⟨c, rfl, hd, hk⟩, hf⟩
  refine ⟨c, hd, hk, [⟨some c, failed⟩], List.mem_map.mpr ⟨_, he, rfl⟩, ?_, ?_⟩
  · exact List.mem_singleton_self c
  · simpa [groupFails] using hf

/-- In every outcome, also when some copies of a batch fail and others do not, the runs break
a host resource alike exactly when each failure on it is one that cannot be missed. -/
theorem broken_alike_iff (h : x.Starts) {k : ℕ} (hk : (x.table.res k).broken = false) :
    (∀ batched single, batched.Perm (x.groups true) → single.Perm (x.groups false) →
      ((x.completed true batched).res k).broken = ((x.completed false single).res k).broken) ↔
    ((∃ e ∈ x.commands, x.Uses k e ∧ e.failed = true) →
      x.FailsAlways false k ∧ x.FailsAlways true k) := by
  have hno : ¬ (x.table.res k).broken = true := by simp [hk]
  have halways : ∀ batchCopies, (∀ order, order.Perm (x.groups batchCopies) →
      ((x.completed batchCopies order).res k).broken = true) ↔ x.FailsAlways batchCopies k :=
    fun batchCopies => (broken_always_iff h batchCopies k).trans (or_iff_right hno)
  have honce : ∀ batchCopies, (∃ order, order.Perm (x.groups batchCopies) ∧
      ((x.completed batchCopies order).res k).broken = true) ↔ x.FailsOnce batchCopies k :=
    fun batchCopies => (broken_once_iff h batchCopies k).trans (or_iff_right hno)
  constructor
  · intro hsame hfails
    obtain ⟨single, hp, hb⟩ := (honce false).mpr (failsOnce_false_iff.mpr hfails)
    have hbatched : ∀ order, order.Perm (x.groups true) →
        ((x.completed true order).res k).broken = true :=
      fun order hp' => (hsame order single hp' hp).trans hb
    exact ⟨(halways false).mp fun order hp' =>
      (hsame _ order (.refl _) hp').symm.trans (hbatched _ (.refl _)), (halways true).mp hbatched⟩
  · intro hcount batched single hp hp'
    refine Bool.eq_iff_iff.mpr ⟨fun hb => ?_, fun hb => ?_⟩
    · have hfails := ((honce true).mp ⟨batched, hp, hb⟩).command
      exact (halways false).mpr (hcount hfails).1 single hp'
    · have hfails := ((honce false).mp ⟨single, hp', hb⟩).command
      exact (halways true).mpr (hcount hfails).2 batched hp

theorem broken_of_broken (h : x.Starts) {k : ℕ} (hk : (x.table.res k).broken = true)
    {batchCopies : Bool} {order : List (List Command)} (hp : order.Perm (x.groups batchCopies)) :
    ((x.completed batchCopies order).res k).broken = true :=
  (broken_completed_iff h hp k).mpr (.inl hk)

/-- Batches change nothing but the count of failures: the runs agree when no copy that takes
a lock occurs twice, and each failure is one that cannot be missed in either run. -/
theorem agrees_iff (x : ListCase) :
    x.Agrees ↔ (x.Starts → x.LocksOnce ∧ x.FailuresCount) := by
  constructor
  · intro ha h
    have hret := (scheduled_fst_iff x false).mpr h
    refine ⟨(released_iff h (.refl _)).mp (ha.released hret false _ (.refl _)), ?_⟩
    exact fun k hk hsame => (broken_alike_iff h hk).mp fun batched single hp hp' =>
      ha.broken hret batched single hp hp' k hsame
  · intro hcond
    have hstarts := (scheduled_fst_iff x false).mp
    refine ⟨scheduled_fst_eq x, fun hret => locks_eq (hstarts hret), ?_, ?_⟩
    · intro hret batchCopies order hp
      exact (released_iff (hstarts hret) hp).mpr (hcond (hstarts hret)).1
    · intro hret batched single hp hp' k hsame
      have h := hstarts hret
      cases hk : (x.table.res k).broken with
      | true => rw [broken_of_broken h hk hp, broken_of_broken h hk hp']
      | false => exact (broken_alike_iff h hk).mpr ((hcond h).2 k hk hsame) _ _ hp hp'

/-- Two copies on a LOCKLESS host resource, which both fail. -/
def locklessBatch : ListCase where
  table := ⟨fun _ => ⟨.create false 64 64, 0⟩, fun _ => .create true false⟩
  commands := [⟨some 0, true⟩, ⟨some 1, true⟩]
  inFlight := false
  failed := false
  canSchedule := true
  sent := .noError
  counts := fun _ => Int.le_refl 0

/-- In a batch their failures break nothing, on their own they break the resource. -/
theorem lockless_batch_breaks_nothing : ¬ locklessBatch.Agrees := by
  intro h
  have hsame : ∀ group ∈ locklessBatch.groups true, ∀ e ∈ group, e.failed = groupFails group := by
    decide
  have hbroken := h.broken rfl _ _ (.refl _) (.refl _) 0 fun group hg e he _ => hsame group hg e he
  have hbatched : ((locklessBatch.completed true (locklessBatch.groups true)).res 0).broken =
    false := by decide
  have hsingle : ((locklessBatch.completed false (locklessBatch.groups false)).res 0).broken =
    true := by decide
  rw [hbatched, hsingle] at hbroken
  cases hbroken

end ListCase

end NNPIHost

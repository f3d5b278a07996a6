import NNPIHost.CommandList.Operations
import NNPIHost.Ida.Allocator
import NNPIHost.Store.Entries

/-! # Ids of command lists

A command list takes its id when it is created on the host. The id is freed when the card
reports the list destroyed, which it does for the lists that it was told to destroy. A list
that was never finalized is destroyed without a word to the card, and its id is lost.
-/

namespace NNPIHost.CommandList

def createCmdSuccess : BitVec 7 := 28

def createCmdFailed : BitVec 7 := 73

namespace CmdList

/-- `finalize`; `reply` is what `wait_create_command` gives, if it does not fail. -/
def finalize (l : CmdList) (batchCopies broken : Bool) (io : ℕ → PageIO)
    (reply : Option EventReport) : Option (NNPError × CmdList) :=
  let l := if batchCopies then l.optimizeBatchCopies else l
  (l.sendToCard .chanInfCmdlist broken io).map fun (ret, _, l) =>
    if ret ≠ .noError then (ret, l)
    else
      match reply with
      | none => (.ioError, l)
      | some reply =>
          if reply.eventCode = createCmdFailed then (eventValToNNPError reply.eventVal.toNat, l)
          else if reply.isContextFatalEvent then (.contextBroken, l)
          else if reply.eventCode ≠ createCmdSuccess then (.ioError, l)
          else (ret, { l with finalized := true })

end CmdList

/-- Where a list is in its life; it is `destroying` when the card has been told to destroy it
and has not reported so yet. -/
inductive ListPhase where
  | live
  | destroying
  | gone
  deriving DecidableEq, Repr

structure ListEntry where
  id : ℕ
  list : CmdList
  phase : ListPhase

namespace ListEntry

variable (e : ListEntry)

/-- `destroy`: what it returns, and the list afterwards. -/
def destroy (cardFatal written : Bool) : NNPError × ListEntry :=
  if ¬ e.list.finalized then (.noError, { e with phase := .gone })
  else if cardFatal then (.noError, { e with phase := .gone })
  else if ¬ written then (.ioError, e)
  else (.noError, { e with phase := .destroying })

/-- The id that the list holds. -/
def held : List ℕ := if e.phase = .gone then [] else [e.id]

variable {e} {cardFatal written : Bool}

theorem held_eq_singleton (hphase : e.phase ≠ .gone) : e.held = [e.id] := if_neg hphase

theorem destroy_held_of_told (hlive : e.phase = .live)
    (htold : e.list.finalized = true ∧ cardFatal = false) :
    (e.destroy cardFatal written).2.held = e.held := by
  obtain ⟨hfin, rfl⟩ := htold
  cases written <;> simp [destroy, held, hfin, hlive]

theorem destroy_held_of_not_told (htold : ¬ (e.list.finalized = true ∧ cardFatal = false)) :
    (e.destroy cardFatal written).2.held = [] := by
  cases hfin : e.list.finalized with
  | false => simp [destroy, held, hfin]
  | true =>
    obtain rfl : cardFatal = true := eq_true_of_ne_false fun hc => htold ⟨hfin, hc⟩
    simp [destroy, held, hfin]

end ListEntry

/-- `m_cmdlist_ida` of a context, and the command lists created so far. -/
structure ListIds where
  ids : IDAState
  lists : List ListEntry

inductive ListIdOp where
  | create (chanId : BitVec 10) (optDependencies broken : Bool)
  | append (n : ℕ) (cmd : SchedParams)
  | finalize (n : ℕ) (batchCopies broken : Bool) (io : ℕ → PageIO) (reply : Option EventReport)
  | destroy (n : ℕ) (cardFatal written : Bool)
  /-- The card reports the list destroyed. -/
  | destroyed (n : ℕ)

namespace ListIds

/-- The greatest 16-bit id. -/
def maxId : ℕ := 65535

def create : ListIds := ⟨.create maxId, []⟩

variable (s : ListIds)

/-- A call on a list that has not been destroyed. -/
def onList (n : ℕ) (f : ListEntry → Option ListEntry) : Option ListIds :=
  s.lists[n]?.bind fun e =>
    if e.phase = .live then (f e).map fun e' => { s with lists := s.lists.set n e' } else none

def step : ListIdOp → Option ListIds
  | .create chanId optDependencies broken =>
      if broken then some s
      else
        match s.ids.ida.alloc with
        | none => some s
        | some (id, ida) => some ⟨⟨ida, insert id s.ids.outstanding⟩,
            s.lists ++ [⟨id, .create (.ofNat 16 id) chanId optDependencies, .live⟩]⟩
  | .append n cmd => s.onList n fun e => some { e with list := (e.list.append cmd).2 }
  | .finalize n batchCopies broken io reply => s.onList n fun e =>
      (e.list.finalize batchCopies broken io reply).map fun (_, list) => { e with list }
  | .destroy n cardFatal written => s.onList n fun e => some (e.destroy cardFatal written).2
  | .destroyed n => s.lists[n]?.bind fun e =>
      if e.phase = .destroying then
        some ⟨⟨s.ids.ida.free e.id, s.ids.outstanding.erase e.id⟩,
          s.lists.set n { e with phase := .gone }⟩
      else none

/-- The ids of the lists that are not destroyed, or not reported destroyed yet. -/
def held : List ℕ := s.lists.flatMap (·.held)

/-- The allocator counts the ids of those lists, and no id is outstanding when there are none
left. -/
structure Balanced : Prop where
  count : s.ids.ida.getNumAlloc = s.held.length
  drained : (∀ e ∈ s.lists, e.phase = .gone) → s.ids.outstanding = ∅

/-- A list is destroyed only after it was finalized, and not when the card is dead. -/
def Told : ListIdOp → Prop
  | .destroy n cardFatal _ => ∀ e, s.lists[n]? = some e → e.phase = .live →
      e.list.finalized = true ∧ cardFatal = false
  | _ => True

/-- The lists hold different ids, all of them outstanding. -/
structure Inv : Prop where
  ids : s.ids.Inv maxId
  nodup : s.held.Nodup
  held : ∀ id ∈ s.held, id ∈ s.ids.outstanding

variable {s} {t : ListIds} {op : ListIdOp} {n : ℕ} {e : ListEntry}

theorem create_inv : create.Inv := ⟨IDAState.create_inv maxId, .nil, nofun⟩

theorem create_balanced : create.Balanced := ⟨rfl, fun _ => rfl⟩

theorem exists_held (he : s.lists[n]? = some e) (ids : IDAState) (e' : ListEntry) :
    ∃ rest, s.held.Perm (e.held ++ rest) ∧
      (held ⟨ids, s.lists.set n e'⟩).Perm (e'.held ++ rest) :=
  Store.exists_perm_set he e' (·.held)

/-- The count is right exactly when all outstanding ids are held. -/
theorem Inv.count_iff (h : s.Inv) :
    s.ids.ida.getNumAlloc = s.held.length ↔ s.ids.outstanding = s.held.toFinset := by
  have hsub : s.held.toFinset ⊆ s.ids.outstanding := fun id hid =>
    h.held id (List.mem_toFinset.mp hid)
  rw [IDA.getNumAlloc, h.ids.count, ← List.toFinset_card_of_nodup h.nodup]
  constructor
  · intro hcard
    exact (Finset.eq_of_subset_of_card_le hsub hcard.le).symm
  · exact congrArg Finset.card

theorem Inv.balanced_iff (h : s.Inv) :
    s.Balanced ↔ s.ids.ida.getNumAlloc = s.held.length := by
  refine ⟨Balanced.count, fun hcount => ⟨hcount, fun hgone => ?_⟩⟩
  have hheld : s.held = [] := by
    apply List.flatMap_eq_nil_iff.mpr
    intro e he
    exact if_pos (hgone e he)
  rw [h.count_iff.mp hcount, hheld, List.toFinset_nil]

theorem Inv.keep (h : s.Inv) (hb : s.Balanced) (he : s.lists[n]? = some e) {e' : ListEntry}
    (hkeep : e'.held = e.held) :
    Inv ⟨s.ids, s.lists.set n e'⟩ ∧ Balanced ⟨s.ids, s.lists.set n e'⟩ := by
  obtain ⟨rest, hbefore, hafter⟩ := exists_held he s.ids e'
  rw [hkeep] at hafter
  have hsame := hafter.trans hbefore.symm
  have hinv : Inv ⟨s.ids, s.lists.set n e'⟩ :=
    ⟨h.ids, hsame.nodup_iff.mpr h.nodup, fun id hid => h.held id (hsame.subset hid)⟩
  refine ⟨hinv, hinv.balanced_iff.mpr ?_⟩
  rw [hsame.length_eq]
  exact hb.count

theorem Inv.lose (h : s.Inv) (hb : s.Balanced) (he : s.lists[n]? = some e) {e' : ListEntry}
    (hheld : e.held = [e.id]) (hlost : e'.held = []) :
    Inv ⟨s.ids, s.lists.set n e'⟩ ∧ ¬ Balanced ⟨s.ids, s.lists.set n e'⟩ := by
  obtain ⟨rest, hbefore, hafter⟩ := exists_held he s.ids e'
  rw [hheld] at hbefore
  rw [hlost, List.nil_append] at hafter
  have hnodup := List.nodup_cons.mp (hbefore.nodup_iff.mp h.nodup)
  have hsub (id : ℕ) (hid : id ∈ ListIds.held ⟨s.ids, s.lists.set n e'⟩) : id ∈ s.held :=
    hbefore.symm.subset (List.mem_cons_of_mem _ (hafter.subset hid))
  constructor
  · exact ⟨h.ids, hafter.nodup_iff.mpr hnodup.2, fun id hid => h.held id (hsub id hid)⟩
  · intro hbal
    have hcount := hb.count.symm.trans hbal.count
    rw [hbefore.length_eq, hafter.length_eq] at hcount
    exact absurd hcount (Nat.succ_ne_self _)

theorem Inv.giveBack (h : s.Inv) (hb : s.Balanced) (he : s.lists[n]? = some e) {e' : ListEntry}
    (hheld : e.held = [e.id]) (hgone : e'.held = []) :
    Inv ⟨⟨s.ids.ida.free e.id, s.ids.outstanding.erase e.id⟩, s.lists.set n e'⟩ ∧
      Balanced ⟨⟨s.ids.ida.free e.id, s.ids.outstanding.erase e.id⟩, s.lists.set n e'⟩ := by
  obtain ⟨hlost, _⟩ := h.lose hb he hheld hgone
  obtain ⟨rest, hbefore, hafter⟩ := exists_held he
    ⟨s.ids.ida.free e.id, s.ids.outstanding.erase e.id⟩ e'
  rw [hheld] at hbefore
  rw [hgone, List.nil_append] at hafter
  have hnodup := List.nodup_cons.mp (hbefore.nodup_iff.mp h.nodup)
  have hid : e.id ∈ s.ids.outstanding :=
    h.held e.id (hbefore.symm.subset (List.mem_cons_self ..))
  have hstep : s.ids.step (.free e.id) =
      some ⟨s.ids.ida.free e.id, s.ids.outstanding.erase e.id⟩ := if_pos hid
  have hinv : Inv ⟨⟨s.ids.ida.free e.id, s.ids.outstanding.erase e.id⟩, s.lists.set n e'⟩ := by
    refine ⟨h.ids.step (by decide) hstep, hlost.nodup, fun id hin => ?_⟩
    refine Finset.mem_erase.mpr ⟨?_, hlost.held id hin⟩
    rintro rfl
    exact hnodup.1 (hafter.subset hin)
  refine ⟨hinv, hinv.balanced_iff.mpr ?_⟩
  have hold : s.ids.outstanding.card = s.held.length := by
    rw [← hb.count, IDA.getNumAlloc, h.ids.count]
  have hcount := hinv.ids.count
  rw [Finset.card_erase_of_mem hid, hold, hbefore.length_eq] at hcount
  rw [hafter.length_eq]
  exact hcount

theorem Inv.add (h : s.Inv) (hb : s.Balanced) {ida : IDA}
    (ha : s.ids.ida.alloc = some (e.id, ida)) (hheld : e.held = [e.id]) :
    Inv ⟨⟨ida, insert e.id s.ids.outstanding⟩, s.lists ++ [e]⟩ ∧
      Balanced ⟨⟨ida, insert e.id s.ids.outstanding⟩, s.lists ++ [e]⟩ := by
  have hnew : e.id ∉ s.ids.outstanding :=
    ((h.ids.free e.id).mp (IDA.alloc_spec h.ids.ranges ha).1.1).2
  have hstep : s.ids.step .alloc = some ⟨ida, insert e.id s.ids.outstanding⟩ := by
    simp only [IDAState.step, ha]
  have happ : ListIds.held ⟨⟨ida, insert e.id s.ids.outstanding⟩, s.lists ++ [e]⟩ =
      s.held ++ [e.id] := by
    simp only [ListIds.held, List.flatMap_append, List.flatMap_singleton, hheld]
  have hinv : Inv ⟨⟨ida, insert e.id s.ids.outstanding⟩, s.lists ++ [e]⟩ := by
    refine ⟨h.ids.step (by decide) hstep, ?_, ?_⟩ <;> rw [happ]
    · refine List.nodup_append.mpr ⟨h.nodup, List.nodup_singleton _, ?_⟩
      rintro id hid _ hid' rfl
      exact hnew (List.mem_singleton.mp hid' ▸ h.held id hid)
    · intro id hid
      rcases List.mem_append.mp hid with hid | hid
      · exact Finset.mem_insert_of_mem (h.held id hid)
      · exact List.mem_singleton.mp hid ▸ Finset.mem_insert_self _ _
  refine ⟨hinv, hinv.balanced_iff.mpr ?_⟩
  have hcount := hinv.ids.count
  have hold : s.ids.outstanding.card = s.held.length := by
    rw [← hb.count, IDA.getNumAlloc, h.ids.count]
  rw [IDA.getNumAlloc, hcount, Finset.card_insert_of_notMem hnew, hold, happ,
    List.length_append, List.length_singleton]

theorem onList_eq_some {f : ListEntry → Option ListEntry} (hs : s.onList n f = some t) :
    ∃ e e', s.lists[n]? = some e ∧ e.phase = .live ∧ f e = some e' ∧
      t = ⟨s.ids, s.lists.set n e'⟩ := by
  obtain ⟨e, he, hs⟩ := Option.bind_eq_some_iff.mp hs
  obtain ⟨hlive, hs⟩ := Option.ite_none_right_eq_some.mp hs
  obtain ⟨e', hf, rfl⟩ := Option.map_eq_some_iff.mp hs
  exact ⟨e, e', he, hlive, hf, rfl⟩

theorem Inv.step (h : s.Inv) (hb : s.Balanced) (hs : s.step op = some t) :
    t.Inv ∧ (t.Balanced ↔ s.Told op) := by
  cases op with
  | create chanId optDependencies broken =>
    simp only [ListIds.step] at hs
    split at hs
    · obtain rfl := Option.some.inj hs
      exact ⟨h, iff_of_true hb trivial⟩
    · split at hs
      · obtain rfl := Option.some.inj hs
        exact ⟨h, iff_of_true hb trivial⟩
      next id ida ha =>
        obtain rfl := Option.some.inj hs
        obtain ⟨hinv, hbal⟩ := @Inv.add s ⟨id, .create (.ofNat 16 id) chanId optDependencies, .live⟩
          h hb ida ha rfl
        exact ⟨hinv, iff_of_true hbal trivial⟩
  | append n cmd =>
    obtain ⟨e, e', he, hlive, hf, rfl⟩ := onList_eq_some hs
    obtain rfl := Option.some.inj hf
    obtain ⟨hinv, hbal⟩ := @Inv.keep s n e h hb he { e with list := (e.list.append cmd).2 } rfl
    exact ⟨hinv, iff_of_true hbal trivial⟩
  | finalize n batchCopies broken io reply =>
    obtain ⟨e, e', he, hlive, hf, rfl⟩ := onList_eq_some hs
    obtain ⟨⟨ret, list⟩, _, rfl⟩ := Option.map_eq_some_iff.mp hf
    obtain ⟨hinv, hbal⟩ := @Inv.keep s n e h hb he { e with list } rfl
    exact ⟨hinv, iff_of_true hbal trivial⟩
  | destroy n cardFatal written =>
    obtain ⟨e, e', he, hlive, hf, rfl⟩ := onList_eq_some hs
    obtain rfl := Option.some.inj hf
    have hheld : e.held = [e.id] := ListEntry.held_eq_singleton (by simp [hlive])
    have htold : s.Told (.destroy n cardFatal written) ↔
        e.list.finalized = true ∧ cardFatal = false := by
      constructor
      · intro htold
        exact htold e he hlive
      · rintro hgood e₁ he₁ _
        obtain rfl := Option.some.inj (he.symm.trans he₁)
        exact hgood
    by_cases hgood : e.list.finalized = true ∧ cardFatal = false
    · obtain ⟨hinv, hbal⟩ := h.keep hb he (ListEntry.destroy_held_of_told hlive hgood)
      exact ⟨hinv, iff_of_true hbal (htold.mpr hgood)⟩
    · obtain ⟨hinv, hbal⟩ := h.lose hb he hheld (ListEntry.destroy_held_of_not_told hgood)
      exact ⟨hinv, iff_of_false hbal (htold.not.mpr hgood)⟩
  | destroyed n =>
    obtain ⟨e, he, hs⟩ := Option.bind_eq_some_iff.mp hs
    obtain ⟨hphase, hs⟩ := Option.ite_none_right_eq_some.mp hs
    obtain rfl := Option.some.inj hs
    have hheld : e.held = [e.id] := ListEntry.held_eq_singleton (by simp [hphase])
    obtain ⟨hinv, hbal⟩ := @Inv.giveBack s n e h hb he { e with phase := .gone } hheld rfl
    exact ⟨hinv, iff_of_true hbal trivial⟩

theorem told_of_step_eq_none (hs : s.step op = none) : s.Told op := by
  cases op with
  | destroy n cardFatal written =>
    intro e he hlive
    simp [ListIds.step, onList, he, hlive] at hs
  | _ => trivial

/-- In a run the allocator counts the lists, and is empty when all are destroyed, exactly when
every list that was destroyed had been finalized, and the card was not dead. -/
theorem balanced_iff_told (ops : List ListIdOp) :
    Exec.Always step Balanced create ops ↔ Exec.Meets step Told create ops :=
  Exec.always_iff_meets create_balanced create_inv (fun _ _ _ hI hP hs => hI.step hP hs)
    fun _ _ _ _ hs => told_of_step_eq_none hs

/-- A list that is created and destroyed keeps its id outstanding for ever. -/
theorem unfinalized_list_keeps_id :
    ¬ Exec.Always step Balanced create [.create 0 false false, .destroy 0 false true] := by
  intro h
  have hlast := ((h.2 _ rfl).2 _ rfl).drained (by decide)
  exact absurd hlast (by decide)

end ListIds

end NNPIHost.CommandList

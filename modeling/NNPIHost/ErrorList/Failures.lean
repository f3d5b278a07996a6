import Mathlib.Algebra.Order.Ring.Int
import Mathlib.Tactic.Ring
import NNPIHost.ErrorList.Query
import NNPIHost.HostRes.Locks
import NNPIHost.Store.Entries

/-! # Failed copies on record

A host resource counts the failed copies that error lists record for it. The lists are those of
the contexts and of their command lists; they record a failure in `addFailedHostRes` and drop
their failures when a clear request succeeds or the list is destroyed. Clearing a list for a
query keeps them.
-/

namespace NNPIHost

/-- The error lists made so far, without those destroyed, and the host resources. -/
structure FailureState (H : Type*) where
  lists : List (Option (ExecErrorList H))
  res : H → HostRes

inductive FailureOp (H : Type*) where
  | create
  | addFailedHostRes (l : ℕ) (hostRes : H)
  | clear (l : ℕ)
  | startQuery (l : ℕ)
  | appendErrorListPacket (l : ℕ) (fresh : Option (ℕ → UInt8)) (packet : Option (List UInt8))
      (totalSize : ℕ) (errorEventVal : UInt16)
  | clearRequestSucceeded (l : ℕ)
  | destroy (l : ℕ)

namespace ExecErrorList

variable {H : Type*} {s t : ExecErrorList H}

theorem completeQuery_failedHostres {eventVal : UInt16} (h : s.completeQuery eventVal = some t) :
    t.failedHostres = s.failedHostres := by
  unfold completeQuery at h
  split at h
  · obtain ⟨descs, _, rfl⟩ := Option.map_eq_some_iff.mp h
    rfl
  · obtain rfl := Option.some.inj h
    rfl

theorem appendErrorListPacket_failedHostres {fresh : Option (ℕ → UInt8)}
    {packet : Option (List UInt8)} {totalSize : ℕ} {errorEventVal : UInt16}
    (h : s.appendErrorListPacket fresh packet totalSize errorEventVal = some t) :
    t.failedHostres = s.failedHostres := by
  obtain ⟨u, hu⟩ : ∃ u, u = if s.buf.isNone then { s with buf := fresh, bufSize := totalSize }
      else s := ⟨_, rfl⟩
  have hfailed : u.failedHostres = s.failedHostres := by
    rw [hu]
    split <;> rfl
  unfold appendErrorListPacket at h
  split at h
  next =>
    obtain rfl := Option.some.inj h
    rfl
  next =>
    split at h
    · exact completeQuery_failedHostres h
    · exact completeQuery_failedHostres h
    · simp only [← hu] at h
      rw [← hfailed]
      split at h
      · exact completeQuery_failedHostres h
      · split at h
        · split at h
          · exact (completeQuery_failedHostres h :)
          · obtain rfl := Option.some.inj h
            rfl
        · exact completeQuery_failedHostres h

end ExecErrorList

namespace FailureState

section Lists

variable {H : Type*}

def create (lockless cpuSyncNeeded : H → Bool) : FailureState H :=
  ⟨[], fun h => .create (lockless h) (cpuSyncNeeded h)⟩

variable (s : FailureState H)

def find (l : ℕ) : Option (ExecErrorList H) := s.lists[l]?.join

def put (l : ℕ) (e : Option (ExecErrorList H)) : FailureState H :=
  { s with lists := s.lists.set l e }

/-- `m_failed_hostres` of a list that may have been destroyed. -/
def entries (e : Option (ExecErrorList H)) : List H := e.elim [] (·.failedHostres)

/-- All entries of the lists. -/
def recorded : List H := s.lists.flatMap entries

variable {s} {l : ℕ} {e : ExecErrorList H}

theorem find_eq_some : s.find l = some e ↔ s.lists[l]? = some (some e) := Option.join_eq_some_iff

theorem find_put_self (he : s.find l = some e) (e' : Option (ExecErrorList H)) :
    (s.put l e').find l = e' := by
  obtain ⟨hl, _⟩ := List.getElem?_eq_some_iff.mp (find_eq_some.mp he)
  simp [find, put, hl]

theorem find_put_of_ne {k : ℕ} (hk : k ≠ l) (e' : Option (ExecErrorList H)) :
    (s.put l e').find k = s.find k := by
  simp [find, put, Ne.symm hk]

theorem mem_recorded {h : H} : h ∈ s.recorded ↔ ∃ e, some e ∈ s.lists ∧ h ∈ e.failedHostres := by
  simp only [recorded, List.mem_flatMap]
  constructor
  · rintro ⟨_ | e, he, hh⟩
    · cases hh
    · exact ⟨e, he, hh⟩
  · rintro ⟨e, he, hh⟩
    exact ⟨some e, he, hh⟩

end Lists

variable {H : Type*} [DecidableEq H] (s : FailureState H)

/-- `update_copy_fail_count` of every resource in a list, once for each time it is there. -/
def updateCopyFailCounts (hostres : List H) (n : ℤ) : FailureState H :=
  { s with res := Store.updates id (fun r _ => r.updateCopyFailCount n) s.res hostres }

def step : FailureOp H → Option (FailureState H)
  | .create => some { s with lists := s.lists ++ [some .create] }
  | .addFailedHostRes l h => (s.find l).map fun e =>
      (s.put l (some (e.addFailedHostRes h))).updateCopyFailCounts [h] 1
  | .clear l => (s.find l).map fun e => s.put l (some e.clear)
  | .startQuery l => (s.find l).map fun e => s.put l (some e.startQuery)
  | .appendErrorListPacket l fresh packet totalSize errorEventVal => (s.find l).bind fun e =>
      (e.appendErrorListPacket fresh packet totalSize errorEventVal).map fun e =>
        s.put l (some e)
  | .clearRequestSucceeded l => (s.find l).map fun e =>
      let (e, hostres) := e.clearRequestSucceeded
      (s.put l (some e)).updateCopyFailCounts hostres (-1)
  | .destroy l => (s.find l).map fun e =>
      (s.put l none).updateCopyFailCounts e.clearFailedHostRes.2 (-1)

/-- Each count is the number of entries for its resource. -/
def Counted : Prop := ∀ h, (s.res h).failedCopyOps = s.recorded.count h

/-- The resources are broken that have an entry. -/
def BrokenRecorded : Prop :=
  ∀ h, (s.res h).broken = true ↔ ∃ e, some e ∈ s.lists ∧ h ∈ e.failedHostres

/-- A clear request that succeeds, or the destruction of a list, takes away as much from each
count as the list has contributed, and leaves the other lists alone. -/
def ClearsOwn : Prop := ∀ l e t, s.find l = some e →
  s.step (.clearRequestSucceeded l) = some t ∨ s.step (.destroy l) = some t →
  (∀ h, (t.res h).failedCopyOps = (s.res h).failedCopyOps - e.failedHostres.count h) ∧
    entries (t.find l) = [] ∧ ∀ k ≠ l, t.find k = s.find k

variable {s} {t : FailureState H} {l : ℕ} {e : ExecErrorList H} {op : FailureOp H}

@[simp] theorem find_updateCopyFailCounts (hostres : List H) (n : ℤ) (k : ℕ) :
    (s.updateCopyFailCounts hostres n).find k = s.find k := rfl

@[simp] theorem recorded_updateCopyFailCounts (hostres : List H) (n : ℤ) :
    (s.updateCopyFailCounts hostres n).recorded = s.recorded := rfl

theorem failedCopyOps_updateCopyFailCounts (hostres : List H) (n : ℤ) (h : H) :
    ((s.updateCopyFailCounts hostres n).res h).failedCopyOps =
      (s.res h).failedCopyOps + hostres.count h * n := by
  induction hostres generalizing s with
  | nil => simp [updateCopyFailCounts, Store.updates]
  | cons k hostres ih =>
    have hrest := ih (s := s.updateCopyFailCounts [k] n)
    have hsplit : s.updateCopyFailCounts (k :: hostres) n =
        (s.updateCopyFailCounts [k] n).updateCopyFailCounts hostres n := rfl
    rw [hsplit, hrest]
    by_cases hk : k = h
    · subst hk
      have hfirst : ((s.updateCopyFailCounts [k] n).res k).failedCopyOps =
          (s.res k).failedCopyOps + n := by
        simp [updateCopyFailCounts, Store.updates, Store.update, HostRes.updateCopyFailCount]
      rw [hfirst, List.count_cons_self]
      push_cast
      ring
    · have hfirst : (s.updateCopyFailCounts [k] n).res h = s.res h :=
        Function.update_of_ne (Ne.symm hk) _ _
      rw [hfirst, List.count_cons_of_ne hk]

theorem count_recorded_put (he : s.find l = some e) (e' : Option (ExecErrorList H)) (h : H) :
    (s.put l e').recorded.count h + e.failedHostres.count h =
      s.recorded.count h + (entries e').count h := by
  obtain ⟨rest, hbefore, hafter⟩ := Store.exists_perm_set (find_eq_some.mp he) e' entries
  have hold : s.recorded.count h = (e.failedHostres ++ rest).count h := hbefore.count_eq h
  have hnew : (s.put l e').recorded.count h = (entries e' ++ rest).count h := hafter.count_eq h
  rw [hold, hnew, List.count_append, List.count_append]
  omega

theorem Counted.put (hc : s.Counted) (he : s.find l = some e) {e' : ExecErrorList H}
    (hkeep : e'.failedHostres = e.failedHostres) : (s.put l (some e')).Counted := by
  intro h
  have hcount := count_recorded_put he (some e') h
  rw [entries, Option.elim_some, hkeep] at hcount
  have hres := hc h
  rw [← Nat.add_right_cancel hcount] at hres
  exact hres

theorem Counted.add (hc : s.Counted) (he : s.find l = some e) (k : H) :
    ((s.put l (some (e.addFailedHostRes k))).updateCopyFailCounts [k] 1).Counted := by
  intro h
  have hcount := count_recorded_put he (some (e.addFailedHostRes k)) h
  have hres := hc h
  rw [failedCopyOps_updateCopyFailCounts, recorded_updateCopyFailCounts]
  have hentries : (entries (some (e.addFailedHostRes k))).count h =
      e.failedHostres.count h + [k].count h := List.count_append
  rw [hentries] at hcount
  change (s.res h).failedCopyOps + _ = _
  omega

theorem Counted.drop (hc : s.Counted) (he : s.find l = some e)
    {e' : Option (ExecErrorList H)} (hempty : entries e' = []) :
    ((s.put l e').updateCopyFailCounts e.failedHostres (-1)).Counted := by
  intro h
  have hcount := count_recorded_put he e' h
  have hres := hc h
  rw [failedCopyOps_updateCopyFailCounts, recorded_updateCopyFailCounts]
  rw [hempty, List.count_nil] at hcount
  change (s.res h).failedCopyOps + _ = _
  omega

theorem Counted.step (hc : s.Counted) (hs : s.step op = some t) : t.Counted := by
  cases op with
  | create =>
    obtain rfl := Option.some.inj hs
    intro h
    have hres := hc h
    simpa [recorded, entries, ExecErrorList.create] using hres
  | addFailedHostRes l k =>
    obtain ⟨e, he, rfl⟩ := Option.map_eq_some_iff.mp hs
    exact hc.add he k
  | clear l =>
    obtain ⟨e, he, rfl⟩ := Option.map_eq_some_iff.mp hs
    exact hc.put he rfl
  | startQuery l =>
    obtain ⟨e, he, rfl⟩ := Option.map_eq_some_iff.mp hs
    exact hc.put he rfl
  | appendErrorListPacket l fresh packet totalSize errorEventVal =>
    obtain ⟨e, he, hs⟩ := Option.bind_eq_some_iff.mp hs
    obtain ⟨e', he', rfl⟩ := Option.map_eq_some_iff.mp hs
    exact hc.put he (ExecErrorList.appendErrorListPacket_failedHostres he')
  | clearRequestSucceeded l =>
    obtain ⟨e, he, rfl⟩ := Option.map_eq_some_iff.mp hs
    exact hc.drop he rfl
  | destroy l =>
    obtain ⟨e, he, rfl⟩ := Option.map_eq_some_iff.mp hs
    exact hc.drop he rfl

theorem Counted.brokenRecorded (hc : s.Counted) : s.BrokenRecorded := by
  intro h
  rw [← mem_recorded, ← List.count_pos_iff, HostRes.broken, decide_eq_true_iff, hc h]
  exact Int.natCast_pos

theorem clearsOwn_drop (he : s.find l = some e) {e' : Option (ExecErrorList H)}
    (hempty : entries e' = []) :
    let t := (s.put l e').updateCopyFailCounts e.failedHostres (-1)
    (∀ h, (t.res h).failedCopyOps = (s.res h).failedCopyOps - e.failedHostres.count h) ∧
      entries (t.find l) = [] ∧ ∀ k ≠ l, t.find k = s.find k := by
  refine ⟨?_, ?_, fun k hk => find_put_of_ne hk e'⟩
  · intro h
    rw [failedCopyOps_updateCopyFailCounts, Int.mul_neg_one]
    rfl
  · rw [find_updateCopyFailCounts, find_put_self he]
    exact hempty

theorem clearsOwn (s : FailureState H) : s.ClearsOwn := by
  rintro l e t he (hs | hs)
  all_goals
    simp only [FailureState.step, he, Option.map_some, Option.some.injEq] at hs
    subst hs
    exact clearsOwn_drop he rfl

theorem create_counted (lockless cpuSyncNeeded : H → Bool) :
    (create lockless cpuSyncNeeded).Counted := fun _ => rfl

/-- In every run over any number of lists, the count of each resource is the number of its
entries, the resources with an entry are the broken ones, and a list that is cleared or
destroyed takes away its own entries and no others. -/
theorem failed_copies_counted (lockless cpuSyncNeeded : H → Bool) (ops : List (FailureOp H)) :
    Exec.Always step (fun s => s.Counted ∧ s.BrokenRecorded ∧ s.ClearsOwn)
      (create lockless cpuSyncNeeded) ops := by
  have hcounted : Exec.Always step Counted (create lockless cpuSyncNeeded) ops :=
    Exec.always_of_preserved (create_counted lockless cpuSyncNeeded) fun _ _ _ hc hs => hc.step hs
  exact hcounted.mono fun s hc => ⟨hc, hc.brokenRecorded, s.clearsOwn⟩

end FailureState

end NNPIHost

import NNPIHost.CommandList.Batches

/-! # Copy lists that cannot be prepared

A copy list locks its copies in order, and gives back what it has locked when one of them is
busy. It goes one copy too far, and it goes by the marks of the copies, which say neither how
often a copy was locked nor by whom.
-/

namespace NNPIHost

namespace CopyTable

variable {T U : CopyTable} {K : ℕ → CopyKind} {r : ℕ → ℤ} {held cs : List ℕ} {i j : ℕ}

/-- The locks of all these copies can be taken, one after the other. -/
def CanLockAll (T : CopyTable) (cs : List ℕ) : Prop :=
  ∀ k, Lock.Admits (T.res k).readers (lockModes T.kind k cs)

/-- The first `j` copies can be locked, and the next one cannot be locked after them. -/
def FirstBusy (T : CopyTable) (cs : List ℕ) (j : ℕ) : Prop :=
  j < cs.length ∧ T.CanLockAll (cs.take j) ∧ ¬ T.CanLockAll (cs.take (j + 1))

/-- The counters of the host resources and the marks of the copies are what they were. -/
def SameLocks (T U : CopyTable) : Prop :=
  (∀ k, (U.res k).readers = (T.res k).readers) ∧ ∀ c, U.scheduled c = T.scheduled c

theorem CanLockAll.of_take (h : T.CanLockAll (cs.take j)) (hij : i ≤ j) :
    T.CanLockAll (cs.take i) :=
  fun k => (h k).sublist (lockModes_sublist (List.take_sublist_take_left hij))

theorem FirstBusy.unique (hi : T.FirstBusy cs i) (hj : T.FirstBusy cs j) : i = j := by
  rcases Nat.lt_trichotomy i j with hlt | rfl | hlt
  · exact absurd (hj.2.1.of_take hlt) hi.2.2
  · rfl
  · exact absurd (hi.2.1.of_take hlt) hj.2.2

theorem postScheduleAll_scheduled (T : CopyTable) (evs : List (ℕ × Bool)) (d : ℕ) :
    (T.postScheduleAll evs).scheduled d =
      if d ∈ evs.map Prod.fst then false else T.scheduled d := by
  induction evs generalizing T with
  | nil => rfl
  | cons ev evs ih =>
    have hcons : T.postScheduleAll (ev :: evs) =
      (T.postSchedule ev.1 ev.2).postScheduleAll evs := rfl
    rw [hcons, ih, postSchedule_scheduled, List.map_cons]
    by_cases hd : d = ev.1 <;> simp [hd]

theorem prepareLoop_preSchedule (h : T.Holds K r held) (cs : List ℕ) :
    ∃ ret i U, prepareLoop (fun c T => T.preSchedule c) T cs = (ret, i, U) ∧
      T.Prepared U K r held (cs.take i) ∧
      if ret then i = cs.length
      else i < cs.length ∧ ¬ ∀ k, Lock.Admits (r k) (lockModes K k (cs.take (i + 1) ++ held)) := by
  induction cs generalizing T held with
  | nil => exact ⟨true, 0, T, rfl, .nil h, rfl⟩
  | cons c cs ih =>
    obtain ⟨hok, _⟩ := prepares_preSchedule K c T r held h
    by_cases hc : T.CanLock c
    · obtain ⟨U, hU, hp⟩ := hok (h.canLock_iff.mp hc)
      obtain ⟨ret, i, V, hV, hp', hend⟩ := ih hp.holds
      refine ⟨ret, i + 1, V, by simp only [prepareLoop, hU, hV], hp.trans hp', ?_⟩
      cases ret with
      | true => simpa using hend
      | false =>
        obtain ⟨hi, hbusy⟩ := hend
        refine ⟨Nat.succ_lt_succ hi, fun ha => hbusy fun k => (ha k).perm (lockModes_perm ?_)⟩
        exact List.perm_middle.symm
    · have hbusy : ¬ ∀ k, Lock.Admits (r k) (lockModes K k (c :: held)) :=
        fun ha => hc (h.canLock_iff.mpr ha)
      refine ⟨false, 0, T, ?_, .nil h, Nat.succ_pos _, by simpa using hbusy⟩
      simp only [prepareLoop, preSchedule_of_not_canLock hc]

theorem sameLocks_rollback_iff (hp : T.Prepared U T.kind (fun k => (T.res k).readers) []
    (cs.take i)) :
    T.SameLocks (U.postScheduleAll ((cs.take (i + 1)).map (·, false))) ↔
      (∀ c ∈ cs.take (i + 1), T.scheduled c = false) ∧
        ∀ c, (T.kind c).locks = true → (cs.take i).count c ≤ 1 := by
  have hfst : ((cs.take (i + 1)).map (·, false)).map Prod.fst = cs.take (i + 1) := by
    rw [List.map_map]
    exact List.map_id _
  have hsub : ∀ c ∈ cs.take i, c ∈ cs.take (i + 1) :=
    fun c hc => (List.take_sublist_take_left (Nat.le_succ i)).subset hc
  have hmarks : (∀ c, (U.postScheduleAll ((cs.take (i + 1)).map (·, false))).scheduled c =
      T.scheduled c) ↔ ∀ c ∈ cs.take (i + 1), T.scheduled c = false := by
    simp only [postScheduleAll_scheduled, hfst]
    constructor
    · intro h c hc
      rw [← h c, if_pos hc]
    · intro h c
      split
      next hc => exact (h c hc).symm
      next hc =>
        have hiff := hp.scheduled c
        rw [or_iff_left fun hc' => hc (hsub c hc'.1)] at hiff
        exact Bool.eq_iff_iff.mpr hiff
  rw [SameLocks, and_comm, hmarks]
  refine and_congr_right fun hfresh => ?_
  have hheld : ∀ c ∈ ((cs.take (i + 1)).map (·, false)).map Prod.fst, U.scheduled c = true →
      (T.kind c).locks = true → c ∈ cs.take i ++ [] := by
    intro c hc hs _
    rw [hfst] at hc
    rw [hp.scheduled, hfresh c hc] at hs
    simpa using (hs.resolve_left Bool.false_ne_true).1
  obtain ⟨left, hleft, hcount⟩ := hp.holds.postScheduleAll hheld
  rw [hleft.released_iff]
  refine forall_congr' fun c => forall_congr' fun hl => ?_
  rw [hcount c hl, hfst, List.append_nil]
  by_cases hc : c ∈ cs.take i
  · have hs : U.scheduled c = true :=
      (hp.scheduled c).mpr (.inr ⟨hc, (CopyKind.locks_eq_true.mp hl).1⟩)
    rw [if_pos ⟨hs, hsub c hc⟩]
    omega
  · rw [List.count_eq_zero.mpr hc]
    omega

end CopyTable

/-- A copy list that is not prepared leaves all locks as they were unless one of the copies up
to the busy one was marked before, or one of those that were locked was locked twice. -/
theorem failed_prepare_restores_iff (T : CopyTable) (needPrepare : Bool) (cs : List ℕ) :
    (((SchedElem.copyList needPrepare cs).prepareSchedule T).1 = false →
      T.SameLocks ((SchedElem.copyList needPrepare cs).prepareSchedule T).2) ↔
    (needPrepare = true → ∀ j, T.FirstBusy cs j →
      (∀ c ∈ cs.take (j + 1), T.scheduled c = false) ∧
        ∀ c, (T.kind c).locks = true → (cs.take j).count c ≤ 1) := by
  cases needPrepare with
  | false => simp [SchedElem.prepareSchedule]
  | true =>
    obtain ⟨ret, i, U, hloop, hp, hend⟩ := CopyTable.prepareLoop_preSchedule (.nil T) cs
    have hlocked : T.CanLockAll (cs.take i) := fun k => by simpa using hp.holds.admits k
    simp only [SchedElem.prepareSchedule, if_true, hloop, true_implies]
    cases ret with
    | true =>
      obtain rfl : i = cs.length := hend
      refine iff_of_true (by simp) fun j hj => absurd ?_ hj.2.2
      exact hlocked.of_take hj.1
    | false =>
      obtain ⟨hi, hbusy⟩ := hend
      have hfirst : T.FirstBusy cs i :=
        ⟨hi, hlocked, fun h => hbusy fun k => by simpa using h k⟩
      have hroll := CopyTable.sameLocks_rollback_iff hp
      constructor
      · rintro h j hj
        rw [← hfirst.unique hj]
        exact hroll.mp (h rfl)
      · rintro h -
        exact hroll.mpr (h i hfirst)

/-- Two copies from the card, of which the first is in flight on its own. -/
def inFlightTable : CopyTable where
  slots c := if c = 0 then ⟨⟨true, false, 64, 64, true⟩, 0⟩ else ⟨.create true 64 64, c⟩
  res k := if k = 0 then { HostRes.create false false with readers := -1 } else .create false false

/-- The list finds its first copy busy and releases the lock under which the card writes. -/
theorem rollback_releases_busy_copy :
    ¬ ∀ (T : CopyTable) (needPrepare : Bool) (cs : List ℕ),
      ((SchedElem.copyList needPrepare cs).prepareSchedule T).1 = false →
        T.SameLocks ((SchedElem.copyList needPrepare cs).prepareSchedule T).2 := by
  intro h
  have hreaders := (h inFlightTable true [0, 1] (by decide)).1 0
  exact absurd hreaders (by decide)

end NNPIHost

import NNPIHost.Copy.Table

/-! # The locks that copies hold

Copies are scheduled one after the other and their completions are handled in any order. The
counter of a host resource follows the copies that hold its lock, and a failure counts for
the first completion of a copy only, since that one takes the mark away.
-/

namespace NNPIHost

/-- The first completion of the copy is a failure. -/
def FirstFails (evs : List (ℕ × Bool)) (c : ℕ) : Prop := evs.find? (·.1 == c) = some (c, true)

section FirstFails

variable {evs evs' : List (ℕ × Bool)} {c : ℕ}

theorem FirstFails.mem (h : FirstFails evs c) : (c, true) ∈ evs := List.mem_of_find?_eq_some h

theorem firstFails_append (h : c ∈ evs.map Prod.fst) :
    FirstFails (evs ++ evs') c ↔ FirstFails evs c := by
  obtain ⟨ev, hev, rfl⟩ := List.mem_map.mp h
  have hsome : (evs.find? (·.1 == ev.1)).isSome = true :=
    List.find?_isSome.mpr ⟨ev, hev, beq_self_eq_true _⟩
  rw [FirstFails, FirstFails, List.find?_append, Option.or_of_isSome hsome]

theorem firstFails_of_forall (h : c ∈ evs.map Prod.fst) (hall : ∀ f, (c, f) ∈ evs → f = true) :
    FirstFails evs c := by
  obtain ⟨ev, hev, rfl⟩ := List.mem_map.mp h
  have hsome : (evs.find? (·.1 == ev.1)).isSome = true :=
    List.find?_isSome.mpr ⟨ev, hev, beq_self_eq_true _⟩
  obtain ⟨first, hfirst⟩ := Option.isSome_iff_exists.mp hsome
  have hbeq := List.find?_some (p := fun e : ℕ × Bool => e.1 == ev.1) hfirst
  have hc : first.1 = ev.1 := beq_iff_eq.mp hbeq
  have hf : first.2 = true := hall _ (hc ▸ List.mem_of_find?_eq_some hfirst)
  rw [FirstFails, hfirst, ← hc, ← hf]

end FirstFails

namespace CopyTable

open Function (update update_self update_of_ne)

variable (T : CopyTable) (c : ℕ)

def preSchedule : Bool × CopyTable :=
  match T.lock c with
  | (ret, U) => if ret = .noError then (true, U.mark c) else (false, U)

def postSchedule (failed : Bool) : CopyTable :=
  if T.scheduled c then (T.unmark c failed).unlock c else T

/-- Completions of copies, each with whether it failed. -/
def postScheduleAll (evs : List (ℕ × Bool)) : CopyTable :=
  evs.foldl (fun U ev => U.postSchedule ev.1 ev.2) T

variable {T c}

theorem preSchedule_of_not_canLock (h : ¬ T.CanLock c) : T.preSchedule c = (false, T) := by
  rw [preSchedule, CopyTable.lock, lockHostres_of_not_canLock h]
  rfl

theorem preSchedule_of_canLock (h : T.CanLock c) : ∃ U, T.preSchedule c = (true, U) ∧
    T.Follows U (if (T.kind c).isD2d then T.scheduled else update T.scheduled c true)
      (fun k => if (T.kind c).locks ∧ k = (T.kind c).hostres then
        Lock.take (T.res k).readers (T.kind c).isC2h else (T.res k).readers)
      (fun k => (T.res k).failedCopyOps) := by
  obtain ⟨V, hlock, hV⟩ := lock_of_canLock h
  have hmark := V.mark_follows (c := c)
  refine ⟨V.mark c, by rw [preSchedule, hlock]; rfl, hmark.kind.trans hV.kind,
    fun k => (hmark.lockless k).trans (hV.lockless k), ?_, ?_, ?_⟩
  · rw [hmark.scheduled, hV.kind, hV.scheduled]
  · intro k
    rw [hmark.readers, hV.readers]
  · intro k
    rw [hmark.failedCopyOps, hV.failedCopyOps]

theorem postSchedule_of_not_scheduled (h : T.scheduled c = false) (failed : Bool) :
    T.postSchedule c failed = T := by
  rw [postSchedule, h, if_neg Bool.false_ne_true]

theorem postSchedule_of_scheduled (h : T.scheduled c = true) (failed : Bool) :
    T.Follows (T.postSchedule c failed) (update T.scheduled c false)
      (fun k => if (T.kind c).locks ∧ k = (T.kind c).hostres then
        Lock.release (T.res k).readers (T.kind c).isC2h else (T.res k).readers)
      (fun k => if (failed = true ∧ (T.kind c).isD2d = false) ∧ k = (T.kind c).hostres then
        (T.res k).failedCopyOps + 1 else (T.res k).failedCopyOps) := by
  rw [postSchedule, if_pos h]
  have hmark := T.unmark_follows (c := c) failed
  have hlock := (T.unmark c failed).unlock_follows (c := c)
  refine ⟨hlock.kind.trans hmark.kind, fun k => (hlock.lockless k).trans (hmark.lockless k),
    hlock.scheduled.trans hmark.scheduled, ?_, ?_⟩
  · intro k
    simp only [hlock.readers, hmark.readers, hmark.kind]
  · intro k
    rw [hlock.failedCopyOps, hmark.failedCopyOps]

variable {U V : CopyTable} {K : ℕ → CopyKind} {r : ℕ → ℤ} {held cs cs' : List ℕ}

/-- The locks of the copies in `held` have been taken since the counters were `r`. -/
structure Holds (T : CopyTable) (K : ℕ → CopyKind) (r : ℕ → ℤ) (held : List ℕ) : Prop where
  kind : T.kind = K
  admits : ∀ k, Lock.Admits (r k) (lockModes K k held)
  readers : ∀ k, (T.res k).readers = Lock.takes (r k) (lockModes K k held)

theorem Holds.nil (T : CopyTable) : T.Holds T.kind (fun k => (T.res k).readers) [] :=
  ⟨rfl, fun _ => .inl rfl, fun _ => (Lock.takes_nil _).symm⟩

theorem Holds.perm (h : T.Holds K r held) (hp : held.Perm cs) : T.Holds K r cs :=
  ⟨h.kind, fun k => (h.admits k).perm (lockModes_perm hp),
    fun k => (h.readers k).trans (Lock.takes_perm (lockModes_perm hp))⟩

theorem Holds.canLock_iff (h : T.Holds K r held) :
    T.CanLock c ↔ ∀ k, Lock.Admits (r k) (lockModes K k (c :: held)) := by
  rw [CanLock, h.kind]
  by_cases hl : (K c).locks = true
  · have hfree : Lock.free (T.hostres c).readers (K c).isC2h = true ↔
        Lock.Admits (r (K c).hostres) (lockModes K (K c).hostres (c :: held)) := by
      have hres : T.hostres c = T.res (K c).hostres := by
        rw [← h.kind]
        rfl
      rw [hres, h.readers, lockModes_cons_of_locks hl rfl, Lock.admits_cons (h.admits _)]
    rw [hfree]
    constructor
    · intro ha k
      by_cases hk : (K c).hostres = k
      · exact hk ▸ ha hl
      · rw [lockModes_cons_of_not fun hc => hk hc.2]
        exact h.admits k
    · exact fun ha _ => ha _
  · refine iff_of_true (fun hc => absurd hc hl) fun k => ?_
    rw [lockModes_cons_of_not fun hc => hl hc.1]
    exact h.admits k

/-- The copies in `cs` have been locked and marked besides. -/
structure Prepared (T U : CopyTable) (K : ℕ → CopyKind) (r : ℕ → ℤ) (held cs : List ℕ) :
    Prop where
  holds : U.Holds K r (cs ++ held)
  scheduled : ∀ c, U.scheduled c = true ↔
    T.scheduled c = true ∨ c ∈ cs ∧ (K c).isD2d = false
  failedCopyOps : ∀ k, (U.res k).failedCopyOps = (T.res k).failedCopyOps

theorem Prepared.nil (h : T.Holds K r held) : T.Prepared T K r held [] :=
  ⟨h, fun _ => by simp, fun _ => rfl⟩

theorem Prepared.trans (h : T.Prepared U K r held cs) (h' : U.Prepared V K r (cs ++ held) cs') :
    T.Prepared V K r held (cs ++ cs') := by
  refine ⟨h'.holds.perm ?_, fun c => ?_, fun _ => (h'.failedCopyOps _).trans (h.failedCopyOps _)⟩
  · rw [← List.append_assoc]
    exact List.perm_append_comm.append_right held
  · rw [h'.scheduled, h.scheduled, or_assoc, ← or_and_right, List.mem_append]

/-- A preparation of `cs` succeeds when all their locks can be taken, and then takes them. -/
def Prepares (K : ℕ → CopyKind) (prepare : CopyTable → Bool × CopyTable) (cs : List ℕ) : Prop :=
  ∀ T r held, T.Holds K r held →
    ((∀ k, Lock.Admits (r k) (lockModes K k (cs ++ held))) →
      ∃ U, prepare T = (true, U) ∧ T.Prepared U K r held cs) ∧
    ((¬ ∀ k, Lock.Admits (r k) (lockModes K k (cs ++ held))) → (prepare T).1 = false)

theorem prepares_preSchedule (K : ℕ → CopyKind) (c : ℕ) :
    Prepares K (fun T => T.preSchedule c) [c] := by
  intro T r held h
  constructor
  · intro ha
    obtain ⟨U, hU, hf⟩ := preSchedule_of_canLock (h.canLock_iff.mpr ha)
    refine ⟨U, hU, ⟨hf.kind.trans h.kind, ha, fun k => ?_⟩, fun d => ?_, hf.failedCopyOps⟩
    · rw [hf.readers, h.kind, List.singleton_append]
      split
      next hk =>
        obtain ⟨hl, rfl⟩ := hk
        have ha' := ha (K c).hostres
        rw [List.singleton_append, lockModes_cons_of_locks hl rfl] at ha'
        rw [lockModes_cons_of_locks hl rfl, Lock.takes_cons ha', h.readers]
      next hk => rw [lockModes_cons_of_not fun hc => hk ⟨hc.1, hc.2.symm⟩, h.readers]
    · rw [hf.scheduled, h.kind, List.mem_singleton]
      by_cases hd : d = c
      · subst hd
        cases hd2 : (K d).isD2d <;> simp
      · cases hd2 : (K c).isD2d <;> simp [hd]
  · intro ha
    exact congrArg Prod.fst (preSchedule_of_not_canLock fun hc => ha (h.canLock_iff.mp hc))

theorem Prepares.congr {f g : CopyTable → Bool × CopyTable} (h : Prepares K f cs)
    (ht : ∀ T, (f T).1 = true → g T = f T) (hf : ∀ T, (f T).1 = false → (g T).1 = false) :
    Prepares K g cs := by
  intro T r held hT
  obtain ⟨hok, hbusy⟩ := h T r held hT
  constructor
  · intro ha
    obtain ⟨U, hU, hp⟩ := hok ha
    exact ⟨U, (ht T (by rw [hU])).trans hU, hp⟩
  · exact fun ha => hf T (hbusy ha)

/-- A loop that prepares things in order as long as it succeeds, with how many it prepared. -/
def prepareLoop {α : Type} (prepare : α → CopyTable → Bool × CopyTable) (T : CopyTable) :
    List α → Bool × ℕ × CopyTable
  | [] => (true, 0, T)
  | a :: as =>
      match prepare a T with
      | (true, T) =>
          match prepareLoop prepare T as with
          | (ret, i, T) => (ret, i + 1, T)
      | (false, T) => (false, 0, T)

theorem prepares_prepareLoop {α : Type} {prepare : α → CopyTable → Bool × CopyTable}
    {copies : α → List ℕ} (as : List α)
    (h : ∀ a ∈ as, Prepares K (prepare a) (copies a)) :
    Prepares K (fun T => ((prepareLoop prepare T as).1, (prepareLoop prepare T as).2.2))
      (as.flatMap copies) := by
  induction as with
  | nil => exact fun T r held hT => ⟨fun _ => ⟨T, rfl, .nil hT⟩, fun ha => absurd hT.admits ha⟩
  | cons a as ih =>
    intro T r held hT
    obtain ⟨hok, hbusy⟩ := h a List.mem_cons_self T r held hT
    simp only [List.flatMap_cons]
    by_cases hfirst : ∀ k, Lock.Admits (r k) (lockModes K k (copies a ++ held))
    · obtain ⟨U, hU, hp⟩ := hok hfirst
      have hperm : (as.flatMap copies ++ (copies a ++ held)).Perm
          (copies a ++ as.flatMap copies ++ held) := by
        rw [← List.append_assoc]
        exact List.perm_append_comm.append_right held
      obtain ⟨hok', hbusy'⟩ := ih (fun b hb => h b (List.mem_cons_of_mem _ hb)) U r _ hp.holds
      constructor
      · intro ha
        obtain ⟨V, hV, hp'⟩ := hok' fun k => (ha k).perm (lockModes_perm hperm.symm)
        obtain ⟨hret, hV⟩ := Prod.mk.inj hV
        exact ⟨V, by simp [prepareLoop, hU, hret, hV], hp.trans hp'⟩
      · intro ha
        have hret := hbusy' fun hall => ha fun k => (hall k).perm (lockModes_perm hperm)
        simpa [prepareLoop, hU] using hret
    · have hnot : ¬ ∀ k, Lock.Admits (r k)
          (lockModes K k (copies a ++ as.flatMap copies ++ held)) := by
        intro hall
        refine hfirst fun k => (hall k).sublist (lockModes_sublist ?_)
        exact (List.sublist_append_left ..).append_right held
      refine ⟨fun ha => absurd ha hnot, fun _ => ?_⟩
      have hret := hbusy hfirst
      rcases hprep : prepare a T with ⟨ret, U⟩
      rw [hprep] at hret
      obtain rfl : ret = false := hret
      simp [prepareLoop, hprep]

theorem Holds.postSchedule (h : T.Holds K r held)
    (hm : T.scheduled c = true → (K c).locks = true → c ∈ held) (failed : Bool) :
    (T.postSchedule c failed).Holds K r (if T.scheduled c then held.erase c else held) := by
  cases hs : T.scheduled c with
  | false => rwa [postSchedule_of_not_scheduled hs]
  | true =>
    have hf := postSchedule_of_scheduled hs failed
    have hsub : ∀ k, (lockModes K k (held.erase c)).Sublist (lockModes K k held) :=
      fun k => lockModes_sublist List.erase_sublist
    refine ⟨hf.kind.trans h.kind, fun k => (h.admits k).sublist (hsub k), fun k => ?_⟩
    rw [hf.readers, h.kind, h.readers, if_pos rfl]
    split
    next hk =>
      obtain ⟨hl, rfl⟩ := hk
      have hp := lockModes_perm (K := K) (k := (K c).hostres) (List.perm_cons_erase (hm hs hl))
      rw [lockModes_cons_of_locks hl rfl] at hp
      rw [Lock.takes_perm hp, Lock.release_takes ((h.admits _).perm hp)]
    next hk =>
      by_cases hc : c ∈ held
      · have hp := lockModes_perm (K := K) (k := k) (List.perm_cons_erase hc)
        rw [lockModes_cons_of_not fun hl => hk ⟨hl.1, hl.2.symm⟩] at hp
        exact Lock.takes_perm hp
      · rw [List.erase_of_not_mem hc]

theorem postSchedule_scheduled (failed : Bool) (d : ℕ) :
    (T.postSchedule c failed).scheduled d = if d = c then false else T.scheduled d := by
  cases hs : T.scheduled c with
  | false =>
    rw [postSchedule_of_not_scheduled hs]
    split
    next hd => rw [hd, hs]
    next => rfl
  | true =>
    rw [(postSchedule_of_scheduled hs failed).scheduled]
    exact Function.update_apply ..

theorem Holds.postScheduleAll {evs : List (ℕ × Bool)} (h : T.Holds K r held)
    (hm : ∀ c ∈ evs.map Prod.fst, T.scheduled c = true → (K c).locks = true → c ∈ held) :
    ∃ left, (T.postScheduleAll evs).Holds K r left ∧ ∀ c, (K c).locks = true →
      left.count c = held.count c -
        if T.scheduled c = true ∧ c ∈ evs.map Prod.fst then 1 else 0 := by
  induction evs generalizing T held with
  | nil => exact ⟨held, h, fun c _ => by simp⟩
  | cons ev evs ih =>
    obtain ⟨c, failed⟩ := ev
    have hstep := h.postSchedule (hm c (by simp)) failed
    obtain ⟨left, hleft, hcount⟩ := ih hstep (fun d hd hs hl => by
      rw [postSchedule_scheduled] at hs
      have hdc : d ≠ c := by
        rintro rfl
        simp at hs
      rw [if_neg hdc] at hs
      have hmem := hm d (List.mem_cons_of_mem _ hd) hs hl
      split
      · exact (List.mem_erase_of_ne hdc).mpr hmem
      · exact hmem)
    refine ⟨left, hleft, fun d hl => ?_⟩
    rw [hcount d hl, postSchedule_scheduled]
    by_cases hdc : d = c
    · subst hdc
      cases hs : T.scheduled d <;> simp
    · have hne : ¬ c = d := fun h => hdc h.symm
      cases hs : T.scheduled c <;> simp [hdc, List.count_erase_of_ne hdc]

theorem Holds.released_iff (h : T.Holds K r held) :
    (∀ k, (T.res k).readers = r k) ↔ ∀ c, (K c).locks = true → held.count c = 0 := by
  have hnil : (∀ k, (T.res k).readers = r k) ↔ ∀ k, lockModes K k held = [] :=
    forall_congr' fun k => by rw [h.readers, Lock.takes_eq_iff (h.admits k)]
  rw [hnil, lockModes_eq_nil]
  constructor
  · intro hno c hl
    exact List.count_eq_zero.mpr fun hc => by simp [hno c hc] at hl
  · intro hno c hc
    by_contra hl
    exact List.count_eq_zero.mp (hno c (by simpa using hl)) hc

theorem Holds.released_postScheduleAll_iff {evs : List (ℕ × Bool)} (h : T.Holds K r held)
    (hevs : ∀ c, (K c).locks = true → (c ∈ evs.map Prod.fst ↔ c ∈ held))
    (hm : ∀ c ∈ held, (K c).locks = true → T.scheduled c = true) :
    (∀ k, ((T.postScheduleAll evs).res k).readers = r k) ↔
      ∀ c, (K c).locks = true → held.count c ≤ 1 := by
  obtain ⟨left, hleft, hcount⟩ := h.postScheduleAll
    fun c (hc : c ∈ evs.map Prod.fst) _ hl => (hevs c hl).mp hc
  rw [hleft.released_iff]
  refine forall_congr' fun c => forall_congr' fun hl => ?_
  rw [hcount c hl]
  by_cases hc : c ∈ held
  · rw [if_pos ⟨hm c hc hl, (hevs c hl).mpr hc⟩]
    omega
  · rw [List.count_eq_zero.mpr hc]
    omega

theorem broken_postSchedule_iff {k : ℕ} (h0 : ∀ k, 0 ≤ (T.res k).failedCopyOps) (failed : Bool) :
    ((T.postSchedule c failed).res k).broken = true ↔ (T.res k).broken = true ∨
      T.scheduled c = true ∧ (T.kind c).isD2d = false ∧ (T.kind c).hostres = k ∧
        failed = true := by
  cases hs : T.scheduled c with
  | false => simp [postSchedule_of_not_scheduled hs]
  | true =>
    have hk := h0 k
    simp only [HostRes.broken, (postSchedule_of_scheduled hs failed).failedCopyOps,
      decide_eq_true_eq]
    split
    next hc =>
      obtain ⟨⟨hfail, hd⟩, rfl⟩ := hc
      exact iff_of_true (by omega) (.inr ⟨trivial, hd, rfl, hfail⟩)
    next hc =>
      refine (or_iff_left ?_).symm
      rintro ⟨_, hd, rfl, hfail⟩
      exact hc ⟨⟨hfail, hd⟩, rfl⟩

theorem kind_postSchedule (failed : Bool) : (T.postSchedule c failed).kind = T.kind := by
  cases hs : T.scheduled c with
  | false => rw [postSchedule_of_not_scheduled hs]
  | true => exact (postSchedule_of_scheduled hs failed).kind

theorem postScheduleAll_append (T : CopyTable) (evs evs' : List (ℕ × Bool)) :
    T.postScheduleAll (evs ++ evs') = (T.postScheduleAll evs).postScheduleAll evs' :=
  List.foldl_append

theorem kind_postScheduleAll (T : CopyTable) (evs : List (ℕ × Bool)) :
    (T.postScheduleAll evs).kind = T.kind := by
  induction evs generalizing T with
  | nil => rfl
  | cons ev evs ih => exact (ih _).trans (kind_postSchedule ev.2)

theorem failedCopyOps_postSchedule_nonneg (h0 : ∀ k, 0 ≤ (T.res k).failedCopyOps)
    (failed : Bool) (k : ℕ) : 0 ≤ ((T.postSchedule c failed).res k).failedCopyOps := by
  have hk := h0 k
  cases hs : T.scheduled c with
  | false => rwa [postSchedule_of_not_scheduled hs]
  | true =>
    rw [(postSchedule_of_scheduled hs failed).failedCopyOps]
    split <;> omega

theorem broken_postScheduleAll_iff {evs : List (ℕ × Bool)} {k : ℕ}
    (h0 : ∀ k, 0 ≤ (T.res k).failedCopyOps) :
    ((T.postScheduleAll evs).res k).broken = true ↔ (T.res k).broken = true ∨
      ∃ c, T.scheduled c = true ∧ (T.kind c).isD2d = false ∧ (T.kind c).hostres = k ∧
        FirstFails evs c := by
  induction evs generalizing T with
  | nil => simp [postScheduleAll, FirstFails]
  | cons ev evs ih =>
    obtain ⟨c, failed⟩ := ev
    have hcons : T.postScheduleAll ((c, failed) :: evs) =
      (T.postSchedule c failed).postScheduleAll evs := rfl
    rw [hcons, ih (failedCopyOps_postSchedule_nonneg h0 failed), broken_postSchedule_iff h0,
      kind_postSchedule, or_assoc]
    refine or_congr_right ?_
    constructor
    · rintro (⟨hs, hd, hk, rfl⟩ | ⟨d, hs, hd, hk, hfirst⟩)
      · exact ⟨c, hs, hd, hk, by simp [FirstFails]⟩
      · rw [postSchedule_scheduled] at hs
        have hdc : d ≠ c := by
          rintro rfl
          simp at hs
        rw [if_neg hdc] at hs
        refine ⟨d, hs, hd, hk, ?_⟩
        rwa [FirstFails, List.find?_cons_of_neg (by simpa using Ne.symm hdc)]
    · rintro ⟨d, hs, hd, hk, hfirst⟩
      by_cases hdc : d = c
      · subst hdc
        refine .inl ⟨hs, hd, hk, ?_⟩
        simpa [FirstFails] using hfirst
      · refine .inr ⟨d, ?_, hd, hk, ?_⟩
        · rwa [postSchedule_scheduled, if_neg hdc]
        · rwa [FirstFails, List.find?_cons_of_neg (by simpa using Ne.symm hdc)] at hfirst

end CopyTable

end NNPIHost

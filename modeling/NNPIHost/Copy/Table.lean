import Mathlib.Logic.Function.Basic
import NNPIHost.Copy.Command

/-! # The copies of a context

The copies with their host resources, which they may share, and what locking, marking and
releasing one copy changes in the table.
-/

namespace NNPIHost

/-- What stays the same of a copy and its host resource. -/
structure CopyKind where
  hostres : ℕ
  isC2h : Bool
  isD2d : Bool
  lockless : Bool

namespace CopyKind

/-- The copy takes the lock of its host resource. -/
def locks (K : CopyKind) : Bool := !K.isD2d && !K.lockless

variable {K : CopyKind}

theorem locks_eq_true : K.locks = true ↔ K.isD2d = false ∧ K.lockless = false := by
  simp [locks]

end CopyKind

/-- The modes in which copies hold the lock of a host resource. -/
def lockModes (K : ℕ → CopyKind) (k : ℕ) (cs : List ℕ) : List Bool :=
  (cs.filter fun c => (K c).locks && (K c).hostres == k).map fun c => (K c).isC2h

section LockModes

variable {K : ℕ → CopyKind} {k c : ℕ} {cs cs' : List ℕ}

theorem lockModes_perm (hp : cs.Perm cs') : (lockModes K k cs).Perm (lockModes K k cs') :=
  (hp.filter _).map _

theorem lockModes_cons_of_locks (h : (K c).locks = true) (hk : (K c).hostres = k) :
    lockModes K k (c :: cs) = (K c).isC2h :: lockModes K k cs := by
  simp [lockModes, h, hk]

theorem lockModes_cons_of_not (h : ¬ ((K c).locks = true ∧ (K c).hostres = k)) :
    lockModes K k (c :: cs) = lockModes K k cs := by
  rw [lockModes, List.filter_cons_of_neg (by simpa using h), lockModes]

theorem lockModes_sublist (hs : cs.Sublist cs') :
    (lockModes K k cs).Sublist (lockModes K k cs') :=
  (hs.filter _).map _

theorem lockModes_filter_locks : lockModes K k (cs.filter fun c => (K c).locks) =
    lockModes K k cs := by
  simp only [lockModes, List.filter_filter]
  congr 2
  ext c
  cases (K c).locks <;> simp

theorem lockModes_eq_nil : (∀ k, lockModes K k cs = []) ↔ ∀ c ∈ cs, (K c).locks = false := by
  simp only [lockModes, List.map_eq_nil_iff, List.filter_eq_nil_iff]
  constructor
  · intro h c hc
    exact Bool.eq_false_iff.mpr fun hl => h (K c).hostres c hc (by simp [hl])
  · intro h k c hc
    simp [h c hc]

end LockModes

structure CopySlot where
  copy : CopyCommand
  hostres : ℕ

structure CopyTable where
  slots : ℕ → CopySlot
  res : ℕ → HostRes

namespace CopyTable

open Function (update update_self update_of_ne)

variable (T : CopyTable) (c : ℕ)

def hostres : HostRes := T.res (T.slots c).hostres

def kind (c : ℕ) : CopyKind :=
  ⟨(T.slots c).hostres, (T.slots c).copy.isC2h, (T.slots c).copy.isD2d, (T.hostres c).lockless⟩

def scheduled (c : ℕ) : Bool := (T.slots c).copy.scheduled

/-- Change a copy and its host resource. -/
def put (slot : CopySlot) (r : HostRes) : CopyTable :=
  ⟨update T.slots c slot, update T.res (T.slots c).hostres r⟩

def setRes (k : ℕ) (r : HostRes) : CopyTable := { T with res := update T.res k r }

def lock : NNPError × CopyTable :=
  let slot := T.slots c
  match slot.copy.lockHostres (T.hostres c) with
  | (ret, r) =>
    if ret = .noError then (ret, T.put c slot r) else (ret, T)

def mark : CopyTable :=
  T.put c { T.slots c with copy := (T.slots c).copy.mark } (T.hostres c)

def unmark (failed : Bool) : CopyTable :=
  T.put c { T.slots c with copy := (T.slots c).copy.unmark }
    ((T.slots c).copy.countFailure (T.hostres c) failed)

def unlock : CopyTable :=
  T.put c (T.slots c) ((T.slots c).copy.unlockHostres (T.hostres c))

variable {T U : CopyTable} {c : ℕ}

theorem put_lockless {slot : CopySlot} {r : HostRes} (hl : r.lockless = (T.hostres c).lockless)
    (k : ℕ) : ((T.put c slot r).res k).lockless = (T.res k).lockless := by
  by_cases hk : k = (T.slots c).hostres
  · rw [hk]
    exact (congrArg HostRes.lockless (update_self ..)).trans hl
  · simp only [put, update_of_ne hk]

theorem kind_put {slot : CopySlot} {r : HostRes} (hh : slot.hostres = (T.slots c).hostres)
    (hw : slot.copy.isC2h = (T.slots c).copy.isC2h)
    (hd : slot.copy.isD2d = (T.slots c).copy.isD2d) (hl : r.lockless = (T.hostres c).lockless) :
    (T.put c slot r).kind = T.kind := by
  ext d : 1
  simp only [kind, hostres, put_lockless hl]
  by_cases hdc : d = c
  · subst hdc
    simp only [put, update_self, hh, hw, hd]
  · simp only [put, update_of_ne hdc]

theorem put_res {slot : CopySlot} {r : HostRes} {k : ℕ} :
    (T.put c slot r).res k = if k = (T.kind c).hostres then r else T.res k :=
  Function.update_apply ..

theorem put_scheduled {slot : CopySlot} {r : HostRes} :
    (T.put c slot r).scheduled = update T.scheduled c slot.copy.scheduled := by
  ext d : 1
  by_cases hd : d = c
  · subst hd
    simp only [scheduled, put, update_self]
  · simp only [scheduled, put, update_of_ne hd]

theorem put_scheduled_of_eq {slot : CopySlot} {r : HostRes}
    (hs : slot.copy.scheduled = (T.slots c).copy.scheduled) :
    (T.put c slot r).scheduled = T.scheduled := by
  rw [put_scheduled, hs]
  exact Function.update_eq_self c T.scheduled

/-- Only the mark of the copy, the counter of its host resource and the number of failures
there can change. -/
structure Follows (T U : CopyTable) (scheduled : ℕ → Bool) (readers failedCopyOps : ℕ → ℤ) :
    Prop where
  kind : U.kind = T.kind
  lockless : ∀ k, (U.res k).lockless = (T.res k).lockless
  scheduled : U.scheduled = scheduled
  readers : ∀ k, (U.res k).readers = readers k
  failedCopyOps : ∀ k, (U.res k).failedCopyOps = failedCopyOps k

theorem put_follows {slot : CopySlot} (f : ℤ → ℤ) (hh : slot.hostres = (T.slots c).hostres)
    (hcopy : slot.copy = (T.slots c).copy) :
    T.Follows
      (T.put c slot (if (T.kind c).locks then
        { T.hostres c with readers := f (T.hostres c).readers } else T.hostres c))
      T.scheduled
      (fun k => if (T.kind c).locks ∧ k = (T.kind c).hostres then f (T.res k).readers
        else (T.res k).readers)
      (fun k => (T.res k).failedCopyOps) := by
  have hlockless : (if (T.kind c).locks then
      { T.hostres c with readers := f (T.hostres c).readers } else T.hostres c).lockless =
      (T.hostres c).lockless := by
    split <;> rfl
  refine ⟨kind_put hh (by rw [hcopy]) (by rw [hcopy]) hlockless, put_lockless hlockless,
    put_scheduled_of_eq (by rw [hcopy]), fun k => ?_, fun k => ?_⟩ <;> rw [put_res]
  all_goals
    by_cases hk : k = (T.kind c).hostres
    · subst hk
      cases (T.kind c).locks <;> simp [hostres, kind]
    · simp [hk]

/-- The lock of a copy leaves this of its host resource. -/
def lockedRes (T : CopyTable) (c : ℕ) : HostRes :=
  if (T.kind c).locks then
    { T.hostres c with readers := Lock.take (T.hostres c).readers (T.kind c).isC2h }
  else T.hostres c

def CanLock (T : CopyTable) (c : ℕ) : Prop :=
  (T.kind c).locks = true → Lock.free (T.hostres c).readers (T.kind c).isC2h = true

theorem lockHostres_of_canLock (h : T.CanLock c) :
    (T.slots c).copy.lockHostres (T.hostres c) = (.noError, T.lockedRes c) := by
  unfold CopyCommand.lockHostres lockedRes
  split
  next hd => simp [CopyKind.locks, kind, hd]
  next hd =>
    cases hl : (T.hostres c).lockless with
    | true => simp [CopyKind.locks, kind, hl, HostRes.lockDeviceAccess]
    | false =>
      have hk : (T.kind c).locks = true := by simp [CopyKind.locks, kind, hd, hl]
      have hf : Lock.free (T.hostres c).readers (T.slots c).copy.isC2h = true := h hk
      rw [HostRes.lockDeviceAccess_eq hl, if_pos hf, if_pos hk]
      rfl

theorem lockHostres_of_not_canLock (h : ¬ T.CanLock c) :
    (T.slots c).copy.lockHostres (T.hostres c) = (.deviceBusy, T.hostres c) := by
  obtain ⟨hk, hf⟩ := Classical.not_imp.mp h
  have hd : (T.slots c).copy.isD2d = false := (CopyKind.locks_eq_true.mp hk).1
  have hl : (T.hostres c).lockless = false := (CopyKind.locks_eq_true.mp hk).2
  have hf' : ¬ Lock.free (T.hostres c).readers (T.slots c).copy.isC2h = true := hf
  rw [CopyCommand.lockHostres, hd, HostRes.lockDeviceAccess_eq hl, if_neg hf']
  rfl

theorem lock_of_canLock (h : T.CanLock c) : ∃ U, T.lock c = (.noError, U) ∧
    T.Follows U T.scheduled
      (fun k => if (T.kind c).locks ∧ k = (T.kind c).hostres then
        Lock.take (T.res k).readers (T.kind c).isC2h else (T.res k).readers)
      (fun k => (T.res k).failedCopyOps) := by
  refine ⟨_, by rw [CopyTable.lock, lockHostres_of_canLock h]; rfl, ?_⟩
  exact put_follows (Lock.take · (T.kind c).isC2h) rfl rfl

theorem canLock_of_lock (h : T.lock c = (.noError, U)) : T.CanLock c := by
  by_contra hc
  rw [lock, lockHostres_of_not_canLock hc] at h
  cases (Prod.mk.inj h).1

theorem lock_follows (h : T.lock c = (.noError, U)) :
    T.Follows U T.scheduled
      (fun k => if (T.kind c).locks ∧ k = (T.kind c).hostres then
        Lock.take (T.res k).readers (T.kind c).isC2h else (T.res k).readers)
      (fun k => (T.res k).failedCopyOps) := by
  obtain ⟨V, hV, hf⟩ := lock_of_canLock (canLock_of_lock h)
  obtain rfl : V = U := (Prod.mk.inj (hV.symm.trans h)).2
  exact hf

theorem lock_eq_of_ne {ret : NNPError} (h : T.lock c = (ret, U)) (hne : ret ≠ .noError) :
    U = T := by
  unfold lock at h
  simp only at h
  split at h
  next hret => exact absurd ((Prod.mk.inj h).1 ▸ hret) hne
  next => exact (Prod.mk.inj h).2.symm

theorem mark_follows :
    T.Follows (T.mark c) (if (T.kind c).isD2d then T.scheduled else update T.scheduled c true)
      (fun k => (T.res k).readers) (fun k => (T.res k).failedCopyOps) := by
  have hres : ∀ k, (T.mark c).res k = T.res k := by
    intro k
    rw [mark, put_res]
    split
    next hk => rw [hk, hostres, kind]
    next => rfl
  refine ⟨kind_put rfl (CopyCommand.mark_isC2h _) (CopyCommand.mark_isD2d _) rfl,
    put_lockless rfl, ?_, fun k => by rw [hres], fun k => by rw [hres]⟩
  rw [mark, put_scheduled, CopyCommand.mark, kind]
  split
  next => exact Function.update_eq_self c T.scheduled
  next => rfl

theorem unmark_follows (failed : Bool) :
    T.Follows (T.unmark c failed) (update T.scheduled c false) (fun k => (T.res k).readers)
      (fun k => if (failed = true ∧ (T.kind c).isD2d = false) ∧ k = (T.kind c).hostres then
        (T.res k).failedCopyOps + 1 else (T.res k).failedCopyOps) := by
  refine ⟨kind_put rfl rfl rfl (CopyCommand.countFailure_lockless ..),
    put_lockless (CopyCommand.countFailure_lockless ..), put_scheduled,
    fun k => ?_, fun k => ?_⟩ <;> rw [unmark, put_res]
  · split
    next hk =>
      subst hk
      exact CopyCommand.countFailure_readers ..
    next => rfl
  · by_cases hk : k = (T.kind c).hostres
    · subst hk
      cases failed <;> cases hd : (T.slots c).copy.isD2d <;>
        simp [kind, hostres, CopyCommand.countFailure, HostRes.updateCopyFailCount, hd]
    · simp [hk]

theorem scheduled_of_mark {d : ℕ} (h : (T.mark c).scheduled d = true) :
    T.scheduled d = true ∨ d = c := by
  rw [mark_follows.scheduled] at h
  by_cases hd : d = c
  · exact .inr hd
  · refine .inl ?_
    split at h
    · exact h
    · rwa [update_of_ne hd] at h

theorem scheduled_of_unmark {d : ℕ} {failed : Bool} (h : (T.unmark c failed).scheduled d = true) :
    d ≠ c ∧ T.scheduled d = true := by
  rw [(unmark_follows failed).scheduled] at h
  by_cases hd : d = c
  · rw [hd, update_self] at h
    cases h
  · exact ⟨hd, by rwa [update_of_ne hd] at h⟩

theorem unlock_follows :
    T.Follows (T.unlock c) T.scheduled
      (fun k => if (T.kind c).locks ∧ k = (T.kind c).hostres then
        Lock.release (T.res k).readers (T.kind c).isC2h else (T.res k).readers)
      (fun k => (T.res k).failedCopyOps) := by
  have hres : (T.slots c).copy.unlockHostres (T.hostres c) = if (T.kind c).locks then
      { T.hostres c with readers := Lock.release (T.hostres c).readers (T.kind c).isC2h }
      else T.hostres c := by
    cases hd : (T.slots c).copy.isD2d <;> cases hl : (T.hostres c).lockless <;>
      simp [kind, CopyKind.locks, CopyCommand.unlockHostres, HostRes.unlockDeviceAccess,
        Lock.release, hd, hl]
  rw [unlock, hres]
  exact put_follows (Lock.release · (T.kind c).isC2h) rfl rfl

/-- The counter of each host resource stands for the locks of the copies and for those of its
other users. A copy has a lock for its mark and `n` more that are on their way. -/
def Accounts (T : CopyTable) (others : ℕ → List Bool) (n : ℕ → ℕ) : Prop :=
  ∃ held : List ℕ, (∀ c, (T.kind c).locks = true → held.count c = n c + (T.scheduled c).toNat) ∧
    ∀ k, (T.res k).lockless = false →
      Lock.Held (T.res k).readers (lockModes T.kind k held ++ others k)

variable {others : ℕ → List Bool} {n n' : ℕ → ℕ}

namespace Accounts

theorem held_others (h : T.Accounts others n)
    (hn : ∀ c, (T.kind c).locks = true → n c = 0 ∧ T.scheduled c = false) {k : ℕ}
    (hk : (T.res k).lockless = false) : Lock.Held (T.res k).readers (others k) := by
  obtain ⟨held, hcount, hheld⟩ := h
  have hnil : lockModes T.kind k held = [] := by
    refine lockModes_eq_nil.mpr (fun c hc => ?_) k
    by_contra hl
    rw [Bool.not_eq_false] at hl
    have hzero := hcount c hl
    rw [(hn c hl).1, (hn c hl).2] at hzero
    exact List.count_eq_zero.mp hzero hc
  simpa [hnil] using hheld k hk

theorem congr (h : T.Accounts others n) {scheduled : ℕ → Bool} {failedCopyOps : ℕ → ℤ}
    (hf : T.Follows U scheduled (fun k => (T.res k).readers) failedCopyOps)
    (hn : ∀ c, (T.kind c).locks = true →
      n' c + (scheduled c).toNat = n c + (T.scheduled c).toNat) : U.Accounts others n' := by
  obtain ⟨held, hcount, hheld⟩ := h
  refine ⟨held, fun c hc => ?_, fun k hk => ?_⟩
  · rw [hf.kind] at hc
    rw [hcount c hc, hf.scheduled, hn c hc]
  · rw [hf.readers, hf.kind]
    exact hheld k (hf.lockless k ▸ hk)

theorem lock (h : T.Accounts others n) (hl : T.lock c = (.noError, U))
    (hn : ∀ d, n' d = n d + (decide (c = d)).toNat) : U.Accounts others n' := by
  obtain ⟨held, hcount, hheld⟩ := h
  have hcan := canLock_of_lock hl
  have hf := lock_follows hl
  refine ⟨c :: held, fun d hd => ?_, fun k hk => ?_⟩
  · rw [hf.kind] at hd
    rw [List.count_cons, hcount d hd, hf.scheduled, hn]
    by_cases hcd : c = d <;> simp [hcd, Nat.add_right_comm]
  · have hbefore := hheld k (hf.lockless k ▸ hk)
    rw [hf.readers, hf.kind]
    split
    next hc =>
      obtain ⟨hc, rfl⟩ := hc
      rw [lockModes_cons_of_locks hc rfl]
      exact hbefore.take (hcan hc)
    next hc => rwa [lockModes_cons_of_not fun h => hc ⟨h.1, h.2.symm⟩]

theorem unlock (h : T.Accounts others n) (hn : ∀ d, n d = n' d + (decide (c = d)).toNat) :
    (T.unlock c).Accounts others n' := by
  obtain ⟨held, hcount, hheld⟩ := h
  have hf := T.unlock_follows (c := c)
  refine ⟨held.erase c, fun d hd => ?_, fun k hk => ?_⟩
  · rw [hf.kind] at hd
    rw [List.count_erase, hcount d hd, hf.scheduled, hn]
    by_cases hcd : c = d
    · simp [hcd]
    · simp [hcd]
  · have hbefore := hheld k (hf.lockless k ▸ hk)
    rw [hf.readers, hf.kind]
    by_cases hc : (T.kind c).locks = true
    · have hmem : c ∈ held := by
        have hpos : 0 < held.count c := by
          rw [hcount c hc, hn, decide_eq_true rfl, Bool.toNat_true]
          omega
        exact List.count_pos_iff.mp hpos
      have hp := lockModes_perm (K := T.kind) (k := k) (List.perm_cons_erase hmem)
      split
      next hk' =>
        obtain ⟨-, rfl⟩ := hk'
        rw [lockModes_cons_of_locks hc rfl] at hp
        exact (hbefore.perm (hp.append_right _)).release
      next hk' =>
        rw [lockModes_cons_of_not fun h => hk' ⟨h.1, h.2.symm⟩] at hp
        exact hbefore.perm (hp.append_right _)
    · rw [if_neg fun h => hc h.1]
      by_cases hmem : c ∈ held
      · have hp := lockModes_perm (K := T.kind) (k := k) (List.perm_cons_erase hmem)
        rw [lockModes_cons_of_not fun h => hc h.1] at hp
        exact hbefore.perm (hp.append_right _)
      · rwa [List.erase_of_not_mem hmem]

theorem mark (h : T.Accounts others n) (hn : ∀ d, n d = n' d + (decide (c = d)).toNat)
    (hm : (T.kind c).locks = true → T.scheduled c = false) : (T.mark c).Accounts others n' := by
  refine h.congr mark_follows fun d hd => ?_
  rw [hn]
  by_cases hcd : c = d
  · subst hcd
    simp [(CopyKind.locks_eq_true.mp hd).1, hm hd]
  · split <;> simp [hcd, update_of_ne (Ne.symm hcd)]

theorem unmark (h : T.Accounts others n) (hn : ∀ d, n' d = n d + (decide (c = d)).toNat)
    (hm : (T.kind c).locks = true → T.scheduled c = true) (failed : Bool) :
    (T.unmark c failed).Accounts others n' := by
  refine h.congr (unmark_follows failed) fun d hd => ?_
  rw [hn]
  by_cases hcd : c = d
  · subst hcd
    simp [hm hd]
  · simp [hcd, update_of_ne (Ne.symm hcd)]

theorem setRes (h : T.Accounts others n) {k : ℕ} {r : HostRes} {hs : List Bool}
    (hl : r.lockless = (T.res k).lockless)
    (hheld : ∀ modes, r.lockless = false →
      Lock.Held (T.res k).readers (modes ++ others k) → Lock.Held r.readers (modes ++ hs)) :
    (T.setRes k r).Accounts (update others k hs) n := by
  obtain ⟨held, hcount, hbefore⟩ := h
  have hlockless : ∀ j, ((T.setRes k r).res j).lockless = (T.res j).lockless := by
    intro j
    by_cases hj : j = k
    · simp [CopyTable.setRes, hj, hl]
    · simp [CopyTable.setRes, hj]
  have hkind : (T.setRes k r).kind = T.kind := by
    ext d : 1
    simp only [kind, hostres, hlockless]
    rfl
  refine ⟨held, fun d hd => hcount d (hkind ▸ hd), fun j hj => ?_⟩
  rw [hlockless] at hj
  have hbefore := hbefore j hj
  rw [hkind]
  by_cases hjk : j = k
  · subst hjk
    simpa [CopyTable.setRes] using hheld _ (hl ▸ hj) hbefore
  · simpa [CopyTable.setRes, hjk] using hbefore

end Accounts

end CopyTable

end NNPIHost

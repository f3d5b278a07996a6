import NNPIHost.SubLoad.Blocks

/-! # What a step of a load can do

Most steps leave the copies, the stream and the offset alone. The others read a chunk of the
stream, schedule a copy of it, or report a copy.
-/

namespace NNPIHost

open Function (update update_self update_of_ne)

namespace LoadPhase

/-- The function stands in its loop. -/
def inLoop : LoadPhase → Bool
  | .create | .map | .createSubres | .lock | .read | .unlock _ | .schedule _ => true
  | _ => false

/-- It stands in its loop without a chunk that was read. -/
def reading : LoadPhase → Bool
  | .create | .map | .createSubres | .lock | .read => true
  | _ => false

/-- What follows after the loop. -/
def next : LoadPhase → LoadPhase
  | .waitLock i => .waitUnlock i
  | .waitUnlock i => if i then .unmap false else .waitLock true
  | .unmap i => .destroy i
  | .destroy i => if i then .returned else .unmap true
  | p => p

theorem inLoop_of_reading {p : LoadPhase} (h : p.reading = true) : p.inLoop = true := by
  cases p <;> first | rfl | cases h

end LoadPhase

namespace SubLoad

variable {σ : Type*} {read : σ → List UInt8 → ℤ × List UInt8 × σ} {s t : SubLoad σ} {i : Bool}
  {op : LoadOp}

/-- Nothing was read, scheduled or reported, and no block that is used was overwritten. -/
structure Quiet (s t : SubLoad σ) : Prop where
  devresSize : t.devresSize = s.devresSize
  blockSize : t.blockSize = s.blockSize
  blockIdx : t.blockIdx = s.blockIdx
  devresOffset : t.devresOffset = s.devresOffset
  stream : t.stream = s.stream
  sent : t.sent = s.sent
  mem : ∀ i, (s.blocks i).hostres ≠ none → (t.blocks i).mem = (s.blocks i).mem
  fresh : ∀ i, (s.blocks i).hostres = none → (t.blocks i).hostres ≠ none →
    (t.blocks i).mem.length = s.blockSize
  mapId : ∀ i, s.pending i ≠ 0 → (t.blocks i).mapId = (s.blocks i).mapId

theorem Quiet.refl (s : SubLoad σ) : s.Quiet s :=
  ⟨rfl, rfl, rfl, rfl, rfl, rfl, fun _ _ => rfl, fun _ hn h => absurd hn h, fun _ _ => rfl⟩

theorem Quiet.phase (h : s.Quiet t) (p : LoadPhase) : s.Quiet { t with phase := p } :=
  ⟨h.devresSize, h.blockSize, h.blockIdx, h.devresOffset, h.stream, h.sent, h.mem, h.fresh,
    h.mapId⟩

theorem Quiet.leave (h : s.Quiet t) (ret : NNPError) : s.Quiet (t.leave ret) :=
  ⟨h.devresSize, h.blockSize, h.blockIdx, h.devresOffset, h.stream, h.sent, h.mem, h.fresh,
    h.mapId⟩

theorem quiet_setBlock {b : HostBlock} (hm : (s.blocks i).hostres ≠ none → b.mem = (s.blocks i).mem)
    (hf : (s.blocks i).hostres = none → b.hostres ≠ none → b.mem.length = s.blockSize)
    (hid : s.pending i ≠ 0 → b.mapId = (s.blocks i).mapId) : s.Quiet (s.setBlock i b) := by
  refine ⟨rfl, rfl, rfl, rfl, rfl, rfl, ?_, ?_, ?_⟩
  · exact forall_setBlock
      (P := fun j b => (s.blocks j).hostres ≠ none → b.mem = (s.blocks j).mem) hm fun _ _ => rfl
  · exact forall_setBlock
      (P := fun j b => (s.blocks j).hostres = none → b.hostres ≠ none → b.mem.length = s.blockSize)
      hf fun _ hn h => absurd hn h
  · exact forall_setBlock
      (P := fun j b => s.pending j ≠ 0 → b.mapId = (s.blocks j).mapId) hid fun _ _ => rfl

theorem quiet_setBlock_keep {b : HostBlock} (hm : b.mem = (s.blocks i).mem)
    (hr : (s.blocks i).hostres = none → b.hostres = none) (hid : b.mapId = (s.blocks i).mapId) :
    s.Quiet (s.setBlock i b) :=
  quiet_setBlock (fun _ => hm) (fun hn h => absurd (hr hn) h) fun _ => hid

theorem again_cases (s : SubLoad σ) (n : ℕ) :
    n = s.blockSize ∧ (∃ p, LoadPhase.reading p = true ∧ s.again n = { s with phase := p }) ∨
      n ≠ s.blockSize ∧ s.again n = s.leave .noError := by
  by_cases hn : n = s.blockSize
  · refine .inl ⟨hn, if s.block.hostres.isNone then .create else .lock, ?_, ?_⟩
    · split <;> rfl
    · rw [again, if_pos hn]
  · exact .inr ⟨hn, by rw [again, if_neg hn]⟩

/-- What a step can do. -/
inductive Effect (read : σ → List UInt8 → ℤ × List UInt8 × σ) (s : SubLoad σ) (op : LoadOp)
    (t : SubLoad σ) : Prop
  | prepare : s.Quiet t → s.phase.reading = true → t.phase.reading = true → t.ret = s.ret →
      Effect read s op t
  | fail : s.Quiet t → s.phase.inLoop = true → t.phase = .unmap false → t.ret ≠ .noError →
      Effect read s op t
  | read : s.phase = .read → t = s.readBlock read → Effect read s op t
  | take {n : ℤ} : s.Quiet t → s.phase = .unlock n → 0 < n → t.phase = .schedule n.toNat →
      t.ret = s.ret → Effect read s op t
  | ended : s.Quiet t → s.phase = .unlock 0 → t.phase = .waitLock false → t.ret = .noError →
      Effect read s op t
  | schedule {n : ℕ} {io b msg} : s.phase = .schedule n → op = .schedule io →
      s.Schedules n b msg → t = (s.scheduled b msg n).again n → Effect read s op t
  | finish : s.Quiet t → s.phase.inLoop = false → t.phase = s.phase.next → t.ret = s.ret →
      (∀ i, s.phase = .waitLock i → s.pending i = 0) → (∀ i, s.phase = .unmap i → op = .unmap) →
      Effect read s op t
  | report {j m failed} : op = .complete j failed → s.sent[j]? = some m → m.report = none →
      t = { s.setBlock m.block ((s.blocks m.block).postSchedule failed) with
        sent := s.sent.set j { m with report := some !failed } } → Effect read s op t

theorem Effect.of_leave {u : SubLoad σ} (hu : s.Quiet u) (hp : s.phase.inLoop = true)
    {ret : NNPError} (hret : ret ≠ .noError) : Effect read s op (u.leave ret) :=
  .fail (hu.leave ret) hp (by rw [SubLoad.leave, if_neg hret]) hret

theorem create_effect (h : s.Inv) (hp : s.phase = .create) (rc : ℕ) :
    Effect read s op (s.create rc) := by
  rw [SubLoad.create]
  split
  · exact .of_leave (.refl s) (by rw [hp]; rfl) (by decide)
  · refine .prepare (.phase (quiet_setBlock (fun hr => absurd (h.fresh hp) hr) (fun _ _ => ?_)
      fun hpend => ?_) _) (by rw [hp]; rfl) rfl rfl
    · exact List.length_replicate
    · exact absurd (h.idle (by rw [hp]; rfl)) hpend

theorem map_effect (h : s.Inv) (hp : s.phase = .map) (rc : ℕ) (mapId : UInt16)
    (syncNeeded : Bool) : Effect read s op (s.map rc mapId syncNeeded) := by
  rw [SubLoad.map]
  split
  next hrc =>
    exact .of_leave (.refl s) (by rw [hp]; rfl) (errnoToNNPError_ne hrc)
  next =>
    refine .prepare (.phase (quiet_setBlock (fun _ => ?_) (fun hn hr => absurd ?_ hr) fun hpend =>
      ?_) _) (by rw [hp]; rfl) rfl rfl
    · rfl
    · exact Option.map_eq_none_iff.mpr hn
    · exact absurd (h.idle (by rw [hp]; rfl)) hpend

theorem createSubres_effect (hp : s.phase = .createSubres) (ret : NNPError) (id : UInt16) :
    Effect read s op (s.createSubres ret id) := by
  rw [SubLoad.createSubres]
  split
  next hret => exact .of_leave (.refl s) (by rw [hp]; rfl) hret
  next =>
    refine .prepare (.phase (quiet_setBlock_keep ?_ (fun hn => ?_) ?_) _) (by rw [hp]; rfl) rfl rfl
    · rfl
    · exact hn
    · rfl

theorem lock_effect (hp : s.phase = .lock) {sync : NNPError} (hs : s.lock sync = some t) :
    Effect read s op t := by
  have hloop : s.phase.inLoop = true := by rw [hp]; rfl
  rcases lock_cases hs with ⟨ret, hret, rfl⟩ | ⟨r, hr, _, rfl⟩
  · exact .of_leave (.refl s) hloop hret
  · have hu : s.Quiet (s.setBlock s.blockIdx
        { s.block with hostres := some (r.lockCpuTaken sync true).2 }) :=
      quiet_setBlock_keep rfl (fun hn => absurd (hr.symm.trans hn) (by simp)) rfl
    split
    next => exact .prepare (hu.phase _) (by rw [hp]; rfl) rfl rfl
    next hret => exact .of_leave hu hloop hret

theorem unlock_effect (hb : 0 < s.blockSize) {n : ℤ} (hp : s.phase = .unlock n) {sync : NNPError}
    (hs : s.unlock n sync = some t) : Effect read s op t := by
  have hloop : s.phase.inLoop = true := by rw [hp]; rfl
  obtain ⟨r, hr, rfl⟩ := Option.map_eq_some_iff.mp hs
  have hu : s.Quiet (s.setBlock s.blockIdx
      { s.block with hostres := some (r.unlockCpuAccess sync).2 }) :=
    quiet_setBlock_keep rfl (fun hn => absurd (hr.symm.trans hn) (by simp)) rfl
  dsimp only
  split_ifs with hneg hret hpos
  · exact .of_leave hu hloop (by decide)
  · exact .of_leave hu hloop hret
  · exact .take (hu.phase _) hp hpos rfl rfl
  · obtain rfl : n = 0 := by omega
    rcases again_cases (s.setBlock s.blockIdx
      { s.block with hostres := some (r.unlockCpuAccess sync).2 }) 0 with ⟨h0, _⟩ | ⟨_, heq⟩
    · exact absurd h0 (Nat.ne_of_lt hb)
    · rw [heq]
      exact .ended (hu.leave _) hp rfl rfl

theorem waitLock_quiet {sync : NNPError} (hs : s.waitLock i sync = some t) :
    s.Quiet t ∧ t.phase = .waitUnlock i ∧ t.ret = s.ret := by
  rw [SubLoad.waitLock] at hs
  split at hs
  next => exact Option.some.inj hs ▸ ⟨(Quiet.refl s).phase _, rfl, rfl⟩
  next r hr =>
    split at hs
    next => exact Option.some.inj hs ▸ ⟨(Quiet.refl s).phase _, rfl, rfl⟩
    next =>
      rw [Option.ite_none_right_eq_some] at hs
      rw [← Option.some.inj hs.2]
      refine ⟨.phase (quiet_setBlock_keep ?_ (fun hn => ?_) ?_) _, rfl, rfl⟩
      · rfl
      · exact absurd hn (by simp [hr])
      · rfl

theorem waitLock_pending (h : s.Inv) {sync : NNPError} (hs : s.waitLock i sync = some t) :
    s.pending i = 0 := by
  rw [SubLoad.waitLock] at hs
  split at hs
  next hr => exact ((h.sound i).1 hr).2.1
  next r hr =>
    have hok := (h.sound i).2 r hr
    split at hs
    next ret htest =>
      rcases hok.locks with ⟨hc, _⟩ | ⟨_, _, hp⟩
      · simp [HostRes.lockCpuTest, hok.lockless, hc] at htest
      · exact hp
    next =>
      rw [Option.ite_none_right_eq_some] at hs
      exact hok.pending_of_cond hs.1

theorem step_effect (h : s.Inv) (hb : 0 < s.blockSize) (hs : step read s op = some t) :
    Effect read s op t := by
  rw [step_eq_some] at hs
  cases op with
  | create rc => exact hs.2 ▸ create_effect h hs.1 rc
  | map rc mapId syncNeeded => exact hs.2 ▸ map_effect h hs.1 rc mapId syncNeeded
  | createSubres ret id => exact hs.2 ▸ createSubres_effect hs.1 ret id
  | lock sync => exact lock_effect hs.1 hs.2
  | read => exact .read hs.1 hs.2.symm
  | unlock sync =>
    obtain ⟨n, hp, hs⟩ := hs
    exact unlock_effect hb hp hs
  | schedule io =>
    obtain ⟨n, hp, hs⟩ := hs
    rcases schedule_cases h hp hs with ⟨ret, hret, rfl⟩ | ⟨b, msg, hmsg, heq⟩
    · exact .of_leave (.refl s) (by rw [hp]; rfl) hret
    · exact .schedule hp rfl hmsg heq
  | waitLock sync =>
    obtain ⟨i, hp, hs⟩ := hs
    obtain ⟨hu, hphase, hret⟩ := waitLock_quiet hs
    refine .finish hu (by rw [hp]; rfl) (by rw [hp]; exact hphase) hret (fun j hj => ?_)
      (by simp [hp])
    obtain rfl := LoadPhase.waitLock.inj (hp.symm.trans hj)
    exact waitLock_pending h hs
  | waitUnlock sync =>
    obtain ⟨i, hp, rfl⟩ := hs
    refine .finish (.phase (quiet_setBlock_keep ?_ (fun hn => ?_) ?_) _) (by rw [hp]; rfl)
      (by rw [hp]; rfl) rfl (by simp [hp]) (by simp [hp])
    · rfl
    · exact Option.map_eq_none_iff.mpr hn
    · rfl
  | unmap =>
    obtain ⟨i, hp, rfl⟩ := hs
    exact .finish ((Quiet.refl s).phase _) (by rw [hp]; rfl) (by rw [hp]; rfl) rfl (by simp [hp])
      (by simp [hp])
  | destroy =>
    obtain ⟨i, hp, rfl⟩ := hs
    exact .finish ((Quiet.refl s).phase _) (by rw [hp]; rfl) (by rw [hp]; rfl) rfl (by simp [hp])
      (by simp [hp])
  | complete j failed =>
    obtain ⟨m, hm, hr, heq⟩ := complete_cases hs
    exact .report rfl hm hr heq

end SubLoad

end NNPIHost

import NNPIHost.Exec.Run
import NNPIHost.SubLoad.Machine

/-! # The blocks of a load

The counter of a host block follows the copies that are in flight from it, of which there is
one at most, and its failures are those that were reported. A block is filled only when no
copy reads it.
-/

namespace NNPIHost

open Function (update update_self update_of_ne)

namespace HostRes

variable {r : HostRes}

theorem lockCpuTest_ne {ret : NNPError} (h : r.lockCpuTest = some ret) : ret ≠ .noError := by
  unfold lockCpuTest at h
  split_ifs at h <;> rw [← Option.some.inj h] <;> decide

theorem lockCpuTaken_write (r : HostRes) (sync : NNPError) :
    (r.lockCpuTaken sync true).1 ≠ .noError ∧ (r.lockCpuTaken sync true).2 = r ∨
      (r.lockCpuTaken sync true).1 = .noError ∧ r.broken = false ∧
        (r.lockCpuTaken sync true).2 = { r with readers := -1, cpuLocked := -1 } := by
  cases hb : r.broken with
  | true => exact .inl (by simp [lockCpuTaken, hb])
  | false =>
    by_cases hs : r.cpuSyncNeeded = true ∧ sync ≠ .noError
    · exact .inl (by simp [lockCpuTaken, hb, hs.1, hs.2])
    · refine .inr ?_
      cases hn : r.cpuSyncNeeded <;> simp_all [lockCpuTaken]

theorem unlockCpuAccess_write (hl : r.lockless = false) (hc : r.cpuLocked ≤ 0)
    (sync : NNPError) : (r.unlockCpuAccess sync).2 =
      if r.cpuLocked < 0 then { r with readers := 0, cpuLocked := 0 } else r := by
  have hpos : ¬ 0 < r.cpuLocked := by omega
  simp only [unlockCpuAccess, hl, Bool.false_eq_true, if_false, if_neg hpos]
  split <;> rfl

end HostRes

namespace HostBlock

/-- The resource of a block from which `pending` copies are in flight and `failures` copies
have failed. -/
structure Ok (b : HostBlock) (r : HostRes) (pending failures : ℕ) : Prop where
  lockless : r.lockless = false
  locks : r.cpuLocked = 0 ∧ r.readers = pending ∨
    r.cpuLocked = -1 ∧ r.readers = -1 ∧ pending = 0
  once : pending ≤ 1
  failures : r.failedCopyOps = failures
  marked : ∀ c, b.copy = some c → (c.scheduled = true ↔ pending = 1)
  copy : b.copy = none → pending = 0

/-- What the blocks of a load keep. -/
def Sound (b : HostBlock) (pending failures : ℕ) : Prop :=
  (b.hostres = none → b.copy = none ∧ pending = 0 ∧ failures = 0) ∧
    ∀ r, b.hostres = some r → b.Ok r pending failures

variable {b : HostBlock} {r r' : HostRes} {c : SubresCopy} {pending failures : ℕ}

theorem sound_of_ok (hr : b.hostres = some r) (h : b.Ok r pending failures) :
    b.Sound pending failures := by
  refine ⟨fun hn => absurd hn (by simp [hr]), fun r' hr' => ?_⟩
  rw [hr] at hr'
  exact Option.some.inj hr' ▸ h

theorem Ok.congr {b' : HostBlock} (h : b.Ok r pending failures) (hc : b'.copy = b.copy)
    (hl : r'.lockless = r.lockless) (hcpu : r'.cpuLocked = r.cpuLocked)
    (hr : r'.readers = r.readers) (hf : r'.failedCopyOps = r.failedCopyOps) :
    b'.Ok r' pending failures :=
  ⟨hl.trans h.lockless, by rw [hcpu, hr]; exact h.locks, h.once, hf.trans h.failures,
    fun c hc' => h.marked c (hc ▸ hc'), fun hn => h.copy (hc ▸ hn)⟩

theorem Ok.broken_iff (h : b.Ok r pending failures) : r.broken = false ↔ failures = 0 := by
  rw [HostRes.broken, decide_eq_false_iff_not, h.failures]
  omega

theorem Ok.pending_of_cond (h : b.Ok r pending failures) (hc : r.cpuCond true = true) :
    pending = 0 := by
  have hr : r.readers = 0 := by simpa [HostRes.cpuCond] using hc
  rcases h.locks with ⟨_, hr'⟩ | ⟨_, _, hp⟩
  · omega
  · exact hp

theorem Ok.lockCpu (h : b.Ok r 0 failures) (sync : NNPError) :
    { b with hostres := some (r.lockCpuTaken sync true).2 }.Ok (r.lockCpuTaken sync true).2 0
      failures := by
  rcases r.lockCpuTaken_write sync with ⟨_, heq⟩ | ⟨_, _, heq⟩ <;> rw [heq]
  · exact h.congr rfl rfl rfl rfl rfl
  · exact ⟨h.lockless, .inr ⟨rfl, rfl, rfl⟩, Nat.zero_le 1, h.failures, h.marked, fun _ => rfl⟩

theorem Ok.unlockCpu (h : b.Ok r pending failures) (sync : NNPError) :
    { b with hostres := some (r.unlockCpuAccess sync).2 }.Ok (r.unlockCpuAccess sync).2 pending
      failures := by
  have hcpu : r.cpuLocked ≤ 0 := by
    rcases h.locks with ⟨hc, _⟩ | ⟨hc, _⟩ <;> omega
  rw [HostRes.unlockCpuAccess_write h.lockless hcpu]
  rcases h.locks with ⟨hc, hr⟩ | ⟨hc, hr, hp⟩
  · rw [if_neg (by omega)]
    exact h.congr rfl rfl rfl rfl rfl
  · rw [if_pos (by omega)]
    exact ⟨h.lockless, .inl ⟨rfl, by simp [hp]⟩, h.once, h.failures, h.marked, h.copy⟩

theorem Sound.lockCpu (h : b.Sound pending failures) (hr : b.hostres = some r)
    (hc : r.cpuCond true = true) (sync : NNPError) : pending = 0 ∧
      { b with hostres := some (r.lockCpuTaken sync true).2 }.Sound pending failures := by
  have hok := h.2 r hr
  obtain rfl := hok.pending_of_cond hc
  exact ⟨rfl, sound_of_ok rfl (hok.lockCpu sync)⟩

theorem Sound.unlockCpu (h : b.Sound pending failures) (hr : b.hostres = some r)
    (sync : NNPError) :
    { b with hostres := some (r.unlockCpuAccess sync).2 }.Sound pending failures :=
  sound_of_ok rfl ((h.2 r hr).unlockCpu sync)

theorem Ok.preSchedule (h : b.Ok r 0 failures) (hr : b.hostres = some r) (hc : b.copy = some c) :
    b.preSchedule r c = (false, b) ∨ ∃ b' r', b.preSchedule r c = (true, b') ∧
      b'.hostres = some r' ∧ b'.Ok r' 1 failures ∧ b'.postSchedule false = b ∧ b'.mem = b.mem := by
  rcases HostRes.lockDeviceAccess_cases h.lockless false with hbusy | ⟨hfree, htake⟩
  · exact .inl (by simp [HostBlock.preSchedule, hbusy])
  · have hpre : b.preSchedule r c = (true, { b with
        hostres := some { r with readers := Lock.take r.readers false }
        copy := some { c with scheduled := true } }) := by
      simp [HostBlock.preSchedule, htake]
    refine .inr ⟨_, _, hpre, rfl, ?_, ?_, rfl⟩
    · have hn : 0 ≤ r.readers := by simpa [Lock.free] using hfree
      have hlock := h.locks.resolve_right fun hl => by omega
      refine ⟨h.lockless, .inl ⟨hlock.1, ?_⟩, Nat.le_refl 1, h.failures, ?_, by rintro ⟨⟩⟩
      · rw [Lock.take, if_neg Bool.false_ne_true, hlock.2]
        rfl
      · rintro _ ⟨⟩
        exact iff_of_true rfl rfl
    · have hmark : c.scheduled = false := by
        rw [Bool.eq_false_iff, ne_eq, h.marked c hc]
        exact Nat.zero_ne_one
      have hback := HostRes.unlockDeviceAccess_lockDeviceAccess htake
      obtain ⟨hostres, mem, mapId, isMapped, copy⟩ := b
      obtain ⟨id, scheduled⟩ := c
      obtain rfl : hostres = some r := hr
      obtain rfl : copy = some _ := hc
      obtain rfl : scheduled = false := hmark
      simp only [HostBlock.postSchedule, if_true, Bool.false_eq_true, if_false, hback]

theorem Ok.postSchedule (h : b.Ok r 1 failures) (hr : b.hostres = some r) (failed : Bool) :
    ∃ r', (b.postSchedule failed).hostres = some r' ∧
      (b.postSchedule failed).Ok r' 0 (failures + failed.toNat) := by
  obtain ⟨c, hc⟩ : ∃ c, b.copy = some c :=
    Option.ne_none_iff_exists'.mp fun hn => Nat.one_ne_zero (h.copy hn)
  have hmark : c.scheduled = true := (h.marked c hc).mpr rfl
  have hlock := h.locks.resolve_right fun hl => Nat.one_ne_zero hl.2.2
  have hl : (if failed then r.updateCopyFailCount 1 else r).lockless = false := by
    cases failed <;> exact h.lockless
  simp only [HostBlock.postSchedule, hc, hr, hmark, if_true]
  refine ⟨_, rfl, ?_⟩
  rw [HostRes.unlockDeviceAccess_eq hl]
  have hf := h.failures
  cases failed <;>
    exact ⟨h.lockless, .inl ⟨hlock.1, by simp [Lock.release, HostRes.updateCopyFailCount, hlock.2]⟩,
      Nat.zero_le 1, by simp [HostRes.updateCopyFailCount, hf], by rintro _ ⟨⟩; simp,
      fun _ => rfl⟩

end HostBlock

namespace LoadPhase

/-- No copy of the current block is in flight. -/
def idle : LoadPhase → Bool
  | .create | .map | .createSubres | .read | .unlock _ | .schedule _ => true
  | _ => false

end LoadPhase

namespace SubLoad

variable {σ : Type*} {read : σ → List UInt8 → ℤ × List UInt8 × σ} {s t : SubLoad σ} {i : Bool}
  {op : LoadOp}

/-- The copies of a block that were not reported. -/
def pending (s : SubLoad σ) (i : Bool) : ℕ :=
  s.sent.countP fun m => m.block == i && m.report.isNone

/-- The copies of a block that were reported as failed. -/
def failures (s : SubLoad σ) (i : Bool) : ℕ :=
  s.sent.countP fun m => m.block == i && m.report == some false

/-- What can be told of every state of a load. -/
structure Inv (s : SubLoad σ) : Prop where
  sound : ∀ i, (s.blocks i).Sound (s.pending i) (s.failures i)
  fresh : s.phase = .create → s.block.hostres = none
  created : s.phase.idle = true → s.phase ≠ .create → s.block.hostres ≠ none
  idle : s.phase.idle = true → s.pending s.blockIdx = 0

theorem step_eq_some : step read s op = some t ↔
    match op with
    | .create rc => s.phase = .create ∧ s.create rc = t
    | .map rc mapId syncNeeded => s.phase = .map ∧ s.map rc mapId syncNeeded = t
    | .createSubres ret id => s.phase = .createSubres ∧ s.createSubres ret id = t
    | .lock sync => s.phase = .lock ∧ s.lock sync = some t
    | .read => s.phase = .read ∧ s.readBlock read = t
    | .unlock sync => ∃ n, s.phase = .unlock n ∧ s.unlock n sync = some t
    | .schedule io => ∃ n, s.phase = .schedule n ∧ s.schedule n io = some t
    | .waitLock sync => ∃ i, s.phase = .waitLock i ∧ s.waitLock i sync = some t
    | .waitUnlock sync => ∃ i, s.phase = .waitUnlock i ∧ s.waitUnlock i sync = t
    | .unmap => ∃ i, s.phase = .unmap i ∧ { s with phase := .destroy i } = t
    | .destroy => ∃ i, s.phase = .destroy i ∧
        { s with phase := if i then .returned else .unmap true } = t
    | .complete j failed => s.complete j failed = some t := by
  cases op <;> cases hp : s.phase <;> simp [step, hp]

theorem start_inv (devresSize offset : UInt64) (stream : σ) :
    (start devresSize offset stream).Inv :=
  ⟨fun _ => ⟨fun _ => ⟨rfl, rfl, rfl⟩, by rintro _ ⟨⟩⟩, fun _ => rfl, fun _ h => absurd rfl h,
    fun _ => rfl⟩

theorem forall_setBlock {P : Bool → HostBlock → Prop} {b : HostBlock} (hi : P i b)
    (h : ∀ j, P j (s.blocks j)) (j : Bool) : P j ((s.setBlock i b).blocks j) := by
  rw [setBlock_blocks]
  by_cases hj : j = i
  · subst hj
    rwa [update_self]
  · rw [update_of_ne hj]
    exact h j

theorem sound_setBlock (h : ∀ i, (s.blocks i).Sound (s.pending i) (s.failures i)) {b : HostBlock}
    (hb : b.Sound (s.pending i) (s.failures i)) (j : Bool) :
    ((s.setBlock i b).blocks j).Sound (s.pending j) (s.failures j) :=
  forall_setBlock (P := fun j b => b.Sound (s.pending j) (s.failures j)) hb h j

theorem Inv.of_sound (h : ∀ i, (s.blocks i).Sound (s.pending i) (s.failures i))
    (hp : s.phase.idle = false) : s.Inv :=
  ⟨h, fun hc => by simp [hc, LoadPhase.idle] at hp, fun hi => absurd hi (by simp [hp]),
    fun hi => absurd hi (by simp [hp])⟩

theorem Inv.of_idle (h : ∀ i, (s.blocks i).Sound (s.pending i) (s.failures i))
    (hp : s.phase ≠ .create) (hres : s.block.hostres ≠ none)
    (hpend : s.pending s.blockIdx = 0) : s.Inv :=
  ⟨h, fun hc => absurd hc hp, fun _ _ => hres, fun _ => hpend⟩

theorem Inv.leave (h : ∀ i, (s.blocks i).Sound (s.pending i) (s.failures i)) (ret : NNPError) :
    (s.leave ret).Inv := by
  have hp : (s.leave ret).phase = .waitLock false ∨ (s.leave ret).phase = .unmap false := by
    rw [SubLoad.leave]
    split
    · exact .inl rfl
    · exact .inr rfl
  rcases hp with hp | hp <;> exact .of_sound h (by simp [hp, LoadPhase.idle])

theorem Inv.again (h : ∀ i, (s.blocks i).Sound (s.pending i) (s.failures i)) (n : ℕ) :
    (s.again n).Inv := by
  rw [SubLoad.again]
  split
  · cases hnone : s.block.hostres.isNone with
    | true =>
      have hr : s.block.hostres = none := Option.isNone_iff_eq_none.mp hnone
      exact ⟨h, fun _ => hr, fun _ hne => absurd rfl hne, fun _ => ((h s.blockIdx).1 hr).2.1⟩
    | false => exact .of_sound h rfl
  · exact .leave h .noError

theorem Inv.create (h : s.Inv) (hp : s.phase = .create) (rc : ℕ) : (s.create rc).Inv := by
  rw [SubLoad.create]
  split
  · exact .leave h.sound .ioError
  · obtain ⟨hcopy, hpend, hfail⟩ := (h.sound s.blockIdx).1 (h.fresh hp)
    refine .of_idle (sound_setBlock h.sound (HostBlock.sound_of_ok rfl ?_)) (by simp)
      (by simp [block]) hpend
    refine ⟨rfl, .inl ⟨rfl, by simp [HostRes.create, hpend]⟩, by omega, ?_, ?_, fun _ => hpend⟩
    · simp [HostRes.create, hfail]
    · intro c hc
      exact absurd (hcopy.symm.trans hc) (by simp)

theorem Inv.map (h : s.Inv) (hp : s.phase = .map) (rc : ℕ) (mapId : UInt16)
    (syncNeeded : Bool) : (s.map rc mapId syncNeeded).Inv := by
  have hpend := h.idle (by simp [hp, LoadPhase.idle])
  obtain ⟨r, hr⟩ := Option.ne_none_iff_exists'.mp (h.created (by rw [hp]; rfl) (by simp [hp]))
  rw [SubLoad.map]
  split
  · exact .leave h.sound _
  · have hr' : s.block.hostres = some r := hr
    rw [hr', Option.map_some]
    refine .of_idle (sound_setBlock h.sound (HostBlock.sound_of_ok rfl ?_)) (by simp)
      (by simp [block]) hpend
    exact ((h.sound s.blockIdx).2 r hr).congr rfl rfl rfl rfl rfl

theorem Inv.createSubres (h : s.Inv) (hp : s.phase = .createSubres) (ret : NNPError)
    (id : UInt16) : (s.createSubres ret id).Inv := by
  have hpend := h.idle (by simp [hp, LoadPhase.idle])
  obtain ⟨r, hr⟩ := Option.ne_none_iff_exists'.mp (h.created (by rw [hp]; rfl) (by simp [hp]))
  rw [SubLoad.createSubres]
  split
  · exact .leave h.sound _
  · refine .of_sound (sound_setBlock h.sound (HostBlock.sound_of_ok hr ?_)) rfl
    obtain ⟨hl, hlocks, honce, hfail, _, _⟩ := (h.sound s.blockIdx).2 r hr
    refine ⟨hl, hlocks, honce, hfail, ?_, by rintro ⟨⟩⟩
    rintro c ⟨⟩
    simp [hpend]

theorem lock_cases {sync : NNPError} (hs : s.lock sync = some t) :
    (∃ ret, ret ≠ .noError ∧ t = s.leave ret) ∨
      ∃ r, s.block.hostres = some r ∧ r.cpuCond true = true ∧
      let u := s.setBlock s.blockIdx
        { s.block with hostres := some (r.lockCpuTaken sync true).2 }
      t = if (r.lockCpuTaken sync true).1 = .noError then { u with phase := .read }
        else u.leave (r.lockCpuTaken sync true).1 := by
  obtain ⟨r, hr, hs⟩ := Option.bind_eq_some_iff.mp hs
  split at hs
  next ret htest =>
    exact .inl ⟨ret, HostRes.lockCpuTest_ne htest, (Option.some.inj hs).symm⟩
  next =>
    split at hs
    next hc => exact .inr ⟨r, hr, hc, (Option.some.inj hs).symm⟩
    next => cases hs

theorem Inv.lock (h : s.Inv) {sync : NNPError} (hs : s.lock sync = some t) : t.Inv := by
  rcases lock_cases hs with ⟨ret, _, rfl⟩ | ⟨r, hr, hc, rfl⟩
  · exact .leave h.sound ret
  · obtain ⟨hpend, hlocked⟩ := (h.sound s.blockIdx).lockCpu hr hc sync
    have hsound := sound_setBlock h.sound hlocked
    split
    · exact .of_idle hsound (by simp) (by simp [block]) hpend
    · exact .leave hsound _

theorem Inv.readBlock (h : s.Inv) (hp : s.phase = .read) : (s.readBlock read).Inv := by
  have hpend := h.idle (by simp [hp, LoadPhase.idle])
  have hcreated := h.created (by rw [hp]; rfl) (by simp [hp])
  refine .of_idle (sound_setBlock h.sound ⟨(h.sound s.blockIdx).1, fun r hr => ?_⟩)
    (by simp [SubLoad.readBlock]) (by simpa [SubLoad.readBlock, block] using hcreated) hpend
  exact ((h.sound s.blockIdx).2 r hr).congr rfl rfl rfl rfl rfl

theorem Inv.unlock (h : s.Inv) {n : ℤ} {sync : NNPError} (hp : s.phase = .unlock n)
    (hs : s.unlock n sync = some t) : t.Inv := by
  have hpend := h.idle (by simp [hp, LoadPhase.idle])
  obtain ⟨r, hr, rfl⟩ := Option.map_eq_some_iff.mp hs
  have hsound := sound_setBlock h.sound ((h.sound s.blockIdx).unlockCpu hr sync)
  dsimp only
  split_ifs
  · exact .leave hsound _
  · exact .leave hsound _
  · exact .of_idle hsound (by simp) (by simp [block]) hpend
  · exact .again hsound 0

theorem Inv.waitLock (h : s.Inv) {sync : NNPError} (hs : s.waitLock i sync = some t) :
    t.Inv := by
  have hskip : ({ s with phase := .waitUnlock i } : SubLoad σ).Inv :=
    .of_sound h.sound rfl
  rw [SubLoad.waitLock] at hs
  split at hs
  next => exact Option.some.inj hs ▸ hskip
  next r hr =>
    split at hs
    next => exact Option.some.inj hs ▸ hskip
    next =>
      split at hs
      next hc =>
        obtain ⟨_, hlocked⟩ := (h.sound i).lockCpu hr hc sync
        exact Option.some.inj hs ▸ .of_sound (sound_setBlock h.sound hlocked) rfl
      next => cases hs

theorem Inv.waitUnlock (h : s.Inv) (i : Bool) (sync : NNPError) : (s.waitUnlock i sync).Inv := by
  refine .of_sound (sound_setBlock h.sound ?_) ?_
  · cases hr : (s.blocks i).hostres with
    | none => exact ⟨fun _ => (h.sound i).1 hr, by rintro _ ⟨⟩⟩
    | some r => exact (h.sound i).unlockCpu hr sync
  · cases i <;> rfl

theorem scheduleCopySubres_eq_ok {copyId mapId : UInt16} {offset size : UInt64} {io : SubresIO}
    {msg : SubresMsg} (h : scheduleCopySubres copyId mapId offset size io = .ok msg) :
    msg = ⟨copyId, mapId, (size - 1).toUInt16, offset⟩ ∧ size - 1 ≤ 0xffff := by
  unfold scheduleCopySubres at h
  split_ifs at h with hb hs hw
  exact ⟨(Except.ok.inj h).symm, UInt64.not_lt.mp hs⟩

theorem scheduleCopySubres_ne {copyId mapId : UInt16} {offset size : UInt64} {io : SubresIO}
    {ret : NNPError} (h : scheduleCopySubres copyId mapId offset size io = .error ret) :
    ret ≠ .noError := by
  unfold scheduleCopySubres at h
  split_ifs at h <;> rw [← Except.error.inj h] <;> decide

/-- A copy of the current block with `n` bytes has been scheduled. -/
def scheduled (s : SubLoad σ) (b : HostBlock) (msg : SubresMsg) (n : ℕ) : SubLoad σ :=
  { s.setBlock s.blockIdx b with
    sent := s.sent ++ [⟨msg, s.blockIdx, b.mem.take n, none⟩]
    devresOffset := s.devresOffset + UInt64.ofNat n
    blockIdx := !s.blockIdx }

/-- What is known of a schedule that succeeds, with the block and the message after it. -/
structure Schedules (s : SubLoad σ) (n : ℕ) (b : HostBlock) (msg : SubresMsg) : Prop where
  fits : n ≤ s.blockSize
  inside : s.devresOffset + UInt64.ofNat n ≤ s.devresSize
  encodes : UInt64.ofNat n - 1 ≤ 0xffff
  ok : ∃ r, b.hostres = some r ∧ b.Ok r 1 (s.failures s.blockIdx)
  mem : b.mem = s.block.mem
  hostresId : msg.hostresId = b.mapId
  dstOffset : msg.dstOffset = s.devresOffset
  copySize : msg.copySize = (UInt64.ofNat n - 1).toUInt16

theorem schedule_cases (h : s.Inv) {n : ℕ} {io : SubresIO} (hp : s.phase = .schedule n)
    (hs : s.schedule n io = some t) :
    (∃ ret, ret ≠ .noError ∧ t = s.leave ret) ∨
      ∃ b msg, s.Schedules n b msg ∧ t = (s.scheduled b msg n).again n := by
  have hpend := h.idle (by simp [hp, LoadPhase.idle])
  have hfail : ∀ ret, ret ≠ .noError →
      some (if ret ≠ .noError then s.leave ret else { s with
        devresOffset := s.devresOffset + UInt64.ofNat n
        blockIdx := !s.blockIdx }.again n) = some t → ∃ ret, ret ≠ .noError ∧ t = s.leave ret :=
    fun ret hret hs => ⟨ret, hret, by rw [if_pos hret] at hs; exact (Option.some.inj hs).symm⟩
  unfold SubLoad.schedule at hs
  split at hs
  next r c hr hc =>
    have hok := (h.sound s.blockIdx).2 r hr
    rw [hpend] at hok
    by_cases hcan : ¬ io.canSchedule
    · simp only [scheduleCopy, if_pos hcan] at hs
      exact .inl (hfail _ (by decide) hs)
    by_cases hsize : s.blockSize < n ∨ s.devresSize < s.devresOffset + UInt64.ofNat n
    · simp only [scheduleCopy, if_neg hcan, if_pos hsize] at hs
      exact .inl (hfail _ (by decide) hs)
    rcases hok.preSchedule hr hc with hbusy | ⟨b, r', hpre, hr', hok', hback, hmem⟩
    · have hbusy' : s.block.preSchedule r c = (false, s.block) := hbusy
      simp only [scheduleCopy, if_neg hcan, if_neg hsize, hbusy'] at hs
      exact .inl (hfail _ (by decide) hs)
    have hpre' : s.block.preSchedule r c = (true, b) := hpre
    simp only [scheduleCopy, if_neg hcan, if_neg hsize, hpre'] at hs
    cases hmsg : scheduleCopySubres c.id b.mapId s.devresOffset (.ofNat n) io with
    | error ret =>
      have hback' : b.postSchedule false = s.block := hback
      simp only [hmsg, hback', setBlock_block] at hs
      exact .inl (hfail ret (scheduleCopySubres_ne hmsg) hs)
    | ok msg =>
      obtain ⟨rfl, henc⟩ := scheduleCopySubres_eq_ok hmsg
      obtain ⟨hn, hin⟩ := not_or.mp hsize
      simp only [hmsg, ne_eq, not_true_eq_false, if_false, Option.some.injEq] at hs
      exact .inr ⟨b, _, ⟨Nat.not_lt.mp hn, UInt64.not_lt.mp hin, henc, ⟨r', hr', hok'⟩, hmem, rfl,
        rfl, rfl⟩, hs.symm⟩
  next => cases hs

@[simp] theorem pending_scheduled {b : HostBlock} {msg : SubresMsg} {n : ℕ} :
    (s.scheduled b msg n).pending i = s.pending i + if s.blockIdx = i then 1 else 0 := by
  simp [pending, scheduled, List.countP_append]

@[simp] theorem failures_scheduled {b : HostBlock} {msg : SubresMsg} {n : ℕ} :
    (s.scheduled b msg n).failures i = s.failures i := by
  simp [failures, scheduled, List.countP_append]

theorem Inv.schedule (h : s.Inv) {n : ℕ} {io : SubresIO} (hp : s.phase = .schedule n)
    (hs : s.schedule n io = some t) : t.Inv := by
  have hpend := h.idle (by simp [hp, LoadPhase.idle])
  rcases schedule_cases h hp hs with ⟨ret, _, rfl⟩ | ⟨b, msg, hb, rfl⟩
  · exact .leave h.sound ret
  · refine .again (fun j => ?_) n
    rw [pending_scheduled, failures_scheduled]
    by_cases hj : s.blockIdx = j
    · subst hj
      obtain ⟨r, hr, hok⟩ := hb.ok
      simpa [scheduled, hpend] using HostBlock.sound_of_ok hr hok
    · rw [if_neg hj, Nat.add_zero, scheduled, setBlock_blocks, update_of_ne (Ne.symm hj)]
      exact h.sound j

theorem complete_cases {j : ℕ} {failed : Bool} (hs : s.complete j failed = some t) :
    ∃ m, s.sent[j]? = some m ∧ m.report = none ∧
      t = { s.setBlock m.block ((s.blocks m.block).postSchedule failed) with
        sent := s.sent.set j { m with report := some !failed } } := by
  rw [SubLoad.complete] at hs
  split at hs
  next m hm =>
    rw [Option.ite_none_right_eq_some] at hs
    exact ⟨m, hm, Option.isNone_iff_eq_none.mp hs.1, (Option.some.inj hs.2).symm⟩
  next => cases hs

theorem counts_set {j : ℕ} {m : ScheduledCopy} (hm : s.sent[j]? = some m) (hr : m.report = none)
    (failed : Bool) (hsent : t.sent = s.sent.set j { m with report := some !failed }) :
    t.pending i + (if m.block = i then 1 else 0) = s.pending i ∧
      t.failures i = s.failures i + if m.block = i then failed.toNat else 0 := by
  obtain ⟨hj, hget⟩ := List.getElem?_eq_some_iff.mp hm
  have hmem : m ∈ s.sent := hget ▸ List.getElem_mem hj
  by_cases hi : m.block = i
  · have hpos : 0 < s.sent.countP fun m => m.block == i && m.report.isNone :=
      List.countP_pos_iff.mpr ⟨m, hmem, by simp [hi, hr]⟩
    constructor
    · simp [pending, hsent, List.countP_set hj, hget, hi, hr, Nat.sub_add_cancel hpos]
    · cases failed <;> simp [failures, hsent, List.countP_set hj, hget, hi, hr]
  · constructor
    · simp [pending, hsent, List.countP_set hj, hget, hi]
    · simp [failures, hsent, List.countP_set hj, hget, hi]

theorem Inv.complete (h : s.Inv) {j : ℕ} {failed : Bool} (hs : s.complete j failed = some t) :
    t.Inv := by
  obtain ⟨m, hm, hr, ht⟩ := complete_cases hs
  have hblocks : t.blocks = update s.blocks m.block ((s.blocks m.block).postSchedule failed) := by
    rw [ht]
    rfl
  have hphase : t.phase = s.phase := by rw [ht]; rfl
  have hidx : t.blockIdx = s.blockIdx := by rw [ht]; rfl
  have hcount := fun i => counts_set (i := i) hm hr failed (congrArg SubLoad.sent ht)
  have hsound := h.sound m.block
  obtain ⟨hpend, hfail⟩ := hcount m.block
  rw [if_pos rfl] at hpend hfail
  obtain ⟨r, hr'⟩ : ∃ r, (s.blocks m.block).hostres = some r :=
    Option.ne_none_iff_exists'.mp fun hn => by have := (hsound.1 hn).2.1; omega
  have hok := hsound.2 r hr'
  have hone : s.pending m.block = 1 := by have := hok.once; omega
  rw [hone] at hok hpend
  obtain ⟨r', hres, hok'⟩ := hok.postSchedule hr' failed
  have hsome : ∀ i, (t.blocks i).hostres = none ↔ (s.blocks i).hostres = none := by
    intro i
    by_cases hi : i = m.block
    · subst hi
      simp [hblocks, hres, hr']
    · rw [hblocks, update_of_ne hi]
  refine ⟨fun i => ?_, fun hp => ?_, fun hp hne => ?_, fun hp => ?_⟩
  · by_cases hi : i = m.block
    · subst hi
      have hzero : t.pending m.block = 0 := by omega
      rw [hblocks, update_self, hzero, hfail]
      exact HostBlock.sound_of_ok hres hok'
    · obtain ⟨hpend', hfail'⟩ := hcount i
      rw [if_neg (Ne.symm hi), Nat.add_zero] at hpend' hfail'
      rw [hblocks, update_of_ne hi, hpend', hfail']
      exact h.sound i
  · refine (hsome t.blockIdx).mpr ?_
    rw [hidx]
    exact h.fresh (hphase ▸ hp)
  · intro hn
    have hn' := (hsome t.blockIdx).mp hn
    rw [hidx] at hn'
    exact h.created (hphase ▸ hp) (hphase ▸ hne) hn'
  · have hle := (hcount t.blockIdx).1
    have hidle := h.idle (hphase ▸ hp)
    rw [hidx] at hle ⊢
    omega

theorem Inv.step (h : s.Inv) (hs : step read s op = some t) : t.Inv := by
  rw [step_eq_some] at hs
  cases op with
  | create rc => exact hs.2 ▸ h.create hs.1 rc
  | map rc mapId syncNeeded => exact hs.2 ▸ h.map hs.1 rc mapId syncNeeded
  | createSubres ret id => exact hs.2 ▸ h.createSubres hs.1 ret id
  | lock sync => exact h.lock hs.2
  | read => exact hs.2 ▸ h.readBlock hs.1
  | unlock sync =>
    obtain ⟨n, hp, hs⟩ := hs
    exact h.unlock hp hs
  | schedule io =>
    obtain ⟨n, hp, hs⟩ := hs
    exact h.schedule hp hs
  | waitLock sync =>
    obtain ⟨i, _, hs⟩ := hs
    exact h.waitLock hs
  | waitUnlock sync =>
    obtain ⟨i, _, rfl⟩ := hs
    exact h.waitUnlock i sync
  | unmap =>
    obtain ⟨i, _, rfl⟩ := hs
    exact .of_sound h.sound rfl
  | destroy =>
    obtain ⟨i, _, rfl⟩ := hs
    cases i <;> exact .of_sound h.sound rfl
  | complete j failed => exact h.complete hs

end SubLoad

end NNPIHost

import NNPIHost.SubLoad.Failures

/-! # Turns of a load

When all calls succeed and the card copies each block before the next one is filled, a turn of
the loop brings it to its next turn or to its end, and the function returns without an error.
-/

namespace NNPIHost

namespace HostBlock

/-- A block that is ready and that no copy uses. -/
def idle (mem : List UInt8) (mapId id : UInt16) : HostBlock :=
  ⟨some (.create false false), mem, mapId, true, some ⟨id, false⟩⟩

/-- A block that a copy reads. -/
def inFlight (mem : List UInt8) (mapId id : UInt16) : HostBlock :=
  ⟨some { HostRes.create false false with readers := 1 }, mem, mapId, true, some ⟨id, true⟩⟩

/-- A block that can be filled at once, or when it has been made. -/
def Free (size : ℕ) (b : HostBlock) : Prop :=
  b.hostres = none ∨ ∃ mem mapId id, b = idle mem mapId id ∧ mem.length = size

@[simp] theorem postSchedule_inFlight (mem : List UInt8) (mapId id : UInt16) :
    (inFlight mem mapId id).postSchedule false = idle mem mapId id := rfl

end HostBlock

namespace SubLoad

open Function (update update_self update_of_ne)

variable {σ : Type*} {read : σ → List UInt8 → ℤ × List UInt8 × σ} {s t : SubLoad σ}
  {mem mem' : List UInt8} {mapId id : UInt16} {n : ℕ} {stream : σ}

/-- The loop begins a turn, and no copy is in flight. -/
structure AtHead (s : SubLoad σ) : Prop where
  phase : s.phase = if s.block.hostres.isNone then .create else .lock
  free : ∀ i, (s.blocks i).Free s.blockSize
  ret : s.ret = .noError

/-- The loop has ended without an error, and no copy is in flight. -/
structure Waiting (s : SubLoad σ) : Prop where
  phase : s.phase = .waitLock false
  free : ∀ i, (s.blocks i).Free s.blockSize
  ret : s.ret = .noError

variable (read) in
theorem AtHead.exists_lock (h : s.AtHead) : ∃ ops mem mapId id, mem.length = s.blockSize ∧
    Exec.run (step read) s ops =
      some { s.setBlock s.blockIdx (.idle mem mapId id) with phase := .lock } := by
  rcases h.free s.blockIdx with hnone | ⟨mem, mapId, id, hidle, hlen⟩
  · have hphase : s.phase = .create := by
      rw [h.phase, block, hnone]
      rfl
    refine ⟨[.create 0, .map 0 0 false, .createSubres .noError 0], List.replicate s.blockSize 0,
      0, 0, List.length_replicate, ?_⟩
    simp [Exec.run, step, hphase, create, map, createSubres, block, setBlock, HostBlock.idle,
      HostRes.create]
  · have hphase : s.phase = .lock := by
      rw [h.phase, block, hidle]
      rfl
    refine ⟨[], mem, mapId, id, hlen, ?_⟩
    rw [← hidle, setBlock, Function.update_eq_self, ← hphase]
    rfl

theorem run_read (hphase : s.phase = .lock) (hblock : s.block = .idle mem mapId id) {m : ℤ}
    (hread : read s.stream mem = (m, mem', stream)) :
    Exec.run (step read) s [.lock .noError, .read] = some { s.setBlock s.blockIdx
      ⟨some { HostRes.create false false with readers := -1, cpuLocked := -1 }, mem', mapId, true,
        some ⟨id, false⟩⟩ with stream, phase := .unlock m } := by
  let locked : HostRes := { HostRes.create false false with readers := -1, cpuLocked := -1 }
  have hlock : step read s (.lock .noError) = some { s.setBlock s.blockIdx
      ⟨some locked, mem, mapId, true, some ⟨id, false⟩⟩ with phase := .read } := by
    rw [step, if_pos hphase, lock, hblock]
    rfl
  rw [Exec.run, hlock]
  simp [Exec.run, step, readBlock, block, setBlock, hread, locked]

theorem run_turn (hphase : s.phase = .lock) (hblock : s.block = .idle mem mapId id)
    (hread : read s.stream mem = ((n : ℤ), mem', stream))
    (hpos : 0 < n) (hn : n ≤ s.blockSize) (hmax : ¬ 0xffff < UInt64.ofNat n - 1)
    (hfit : ¬ s.devresSize < s.devresOffset + UInt64.ofNat n) :
    ∃ msg, Exec.run (step read) s
      ([.lock .noError, .read] ++ [.unlock .noError, .schedule ⟨true, false, true⟩]) =
      some (({ s with stream, phase := .schedule n }.scheduled
        (.inFlight mem' mapId id) msg n).again n) := by
  refine ⟨SubresMsg.mk id mapId (UInt64.ofNat n - 1).toUInt16 s.devresOffset, ?_⟩
  have hneg : ¬ (n : ℤ) < 0 := by omega
  rw [Exec.run_append (run_read hphase hblock hread), Exec.run]
  have hunlock : step read { s.setBlock s.blockIdx
      ⟨some { HostRes.create false false with readers := -1, cpuLocked := -1 }, mem', mapId, true,
        some ⟨id, false⟩⟩ with stream, phase := .unlock n } (.unlock .noError) =
      some { s.setBlock s.blockIdx (.idle mem' mapId id) with stream, phase := .schedule n } := by
    simp [step, SubLoad.unlock, block, setBlock, HostRes.unlockCpuAccess, HostRes.create, hneg,
      hpos, HostBlock.idle]
  rw [hunlock]
  simp [Exec.run, step, schedule, block, setBlock, HostBlock.idle, HostBlock.inFlight, scheduleCopy,
    hfit, Nat.not_lt.mpr hn, scheduleCopySubres, hmax, HostBlock.preSchedule,
    HostRes.lockDeviceAccess, HostRes.create, scheduled]

theorem complete_last {sent : List ScheduledCopy} {m : ScheduledCopy}
    (hsent : s.sent = sent ++ [m]) (hm : m.report = none)
    (hblock : s.blocks m.block = .inFlight mem mapId id) :
    s.complete sent.length false = some { s.setBlock m.block (.idle mem mapId id) with
      sent := sent ++ [{ m with report := some true }] } := by
  simp [complete, hsent, hm, hblock]

theorem free_setBlock {i : Bool} {b : HostBlock} {size : ℕ} (h : ∀ i, (s.blocks i).Free size)
    (hb : b.Free size) : ∀ j, ((s.setBlock i b).blocks j).Free size :=
  forall_setBlock (P := fun _ b => b.Free size) hb h

theorem again_of_noError (h : s.ret = .noError) :
    s.again n = { s with
      phase := if n = s.blockSize then (if s.block.hostres.isNone then .create else .lock)
        else .waitLock false } := by
  unfold again leave
  split
  next => rfl
  next => simp [← h]

variable (read) in
theorem AtHead.exists_turn (h : s.AtHead) (hn : n ≤ s.blockSize) (hpos : 0 < n)
    (hread : ∀ mem, mem.length = s.blockSize →
      ∃ mem', read s.stream mem = ((n : ℤ), mem', stream) ∧ mem'.length = s.blockSize)
    (hmax : ¬ 0xffff < UInt64.ofNat n - 1)
    (hfit : ¬ s.devresSize < s.devresOffset + UInt64.ofNat n) :
    ∃ ops t, Exec.run (step read) s ops = some t ∧ t.stream = stream ∧
      t.devresSize = s.devresSize ∧ t.blockSize = s.blockSize ∧
      t.devresOffset = s.devresOffset + UInt64.ofNat n ∧
      if n = s.blockSize then t.AtHead else t.Waiting := by
  obtain ⟨ops, mem, mapId, id, hlen, hops⟩ := h.exists_lock read
  obtain ⟨mem', hmem, hlen'⟩ := hread mem hlen
  let u : SubLoad σ := { s.setBlock s.blockIdx (.idle mem mapId id) with phase := .lock }
  have hu : u.block = .idle mem mapId id := by simp [u, block, setBlock]
  obtain ⟨msg, hturn⟩ := run_turn (s := u) rfl hu hmem hpos hn hmax hfit
  rw [again_of_noError (by exact h.ret)] at hturn
  let v : SubLoad σ :=
    { u with stream, phase := .schedule n }.scheduled (.inFlight mem' mapId id) msg n
  let p : LoadPhase :=
    if n = s.blockSize then (if v.block.hostres.isNone then .create else .lock)
    else .waitLock false
  let m : ScheduledCopy := ⟨msg, s.blockIdx, mem'.take n, none⟩
  let w : SubLoad σ := { v.setBlock s.blockIdx (.idle mem' mapId id) with
    phase := p
    sent := s.sent ++ [{ m with report := some true }] }
  have hdone : { v with phase := p }.complete s.sent.length false = some w :=
    complete_last (s := { v with phase := p }) (m := m) rfl rfl
      (by simp [v, u, m, scheduled, setBlock])
  have hfree : ∀ j, (w.blocks j).Free s.blockSize := by
    have hidle : (HostBlock.idle mem' mapId id).Free s.blockSize := .inr ⟨_, _, _, rfl, hlen'⟩
    intro j
    by_cases hj : j = s.blockIdx
    · subst hj
      simpa [w, setBlock] using hidle
    · simpa [w, v, u, scheduled, setBlock, hj] using h.free j
  have hblock : w.block = v.block := by
    simp [w, v, u, block, scheduled, setBlock]
  refine ⟨ops ++ (_ ++ [.complete s.sent.length false]), w,
    (Exec.run_append hops).trans ((Exec.run_append hturn).trans ?_), rfl, rfl, rfl, rfl, ?_⟩
  · change Exec.run (step read) { v with phase := p } [.complete s.sent.length false] = some w
    rw [Exec.run, step, hdone]
    rfl
  · split
    next hfull => exact ⟨by rw [hblock]; exact if_pos hfull, hfree, h.ret⟩
    next hfull => exact ⟨if_neg hfull, hfree, h.ret⟩

variable (read) in
theorem AtHead.exists_end (h : s.AtHead) (hpos : 0 < s.blockSize)
    (hread : ∀ mem, read s.stream mem = (0, mem, s.stream)) :
    ∃ ops t, Exec.run (step read) s ops = some t ∧ t.Waiting := by
  obtain ⟨ops, mem, mapId, id, hlen, hops⟩ := h.exists_lock read
  let u : SubLoad σ := { s.setBlock s.blockIdx (.idle mem mapId id) with phase := .lock }
  have hu : u.block = .idle mem mapId id := by simp [u, block, setBlock]
  have hlast := run_read (s := u) rfl hu (hread mem)
  let t : SubLoad σ := { u with phase := .waitLock false, ret := .noError }
  refine ⟨ops ++ ([.lock .noError, .read] ++ [.unlock .noError]), t,
    (Exec.run_append hops).trans ((Exec.run_append hlast).trans ?_), rfl, ?_, rfl⟩
  · simp [Exec.run, step, SubLoad.unlock, block, setBlock, HostRes.unlockCpuAccess, HostRes.create,
      again, leave, t, u, HostBlock.idle, Nat.ne_of_lt hpos]
  · exact free_setBlock h.free (.inr ⟨_, _, _, rfl, hlen⟩)

variable (read) in
theorem exists_wait {i : Bool} (hphase : s.phase = .waitLock i)
    (hfree : ∀ j, (s.blocks j).Free s.blockSize) :
    ∃ t, Exec.run (step read) s [.waitLock .noError, .waitUnlock .noError] = some t ∧
      t.phase = (if i then .unmap false else .waitLock true) ∧ t.ret = s.ret ∧
      ∀ j, (t.blocks j).Free t.blockSize := by
  rcases hfree i with hnone | ⟨mem, mapId, id, hidle, hlen⟩
  · refine ⟨s.waitUnlock i .noError, ?_, rfl, rfl, free_setBlock hfree (.inl ?_)⟩
    · simp [Exec.run, step, hphase, waitLock, hnone]
      rfl
    · simp [hnone]
  · refine ⟨{ s.setBlock i (.idle mem mapId id) with
        phase := if i then .unmap false else .waitLock true }, ?_, rfl, rfl,
      free_setBlock hfree (.inr ⟨_, _, _, rfl, hlen⟩)⟩
    simp [Exec.run, step, hphase, waitLock, waitUnlock, hidle, HostBlock.idle, setBlock,
      HostRes.lockCpuTest, HostRes.cpuCond, HostRes.lockCpuTaken, HostRes.unlockCpuAccess,
      HostRes.create]
    rfl

variable (read) in
theorem Waiting.exists_return (h : s.Waiting) : ∃ t, Exec.run (step read) s afterLoop = some t ∧
    t.phase = .returned ∧ t.ret = .noError := by
  obtain ⟨t, ht, hp, hret, hfree⟩ := exists_wait read h.phase h.free
  obtain ⟨u, hu, hp', hret', -⟩ := exists_wait read hp hfree
  refine ⟨{ u with phase := .returned }, ?_, rfl, hret'.trans (hret.trans h.ret)⟩
  rw [show afterLoop = [.waitLock .noError, .waitUnlock .noError] ++
    ([.waitLock .noError, .waitUnlock .noError] ++ [.unmap, .destroy, .unmap, .destroy]) from rfl,
    Exec.run_append ht, Exec.run_append hu]
  simp [Exec.run, step, hp']

end SubLoad

end NNPIHost

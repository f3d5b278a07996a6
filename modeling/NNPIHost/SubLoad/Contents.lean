import NNPIHost.SubLoad.Range

/-! # What the blocks of a load hold

A host block keeps the bytes of a scheduled copy until the copy is reported, because the block
is locked before it is filled again.
-/

namespace NNPIHost

open Function (update_of_ne)

namespace SubLoad

variable {σ : Type*} {read : σ → List UInt8 → ℤ × List UInt8 × σ} {R : σ → List UInt8 → σ → Prop}
  {s t : SubLoad σ} {op : LoadOp}

/-- A callback that puts the next chunk of its source at the start of the block. -/
def Reads (read : σ → List UInt8 → ℤ × List UInt8 × σ) (size : ℕ)
    (R : σ → List UInt8 → σ → Prop) : Prop :=
  ∀ st dst, dst.length = size → ∃ c st', c.length ≤ size ∧ R st c st' ∧
    read st dst = (↑c.length, c ++ dst.drop c.length, st')

/-- The copy that is in flight reads the bytes that it was scheduled with. -/
structure Holds (s : SubLoad σ) : Prop where
  length : ∀ i, (s.blocks i).hostres ≠ none → (s.blocks i).mem.length = s.blockSize
  bytes : ∀ m ∈ s.sent, m.report = none → m.msg.hostresId = (s.blocks m.block).mapId ∧
    (s.blocks m.block).mem.take m.bytes.length = m.bytes

theorem pending_ne_zero {m : ScheduledCopy} (hm : m ∈ s.sent) (hr : m.report = none) :
    s.pending m.block ≠ 0 := by
  have : 0 < s.sent.countP fun m' => m'.block == m.block && m'.report.isNone :=
    List.countP_pos_iff.mpr ⟨m, hm, by simp [hr]⟩
  exact Nat.ne_of_gt this

theorem Inv.hostres_ne_none (h : s.Inv) {i : Bool} (hi : s.pending i ≠ 0) :
    (s.blocks i).hostres ≠ none := fun hn => hi ((h.sound i).1 hn).2.1

theorem Inv.block_ne (h : s.Inv) (hidle : s.phase.idle = true) {m : ScheduledCopy}
    (hm : m ∈ s.sent) (hr : m.report = none) : m.block ≠ s.blockIdx :=
  fun hb => pending_ne_zero hm hr (hb ▸ h.idle hidle)

theorem Holds.quiet (h : s.Holds) (hinv : s.Inv) (hq : s.Quiet t) : t.Holds := by
  constructor
  · intro i hi
    rw [hq.blockSize]
    by_cases hn : (s.blocks i).hostres = none
    · exact hq.fresh i hn hi
    · rw [hq.mem i hn]
      exact h.length i hn
  · intro m hm hr
    rw [hq.sent] at hm
    have hpend := pending_ne_zero hm hr
    rw [hq.mapId _ hpend, hq.mem _ (hinv.hostres_ne_none hpend)]
    exact h.bytes m hm hr

theorem readBlock_cases (h : s.Holds) (hinv : s.Inv) (hp : s.phase = .read)
    (hread : Reads read s.blockSize R) : ∃ c st', c.length ≤ s.blockSize ∧ R s.stream c st' ∧
      s.readBlock read = { s.setBlock s.blockIdx
        { s.block with mem := c ++ s.block.mem.drop c.length } with
          stream := st', phase := .unlock c.length } := by
  have hlen := h.length s.blockIdx (hinv.created (by rw [hp]; rfl) (by simp [hp]))
  obtain ⟨c, st', hc, hR, heq⟩ := hread s.stream s.block.mem hlen
  exact ⟨c, st', hc, hR, by rw [readBlock, heq]⟩

theorem Holds.readBlock (h : s.Holds) (hinv : s.Inv) (hp : s.phase = .read)
    (hread : Reads read s.blockSize R) : (s.readBlock read).Holds := by
  obtain ⟨c, st', hc, _, heq⟩ := readBlock_cases h hinv hp hread
  have hlen := h.length s.blockIdx (hinv.created (by rw [hp]; rfl) (by simp [hp]))
  rw [heq]
  constructor
  · refine forall_setBlock (P := fun _ b => b.hostres ≠ none → b.mem.length = s.blockSize)
      (fun _ => ?_) h.length
    have : s.block.mem.length = s.blockSize := hlen
    simp only [List.length_append, List.length_drop]
    omega
  · intro m hm hr
    have hne := hinv.block_ne (by rw [hp]; rfl) hm hr
    have := h.bytes m hm hr
    simpa [update_of_ne hne] using this

theorem Holds.scheduled (h : s.Holds) (hinv : s.Inv) {n : ℕ} (hp : s.phase = .schedule n)
    {b : HostBlock} {msg : SubresMsg} (hmsg : s.Schedules n b msg) :
    (s.scheduled b msg n).Holds := by
  have hlen := h.length s.blockIdx (hinv.created (by rw [hp]; rfl) (by simp [hp]))
  constructor
  · refine forall_setBlock (P := fun _ b => b.hostres ≠ none → b.mem.length = s.blockSize)
      (fun _ => ?_) h.length
    rw [hmsg.mem]
    exact hlen
  · intro m hm hr
    rcases List.mem_append.mp hm with hm | hm
    · have hne := hinv.block_ne (by rw [hp]; rfl) hm hr
      have := h.bytes m hm hr
      simpa [SubLoad.scheduled, update_of_ne hne] using this
    · obtain rfl := List.mem_singleton.mp hm
      simp [SubLoad.scheduled, hmsg.hostresId]

theorem Holds.again (h : s.Holds) (n : ℕ) : (s.again n).Holds := by
  rcases again_cases s n with ⟨_, p, _, heq⟩ | ⟨_, heq⟩ <;> rw [heq] <;>
    exact ⟨h.length, h.bytes⟩

theorem postSchedule_keeps (b : HostBlock) (failed : Bool) :
    (b.postSchedule failed).mem = b.mem ∧ (b.postSchedule failed).mapId = b.mapId ∧
      (b.hostres = none → (b.postSchedule failed).hostres = none) := by
  unfold HostBlock.postSchedule
  split
  next c r _ hr =>
    split
    · exact ⟨rfl, rfl, fun hn => absurd (hr.symm.trans hn) (by simp)⟩
    · exact ⟨rfl, rfl, id⟩
  next => exact ⟨rfl, rfl, id⟩

theorem Holds.report (h : s.Holds) (j : ℕ) (m : ScheduledCopy) (failed : Bool) :
    Holds { s.setBlock m.block ((s.blocks m.block).postSchedule failed) with
      sent := s.sent.set j { m with report := some !failed } } := by
  obtain ⟨hmem, hid, hres⟩ := postSchedule_keeps (s.blocks m.block) failed
  constructor
  · refine forall_setBlock (P := fun _ b => b.hostres ≠ none → b.mem.length = s.blockSize)
      (fun hr => ?_) h.length
    rw [hmem]
    exact h.length m.block fun hn => hr (hres hn)
  · intro m' hm' hr'
    rcases List.mem_or_eq_of_mem_set hm' with hm' | rfl
    · refine forall_setBlock (P := fun i b => (s.blocks i).mapId = b.mapId ∧
        (s.blocks i).mem = b.mem) ⟨hid.symm, hmem.symm⟩ (fun _ => ⟨rfl, rfl⟩) m'.block |>.elim ?_
      intro hid' hmem'
      have := h.bytes m' hm' hr'
      rwa [hid', hmem'] at this
    · cases hr'

theorem Holds.step (h : s.Holds) (hsize : s.Sized) (hread : Reads read s.blockSize R)
    (hs : step read s op = some t) : t.Holds := by
  cases step_effect hsize.inv hsize.pos hs with
  | prepare hq | fail hq | take hq | ended hq | finish hq => exact h.quiet hsize.inv hq
  | read hp heq => exact heq ▸ h.readBlock hsize.inv hp hread
  | schedule hp _ hmsg heq => exact heq ▸ (h.scheduled hsize.inv hp hmsg).again _
  | report _ _ _ heq => exact heq ▸ h.report _ _ _

end SubLoad

end NNPIHost

import NNPIHost.Store.Chunks
import NNPIHost.SubLoad.Contents

/-! # What a load writes

The copies take the chunks of the stream in order, up to the first one that does not fill its
block, and write them one after the other.
-/

namespace NNPIHost

open Chunks

theorem LoadPhase.inLoop_next {p : LoadPhase} (h : p.inLoop = false) : p.next.inLoop = false := by
  cases p with
  | waitUnlock i | destroy i => cases i <;> rfl
  | waitLock | unmap | returned => rfl
  | _ => cases h

namespace SubLoad

variable {σ : Type*} {read : σ → List UInt8 → ℤ × List UInt8 × σ} {R : σ → List UInt8 → σ → Prop}
  {s t : SubLoad σ} {op : LoadOp}

/-- The messages with the bytes that their blocks had. -/
def copies (s : SubLoad σ) : List (SubresMsg × List UInt8) := s.sent.map fun m => (m.msg, m.bytes)

def chunks (s : SubLoad σ) : List (List UInt8) := s.copies.map Prod.snd

/-- The chunks at their places in the device resource. -/
def written (s : SubLoad σ) : List (ℕ × List UInt8) :=
  s.copies.map fun p => (p.1.dstOffset.toNat, p.2)

/-- The chunk that was read and is not scheduled yet. -/
def inHand (s : SubLoad σ) : List (List UInt8) :=
  match s.phase with
  | .unlock n => [s.block.mem.take n.toNat]
  | .schedule n => [s.block.mem.take n]
  | _ => []

/-- The loop has taken full chunks and a last one that is shorter, which may be empty. -/
def Complete (R : σ → List UInt8 → σ → Prop) (st₀ : σ) (s : SubLoad σ) : Prop :=
  ∃ full last, (∀ c ∈ full, c.length = s.blockSize) ∧ last.length < s.blockSize ∧
    Delivers R st₀ (full ++ [last]) s.stream ∧
      (s.chunks = full ++ [last] ∧ last ≠ [] ∨ s.chunks = full ∧ last = [])

/-- What a load from the state `st₀` of its source has written so far. -/
structure Loads (R : σ → List UInt8 → σ → Prop) (offset : UInt64) (st₀ : σ)
    (s : SubLoad σ) : Prop where
  sizes : ∀ p ∈ s.copies, p.1.copySize.toNat + 1 = p.2.length
  placed : Contiguous offset.toNat s.written
  devresOffset : s.devresOffset.toNat = offset.toNat + s.chunks.flatten.length
  chain : ∃ cs st, Delivers R st₀ (s.chunks ++ cs) st
  loop : s.phase.inLoop = true → s.ret = .noError ∧ (∀ c ∈ s.chunks, c.length = s.blockSize) ∧
    Delivers R st₀ (s.chunks ++ s.inHand) s.stream
  hand : ∀ n, s.phase = .unlock n → 0 ≤ n ∧ n.toNat ≤ s.blockSize
  done : s.phase.inLoop = false → s.ret = .noError → s.Complete R st₀

variable {offset : UInt64} {st₀ : σ}

theorem flatMap_written (s : SubLoad σ) : s.written.flatMap Prod.snd = s.chunks.flatten := by
  simp [written, chunks, List.flatMap_def, Function.comp_def]

theorem inHand_of_reading (h : s.phase.reading = true) : s.inHand = [] := by
  unfold inHand
  split <;> simp_all [LoadPhase.reading]

theorem Loads.of_copies (h : s.Loads R offset st₀) (hcopies : t.copies = s.copies)
    (hoffset : t.devresOffset = s.devresOffset)
    (hloop : t.phase.inLoop = true → t.ret = .noError ∧
      (∀ c ∈ s.chunks, c.length = t.blockSize) ∧ Delivers R st₀ (s.chunks ++ t.inHand) t.stream)
    (hhand : ∀ n, t.phase = .unlock n → 0 ≤ n ∧ n.toNat ≤ t.blockSize)
    (hdone : t.phase.inLoop = false → t.ret = .noError → t.Complete R st₀) :
    t.Loads R offset st₀ := by
  have hchunks : t.chunks = s.chunks := by rw [chunks, hcopies, chunks]
  have hwritten : t.written = s.written := by rw [written, hcopies, written]
  exact ⟨hcopies ▸ h.sizes, hwritten ▸ h.placed, by rw [hoffset, hchunks, h.devresOffset],
    hchunks ▸ h.chain, hchunks ▸ hloop, hhand, hdone⟩

theorem Quiet.copies (h : s.Quiet t) : t.copies = s.copies := by
  rw [SubLoad.copies, h.sent, SubLoad.copies]

theorem start_loads (devresSize offset : UInt64) (st₀ : σ) :
    (start devresSize offset st₀).Loads R offset st₀ :=
  ⟨by rintro _ ⟨⟩, trivial, rfl, ⟨[], st₀, rfl⟩, fun _ => ⟨rfl, by rintro _ ⟨⟩, rfl⟩,
    by rintro _ ⟨⟩, by rintro ⟨⟩⟩

theorem Complete.congr (h : s.Complete R st₀) (hchunks : t.chunks = s.chunks)
    (hsize : t.blockSize = s.blockSize) (hstream : t.stream = s.stream) : t.Complete R st₀ := by
  rw [Complete, hchunks, hsize, hstream]
  exact h

theorem Loads.prepare (h : s.Loads R offset st₀) (hq : s.Quiet t) (hs : s.phase.reading = true)
    (ht : t.phase.reading = true) (hret : t.ret = s.ret) : t.Loads R offset st₀ := by
  obtain ⟨hok, hfull, hdel⟩ := h.loop (LoadPhase.inLoop_of_reading hs)
  refine h.of_copies hq.copies hq.devresOffset (fun _ => ⟨hret.trans hok, ?_, ?_⟩) (fun n hn => ?_)
    fun hloop => ?_
  · rwa [hq.blockSize]
  · rwa [inHand_of_reading ht, hq.stream, ← inHand_of_reading hs]
  · rw [hn] at ht
    cases ht
  · rw [LoadPhase.inLoop_of_reading ht] at hloop
    cases hloop

theorem Loads.readBlock (h : s.Loads R offset st₀) (hh : s.Holds) (hinv : s.Inv)
    (hp : s.phase = .read) (hread : Reads read s.blockSize R) :
    (s.readBlock read).Loads R offset st₀ := by
  obtain ⟨hok, hfull, hdel⟩ := h.loop (by rw [hp]; rfl)
  obtain ⟨c, st', hc, hR, heq⟩ := readBlock_cases hh hinv hp hread
  rw [inHand_of_reading (by rw [hp]; rfl), List.append_nil] at hdel
  rw [heq]
  refine h.of_copies rfl rfl (fun _ => ⟨hok, hfull, ?_⟩) (fun n hn => ?_) (by rintro ⟨⟩)
  · have := hdel.snoc hR
    simpa [inHand, block] using this
  · obtain rfl := LoadPhase.unlock.inj hn
    exact ⟨Int.natCast_nonneg _, by rw [Int.toNat_natCast]; exact hc⟩

theorem Loads.take (h : s.Loads R offset st₀) (hinv : s.Inv) (hq : s.Quiet t) {n : ℤ}
    (hs : s.phase = .unlock n) (ht : t.phase = .schedule n.toNat) (hret : t.ret = s.ret) :
    t.Loads R offset st₀ := by
  obtain ⟨hok, hfull, hdel⟩ := h.loop (by rw [hs]; rfl)
  have hmem : t.block.mem = s.block.mem := by
    rw [block, hq.blockIdx]
    exact hq.mem _ (hinv.created (by rw [hs]; rfl) (by simp [hs]))
  have hhand : t.inHand = s.inHand := by simp [inHand, hs, ht, hmem]
  refine h.of_copies hq.copies hq.devresOffset (fun _ => ⟨hret.trans hok, ?_, ?_⟩) (by simp [ht])
    (by rw [ht]; rintro ⟨⟩)
  · rwa [hq.blockSize]
  · rwa [hhand, hq.stream]

theorem Loads.ended (h : s.Loads R offset st₀) (hpos : 0 < s.blockSize) (hq : s.Quiet t)
    (hs : s.phase = .unlock 0) (ht : t.phase = .waitLock false) : t.Loads R offset st₀ := by
  obtain ⟨hok, hfull, hdel⟩ := h.loop (by rw [hs]; rfl)
  refine h.of_copies hq.copies hq.devresOffset (by rw [ht]; rintro ⟨⟩) (by simp [ht]) fun _ _ => ?_
  refine .congr ⟨s.chunks, [], hfull, hpos, ?_, .inr ⟨rfl, rfl⟩⟩ ?_ hq.blockSize hq.stream
  · simpa [inHand, hs] using hdel
  · rw [chunks, hq.copies, chunks]

theorem Loads.finish (h : s.Loads R offset st₀) (hq : s.Quiet t) (hs : s.phase.inLoop = false)
    (ht : t.phase.inLoop = false) (hret : t.ret = s.ret) : t.Loads R offset st₀ := by
  refine h.of_copies hq.copies hq.devresOffset (by simp [ht]) (fun n hn => ?_) fun _ hok => ?_
  · rw [hn] at ht
    cases ht
  · refine (h.done hs (hret ▸ hok)).congr ?_ hq.blockSize hq.stream
    rw [chunks, hq.copies, chunks]

theorem Schedules.copies {n : ℕ} {b : HostBlock} {msg : SubresMsg} (h : s.Schedules n b msg) :
    (s.scheduled b msg n).copies = s.copies ++ [(msg, s.block.mem.take n)] := by
  simp [SubLoad.copies, SubLoad.scheduled, h.mem]

theorem Schedules.chunks {n : ℕ} {b : HostBlock} {msg : SubresMsg} (h : s.Schedules n b msg) :
    (s.scheduled b msg n).chunks = s.chunks ++ [s.block.mem.take n] := by
  simp [SubLoad.chunks, h.copies]

theorem Schedules.length_chunk {n : ℕ} {b : HostBlock} {msg : SubresMsg}
    (h : s.Schedules n b msg) (hh : s.Holds) (hinv : s.Inv) (hp : s.phase = .schedule n) :
    (s.block.mem.take n).length = n := by
  have hmem : s.block.mem.length = s.blockSize :=
    hh.length _ (hinv.created (by rw [hp]; rfl) (by simp [hp]))
  rw [List.length_take, hmem, Nat.min_eq_left h.fits]

/-- The chunk in hand follows the others, as long as the whole of the data has room. -/
theorem Loads.scheduled (h : s.Loads R offset st₀) (hh : s.Holds) (hsize : s.Sized) {n : ℕ}
    (hp : s.phase = .schedule n) {b : HostBlock} {msg : SubresMsg} (hmsg : s.Schedules n b msg)
    (hroom : ∀ cs st, Delivers R st₀ cs st → offset.toNat + cs.flatten.length < 2 ^ 64) :
    ((s.scheduled b msg n).again n).Loads R offset st₀ := by
  obtain ⟨hok, hfull, hdel⟩ := h.loop (by rw [hp]; rfl)
  have hn := hsize.chunk n hp
  have hlen := hmsg.length_chunk hh hsize.inv hp
  have hhand : s.inHand = [s.block.mem.take n] := by simp [inHand, hp]
  rw [hhand] at hdel
  have hchunks := hmsg.chunks
  have hflat : (s.scheduled b msg n).chunks.flatten.length = s.chunks.flatten.length + n := by
    rw [hchunks, List.flatten_append, List.length_append, List.flatten_singleton, hlen]
  have hsizes : ∀ p ∈ (s.scheduled b msg n).copies, p.1.copySize.toNat + 1 = p.2.length := by
    intro p hmem
    rw [hmsg.copies] at hmem
    rcases List.mem_append.mp hmem with hmem | hmem
    · exact h.sizes p hmem
    · obtain rfl := List.mem_singleton.mp hmem
      exact (hmsg.copySize_toNat hsize.le hn).trans hlen.symm
  have hplaced : Contiguous offset.toNat (s.scheduled b msg n).written := by
    rw [written, hmsg.copies, List.map_append]
    refine contiguous_append.mpr ⟨h.placed, ?_, trivial⟩
    rw [← written, flatMap_written, ← h.devresOffset, hmsg.dstOffset]
  have hoffset : (s.devresOffset + .ofNat n).toNat =
      offset.toNat + (s.scheduled b msg n).chunks.flatten.length := by
    have hlt := hroom _ _ hdel
    rw [← hchunks, hflat] at hlt
    rw [UInt64.toNat_add, hmsg.toNat_size hsize.le, h.devresOffset, hflat,
      Nat.mod_eq_of_lt (by omega), Nat.add_assoc]
  have hchain : Delivers R st₀ ((s.scheduled b msg n).chunks ++ []) s.stream := by
    rwa [List.append_nil, hchunks]
  rcases again_cases (s.scheduled b msg n) n with ⟨heqn, p, hread, heq⟩ | ⟨hne, heq⟩ <;> rw [heq]
  · refine ⟨hsizes, hplaced, hoffset, ⟨[], _, hchain⟩, fun _ => ⟨hok, ?_, ?_⟩, ?_, ?_⟩
    · intro c hc
      have hc : c ∈ (s.scheduled b msg n).chunks := hc
      rw [hchunks] at hc
      rcases List.mem_append.mp hc with hc | hc
      · exact hfull c hc
      · obtain rfl := List.mem_singleton.mp hc
        exact hlen.trans heqn
    · rw [inHand_of_reading hread]
      exact hchain
    · rintro k rfl
      cases hread
    · intro hloop
      rw [LoadPhase.inLoop_of_reading hread] at hloop
      cases hloop
  · refine ⟨hsizes, hplaced, hoffset, ⟨[], _, hchain⟩, by rintro ⟨⟩, by rintro _ ⟨⟩, fun _ _ => ?_⟩
    refine ⟨s.chunks, s.block.mem.take n, hfull, ?_, hdel, .inl ⟨hchunks, fun hnil => ?_⟩⟩
    · rw [hlen]
      exact Nat.lt_of_le_of_ne hmsg.fits hne
    · rw [hnil] at hlen
      exact Nat.ne_of_lt hn hlen

theorem Loads.report (h : s.Loads R offset st₀) {j : ℕ} {m : ScheduledCopy}
    (hm : s.sent[j]? = some m) (failed : Bool)
    (heq : t = { s.setBlock m.block ((s.blocks m.block).postSchedule failed) with
      sent := s.sent.set j { m with report := some !failed } }) : t.Loads R offset st₀ := by
  have hcopies : t.copies = s.copies := by
    obtain ⟨hj, hget⟩ := List.getElem?_eq_some_iff.mp hm
    have hj' : j < s.copies.length := by simpa [copies] using hj
    have hself : s.copies.set j (m.msg, m.bytes) = s.copies := by
      rw [← List.set_getElem_self hj']
      simp [copies, hget]
    rw [heq]
    simpa [copies, List.map_set] using hself
  have hmem : t.block.mem = s.block.mem := by
    rw [heq]
    refine forall_setBlock (P := fun i b => b.mem = (s.blocks i).mem) ?_ (fun _ => rfl) s.blockIdx
    exact (postSchedule_keeps _ failed).1
  have hphase : t.phase = s.phase := by rw [heq]; rfl
  have hsize : t.blockSize = s.blockSize := by rw [heq]; rfl
  have hret : t.ret = s.ret := by rw [heq]; rfl
  have hstream : t.stream = s.stream := by rw [heq]; rfl
  have hhand : t.inHand = s.inHand := by rw [inHand, inHand, hphase, hmem]
  refine h.of_copies hcopies (by rw [heq]; rfl) ?_ ?_ ?_
  · rw [hphase, hret, hsize, hhand, hstream]
    exact h.loop
  · rw [hphase, hsize]
    exact h.hand
  · rw [hphase, hret]
    intro hloop hok
    refine (h.done hloop hok).congr ?_ hsize hstream
    rw [chunks, hcopies, chunks]

theorem Loads.step (h : s.Loads R offset st₀) (hh : s.Holds) (hsize : s.Sized)
    (hread : Reads read s.blockSize R)
    (hroom : ∀ cs st, Delivers R st₀ cs st → offset.toNat + cs.flatten.length < 2 ^ 64)
    (hs : step read s op = some t) : t.Loads R offset st₀ := by
  cases step_effect hsize.inv hsize.pos hs with
  | prepare hq hp hp' hret => exact h.prepare hq hp hp' hret
  | fail hq hp hp' herr =>
    exact h.of_copies hq.copies hq.devresOffset (by rw [hp']; rintro ⟨⟩) (by simp [hp'])
      fun _ hok => absurd hok herr
  | read hp heq => exact heq ▸ h.readBlock hh hsize.inv hp hread
  | take hq hp _ hp' hret => exact h.take hsize.inv hq hp hp' hret
  | ended hq hp hp' _ => exact h.ended hsize.pos hq hp hp'
  | schedule hp _ hmsg heq => exact heq ▸ h.scheduled hh hsize hp hmsg hroom
  | finish hq hp hp' hret => exact h.finish hq hp (hp' ▸ LoadPhase.inLoop_next hp) hret
  | report _ hm _ heq => exact h.report hm _ heq

end SubLoad

end NNPIHost

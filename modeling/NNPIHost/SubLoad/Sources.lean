import NNPIHost.SubLoad.Loads
import NNPIHost.SubLoad.Turns

/-! # Buffers and streams

A buffer delivers a short chunk only at its end, so a load of a buffer writes all of it. A
stream may deliver a short chunk before, and the load ends there.
-/

namespace NNPIHost

open Chunks SubLoad

/-- `buf_stream`. -/
structure BufStream where
  buffer : List UInt8
  pos : ℕ
  deriving DecidableEq, Repr

namespace BufStream

/-- `buf_stream_read_cb`, for a block of the requested size. -/
def read (stream : BufStream) (dst : List UInt8) : ℤ × List UInt8 × BufStream :=
  if stream.buffer.length ≤ stream.pos then (0, dst, stream)
  else
    let n := min (stream.buffer.length - stream.pos) dst.length
    (n, (stream.buffer.drop stream.pos).take n ++ dst.drop n,
      { stream with pos := stream.pos + n })

def left (stream : BufStream) : List UInt8 := stream.buffer.drop stream.pos

/-- A short chunk is the last one. -/
def Next (size : ℕ) (stream : BufStream) (c : List UInt8) (stream' : BufStream) : Prop :=
  stream.left = c ++ stream'.left ∧ (c.length < size → stream'.left = [])

theorem reads (size : ℕ) : Reads read size (Next size) := by
  intro st dst hdst
  unfold read
  split
  next hle =>
    have hleft : st.left = [] := List.drop_eq_nil_of_le hle
    exact ⟨[], st, Nat.zero_le _, ⟨rfl, fun _ => hleft⟩, rfl⟩
  next hlt =>
    let n := min (st.buffer.length - st.pos) dst.length
    have hn : ((st.buffer.drop st.pos).take n).length = n := by
      rw [List.length_take, List.length_drop, Nat.min_eq_left (Nat.min_le_left _ _)]
    have hle : n ≤ size := hdst ▸ Nat.min_le_right _ _
    refine ⟨(st.buffer.drop st.pos).take n, { st with pos := st.pos + n },
      Nat.le_trans (Nat.le_of_eq hn) hle, ⟨?_, ?_⟩, ?_⟩
    · rw [left, left, ← List.drop_drop, List.take_append_drop]
    · intro hshort
      refine List.drop_eq_nil_of_le ?_
      have hmin : n = min (st.buffer.length - st.pos) dst.length := rfl
      change st.buffer.length ≤ st.pos + n
      omega
    · rw [hn]

end BufStream

/-- `nnpdrvDeviceResourceSubLoad`: what it returns at once, or the load that it starts. -/
def nnpdrvDeviceResourceSubLoad (devresSize offset : UInt64) :
    Option (List UInt8) → NNPError ⊕ SubLoad BufStream
  | none => .inl .invalidArgument
  | some [] => .inl .noError
  | some data => .inr (start devresSize offset ⟨data, 0⟩)

namespace SubLoad

variable {σ : Type*} {read : σ → List UInt8 → ℤ × List UInt8 × σ} {R : σ → List UInt8 → σ → Prop}
  {s t : SubLoad σ} {st₀ : σ} {devresSize offset : UInt64}

/-- What every state of a load has that reads the chunks of a source. -/
structure Loading (R : σ → List UInt8 → σ → Prop) (devresSize offset : UInt64) (st₀ : σ)
    (s : SubLoad σ) : Prop where
  sized : s.Sized
  blockSize : s.blockSize = calcOptimalBlockSize (devresSize - offset)
  holds : s.Holds
  loads : s.Loads R offset st₀

theorem always_loading (ops : List LoadOp)
    (hread : Reads read (calcOptimalBlockSize (devresSize - offset)) R)
    (hroom : ∀ cs st, Delivers R st₀ cs st → offset.toNat + cs.flatten.length < 2 ^ 64) :
    Exec.Always (step read) (Loading R devresSize offset st₀) (start devresSize offset st₀)
      ops := by
  refine Exec.always_of_preserved ?_ fun s op t h hs => ?_
  · exact ⟨start_sized _ _ _, rfl, ⟨fun i hi => absurd rfl hi, by rintro _ ⟨⟩⟩, start_loads _ _ _⟩
  · have hread' : Reads read s.blockSize R := h.blockSize ▸ hread
    obtain ⟨_, hsize⟩ := (step_effect h.sized.inv h.sized.pos hs).sizes
    exact ⟨h.sized.step hs, hsize.trans h.blockSize, h.holds.step h.sized hread' hs,
      h.loads.step h.holds h.sized hread' hroom hs⟩

/-- The block that a copy reads holds the part of the data that the copy writes, and the
callback does not fill it. -/
def HoldsPart (offset : UInt64) (data : List UInt8) (s : SubLoad σ) (m : ScheduledCopy) : Prop :=
  m.msg.hostresId = (s.blocks m.block).mapId ∧
    (s.blocks m.block).mem.take (m.msg.copySize.toNat + 1) =
      (data.drop (m.msg.dstOffset.toNat - offset.toNat)).take (m.msg.copySize.toNat + 1) ∧
    (s.phase = .read → m.block ≠ s.blockIdx)

theorem Loading.holdsPart {left : σ → List UInt8} {data : List UInt8}
    (h : s.Loading R devresSize offset st₀)
    (hR : ∀ st c st', R st c st' → left st = c ++ left st') (hdata : left st₀ = data)
    {m : ScheduledCopy} (hm : m ∈ s.sent) (hr : m.report = none) : s.HoldsPart offset data m := by
  have hcopy : (m.msg, m.bytes) ∈ s.copies := List.mem_map_of_mem hm
  have hwritten : (m.msg.dstOffset.toNat, m.bytes) ∈ s.written := List.mem_map_of_mem hcopy
  have hpre : s.written.flatMap Prod.snd <+: data := by
    obtain ⟨cs, st, hdel⟩ := h.loads.chain
    rw [← hdata, hdel.left_eq hR, flatMap_written, List.flatten_append, List.append_assoc]
    exact List.prefix_append _ _
  obtain ⟨hid, hbytes⟩ := h.holds.bytes m hm hr
  refine ⟨hid, ?_, fun hp => h.sized.inv.block_ne (by rw [hp]; rfl) hm hr⟩
  rw [h.loads.sizes _ hcopy, hbytes, (h.loads.placed.slice hpre hwritten).2]

theorem AtHead.exists_run {s : SubLoad BufStream} (h : s.AtHead) (hpos : 0 < s.blockSize)
    (hmax : s.blockSize ≤ 0x10000)
    (hfit : s.devresOffset.toNat + s.stream.left.length ≤ s.devresSize.toNat) :
    ∃ ops t, Exec.run (step BufStream.read) s ops = some t ∧ t.phase = .returned ∧
      t.ret = .noError := by
  induction hk : s.stream.left.length using Nat.strongRecOn generalizing s with
  | _ k ih =>
    rcases Nat.eq_zero_or_pos s.stream.left.length with hleft | hleft
    · have hread : ∀ mem, s.stream.read mem = (0, mem, s.stream) := by
        intro mem
        rw [BufStream.left, List.length_drop] at hleft
        rw [BufStream.read, if_pos (by omega)]
      obtain ⟨ops, t, ht, hwait⟩ := h.exists_end BufStream.read hpos hread
      obtain ⟨u, hu, hret⟩ := hwait.exists_return BufStream.read
      exact ⟨ops ++ afterLoop, u, (Exec.run_append ht).trans hu, hret⟩
    · let n := min s.stream.left.length s.blockSize
      let stream : BufStream := { s.stream with pos := s.stream.pos + n }
      have hlen : s.stream.left.length = s.stream.buffer.length - s.stream.pos := List.length_drop
      have hread : ∀ mem, mem.length = s.blockSize → ∃ mem',
          s.stream.read mem = ((n : ℤ), mem', stream) ∧ mem'.length = s.blockSize := by
        intro mem hmem
        refine ⟨s.stream.left.take n ++ mem.drop n, ?_, ?_⟩
        · rw [BufStream.read, if_neg (by omega)]
          simp [n, stream, hmem, BufStream.left]
        · rw [List.length_append, List.length_take, List.length_drop, hmem]
          omega
      have hlt := s.devresSize.toNat_lt
      have hn : n ≤ s.blockSize := Nat.min_le_right ..
      have hn' : 0 < n := Nat.lt_min.mpr ⟨hleft, hpos⟩
      have hnat : (UInt64.ofNat n).toNat = n :=
        UInt64.toNat_ofNat_of_lt' (by unfold UInt64.size; omega)
      have hadd : (s.devresOffset + UInt64.ofNat n).toNat = s.devresOffset.toNat + n := by
        rw [UInt64.toNat_add, hnat]
        omega
      have hencodes : ¬ 0xffff < UInt64.ofNat n - 1 := by
        have hone : (1 : UInt64) ≤ UInt64.ofNat n := 
          UInt64.le_iff_toNat_le.mpr (by rw [hnat]; exact hn')
        rw [UInt64.not_lt, UInt64.le_iff_toNat_le, UInt64.toNat_sub_of_le _ _ hone, hnat]
        exact Nat.sub_le_iff_le_add.mpr (Nat.le_trans hn hmax)
      have hinside : ¬ s.devresSize < s.devresOffset + UInt64.ofNat n := by
        rw [UInt64.not_lt, UInt64.le_iff_toNat_le, hadd]
        omega
      obtain ⟨ops, t, ht, hstream, hsize, hblock, hoffset, hnext⟩ :=
        h.exists_turn BufStream.read hn hn' hread hencodes hinside
      have hleft' : t.stream.left.length = s.stream.left.length - n := by
        rw [hstream]
        simp [stream, BufStream.left]
        omega
      split at hnext
      · obtain ⟨ops', u, hu, hret⟩ := ih _ (by omega) hnext (by omega) (by omega)
          (by rw [hoffset, hadd, hsize]; omega) rfl
        exact ⟨ops ++ ops', u, (Exec.run_append ht).trans hu, hret⟩
      · obtain ⟨u, hu, hret⟩ := hnext.exists_return BufStream.read
        exact ⟨ops ++ afterLoop, u, (Exec.run_append ht).trans hu, hret⟩

end SubLoad

theorem eq_start_of_load {devresSize offset : UInt64} {data : List UInt8} {s : SubLoad BufStream}
    (h : nnpdrvDeviceResourceSubLoad devresSize offset (some data) = .inr s) :
    s = start devresSize offset ⟨data, 0⟩ := by
  cases data with
  | nil => cases h
  | cons b bs => exact (Sum.inr.inj h).symm

/-- The copies of a load that returned without an error write the buffer at its place, and
while a copy is in flight its block holds the part of the buffer that it copies. -/
theorem nnpdrvDeviceResourceSubLoad_writes {devresSize offset : UInt64} {data : List UInt8}
    {s₀ : SubLoad BufStream}
    (hload : nnpdrvDeviceResourceSubLoad devresSize offset (some data) = .inr s₀)
    (hfit : offset.toNat + data.length ≤ devresSize.toNat) (ops : List LoadOp) :
    Exec.Always (step BufStream.read)
      (fun s => ∀ m ∈ s.sent, m.report = none → s.HoldsPart offset data m) s₀ ops ∧
    ∀ s, Exec.run (step BufStream.read) s₀ ops = some s → s.phase = .returned →
      s.ret = .noError → Contiguous offset.toNat s.written ∧
        s.written.flatMap Prod.snd = data ∧ ∀ m ∈ s.sent, 0 < m.bytes.length ∧
          m.bytes.length ≤ 0x10000 ∧ m.msg.copySize.toNat + 1 = m.bytes.length := by
  obtain rfl := eq_start_of_load hload
  let R := BufStream.Next (calcOptimalBlockSize (devresSize - offset))
  have hR : ∀ st c st', R st c st' → st.left = c ++ st'.left := fun _ _ _ h => h.1
  have hroom : ∀ cs st, Delivers R ⟨data, 0⟩ cs st →
      offset.toNat + cs.flatten.length < 2 ^ 64 := by
    intro cs st hdel
    have hlen : data.length = (cs.flatten ++ st.left).length :=
      congrArg List.length (hdel.left_eq hR)
    have hlt := devresSize.toNat_lt
    rw [List.length_append] at hlen
    omega
  have hall := always_loading ops (BufStream.reads _) hroom
  refine ⟨hall.mono fun s h m hm hr => h.holdsPart hR rfl hm hr, fun s hr hp hret => ?_⟩
  have h := hall.last hr
  refine ⟨h.loads.placed, ?_, fun m hm => ?_⟩
  swap
  · have hsize : m.msg.copySize.toNat + 1 = m.bytes.length :=
      h.loads.sizes _ (List.mem_map_of_mem hm)
    have := m.msg.copySize.toNat_lt
    omega
  obtain ⟨full, last, _, hlast, hdel, hchunks⟩ := h.loads.done (by rw [hp]; rfl) hret
  have hleft : s.stream.left = [] := by
    obtain ⟨u, _, v, hnext, rfl⟩ := delivers_append.mp hdel
    exact hnext.2 (h.blockSize ▸ hlast)
  have hdata : data = (full ++ [last]).flatten ++ s.stream.left := hdel.left_eq hR
  rw [flatMap_written, hdata, hleft, List.append_nil]
  rcases hchunks with ⟨hchunks, _⟩ | ⟨hchunks, rfl⟩ <;> simp [hchunks]

theorem nnpdrvDeviceResourceSubLoad_returns {devresSize offset : UInt64} {data : List UInt8}
    {s₀ : SubLoad BufStream}
    (hload : nnpdrvDeviceResourceSubLoad devresSize offset (some data) = .inr s₀)
    (hfit : offset.toNat + data.length ≤ devresSize.toNat) :
    ∃ ops s, Exec.run (step BufStream.read) s₀ ops = some s ∧ s.phase = .returned ∧
      s.ret = .noError := by
  obtain rfl := eq_start_of_load hload
  refine SubLoad.AtHead.exists_run ⟨rfl, fun _ => .inl rfl, rfl⟩ ?_ ?_ hfit
  · exact calcOptimalBlockSize_pos _
  · exact calcOptimalBlockSize_le _

/-- A load of three blocks, of which the third is the first one again. -/
theorem three_blocks_written : ∃ ops s,
    Exec.run (step BufStream.read) (start 0x40000 0x100 ⟨List.replicate 0x20001 7, 0⟩) ops =
      some s ∧
    Contiguous (0x100 : UInt64).toNat s.written ∧
      s.written.flatMap Prod.snd = List.replicate 0x20001 7 ∧
      ∀ m ∈ s.sent, 0 < m.bytes.length ∧ m.bytes.length ≤ 0x10000 ∧
        m.msg.copySize.toNat + 1 = m.bytes.length := by
  have hfit : (0x100 : UInt64).toNat + (List.replicate 0x20001 (7 : UInt8)).length ≤
      (0x40000 : UInt64).toNat := by
    rw [List.length_replicate]
    decide
  obtain ⟨ops, s, hs, hp, hret⟩ := nnpdrvDeviceResourceSubLoad_returns rfl hfit
  exact ⟨ops, s, hs, (nnpdrvDeviceResourceSubLoad_writes rfl hfit ops).2 s hs hp hret⟩

/-- A stream that delivers its data in chunks of any sizes up to that of a request, and whether
it has told its end. -/
structure ChunkStream (size : ℕ) where
  left : List (List UInt8)
  ended : Bool
  fits : ∀ c ∈ left, 0 < c.length ∧ c.length ≤ size

namespace ChunkStream

variable {size : ℕ} {st st' st'' : ChunkStream size} {cs : List (List UInt8)} {c : List UInt8}

/-- What is left after the next chunk. -/
def rest (stream : ChunkStream size) : ChunkStream size :=
  ⟨stream.left.tail, stream.ended, fun c hc => stream.fits c (List.mem_of_mem_tail hc)⟩

def read (stream : ChunkStream size) (dst : List UInt8) : ℤ × List UInt8 × ChunkStream size :=
  match stream.left.head? with
  | none => (0, dst, { stream with ended := true })
  | some c => (c.length, c ++ dst.drop c.length, stream.rest)

/-- A chunk is delivered, or the end is told. -/
def Next (stream : ChunkStream size) (c : List UInt8) (stream' : ChunkStream size) : Prop :=
  stream.left = c :: stream'.left ∧ stream'.ended = stream.ended ∨
    stream.left = [] ∧ c = [] ∧ stream'.left = [] ∧ stream'.ended = true

theorem reads : Reads read size (@Next size) := by
  intro st dst hdst
  unfold read
  cases hhead : st.left.head? with
  | none =>
    have hleft := List.head?_eq_none_iff.mp hhead
    exact ⟨[], { st with ended := true }, Nat.zero_le _, .inr ⟨hleft, rfl, hleft, rfl⟩, rfl⟩
  | some c =>
    have hleft : st.left = c :: st.left.tail := List.eq_cons_of_mem_head? hhead
    have hc : c ∈ st.left := List.mem_of_mem_head? hhead
    exact ⟨c, st.rest, (st.fits c hc).2, .inl ⟨hleft, rfl⟩, rfl⟩

theorem Next.flatten_eq (h : Next st c st') : st.left.flatten = c ++ st'.left.flatten := by
  rcases h with ⟨h, _⟩ | ⟨h, rfl, h', _⟩
  · rw [h, List.flatten_cons]
  · rw [h, h']
    rfl

theorem left_eq_of_delivers (h : Delivers Next st cs st') (hcs : ∀ c ∈ cs, c ≠ []) :
    st.left = cs ++ st'.left ∧ st'.ended = st.ended := by
  induction cs generalizing st with
  | nil =>
    obtain rfl : st = st' := h
    exact ⟨rfl, rfl⟩
  | cons c cs ih =>
    obtain ⟨u, hu, hrest⟩ := h
    obtain ⟨hleft, hended⟩ := ih hrest fun c hc => hcs c (List.mem_cons_of_mem _ hc)
    rcases hu with ⟨hu, hend⟩ | ⟨_, hnil, _⟩
    · exact ⟨by rw [hu, hleft, List.cons_append], hended.trans hend⟩
    · exact absurd hnil (hcs c List.mem_cons_self)

end ChunkStream

/-- What a load that returned without an error has taken of a stream: all of it in full chunks,
or full chunks and a short one. -/
theorem taken_of_noError {devresSize offset : UInt64}
    {chunks : ChunkStream (calcOptimalBlockSize (devresSize - offset))}
    (hfit : offset.toNat + chunks.left.flatten.length ≤ devresSize.toNat) {ops : List LoadOp}
    {s : SubLoad (ChunkStream (calcOptimalBlockSize (devresSize - offset)))}
    (hr : Exec.run (step ChunkStream.read) (start devresSize offset chunks) ops = some s)
    (hp : s.phase = .returned) (hret : s.ret = .noError) :
    Contiguous offset.toNat s.written ∧ ∃ full,
      (∀ c ∈ full, c.length = calcOptimalBlockSize (devresSize - offset)) ∧
        (s.stream.ended = true ∧ chunks.left = full ∧ s.chunks = full ∨
          ∃ last, last ≠ [] ∧ last.length < calcOptimalBlockSize (devresSize - offset) ∧
            s.stream.ended = chunks.ended ∧ chunks.left = full ++ last :: s.stream.left ∧
              s.chunks = full ++ [last]) := by
  have hR : ∀ (st : ChunkStream (calcOptimalBlockSize (devresSize - offset))) c st',
      st.Next c st' → st.left.flatten = c ++ st'.left.flatten := fun _ _ _ h => h.flatten_eq
  have hroom : ∀ cs st, Delivers ChunkStream.Next chunks cs st →
      offset.toNat + cs.flatten.length < 2 ^ 64 := by
    intro cs st hdel
    have hlen := congrArg List.length (hdel.left_eq hR)
    have hlt := devresSize.toNat_lt
    rw [List.length_append] at hlen
    omega
  have h := (always_loading ops ChunkStream.reads hroom).last hr
  have hpos := h.sized.pos
  have hsize := h.blockSize
  obtain ⟨full, last, hfull, hlast, hdel, hchunks⟩ := h.loads.done (by rw [hp]; rfl) hret
  obtain ⟨u, hu, v, hnext, rfl⟩ := delivers_append.mp hdel
  obtain ⟨hleft, hended⟩ := ChunkStream.left_eq_of_delivers hu fun c hc hnil => by
    have := hfull c hc
    simp [hnil] at this
    omega
  refine ⟨h.loads.placed, full, hsize ▸ hfull, ?_⟩
  rcases hnext with ⟨hleft', hend⟩ | ⟨hleft', rfl, _, hend⟩
  · have hne : last ≠ [] := by
      rintro rfl
      exact Nat.lt_irrefl 0 (u.fits [] (hleft' ▸ List.mem_cons_self)).1
    have hchunks : s.chunks = full ++ [last] := (hchunks.resolve_right fun h => hne h.2).1
    exact .inr ⟨last, hne, hsize ▸ hlast, hend.trans hended, hleft' ▸ hleft, hchunks⟩
  · rw [hleft', List.append_nil] at hleft
    exact .inl ⟨hend, hleft, (hchunks.resolve_left fun h => h.2 rfl).1⟩

/-- A load that returned without an error has loaded the stream to its end exactly if no chunk
was short. -/
theorem subLoadFromStream_complete_iff {devresSize offset : UInt64}
    {chunks : ChunkStream (calcOptimalBlockSize (devresSize - offset))}
    (hstart : chunks.ended = false)
    (hfit : offset.toNat + chunks.left.flatten.length ≤ devresSize.toNat) {ops : List LoadOp}
    {s : SubLoad (ChunkStream (calcOptimalBlockSize (devresSize - offset)))}
    (hr : Exec.run (step ChunkStream.read) (start devresSize offset chunks) ops = some s)
    (hp : s.phase = .returned) (hret : s.ret = .noError) :
    s.stream.ended = true ∧ Contiguous offset.toNat s.written ∧
        s.written.flatMap Prod.snd = chunks.left.flatten ↔
      ∀ c ∈ chunks.left, c.length = calcOptimalBlockSize (devresSize - offset) := by
  obtain ⟨hplaced, full, hfull, htaken⟩ := taken_of_noError hfit hr hp hret
  rcases htaken with ⟨hend, hleft, hchunks⟩ | ⟨last, _, hlast, hend, hleft, _⟩
  · refine iff_of_true ⟨hend, hplaced, ?_⟩ (hleft ▸ hfull)
    rw [flatMap_written, hchunks, hleft]
  · -- the callback was not called again after a short chunk
    refine iff_of_false (fun hdone => ?_) fun hall => ?_
    · rw [hend, hstart] at hdone
      exact Bool.false_ne_true hdone.1
    · have := hall last (by rw [hleft]; simp)
      omega

/-- A stream of one chunk that fills its block. -/
def onePage : ChunkStream (calcOptimalBlockSize (0x1000 - 0)) :=
  ⟨[List.replicate 0x1000 7], false, by decide +kernel⟩

/-- The load of a page, whose second read finds the end. -/
def pageLoad : Option (SubLoad (ChunkStream (calcOptimalBlockSize (0x1000 - 0)))) :=
  Exec.run (step ChunkStream.read) (start 0x1000 0 onePage)
    (firstBlock ++ firstBlock.dropLast ++ .complete 0 false :: afterLoop)

theorem page_complete_iff : ∃ s, pageLoad = some s ∧
    (s.stream.ended = true ∧ Contiguous (0 : UInt64).toNat s.written ∧
        s.written.flatMap Prod.snd = onePage.left.flatten ↔
      ∀ c ∈ onePage.left, c.length = calcOptimalBlockSize (0x1000 - 0)) := by
  have hrun : pageLoad.map (fun s => (s.phase, s.ret)) = some (.returned, .noError) := by
    decide +kernel
  obtain ⟨s, hs, hret⟩ := Option.map_eq_some_iff.mp hrun
  obtain ⟨hp, hret⟩ := Prod.mk.inj hret
  exact ⟨s, hs, subLoadFromStream_complete_iff rfl (by decide +kernel) hs hp hret⟩

/-- A stream of two chunks of one byte. -/
def twoBytes : ChunkStream (calcOptimalBlockSize (0x1000 - 0)) := ⟨[[1], [2]], false, by decide⟩

/-- The second byte of the stream is lost. -/
theorem short_chunk_ends_load : ∃ s, Exec.run (step ChunkStream.read) (start 0x1000 0 twoBytes)
      (firstBlock ++ .complete 0 false :: afterLoop) = some s ∧ s.phase = .returned ∧
    s.ret = .noError ∧ s.stream.ended = false ∧ s.written.flatMap Prod.snd = [1] :=
  ⟨_, rfl, rfl, rfl, rfl, rfl⟩

end NNPIHost

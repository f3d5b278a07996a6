import NNPIHost.ErrorList.Records
import NNPIHost.Memory.Heap

/-! # The buffer of an error list

The fields of `nnpiExecErrorList` over a heap: the buffer is a block that the first packet of a
query allocates and `clear` frees, and the descriptors are pointers. The loop of
`completeQuery` is taken round by round, so that a loop which never ends is covered too. Every
copy stays inside the buffer and no descriptor outlives it, whatever sizes the packets give.
-/

namespace NNPIHost

open Memory (Heap Pointer)

/-- `m_buf` is the number of a block, and `loop` the position of a `completeQuery` that has not
finished its loop. -/
structure ErrorBuffer where
  heap : Heap
  buf : Option ℕ
  bufSize : ℕ
  size : ℕ
  completeEventVal : UInt16
  state : ErrorListState
  descVec : List Pointer
  loop : Option ℕ

/-- A call of one of the functions that a query uses. `alloc` is what `malloc` finds in the new
block, if it has memory, and `packet` the bytes at the pointer, if it is not null. -/
inductive ErrorListCall where
  | clear
  | startQuery
  | clearRequestSucceeded
  | appendErrorListPacket (alloc : Option (ℕ → UInt8)) (packet : Option (List UInt8))
      (totalSize : ℕ) (errorEventVal : UInt16)

/-- A call begins, or the loop of the last call goes on for a round. -/
inductive ErrorBufferOp where
  | call (c : ErrorListCall)
  | round

namespace ErrorBuffer

def create : ErrorBuffer := ⟨.empty, none, 0, 0, 0, .cleared, [], none⟩

variable (s : ErrorBuffer)

def clear : ErrorBuffer :=
  { s with descVec := [], heap := s.heap.free s.buf, buf := none, size := 0, bufSize := 0,
           completeEventVal := 0, state := .cleared }

def startQuery : ErrorBuffer := { s with completeEventVal := 0, state := .queryStarted }

def clearRequestSucceeded : ErrorBuffer :=
  { s.clear with state := .completed, completeEventVal := 0 }

/-- A query without an error goes into its loop first. -/
def completeQuery (eventVal : UInt16) : ErrorBuffer :=
  if eventVal = 0 then { s with loop := some 0 }
  else { s with state := .completed, completeEventVal := eventVal }

/-- The bytes that `m_buf` points to. -/
def contents : ℕ → UInt8 := s.buf.elim (fun _ => 0) s.heap.bytes

/-- The loop at a position: one round, or the end of the query. -/
def round (pos : ℕ) : ErrorBuffer :=
  if pos < s.size then
    { s with descVec := s.descVec ++ [⟨s.buf, pos⟩],
             loop := some (ExecErrorList.nextDesc s.contents pos) }
  else { s with loop := none, state := .completed, completeEventVal := 0 }

/-- The buffer is allocated by the first packet that finds none. -/
def allocate (alloc : Option (ℕ → UInt8)) (totalSize : ℕ) : ErrorBuffer :=
  if s.buf.isNone then
    { s with buf := (s.heap.malloc alloc totalSize).1,
             heap := (s.heap.malloc alloc totalSize).2, bufSize := totalSize }
  else s

/-- A packet after the allocation. -/
def receive (data : List UInt8) (totalSize : ℕ) : ErrorBuffer :=
  let size := (s.size + data.length) % 2 ^ 32
  if s.buf.isSome ∧ size ≤ s.bufSize then
    let s := { s with heap := s.heap.memmove ⟨s.buf, s.size⟩ data, size }
    if size = totalSize then s.completeQuery 0 else s
  else s.completeQuery ExecErrorList.noMemory

def appendErrorListPacket (alloc : Option (ℕ → UInt8)) (packet : Option (List UInt8))
    (totalSize : ℕ) (errorEventVal : UInt16) : ErrorBuffer :=
  if s.state ≠ .queryStarted then s
  else
    match packet with
    | none | some [] => s.completeQuery errorEventVal
    | some data => (s.allocate alloc totalSize).receive data totalSize

def call : ErrorListCall → ErrorBuffer
  | .clear => s.clear
  | .startQuery => s.startQuery
  | .clearRequestSucceeded => s.clearRequestSucceeded
  | .appendErrorListPacket alloc packet totalSize errorEventVal =>
      s.appendErrorListPacket alloc packet totalSize errorEventVal

/-- No call begins before the last one has returned. -/
def step : ErrorBufferOp → Option ErrorBuffer
  | .call c => if s.loop.isSome then none else some (s.call c)
  | .round => s.loop.map s.round

end ErrorBuffer

namespace ErrorListCall

/-- A packet of at most a page, of a list whose size is given in 16 bits. -/
def Fits : ErrorListCall → Prop
  | .appendErrorListPacket _ packet totalSize _ =>
      (∀ data, packet = some data → data.length ≤ 4096) ∧ totalSize ≤ 65535
  | _ => True

end ErrorListCall

namespace ErrorBuffer

/-- What has been received fits in the buffer, no copy has left an allocated block and no block
was freed twice, and every descriptor stands in the buffer that is allocated now. -/
structure Safe (s : ErrorBuffer) : Prop where
  size : s.buf.isSome → s.size ≤ s.bufSize
  faulted : s.heap.faulted = false
  descs : ∀ p ∈ s.descVec, p.block = s.buf ∧ s.heap.Allocated p 1

/-- The buffer is a block of the size on record, and without a buffer there are neither bytes
nor descriptors. -/
structure Inv (s : ErrorBuffer) : Prop where
  faulted : s.heap.faulted = false
  block : ∀ b, s.buf = some b → s.heap.sizes b = some s.bufSize ∧ s.size ≤ s.bufSize
  noBuf : s.buf = none → s.size = 0
  descs : ∀ p ∈ s.descVec, ∃ b, s.buf = some b ∧ p.block = some b ∧ p.offset < s.bufSize
  bufSize : s.bufSize ≤ 65535

variable {s t : ErrorBuffer} {op : ErrorBufferOp} {data : List UInt8} {totalSize pos : ℕ}
  {alloc : Option (ℕ → UInt8)} {packet : Option (List UInt8)} {eventVal : UInt16}

theorem Inv.safe (h : s.Inv) : s.Safe where
  size hb := by
    obtain ⟨b, hb⟩ := Option.isSome_iff_exists.mp hb
    exact (h.block b hb).2
  faulted := h.faulted
  descs p hp := by
    obtain ⟨b, hb, hblock, hlt⟩ := h.descs p hp
    refine ⟨hblock.trans hb.symm, s.bufSize, ?_, Nat.succ_le_of_lt hlt⟩
    rw [hblock]
    exact (h.block b hb).1

theorem create_inv : create.Inv where
  faulted := rfl
  block b hb := by cases hb
  noBuf _ := rfl
  descs p hp := by cases hp
  bufSize := Nat.zero_le _

theorem Inv.startQuery (h : s.Inv) : s.startQuery.Inv := ⟨h.1, h.2, h.3, h.4, h.5⟩

theorem Inv.clear (h : s.Inv) : s.clear.Inv where
  faulted := by
    cases hb : s.buf with
    | none => simpa [ErrorBuffer.clear, hb, Heap.free] using h.faulted
    | some b =>
      have hfree := Heap.free_faulted (h.block b hb).1
      simpa [ErrorBuffer.clear, hb, hfree] using h.faulted
  block b hb := by cases hb
  noBuf _ := rfl
  descs p hp := by cases hp
  bufSize := Nat.zero_le _

theorem Inv.clearRequestSucceeded (h : s.Inv) : s.clearRequestSucceeded.Inv :=
  have hc := h.clear
  ⟨hc.1, hc.2, hc.3, hc.4, hc.5⟩

theorem Inv.completeQuery (h : s.Inv) (eventVal : UInt16) : (s.completeQuery eventVal).Inv := by
  unfold ErrorBuffer.completeQuery
  split <;> exact ⟨h.1, h.2, h.3, h.4, h.5⟩

theorem Inv.round (h : s.Inv) (pos : ℕ) : (s.round pos).Inv := by
  unfold ErrorBuffer.round
  split
  next hpos =>
    refine ⟨h.faulted, h.block, h.noBuf, ?_, h.bufSize⟩
    intro p hp
    rcases List.mem_append.mp hp with hp | hp
    · exact h.descs p hp
    · obtain rfl := List.mem_singleton.mp hp
      cases hb : s.buf with
      | none =>
        rw [h.noBuf hb] at hpos
        exact absurd hpos (Nat.not_lt_zero _)
      | some b => exact ⟨b, rfl, rfl, Nat.lt_of_lt_of_le hpos (h.block b hb).2⟩
  next => exact ⟨h.faulted, h.block, h.noBuf, h.descs, h.bufSize⟩

theorem Inv.allocate (h : s.Inv) (alloc : Option (ℕ → UInt8)) (htotal : totalSize ≤ 65535) :
    (s.allocate alloc totalSize).Inv := by
  unfold ErrorBuffer.allocate
  split
  next hnone =>
    have hbuf : s.buf = none := Option.isNone_iff_eq_none.mp hnone
    have hsize := h.noBuf hbuf
    have hdescs : s.descVec = [] := by
      apply List.eq_nil_iff_forall_not_mem.mpr
      intro p hp
      obtain ⟨b, hb, _⟩ := h.descs p hp
      rw [hbuf] at hb
      cases hb
    constructor
    · exact (Heap.malloc_faulted alloc).trans h.faulted
    · intro b hb
      cases alloc with
      | none => cases hb
      | some bytes =>
        obtain rfl : s.heap.next = b := Option.some.inj hb
        exact ⟨Heap.malloc_sizes, by simp [hsize]⟩
    · exact fun _ => hsize
    · simp [hdescs]
    · exact htotal
  next => exact h

theorem Inv.receive (h : s.Inv) (hdata : data.length ≤ 4096) (totalSize : ℕ) :
    (s.receive data totalSize).Inv := by
  unfold ErrorBuffer.receive
  simp only
  split
  next hroom =>
    obtain ⟨b, hb⟩ := Option.isSome_iff_exists.mp hroom.1
    obtain ⟨hsizes, hsize⟩ := h.block b hb
    have hmax := h.bufSize
    have hsum : (s.size + data.length) % 2 ^ 32 = s.size + data.length :=
      Nat.mod_eq_of_lt (by omega)
    rw [hsum] at hroom ⊢
    have hin : s.heap.Allocated ⟨some b, s.size⟩ data.length :=
      ⟨s.bufSize, hsizes, hroom.2⟩
    have hinv : ({ s with heap := s.heap.memmove ⟨s.buf, s.size⟩ data,
                          size := s.size + data.length } : ErrorBuffer).Inv := by
      rw [hb, Heap.memmove_of_allocated hin, ← hb]
      refine ⟨h.faulted, ?_, ?_, h.descs, hmax⟩
      · intro b' hb'
        exact ⟨(h.block b' hb').1, hroom.2⟩
      · intro hnone
        rw [hb] at hnone
        cases hnone
    split
    · exact hinv.completeQuery 0
    · exact hinv
  next => exact h.completeQuery _

theorem Inv.appendErrorListPacket (h : s.Inv) (alloc : Option (ℕ → UInt8))
    (hpacket : ∀ data, packet = some data → data.length ≤ 4096) (htotal : totalSize ≤ 65535)
    (eventVal : UInt16) : (s.appendErrorListPacket alloc packet totalSize eventVal).Inv := by
  unfold ErrorBuffer.appendErrorListPacket
  split
  · exact h
  · split
    · exact h.completeQuery eventVal
    · exact h.completeQuery eventVal
    next data _ => exact (h.allocate alloc htotal).receive (hpacket data rfl) totalSize

/-- What an operation may ask for. -/
def Fits : ErrorBufferOp → Prop
  | .call c => c.Fits
  | .round => True

theorem Inv.step (h : s.Inv) (hop : Fits op) (hs : s.step op = some t) : t.Inv := by
  cases op with
  | round =>
    obtain ⟨pos, _, rfl⟩ := Option.map_eq_some_iff.mp hs
    exact h.round pos
  | call c =>
    obtain ⟨_, hs⟩ := Option.ite_none_left_eq_some.mp hs
    obtain rfl := Option.some.inj hs
    cases c with
    | clear => exact h.clear
    | startQuery => exact h.startQuery
    | clearRequestSucceeded => exact h.clearRequestSucceeded
    | appendErrorListPacket alloc packet totalSize eventVal =>
      exact h.appendErrorListPacket alloc hop.1 hop.2 eventVal

/-- In every sequence of calls, whatever sizes their packets give, whichever allocations fail and
however long the loops of the calls run, the buffer is safe. -/
theorem buffer_safe (ops : List ErrorBufferOp) (hops : ∀ op ∈ ops, Fits op) :
    Exec.Always step Safe create ops := by
  have hmeets : Exec.Meets step (fun _ op => Fits op) create ops :=
    .of_forall_mem fun op hop _ => hops op hop
  have hinv := Exec.always_of_invariant create_inv (fun s op t h hop hs => h.step hop hs) hmeets
  exact hinv.mono fun s h => h.safe

/-- A packet too many for the first total size, then one that completes a smaller list. -/
def mixedTotals : List ErrorBufferOp :=
  [.call .startQuery, .call (.appendErrorListPacket (some fun _ => 0) (some [1, 2, 3]) 8 0),
    .call (.appendErrorListPacket none (some [4, 5, 6, 7, 8, 9]) 16 0), .call .startQuery,
    .call (.appendErrorListPacket none (some [4]) 4 0), .round, .round, .call .clear]

theorem mixedTotals_safe :
    (Exec.run step create mixedTotals).isSome ∧ Exec.Always step Safe create mixedTotals :=
  ⟨by decide, buffer_safe mixedTotals (by simp [mixedTotals, Fits, ErrorListCall.Fits])⟩

section Refines

variable {H : Type*} {e e' : ExecErrorList H} {c : ErrorListCall}

/-- A buffer between two calls, as the error list that has the same fields. -/
structure Shows (s : ErrorBuffer) (e : ExecErrorList H) : Prop where
  buf : s.buf.map s.heap.bytes = e.buf
  bufSize : s.bufSize = e.bufSize
  size : s.size = e.size
  completeEventVal : s.completeEventVal = e.completeEventVal
  state : s.state = e.state
  descVec : s.descVec.map (·.offset) = e.descVec
  loop : s.loop = none

/-- What a call makes of an error list; there is no result when it does not return. -/
def run (e : ExecErrorList H) : ErrorListCall → Option (ExecErrorList H)
  | .clear => some e.clear
  | .startQuery => some e.startQuery
  | .clearRequestSucceeded => some e.clearRequestSucceeded.1
  | .appendErrorListPacket alloc packet totalSize errorEventVal =>
      e.appendErrorListPacket alloc packet totalSize errorEventVal

/-- A call returns the same list, or goes into the loop of a query of the same list. -/
def Agrees (s : ErrorBuffer) (e : Option (ExecErrorList H)) : Prop :=
  (∃ e', e = some e' ∧ s.Shows e') ∨
    ∃ (t : ErrorBuffer) (e' : ExecErrorList H),
      t.Shows e' ∧ s = { t with loop := some 0 } ∧ e = e'.completeQuery 0

theorem Shows.contents (h : s.Shows e) : s.contents = e.buf.getD fun _ => 0 := by
  rw [← h.buf, ErrorBuffer.contents]
  cases s.buf <;> rfl

theorem Shows.clear (h : s.Shows e) : s.clear.Shows e.clear :=
  ⟨rfl, rfl, rfl, rfl, rfl, rfl, h.loop⟩

theorem Shows.startQuery (h : s.Shows e) : s.startQuery.Shows e.startQuery :=
  ⟨h.buf, h.bufSize, h.size, rfl, rfl, h.descVec, h.loop⟩

theorem Shows.clearRequestSucceeded (h : s.Shows e) :
    s.clearRequestSucceeded.Shows e.clearRequestSucceeded.1 :=
  ⟨rfl, rfl, rfl, rfl, rfl, rfl, h.loop⟩

theorem Shows.completeQuery (h : s.Shows e) (eventVal : UInt16) :
    (s.completeQuery eventVal).Agrees (e.completeQuery eventVal) := by
  by_cases hval : eventVal = 0
  · subst hval
    exact .inr ⟨s, e, h, rfl, rfl⟩
  · refine .inl ⟨{ e with state := .completed, completeEventVal := eventVal }, ?_, ?_⟩
    · exact if_neg hval
    · rw [ErrorBuffer.completeQuery, if_neg hval]
      exact ⟨h.buf, h.bufSize, h.size, rfl, rfl, h.descVec, h.loop⟩

theorem Shows.allocate (h : s.Shows e) (alloc : Option (ℕ → UInt8)) (totalSize : ℕ) :
    (s.allocate alloc totalSize).Shows
      (if e.buf.isNone then { e with buf := alloc, bufSize := totalSize } else e) := by
  have hnone : e.buf.isNone = s.buf.isNone := by rw [← h.buf, Option.isNone_map]
  rw [hnone, ErrorBuffer.allocate]
  split
  next =>
    refine ⟨?_, rfl, h.size, h.completeEventVal, h.state, h.descVec, h.loop⟩
    cases alloc with
    | none => rfl
    | some bytes => exact congrArg some Heap.malloc_bytes
  next => exact h

theorem Inv.allocated (h : s.Inv) {b : ℕ} (hb : s.buf = some b) (hdata : data.length ≤ 4096)
    (hroom : (s.size + data.length) % 2 ^ 32 ≤ s.bufSize) :
    s.heap.Allocated ⟨some b, s.size⟩ data.length := by
  obtain ⟨hsizes, hsize⟩ := h.block b hb
  have hmax := h.bufSize
  rw [Nat.mod_eq_of_lt (by omega)] at hroom
  exact ⟨s.bufSize, hsizes, hroom⟩

theorem Shows.receive (h : s.Shows e) (hinv : s.Inv) (hdata : data.length ≤ 4096)
    (totalSize : ℕ) :
    (s.receive data totalSize).Agrees
      (match e.buf with
      | none => e.completeQuery ExecErrorList.noMemory
      | some mem =>
          let size := (e.size + data.length) % 2 ^ 32
          if size ≤ e.bufSize then
            let e := { e with buf := some (Memory.write mem e.size data), size }
            if size = totalSize then e.completeQuery 0 else some e
          else e.completeQuery ExecErrorList.noMemory) := by
  rw [← h.buf, ErrorBuffer.receive]
  cases hb : s.buf with
  | none =>
    rw [if_neg (by simp)]
    exact h.completeQuery _
  | some b =>
    simp only [Option.map_some, Option.isSome_some, true_and, h.size, h.bufSize]
    split
    next hle =>
      have hroom : (s.size + data.length) % 2 ^ 32 ≤ s.bufSize := by
        rw [h.size, h.bufSize]
        exact hle
      have hcopy : ({ s with
          heap := s.heap.memmove ⟨some b, e.size⟩ data
          buf := some b
          bufSize := e.bufSize
          size := (e.size + data.length) % 2 ^ 32 } : ErrorBuffer).Shows
          { e with
            buf := some (Memory.write (s.heap.bytes b) e.size data)
            size := (e.size + data.length) % 2 ^ 32 } := by
        rw [← h.size, Heap.memmove_of_allocated (hinv.allocated hb hdata hroom)]
        refine ⟨?_, rfl, rfl, h.completeEventVal, h.state, h.descVec, h.loop⟩
        exact congrArg some (Function.update_self ..)
      split
      · exact hcopy.completeQuery 0
      · exact .inl ⟨_, rfl, hcopy⟩
    next => exact h.completeQuery _

theorem Shows.call (h : s.Shows e) (hinv : s.Inv) (hc : c.Fits) : (s.call c).Agrees (run e c) := by
  cases c with
  | clear => exact .inl ⟨_, rfl, h.clear⟩
  | startQuery => exact .inl ⟨_, rfl, h.startQuery⟩
  | clearRequestSucceeded => exact .inl ⟨_, rfl, h.clearRequestSucceeded⟩
  | appendErrorListPacket alloc packet totalSize eventVal =>
    simp only [ErrorBuffer.call, run, ErrorBuffer.appendErrorListPacket,
      ExecErrorList.appendErrorListPacket, h.state]
    split
    · exact .inl ⟨e, rfl, h⟩
    · rcases packet with _ | _ | ⟨b, bs⟩
      · exact h.completeQuery eventVal
      · exact h.completeQuery eventVal
      · exact (h.allocate alloc totalSize).receive (hinv.allocate alloc hc.2) (hc.1 _ rfl)
          totalSize

theorem Shows.completeQuery_zero (h : s.Shows e) :
    e.completeQuery 0 = (ExecErrorList.descLoop s.contents s.size s.size 0).map fun descs =>
      { e with state := .completed, completeEventVal := 0, descVec := e.descVec ++ descs } := by
  rw [h.contents, h.size]
  rfl

theorem round_of_lt (h : pos < s.size) : s.round pos =
    { s with
      descVec := s.descVec ++ [⟨s.buf, pos⟩]
      loop := some (ExecErrorList.nextDesc s.contents pos) } := if_pos h

theorem run_last_round (hloop : s.loop = some pos) (h : ¬ pos < s.size) :
    Exec.run step s (List.replicate 1 .round) =
      some { s with loop := none, state := .completed, completeEventVal := 0 } := by
  simp [Exec.run, step, hloop, ErrorBuffer.round, h]

theorem run_rounds {fuel : ℕ} {descs : List ℕ} (hloop : s.loop = some pos)
    (h : ExecErrorList.descLoop s.contents s.size fuel pos = some descs) :
    ∃ n, Exec.run step s (List.replicate n .round) =
      some { s with
        descVec := s.descVec ++ descs.map fun p => ⟨s.buf, p⟩
        loop := none
        state := .completed
        completeEventVal := 0 } := by
  induction fuel generalizing s pos descs with
  | zero =>
    unfold ExecErrorList.descLoop at h
    split at h
    · cases h
    next hpos =>
      obtain rfl := Option.some.inj h
      exact ⟨1, by simpa using run_last_round hloop hpos⟩
  | succ fuel ih =>
    unfold ExecErrorList.descLoop at h
    split at h
    next hpos =>
      obtain ⟨rest, hrest, rfl⟩ := Option.map_eq_some_iff.mp h
      have hround := round_of_lt hpos
      have hloop' : (s.round pos).loop = some (ExecErrorList.nextDesc s.contents pos) := by
        rw [hround]
      have hrest' : ExecErrorList.descLoop (s.round pos).contents (s.round pos).size fuel
          (ExecErrorList.nextDesc s.contents pos) = some rest := by
        rw [hround]
        exact hrest
      obtain ⟨n, hn⟩ := ih hloop' hrest'
      refine ⟨n + 1, ?_⟩
      rw [List.replicate_succ, Exec.run, step, hloop, Option.map_some, Option.bind_some, hn,
        hround]
      simp
    next hpos =>
      obtain rfl := Option.some.inj h
      exact ⟨1, by simpa using run_last_round hloop hpos⟩

/-- A loop that never ends goes on for any number of rounds. -/
theorem run_rounds_forever (n : ℕ) (hloop : s.loop = some pos)
    (h : ∀ k, (ExecErrorList.nextDesc s.contents)^[k] pos < s.size) :
    ∃ t, Exec.run step s (List.replicate n .round) = some t ∧ t.loop.isSome := by
  induction n generalizing s pos with
  | zero => exact ⟨s, rfl, by simp [hloop]⟩
  | succ n ih =>
    have hpos : pos < s.size := h 0
    have hround := round_of_lt hpos
    have hloop' : (s.round pos).loop = some (ExecErrorList.nextDesc s.contents pos) := by
      rw [hround]
    obtain ⟨t, ht, hsome⟩ := ih hloop' (by
      intro k
      rw [hround]
      exact h (k + 1))
    refine ⟨t, ?_, hsome⟩
    rw [List.replicate_succ, Exec.run, step, hloop, Option.map_some, Option.bind_some, ht]

/-- A call on the heap returns as the call on the list alone does, after the rounds of its loop;
where that has no result, the loop goes on for ever. -/
theorem call_refines (h : s.Shows e) (hinv : s.Inv) (hc : c.Fits) :
    (∀ e', run e c = some e' → ∃ n t,
      Exec.run step s (.call c :: List.replicate n .round) = some t ∧ t.Shows e') ∧
    (run e c = none → ∀ n, ∃ t,
      Exec.run step s (.call c :: List.replicate n .round) = some t ∧ t.loop.isSome) := by
  have hstep (n : ℕ) : Exec.run step s (.call c :: List.replicate n .round) =
      Exec.run step (s.call c) (List.replicate n .round) := by
    simp [Exec.run, step, h.loop]
  simp only [hstep]
  rcases h.call hinv hc with ⟨e₁, hrun, hshow⟩ | ⟨u, e₁, hu, hcall, hrun⟩
  · rw [hrun]
    refine ⟨?_, by simp⟩
    rintro e' heq
    obtain rfl := Option.some.inj heq
    exact ⟨0, s.call c, rfl, hshow⟩
  · rw [hcall, hrun]
    rw [hu.completeQuery_zero]
    constructor
    · intro e' heq
      obtain ⟨descs, hdescs, rfl⟩ := Option.map_eq_some_iff.mp heq
      obtain ⟨n, hn⟩ := @run_rounds { u with loop := some 0 } 0 u.size descs rfl hdescs
      refine ⟨n, _, hn, hu.buf, hu.bufSize, hu.size, rfl, rfl, ?_, rfl⟩
      simp [← hu.descVec, Function.comp_def]
    · intro hnone n
      have hnone := ExecErrorList.descLoop_never (Option.map_eq_none_iff.mp hnone)
      refine @run_rounds_forever { u with loop := some 0 } 0 n rfl fun k => ?_
      exact ExecErrorList.descLoop_eq_none.mp (hnone k) k (Nat.le_refl k)

theorem calls_refine {cs : List ErrorListCall} (hcs : ∀ c ∈ cs, c.Fits) (h : s.Shows e)
    (hinv : s.Inv) (hr : Exec.run run e cs = some e') :
    ∃ ops t, (∀ op ∈ ops, Fits op) ∧ Exec.run step s ops = some t ∧ t.Shows e' := by
  induction cs generalizing s e with
  | nil =>
    obtain rfl := Option.some.inj hr
    exact ⟨[], s, by simp, rfl, h⟩
  | cons c cs ih =>
    obtain ⟨hc, hcs⟩ := List.forall_mem_cons.mp hcs
    obtain ⟨e₁, he₁, hr⟩ := Option.bind_eq_some_iff.mp hr
    obtain ⟨n, u, hu, hshow⟩ := (call_refines h hinv hc).1 e₁ he₁
    have hfits : ∀ op ∈ ErrorBufferOp.call c :: List.replicate n .round, Fits op := by
      refine List.forall_mem_cons.mpr ⟨hc, fun op hop => ?_⟩
      obtain rfl := List.eq_of_mem_replicate hop
      trivial
    have hmeets : Exec.Meets step (fun _ op => Fits op) s
        (.call c :: List.replicate n .round) := .of_forall_mem fun op hop _ => hfits op hop
    have hinv' := Exec.always_of_invariant hinv (fun s op t h hop hs => h.step hop hs) hmeets
    obtain ⟨ops, t, hops, ht, hshow'⟩ := ih hcs hshow (hinv'.last hu) hr
    refine ⟨_, t, List.forall_mem_append.mpr ⟨hfits, hops⟩, ?_, hshow'⟩
    rw [Exec.run_append hu, ht]

end Refines

end ErrorBuffer

end NNPIHost

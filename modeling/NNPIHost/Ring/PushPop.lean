import NNPIHost.Fifo.Split
import NNPIHost.Lock.Mutex
import NNPIHost.Ring.Refinement

/-! # Pushing to a ring and popping from it

`push` and `pop` lock the ring, copy in one or two pieces and unlock it. The first piece of a
push is no longer than what is pushed; that of a pop is all that is available up to the end of
the block, so a pop of less writes past the end of its destination.
-/

namespace NNPIHost

namespace RingBuffer

/-- The copies of `push`, the first to the locked space and the second to the start. -/
def copyIn (r : RingBuffer) (off contSize size : UInt32) (data : List UInt8) : RingBuffer :=
  let buf := Memory.write r.buf off.toNat (data.take contSize.toNat)
  if contSize < size then { r with buf := Memory.write buf 0 (data.drop contSize.toNat) }
  else { r with buf }

/-- What the copies of `pop` write to the destination, from its start on. -/
def copyOut (r : RingBuffer) (off contSize size : UInt32) : List UInt8 :=
  Memory.read r.buf off.toNat contSize.toNat ++
    if contSize < size then Memory.read r.buf 0 (size - contSize).toNat else []

/-- The unread bytes, as the offsets and the flag have them. -/
def unread (r : RingBuffer) : List UInt8 :=
  Fifo.window r.buf r.size.toNat r.head.toNat r.getAvailBytes.toNat

/-- The offsets lie in the block, and a full ring has them equal. -/
structure WellFormed (r : RingBuffer) : Prop where
  head : r.head < r.size
  tail : r.tail < r.size
  full : r.isFull = true → r.tail = r.head

/-- The offsets and the flag are those of a ring with this number of unread bytes. -/
structure Counts (r : RingBuffer) (avail : ℕ) : Prop where
  le : avail ≤ r.size.toNat
  tail : r.tail.toNat = r.head.toNat + avail ∨ r.tail.toNat + r.size.toNat = r.head.toNat + avail
  full : r.isFull = true ↔ avail = r.size.toNat

variable {r : RingBuffer}

theorem WellFormed.counts (h : r.WellFormed) : r.Counts r.getAvailBytes.toNat := by
  have hh := UInt32.lt_iff_toNat_lt.mp h.head
  have ht := UInt32.lt_iff_toNat_lt.mp h.tail
  have hs := r.size.toNat_lt
  unfold getAvailBytes
  split
  next hfull =>
    have heq := h.full hfull
    exact ⟨Nat.le_refl _, .inr (by rw [heq]), iff_of_true hfull rfl⟩
  next hfull =>
    split
    next hlt =>
      rw [UInt32.lt_iff_toNat_lt] at hlt
      have hval : (r.tail + r.size - r.head).toNat =
          r.tail.toNat + r.size.toNat - r.head.toNat := by
        rw [UInt32.toNat_sub, UInt32.toNat_add]
        omega
      rw [hval]
      exact ⟨by omega, .inr (by omega), iff_of_false hfull (by omega)⟩
    next hge =>
      rw [UInt32.lt_iff_toNat_lt] at hge
      have hval : (r.tail - r.head).toNat = r.tail.toNat - r.head.toNat := by
        rw [UInt32.toNat_sub]
        omega
      rw [hval]
      exact ⟨by omega, .inl (by omega), iff_of_false hfull (by omega)⟩

theorem WellFormed.counts_iff (h : r.WellFormed) {avail : ℕ} :
    r.Counts avail ↔ r.getAvailBytes.toNat = avail := by
  have hcounts := h.counts
  constructor
  · rintro ⟨hle, htail, hfull⟩
    have hh := UInt32.lt_iff_toNat_lt.mp h.head
    have ht := UInt32.lt_iff_toNat_lt.mp h.tail
    have hle' := hcounts.le
    have htail' := hcounts.tail
    have hfull' := hfull.symm.trans hcounts.full
    omega
  · rintro rfl
    exact hcounts

theorem WellFormed.toNat_getFreeBytes (h : r.WellFormed) :
    r.getFreeBytes.toNat = r.size.toNat - r.getAvailBytes.toNat := by
  have hh := UInt32.lt_iff_toNat_lt.mp h.head
  have ht := UInt32.lt_iff_toNat_lt.mp h.tail
  have hs := r.size.toNat_lt
  obtain ⟨hle, htail, hfull⟩ := h.counts
  unfold getFreeBytes
  split
  next hf => rw [hfull.mp hf, Nat.sub_self, UInt32.toNat_zero]
  next hf =>
    rw [hfull] at hf
    split <;> rename_i hcase <;> rw [UInt32.le_iff_toNat_le] at hcase
    · rw [UInt32.toNat_sub, UInt32.toNat_add]
      omega
    · rw [UInt32.toNat_sub]
      omega

theorem length_unread (r : RingBuffer) : r.unread.length = r.getAvailBytes.toNat :=
  Fifo.length_window _

theorem advance_cases {off n S : UInt32} (ho : off < S) (hn : n ≤ S) :
    off.toNat + n.toNat < 2 ^ 32 ∧
        (((off + n) % S).toNat = off.toNat + n.toNat ∨
          ((off + n) % S).toNat + S.toNat = off.toNat + n.toNat) ∨
      2 ^ 32 ≤ off.toNat + n.toNat ∧ ((off + n) % S).toNat + 2 ^ 32 = off.toNat + n.toNat := by
  rw [UInt32.lt_iff_toNat_lt] at ho
  rw [UInt32.le_iff_toNat_le] at hn
  have hs := S.toNat_lt
  rw [UInt32.toNat_mod, UInt32.toNat_add]
  rcases Nat.lt_or_ge (off.toNat + n.toNat) (2 ^ 32) with hlt | hge
  · rw [Nat.mod_eq_of_lt (a := off.toNat + n.toNat) hlt]
    rcases Nat.lt_or_ge (off.toNat + n.toNat) S.toNat with hin | hout
    · exact .inl ⟨hlt, .inl (Nat.mod_eq_of_lt hin)⟩
    · rw [Nat.mod_eq_sub_mod hout, Nat.mod_eq_of_lt (by omega)]
      exact .inl ⟨hlt, .inr (by omega)⟩
  · rw [Nat.mod_eq_sub_mod hge, Nat.mod_eq_of_lt (by omega), Nat.mod_eq_of_lt (by omega)]
    exact .inr ⟨hge, by omega⟩

theorem WellFormed.withBuf (h : r.WellFormed) (buf : ℕ → UInt8) :
    WellFormed { r with buf } :=
  ⟨h.head, h.tail, h.full⟩

theorem copyIn_eq (r : RingBuffer) (off contSize size : UInt32) (data : List UInt8) :
    ∃ buf, r.copyIn off contSize size data = { r with buf } := by
  unfold copyIn
  simp only
  split <;> exact ⟨_, rfl⟩

section Push

variable {n : UInt32} {data : List UInt8}

theorem WellFormed.le_size (h : r.WellFormed) (hn : n ≤ r.getFreeBytes) : n ≤ r.size := by
  rw [UInt32.le_iff_toNat_le, h.toNat_getFreeBytes] at hn
  rw [UInt32.le_iff_toNat_le]
  omega

theorem WellFormed.copyIn_eq_fill (h : r.WellFormed) (hn : n ≤ r.size)
    (hlen : data.length = n.toNat) :
    r.copyIn r.tail (if n ≤ r.size - r.tail then n else r.size - r.tail) n data = r.fill data := by
  have ht := UInt32.lt_iff_toNat_lt.mp h.tail
  have hcont := toNat_contSize n ht
  rw [UInt32.le_iff_toNat_le] at hn
  unfold copyIn fill
  simp only [UInt32.lt_iff_toNat_lt, hcont]
  split
  next hlt =>
    have hmin : min n.toNat (r.size.toNat - r.tail.toNat) = r.size.toNat - r.tail.toNat := by omega
    rw [hmin, Fifo.store_eq_write_write ht (by omega) (by omega)]
  next hge =>
    have hmin : min n.toNat (r.size.toNat - r.tail.toNat) = data.length := by omega
    rw [hmin, List.take_length, Fifo.store_eq_write (by omega)]

theorem unlockFreeSpace_eq_of_free (hpos : 0 < n) (hn : n ≤ r.getFreeBytes) :
    r.unlockFreeSpace n =
      { r with tail := (r.tail + n) % r.size, isFull := (r.tail + n) % r.size == r.head } := by
  have hnot : r.isFull = false := by
    cases hfull : r.isFull with
    | false => rfl
    | true =>
      rw [getFreeBytes, if_pos hfull] at hn
      exact absurd hpos (UInt32.not_lt.mpr hn)
  simp only [unlockFreeSpace, if_pos hpos, hnot, Bool.false_or]

theorem WellFormed.unlockFreeSpace (h : r.WellFormed) (hpos : 0 < n) (hn : n ≤ r.getFreeBytes) :
    (r.unlockFreeSpace n).WellFormed := by
  have hsize : 0 < r.size := UInt32.lt_of_le_of_lt UInt32.zero_le h.head
  rw [unlockFreeSpace_eq_of_free hpos hn]
  exact ⟨h.head, UInt32.mod_lt _ hsize, fun hfull => eq_of_beq hfull⟩

theorem WellFormed.avail_push (h : r.WellFormed) (hpos : 0 < n) (hn : n ≤ r.getFreeBytes) :
    (r.unlockFreeSpace n).getAvailBytes.toNat = r.getAvailBytes.toNat + n.toNat ↔
      r.tail.toNat + n.toNat < 2 ^ 32 := by
  rw [← (h.unlockFreeSpace hpos hn).counts_iff, unlockFreeSpace_eq_of_free hpos hn]
  have hcases := advance_cases h.tail (h.le_size hn)
  have hh := UInt32.lt_iff_toNat_lt.mp h.head
  have ht := UInt32.lt_iff_toNat_lt.mp h.tail
  have hs := r.size.toNat_lt
  obtain ⟨hle, htail, _⟩ := h.counts
  rw [UInt32.le_iff_toNat_le, h.toNat_getFreeBytes] at hn
  rw [UInt32.lt_iff_toNat_lt, UInt32.toNat_zero] at hpos
  have hadv : ((r.tail + n) % r.size).toNat < r.size.toNat :=
    UInt32.toNat_mod _ _ ▸ Nat.mod_lt _ (by omega)
  constructor
  · intro hc
    have htail' := hc.tail
    simp only at htail'
    omega
  · intro hlt
    constructor
    · simp only
      omega
    · simp only
      omega
    · rw [beq_iff_eq, ← UInt32.toNat_inj]
      simp only
      omega

theorem WellFormed.unread_push (h : r.WellFormed) (hpos : 0 < n) (hn : n ≤ r.getFreeBytes)
    (hlen : data.length = n.toNat) :
    ((r.fill data).unlockFreeSpace n).unread = r.unread ++ data ↔
      r.tail.toNat + n.toNat < 2 ^ 32 := by
  have havail : ((r.fill data).unlockFreeSpace n).getAvailBytes.toNat =
      r.getAvailBytes.toNat + n.toNat ↔ r.tail.toNat + n.toNat < 2 ^ 32 :=
    (h.withBuf (r.fill data).buf).avail_push hpos hn
  rw [← havail]
  constructor
  · intro heq
    have hlength := congrArg List.length heq
    rwa [List.length_append, length_unread, length_unread, hlen] at hlength
  · intro hcount
    have hh := UInt32.lt_iff_toNat_lt.mp h.head
    have ht := UInt32.lt_iff_toNat_lt.mp h.tail
    have hn' : n ≤ (r.fill data).getFreeBytes := hn
    obtain ⟨hle, htail, _⟩ := h.counts
    rw [UInt32.le_iff_toNat_le, h.toNat_getFreeBytes] at hn
    have hmod : (r.head.toNat + r.getAvailBytes.toNat) % r.size.toNat = r.tail.toNat := by
      rcases htail with htail | htail
      · rw [← htail, Nat.mod_eq_of_lt ht]
      · rw [← htail, Nat.add_mod_right, Nat.mod_eq_of_lt ht]
    have hstore : Fifo.window (r.fill data).buf r.size.toNat r.head.toNat
        (r.getAvailBytes.toNat + n.toNat) = r.unread ++ data := by
      rw [Fifo.window_add, hmod, ← hlen, fill, ← hmod, Fifo.window_store_of_le hh (by omega),
        Fifo.window_store (Nat.mod_lt _ (by omega)) (by omega) (Nat.le_refl _), List.take_length]
      rfl
    rw [← hstore, ← hcount, unlockFreeSpace_eq_of_free hpos hn']
    rfl

end Push

section Pop

variable {n : UInt32}

theorem WellFormed.unlockAvailSpace (h : r.WellFormed) (hpos : 0 < n) :
    (r.unlockAvailSpace n).WellFormed := by
  have hsize : 0 < r.size := UInt32.lt_of_le_of_lt UInt32.zero_le h.head
  rw [RingBuffer.unlockAvailSpace, if_pos hpos]
  exact ⟨UInt32.mod_lt _ hsize, h.tail, nofun⟩

theorem WellFormed.avail_pop (h : r.WellFormed) (hpos : 0 < n) (hn : n ≤ r.getAvailBytes) :
    (r.unlockAvailSpace n).getAvailBytes.toNat = r.getAvailBytes.toNat - n.toNat ↔
      r.head.toNat + n.toNat < 2 ^ 32 := by
  rw [← (h.unlockAvailSpace hpos).counts_iff, RingBuffer.unlockAvailSpace, if_pos hpos]
  have hh := UInt32.lt_iff_toNat_lt.mp h.head
  have ht := UInt32.lt_iff_toNat_lt.mp h.tail
  have hs := r.size.toNat_lt
  obtain ⟨hle, htail, _⟩ := h.counts
  rw [UInt32.le_iff_toNat_le] at hn
  rw [UInt32.lt_iff_toNat_lt, UInt32.toNat_zero] at hpos
  have hcases := advance_cases h.head (UInt32.le_iff_toNat_le.mpr (Nat.le_trans hn hle))
  constructor
  · intro hc
    have htail' := hc.tail
    simp only at htail'
    omega
  · intro hlt
    have hnot : r.getAvailBytes.toNat - n.toNat ≠ r.size.toNat := by omega
    constructor
    · simp only
      omega
    · simp only
      omega
    · exact iff_of_false Bool.false_ne_true hnot

theorem WellFormed.unread_pop (h : r.WellFormed) (hpos : 0 < n) (hn : n ≤ r.getAvailBytes) :
    (r.unlockAvailSpace n).unread = r.unread.drop n.toNat ↔ r.head.toNat + n.toNat < 2 ^ 32 := by
  have havail := h.avail_pop hpos hn
  rw [← havail]
  constructor
  · intro heq
    have hlength := congrArg List.length heq
    rwa [List.length_drop, length_unread, length_unread] at hlength
  · intro hcount
    have hlt := havail.mp hcount
    have hadv : ((r.head + n) % r.size).toNat = (r.head.toNat + n.toNat) % r.size.toNat := by
      rw [UInt32.toNat_mod, UInt32.toNat_add, Nat.mod_eq_of_lt (a := r.head.toNat + n.toNat) hlt]
    rw [unread, unread, Fifo.drop_window (UInt32.le_iff_toNat_le.mp hn), hcount, ← hadv,
      RingBuffer.unlockAvailSpace, if_pos hpos]

/-- The pieces of a pop are the oldest unread bytes exactly when the first is no longer than
what is popped. -/
theorem WellFormed.copyOut_eq_iff (h : r.WellFormed) (hn : n ≤ r.getAvailBytes) :
    r.copyOut r.head (if r.getAvailBytes ≤ r.size - r.head then r.getAvailBytes
        else r.size - r.head) n = r.unread.take n.toNat ↔
      r.getAvailBytes = n ∨ r.size.toNat ≤ r.head.toNat + n.toNat := by
  have hh := UInt32.lt_iff_toNat_lt.mp h.head
  have hcont := toNat_contSize r.getAvailBytes hh
  obtain ⟨hle, _, _⟩ := h.counts
  rw [unread, Fifo.take_window (UInt32.le_iff_toNat_le.mp hn), ← UInt32.toNat_inj]
  rw [UInt32.le_iff_toNat_le] at hn
  generalize (if r.getAvailBytes ≤ r.size - r.head then r.getAvailBytes else r.size - r.head) = cont
    at hcont
  unfold copyOut
  simp only [UInt32.lt_iff_toNat_lt]
  split
  next hlt =>
    have hrest : (n - cont).toNat = n.toNat - (r.size.toNat - r.head.toNat) := by
      rw [UInt32.toNat_sub_of_le _ _ (UInt32.le_iff_toNat_le.mpr (Nat.le_of_lt hlt))]
      omega
    have hend : cont.toNat = r.size.toNat - r.head.toNat := by omega
    rw [hrest, hend, Fifo.window_eq_read_append hh (by omega) (by omega)]
    exact iff_of_true rfl (.inr (by omega))
  next hge =>
    rw [List.append_nil]
    constructor
    · intro heq
      have hlength := congrArg List.length heq
      rw [Memory.length_read, Fifo.length_window] at hlength
      omega
    · intro hfits
      have heq : cont.toNat = n.toNat := by omega
      rw [heq, Fifo.window_eq_read (by omega)]

end Pop

end RingBuffer

/-- A ring with the history of its mutex, the bytes that were pushed and not popped, and what
the last call wrote to its destination, with what it was to write. -/
structure RingCalls where
  ring : RingBuffer
  mutex : List (Lock.MutexEvent Unit)
  unread : List UInt8
  popped : List UInt8
  oldest : List UInt8

inductive RingCall where
  | push (data : List UInt8) (size : UInt32)
  | pop (size : UInt32)

namespace RingCalls

/-- Any ring, with the unread bytes that it has. -/
def start (r : RingBuffer) : RingCalls := ⟨r, [], r.unread, [], []⟩

variable (s : RingCalls)

def lock : RingCalls := { s with mutex := .lock () :: s.mutex }

def unlock : RingCalls := { s with mutex := .unlock () :: s.mutex }

def unlockFreeSpace (size : UInt32) : RingCalls :=
  { s.unlock with ring := s.ring.unlockFreeSpace size }

def unlockAvailSpace (size : UInt32) : RingCalls :=
  if 0 < size then { s.unlock with ring := s.ring.unlockAvailSpace size } else s

/-- A null pointer comes with a contiguous size of 0, and with the mutex unlocked. -/
def push (data : List UInt8) (size : UInt32) : Option RingCalls :=
  match s.ring.lockFreeSpace size false with
  | .waiting => none
  | .null =>
      some ({ s.lock.unlock with ring := s.ring.copyIn 0 0 size data }.unlockFreeSpace size)
  | .at off contSize =>
      some ({ s.lock with ring := s.ring.copyIn off contSize size data }.unlockFreeSpace size)

/-- A wait without timeout does not come back with a null pointer. -/
def pop (size : UInt32) : Option RingCalls :=
  match s.ring.lockAvailSpace size false with
  | .waiting | .null => none
  | .at off contSize =>
      some ({ s.lock with popped := s.ring.copyOut off contSize size }.unlockAvailSpace size)

/-- The call is for bytes that are free, or available. -/
def Enough : RingCall → Prop
  | .push data size => 0 < size ∧ data.length = size.toNat ∧ size ≤ s.ring.getFreeBytes
  | .pop size => 0 < size ∧ size ≤ s.ring.getAvailBytes

instance : DecidablePred s.Enough := fun
  | .push _ _ => inferInstanceAs (Decidable (_ ∧ _ ∧ _))
  | .pop _ => inferInstanceAs (Decidable (_ ∧ _))

def step (call : RingCall) : Option RingCalls :=
  if s.Enough call then
    match call with
    | .push data size => (s.push data size).map fun t =>
        { t with unread := s.unread ++ data, popped := [], oldest := [] }
    | .pop size => (s.pop size).map fun t =>
        { t with unread := s.unread.drop size.toNat, oldest := s.unread.take size.toNat }
  else none

/-- The last call wrote the bytes that it was to write and none beyond, the mutex is not held
and was not unlocked without being held, and the ring has the bytes pushed and not popped. -/
structure Correct (s : RingCalls) : Prop where
  popped : s.popped = s.oldest
  mutex : Lock.owner? s.mutex = some none
  unread : s.ring.unread = s.unread

/-- A push finds a valid ring, a pop takes all that is available or reaches the end of the block,
and the offset that is moved does not overflow. -/
def Fits (call : RingCall) : Prop :=
  s.Enough call →
    match call with
    | .push _ size => s.ring.invalid = false ∧ s.ring.tail.toNat + size.toNat < 2 ^ 32
    | .pop size =>
        (s.ring.getAvailBytes = size ∨ s.ring.size.toNat ≤ s.ring.head.toNat + size.toNat) ∧
          s.ring.head.toNat + size.toNat < 2 ^ 32

variable {s} {t : RingCalls} {call : RingCall} {data : List UInt8} {size : UInt32}

theorem owner?_unlock_lock (h : Lock.owner? s.mutex = some none) :
    Lock.owner? s.lock.unlock.mutex = some none :=
  (Lock.owner?_unlock (Lock.owner?_lock h)).mpr rfl

theorem push_valid (h : s.ring.WellFormed) (hn : size ≤ s.ring.getFreeBytes)
    (hlen : data.length = size.toNat) (hinvalid : s.ring.invalid = false) :
    s.push data size =
      some { s.lock.unlock with ring := (s.ring.fill data).unlockFreeSpace size } := by
  have hlock : s.ring.lockFreeSpace size false = .at s.ring.tail _ :=
    RingBuffer.lockFreeSpace_eq_at.mpr ⟨hinvalid, hn, rfl, rfl⟩
  rw [push, hlock]
  simp only [h.copyIn_eq_fill (h.le_size hn) hlen]
  rfl

theorem push_invalid (hinvalid : s.ring.invalid = true) :
    s.push data size = some { s.lock.unlock.unlock with
      ring := (s.ring.copyIn 0 0 size data).unlockFreeSpace size } := by
  have hlock : s.ring.lockFreeSpace size false = .null := by
    simp [RingBuffer.lockFreeSpace, hinvalid]
  rw [push, hlock]
  rfl

theorem pop_eq (hpos : 0 < size) (hn : size ≤ s.ring.getAvailBytes) :
    s.pop size = some { s.lock.unlock with
      ring := s.ring.unlockAvailSpace size
      popped := s.ring.copyOut s.ring.head (if s.ring.getAvailBytes ≤ s.ring.size - s.ring.head
        then s.ring.getAvailBytes else s.ring.size - s.ring.head) size } := by
  have hlock : s.ring.lockAvailSpace size false = .at s.ring.head _ :=
    RingBuffer.lockAvailSpace_eq_at.mpr ⟨hn, rfl, rfl⟩
  rw [pop, hlock]
  simp only [unlockAvailSpace, if_pos hpos]
  rfl

theorem correct_push (h : s.ring.WellFormed) (hs : s.Correct)
    (henough : s.Enough (.push data size)) (ht : s.step (.push data size) = some t) :
    t.ring.WellFormed ∧ (t.Correct ↔ s.Fits (.push data size)) := by
  rw [step, if_pos henough] at ht
  obtain ⟨u, hu, rfl⟩ := Option.map_eq_some_iff.mp ht
  have ⟨hpos, hlen, hn⟩ := henough
  cases hinvalid : s.ring.invalid with
  | false =>
    rw [push_valid h hn hlen hinvalid] at hu
    obtain rfl := Option.some.inj hu
    have hunread := h.unread_push hpos hn hlen
    rw [hs.unread] at hunread
    constructor
    · exact (h.withBuf _).unlockFreeSpace hpos hn
    · constructor
      · exact fun hc _ => ⟨hinvalid, hunread.mp hc.unread⟩
      · intro hfits
        exact ⟨rfl, owner?_unlock_lock hs.mutex, hunread.mpr (hfits henough).2⟩
  | true =>
    rw [push_invalid hinvalid] at hu
    obtain rfl := Option.some.inj hu
    obtain ⟨buf, hbuf⟩ := s.ring.copyIn_eq 0 0 size data
    constructor
    · simp only [hbuf]
      exact (h.withBuf buf).unlockFreeSpace hpos hn
    · apply iff_of_false
      · intro hc
        have hagain := (Lock.owner?_unlock (owner?_unlock_lock hs.mutex)).mp hc.mutex
        cases hagain
      · intro hfits
        exact Bool.false_ne_true ((hfits henough).1.symm.trans hinvalid)

theorem correct_pop (h : s.ring.WellFormed) (hs : s.Correct) (henough : s.Enough (.pop size))
    (ht : s.step (.pop size) = some t) :
    t.ring.WellFormed ∧ (t.Correct ↔ s.Fits (.pop size)) := by
  rw [step, if_pos henough] at ht
  obtain ⟨u, hu, rfl⟩ := Option.map_eq_some_iff.mp ht
  have ⟨hpos, hn⟩ := henough
  rw [pop_eq hpos hn] at hu
  obtain rfl := Option.some.inj hu
  have hunread := h.unread_pop hpos hn
  have hpopped := h.copyOut_eq_iff hn
  rw [hs.unread] at hunread hpopped
  constructor
  · exact h.unlockAvailSpace hpos
  · constructor
    · exact fun hc _ => ⟨hpopped.mp hc.popped, hunread.mp hc.unread⟩
    · intro hfits
      obtain ⟨hwrites, hlt⟩ := hfits henough
      exact ⟨hpopped.mpr hwrites, owner?_unlock_lock hs.mutex, hunread.mpr hlt⟩

theorem step_of_enough (h : s.ring.WellFormed) (henough : s.Enough call) :
    ∃ t, s.step call = some t := by
  cases call with
  | push data size =>
    have ⟨_, hlen, hn⟩ := henough
    rw [step, if_pos henough]
    cases hinvalid : s.ring.invalid with
    | false =>
      rw [push_valid h hn hlen hinvalid]
      exact ⟨_, rfl⟩
    | true =>
      rw [push_invalid hinvalid]
      exact ⟨_, rfl⟩
  | pop size =>
    have ⟨hpos, hn⟩ := henough
    rw [step, if_pos henough, pop_eq hpos hn]
    exact ⟨_, rfl⟩

/-- Every sequence of pushes and pops on a ring in any state: each pop writes the oldest bytes
and none beyond, and each call leaves the mutex unlocked, exactly when the calls fit. -/
theorem pushPop_correct_iff (r : RingBuffer) (h : r.WellFormed) (calls : List RingCall) :
    Exec.Always step Correct (start r) calls ↔ Exec.Meets step Fits (start r) calls := by
  apply Exec.always_iff_meets (I := fun s => s.ring.WellFormed)
  · exact ⟨rfl, rfl, rfl⟩
  · exact h
  · intro s call t hI hP ht
    have henough := (Option.ite_none_right_eq_some.mp ht).1
    cases call with
    | push data size => exact correct_push hI hP henough ht
    | pop size => exact correct_pop hI hP henough ht
  · intro s call hI _ hnone henough
    obtain ⟨t, ht⟩ := step_of_enough hI henough
    cases hnone.symm.trans ht

theorem pushPop_correct_wrapping :
    Exec.Always step Correct (start (.create (fun _ => 0) 4))
        [.push [1, 2, 3] 3, .pop 3, .push [4, 5, 6] 3, .pop 2] ↔
      Exec.Meets step Fits (start (.create (fun _ => 0) 4))
        [.push [1, 2, 3] 3, .pop 3, .push [4, 5, 6] 3, .pop 2] :=
  pushPop_correct_iff _ ⟨by decide, by decide, by decide⟩ _

instance (s : RingCalls) : Decidable s.Correct :=
  decidable_of_iff (s.popped = s.oldest ∧ Lock.owner? s.mutex = some none ∧
    s.ring.unread = s.unread) ⟨fun ⟨h, h', h''⟩ => ⟨h, h', h''⟩, fun ⟨h, h', h''⟩ => ⟨h, h', h''⟩⟩

/-- Of three available bytes one is popped, and three are written. -/
theorem pop_writes_beyond :
    ¬ Exec.Always step Correct (start (.create (fun _ => 0) 4)) [.push [1, 2, 3] 3, .pop 1] := by
  decide

end RingCalls

end NNPIHost

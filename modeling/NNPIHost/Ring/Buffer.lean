import NNPIHost.Exec.Run
import NNPIHost.Fifo.Circular

/-! # The ring buffer

`nnpiRingBuffer` keeps a head and a tail offset in a block of `size` bytes. Equal offsets
mean an empty ring or a full one, told apart by a flag. A producer locks the free space,
fills it and unlocks what it has produced; a consumer does the same with the unread bytes.
All offsets are 32-bit words.
-/

namespace NNPIHost

/-- The fields of `nnpiRingBuffer`, with the bytes of its host resource. -/
structure RingBuffer where
  buf : ℕ → UInt8
  size : UInt32
  head : UInt32
  tail : UInt32
  isFull : Bool
  invalid : Bool

/-- What a locking call comes back with: it still waits, or it returns a null pointer, or
the offset of the locked space and the number of bytes up to the end of the block. -/
inductive Span where
  | waiting
  | null
  | at (off contSize : UInt32)
  deriving DecidableEq, Repr

namespace RingBuffer

def create (buf : ℕ → UInt8) (size : UInt32) : RingBuffer := ⟨buf, size, 0, 0, false, false⟩

def getFreeBytes (r : RingBuffer) : UInt32 :=
  if r.isFull then 0
  else if r.head ≤ r.tail then r.head + r.size - r.tail
  else r.head - r.tail

def getAvailBytes (r : RingBuffer) : UInt32 :=
  if r.isFull then r.size
  else if r.tail < r.head then r.tail + r.size - r.head
  else r.tail - r.head

/-- The returned space starts at the tail; `expired` is the end of a timed wait. -/
def lockFreeSpace (r : RingBuffer) (n : UInt32) (expired : Bool) : Span :=
  let cond := n ≤ r.getFreeBytes ∨ r.invalid
  if ¬ cond ∧ ¬ expired then .waiting
  else if ¬ r.invalid ∧ cond then
    let endDist := r.size - r.tail
    .at r.tail (if n ≤ endDist then n else endDist)
  else .null

def unlockFreeSpace (r : RingBuffer) (n : UInt32) : RingBuffer :=
  if 0 < n then
    let tail := (r.tail + n) % r.size
    { r with tail, isFull := r.isFull || tail == r.head }
  else r

def updateTailBy (r : RingBuffer) (n : UInt32) : RingBuffer :=
  let tail := (r.tail + n) % r.size
  { r with tail, isFull := r.isFull || tail == r.head }

/-- The returned space starts at the head and `contSize` bounds all that is available. -/
def lockAvailSpace (r : RingBuffer) (minAvail : UInt32) (expired : Bool) : Span :=
  let avail := r.getAvailBytes
  if ¬ minAvail ≤ avail ∧ ¬ expired then .waiting
  else if minAvail ≤ avail then
    let endDist := r.size - r.head
    .at r.head (if avail ≤ endDist then avail else endDist)
  else .null

def unlockAvailSpace (r : RingBuffer) (n : UInt32) : RingBuffer :=
  if 0 < n then { r with head := (r.head + n) % r.size, isFull := false } else r

def updateHead (r : RingBuffer) (n : UInt32) : RingBuffer :=
  if 0 < n then { r with head := (r.head + n) % r.size, isFull := false } else r

def setInvalid (r : RingBuffer) : RingBuffer := { r with invalid := true }

/-- Bytes written by the producer from the tail on, wrapping at the end of the block. -/
def fill (r : RingBuffer) (data : List UInt8) : RingBuffer :=
  { r with buf := Fifo.store r.buf r.size.toNat r.tail.toNat data }

/-- One use of the ring, by the host or, through `updateTailBy` and `updateHead`, on behalf
of the card. -/
inductive Op where
  | produce (n : UInt32) (expired : Bool) (data : List UInt8) (m : UInt32)
  | updateTailBy (data : List UInt8) (m : UInt32)
  | consume (minAvail : UInt32) (expired : Bool) (m : UInt32)
  | updateHead (m : UInt32)
  | setInvalid
  deriving Repr

/-- A locking call that does not return a pointer leaves the ring as it is, so it is no
step; the mutex held from lock to unlock makes each pair a single step. -/
def step (r : RingBuffer) : Op → Option RingBuffer
  | .produce n expired data m =>
      match r.lockFreeSpace n expired with
      | .at _ _ => some ((r.fill data).unlockFreeSpace m)
      | _ => none
  | .updateTailBy data m => some ((r.fill data).updateTailBy m)
  | .consume minAvail expired m =>
      match r.lockAvailSpace minAvail expired with
      | .at _ _ => some (r.unlockAvailSpace m)
      | _ => none
  | .updateHead m => some (r.updateHead m)
  | .setInvalid => some r.setInvalid

/-- The bounds a caller keeps: it fills what it locked and unlocks no more than that, and
neither side moves an offset beyond what is free or unread. -/
def Bounded (r : RingBuffer) : Op → Prop
  | .produce n _ data m => data.length = n.toNat ∧ m ≤ n
  | .updateTailBy data m => data.length = m.toNat ∧ 0 < m ∧ m ≤ r.getFreeBytes
  | .consume _ _ m => 0 < m ∧ m ≤ r.getAvailBytes
  | .updateHead m => m ≤ r.getAvailBytes
  | .setInvalid => True

instance (r : RingBuffer) : DecidablePred r.Bounded
  | .produce _ _ _ _ | .consume _ _ _ => inferInstanceAs (Decidable (_ ∧ _))
  | .updateTailBy _ _ => inferInstanceAs (Decidable (_ ∧ _ ∧ _))
  | .updateHead _ => inferInstanceAs (Decidable (_ ≤ _))
  | .setInvalid => .isTrue trivial

/-- What an operation does to the queue of unread bytes. -/
def Op.effect : Op → Fifo.Queue.Op UInt8
  | .produce _ _ data m => .put (data.take m.toNat)
  | .updateTailBy data _ => .put data
  | .consume _ _ m => .get m.toNat
  | .updateHead m => .get m.toNat
  | .setInvalid => .get 0

end RingBuffer

end NNPIHost

import Mathlib.Data.Nat.Notation
import Mathlib.Logic.Function.Basic
import NNPIHost.Memory.Block

/-! # Allocated blocks

A heap of blocks, each with its size. A block that is freed is gone for good: a later block has
another number, so a pointer into the old one is seen to dangle. A write outside of an
allocated block, or the release of one that is not allocated, is a fault that stays on record.
-/

namespace NNPIHost.Memory

/-- The allocated blocks with their sizes and bytes; those from `next` on are still to come. -/
structure Heap where
  next : ℕ
  sizes : ℕ → Option ℕ
  bytes : ℕ → ℕ → UInt8
  faulted : Bool
  fresh : ∀ b, next ≤ b → sizes b = none

/-- An offset in a block, or in no block at all. -/
structure Pointer where
  block : Option ℕ
  offset : ℕ

namespace Heap

def empty : Heap := ⟨0, fun _ => none, fun _ _ => 0, false, fun _ _ => rfl⟩

/-- A range of bytes lies inside an allocated block. -/
def Allocated (h : Heap) (p : Pointer) (len : ℕ) : Prop :=
  ∃ n, p.block.bind h.sizes = some n ∧ p.offset + len ≤ n

instance (h : Heap) (p : Pointer) (len : ℕ) : Decidable (h.Allocated p len) :=
  match hn : p.block.bind h.sizes with
  | none => .isFalse (by simp [Allocated, hn])
  | some n => decidable_of_iff (p.offset + len ≤ n) (by simp [Allocated, hn])

def fault (h : Heap) : Heap := { h with faulted := true }

/-- A new block of a size, with what happens to be in it; `none` when there is no memory. -/
def malloc (h : Heap) (contents : Option (ℕ → UInt8)) (size : ℕ) : Option ℕ × Heap :=
  match contents with
  | none => (none, h)
  | some bytes =>
      (some h.next,
        { h with
          next := h.next + 1
          sizes := Function.update h.sizes h.next (some size)
          bytes := Function.update h.bytes h.next bytes
          fresh := fun b hb => by
            rw [Function.update_of_ne (Nat.ne_of_gt (Nat.lt_of_succ_le hb))]
            exact h.fresh b (Nat.le_of_succ_le hb) })

/-- Freeing no block does nothing. -/
def free (h : Heap) : Option ℕ → Heap
  | none => h
  | some b =>
      if (h.sizes b).isSome then
        { h with
          sizes := Function.update h.sizes b none
          fresh := fun b' hb' => by
            by_cases heq : b' = b
            · rw [heq, Function.update_self]
            · rw [Function.update_of_ne heq, h.fresh b' hb'] }
      else h.fault

/-- The bytes go to where the pointer points. -/
def memmove (h : Heap) (p : Pointer) (data : List UInt8) : Heap :=
  match p.block with
  | none => h.fault
  | some b =>
      if h.Allocated p data.length then
        { h with bytes := Function.update h.bytes b (write (h.bytes b) p.offset data) }
      else h.fault

variable {h : Heap} {p : Pointer} {b n len size : ℕ} {bytes : ℕ → UInt8} {data : List UInt8}

@[simp] theorem malloc_sizes :
    (h.malloc (some bytes) size).2.sizes h.next = some size := Function.update_self ..

@[simp] theorem malloc_bytes :
    (h.malloc (some bytes) size).2.bytes h.next = bytes := Function.update_self ..

@[simp] theorem malloc_faulted (contents : Option (ℕ → UInt8)) :
    (h.malloc contents size).2.faulted = h.faulted := by
  cases contents <;> rfl

theorem free_faulted (hb : h.sizes b = some n) : (h.free (some b)).faulted = h.faulted := by
  simp [free, hb]

theorem memmove_of_allocated (hp : h.Allocated ⟨some b, n⟩ data.length) :
    h.memmove ⟨some b, n⟩ data =
      { h with bytes := Function.update h.bytes b (write (h.bytes b) n data) } := by
  rw [memmove]
  exact if_pos hp

end Heap

end NNPIHost.Memory

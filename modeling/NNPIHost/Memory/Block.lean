import Mathlib.Data.List.GetD
import NNPIHost.Codec.Sequential

/-! # Blocks of memory

A memory is a function from offsets. Its bytes from an offset on are read as a list, written
as a list, or loaded as a little-endian word.
-/

namespace NNPIHost.Memory

variable {β : Type*}

/-- The cells from an offset on. -/
def read (mem : ℕ → β) (off len : ℕ) : List β := (List.range len).map fun i => mem (off + i)

def write (mem : ℕ → β) (off : ℕ) (xs : List β) : ℕ → β := fun j =>
  if off ≤ j then xs.getD (j - off) (mem j) else mem j

variable {mem : ℕ → β} {off : ℕ} {xs ys zs : List β}

@[simp] theorem length_read (len : ℕ) : (read mem off len).length = len := by simp [read]

theorem read_add (m n : ℕ) : read mem off (m + n) = read mem off m ++ read mem (off + m) n := by
  simp [read, List.range_add, Nat.add_assoc]

theorem read_part (h : read mem off (xs ++ ys).length = xs ++ ys) :
    read mem off xs.length = xs ∧ read mem (off + xs.length) ys.length = ys := by
  rw [List.length_append, read_add] at h
  exact List.append_inj h (length_read _)

@[simp] theorem read_write : read (write mem off xs) off xs.length = xs := by
  apply List.ext_getElem
  · simp
  · intro i _ hi
    simp [read, write, hi]

theorem take_read_write (n : ℕ) :
    (read (write mem off xs) off n).take xs.length = xs.take n := by
  apply List.ext_getElem
  · simp [Nat.min_comm]
  · intro i hi _
    rw [List.length_take] at hi
    simp [read, write, show i < xs.length by omega]

theorem read_write_before {n : ℕ} (h : n ≤ off) (xs : List β) :
    read (write mem off xs) 0 n = read mem 0 n := by
  apply List.map_congr_left
  intro i hi
  have hi := List.mem_range.mp hi
  exact if_neg (by omega)

theorem read_write_append (h : read mem 0 xs.length = xs) :
    read (write mem xs.length ys) 0 (xs ++ ys).length = xs ++ ys := by
  rw [List.length_append, read_add, read_write_before (Nat.le_refl _), h, Nat.zero_add, read_write]

/-- The word of `w` bytes at an offset. -/
def loadLe (mem : ℕ → UInt8) : ℕ → ℕ → ℕ
  | 0, _ => 0
  | w + 1, off => (mem off).toNat + 256 * loadLe mem w (off + 1)

theorem loadLe_eq {mem : ℕ → UInt8} {off w v : ℕ} (hv : v < 256 ^ w)
    (h : read mem off (Codec.le w v).length = Codec.le w v) : loadLe mem w off = v := by
  induction w generalizing off v with
  | zero =>
    obtain rfl : v = 0 := by omega
    rfl
  | succ w ih =>
    obtain ⟨hhead, htail⟩ := @read_part _ _ _ [UInt8.ofNat v] _ h
    have hbyte : mem off = UInt8.ofNat v := by simpa [read] using hhead
    have hdiv : v / 256 < 256 ^ w := by rw [Nat.pow_succ] at hv; omega
    have hrest : loadLe mem w (off + 1) = v / 256 := ih hdiv htail
    rw [loadLe, hbyte, hrest, UInt8.toNat_ofNat']
    exact Nat.mod_add_div v 256

theorem loadLe_lt {mem : ℕ → UInt8} {off w : ℕ} : loadLe mem w off < 256 ^ w := by
  induction w generalizing off with
  | zero => exact Nat.one_pos
  | succ w ih =>
    have hbyte := (mem off).toNat_lt
    have hrest := @ih (off + 1)
    rw [loadLe, Nat.pow_succ]
    omega

theorem le_loadLe {mem : ℕ → UInt8} {off w : ℕ} :
    Codec.le w (loadLe mem w off) = read mem off w := by
  induction w generalizing off with
  | zero => rfl
  | succ w ih =>
    have hbyte : UInt8.ofNat (loadLe mem (w + 1) off) = mem off := by
      apply UInt8.toNat_inj.mp
      have hlt := (mem off).toNat_lt
      rw [UInt8.toNat_ofNat', loadLe]
      omega
    have hdiv : loadLe mem (w + 1) off / 256 = loadLe mem w (off + 1) := by
      have hlt := (mem off).toNat_lt
      rw [loadLe]
      omega
    have hread : read mem off (w + 1) = mem off :: read mem (off + 1) w := by
      rw [Nat.add_comm, read_add]
      rfl
    rw [Codec.le, hbyte, hdiv, ih, hread]

end NNPIHost.Memory

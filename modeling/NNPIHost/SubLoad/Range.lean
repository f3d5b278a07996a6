import Mathlib.Algebra.Group.Nat.Defs
import NNPIHost.SubLoad.Steps

/-! # The ranges that a load writes

The end of a range is checked after an addition that can wrap. A range whose end does not wrap
lies inside the device resource.
-/

namespace NNPIHost

open SubLoad

theorem growBlock_le (size n opt : ℕ) : growBlock size n opt ≤ 2 ^ n * opt := by
  induction n generalizing opt with
  | zero => simp only [growBlock, Nat.pow_zero, Nat.one_mul, Nat.le_refl]
  | succ n ih =>
    rw [growBlock]
    split
    · calc growBlock size n (2 * opt) ≤ 2 ^ n * (2 * opt) := ih (2 * opt)
        _ = 2 ^ (n + 1) * opt := by rw [Nat.pow_succ, Nat.mul_assoc]
    · exact Nat.le_mul_of_pos_left opt (Nat.two_pow_pos (n + 1))

theorem le_growBlock (size n opt : ℕ) : opt ≤ growBlock size n opt := by
  induction n generalizing opt with
  | zero => exact Nat.le_refl opt
  | succ n ih =>
    rw [growBlock]
    split
    · have := ih (2 * opt)
      omega
    · exact Nat.le_refl opt

theorem calcOptimalBlockSize_le (size : UInt64) : calcOptimalBlockSize size ≤ 0x10000 :=
  growBlock_le size.toNat 4 4096

theorem calcOptimalBlockSize_pos (size : UInt64) : 0 < calcOptimalBlockSize size :=
  Nat.lt_of_lt_of_le (by decide) (le_growBlock size.toNat 4 4096)

namespace SubLoad

variable {σ : Type*} {read : σ → List UInt8 → ℤ × List UInt8 × σ} {s t : SubLoad σ} {op : LoadOp}

/-- The sizes that the function computes once, and that of a chunk that was read. -/
structure Sized (s : SubLoad σ) : Prop where
  inv : s.Inv
  pos : 0 < s.blockSize
  le : s.blockSize ≤ 0x10000
  chunk : ∀ n, s.phase = .schedule n → 0 < n

theorem start_sized (devresSize offset : UInt64) (stream : σ) :
    (start devresSize offset stream).Sized :=
  ⟨start_inv _ _ _, calcOptimalBlockSize_pos _, calcOptimalBlockSize_le _, by rintro _ ⟨⟩⟩

theorem again_phase_ne (s : SubLoad σ) (n k : ℕ) : (s.again n).phase ≠ .schedule k := by
  rcases again_cases s n with ⟨_, p, hp, heq⟩ | ⟨_, heq⟩ <;> rw [heq]
  · rintro rfl
    cases hp
  · rintro ⟨⟩

theorem again_sizes (s : SubLoad σ) (n : ℕ) :
    (s.again n).devresSize = s.devresSize ∧ (s.again n).blockSize = s.blockSize := by
  rcases again_cases s n with ⟨_, p, _, heq⟩ | ⟨_, heq⟩ <;> rw [heq] <;> exact ⟨rfl, rfl⟩

theorem Effect.sizes (h : Effect read s op t) :
    t.devresSize = s.devresSize ∧ t.blockSize = s.blockSize := by
  cases h with
  | prepare hq | fail hq | take hq | ended hq | finish hq => exact ⟨hq.devresSize, hq.blockSize⟩
  | read _ heq | report _ _ _ heq => rw [heq]; exact ⟨rfl, rfl⟩
  | schedule _ _ _ heq => rw [heq]; exact again_sizes _ _

theorem Sized.step (h : s.Sized) (hs : step read s op = some t) : t.Sized := by
  have he := step_effect h.inv h.pos hs
  obtain ⟨_, hsize⟩ := he.sizes
  refine ⟨h.inv.step hs, hsize ▸ h.pos, hsize ▸ h.le, fun k hk => ?_⟩
  cases he with
  | prepare _ _ hp => rw [hk] at hp; cases hp
  | fail _ _ hp => rw [hk] at hp; cases hp
  | read _ heq => rw [heq] at hk; cases hk
  | take _ _ hpos hp =>
    obtain rfl := LoadPhase.schedule.inj (hp.symm.trans hk)
    omega
  | ended _ _ hp => rw [hk] at hp; cases hp
  | schedule _ _ _ heq => exact absurd (heq ▸ hk) (again_phase_ne _ _ k)
  | finish _ hloop hp _ _ =>
    rw [hk] at hp
    cases hphase : s.phase with
    | waitUnlock i | destroy i => cases i <;> simp [hphase, LoadPhase.next] at hp
    | _ => simp_all [LoadPhase.next, LoadPhase.inLoop]
  | report _ _ _ heq => rw [heq] at hk; exact h.chunk k hk

/-- The range of a message lies inside the device resource. -/
def Inside (s : SubLoad σ) (m : ScheduledCopy) : Prop :=
  m.msg.dstOffset.toNat + (m.msg.copySize.toNat + 1) ≤ s.devresSize.toNat

instance (s : SubLoad σ) (m : ScheduledCopy) : Decidable (s.Inside m) :=
  inferInstanceAs (Decidable (_ ≤ _))

/-- The size of the copy that a step tries to schedule. -/
def scheduling (s : SubLoad σ) (op : LoadOp) : Option ℕ :=
  match s.phase, op with
  | .schedule n, .schedule _ => some n
  | _, _ => none

/-- The end of a range that passes the tests of its schedule does not wrap. -/
def NoWrap (s : SubLoad σ) (op : LoadOp) : Prop :=
  ∀ n ∈ s.scheduling op, n ≤ s.blockSize → s.devresOffset + .ofNat n ≤ s.devresSize →
    s.devresOffset.toNat + n < 2 ^ 64

instance (s : SubLoad σ) (op : LoadOp) : Decidable (s.NoWrap op) :=
  inferInstanceAs (Decidable (∀ n ∈ s.scheduling op, n ≤ s.blockSize →
    s.devresOffset + .ofNat n ≤ s.devresSize → s.devresOffset.toNat + n < 2 ^ 64))

theorem Schedules.toNat_size {n : ℕ} {b : HostBlock} {msg : SubresMsg}
    (h : s.Schedules n b msg) (hle : s.blockSize ≤ 0x10000) : (UInt64.ofNat n).toNat = n := by
  have hfits := h.fits
  exact UInt64.toNat_ofNat_of_lt' (by unfold UInt64.size; omega)

theorem Schedules.copySize_toNat {n : ℕ} {b : HostBlock} {msg : SubresMsg}
    (h : s.Schedules n b msg) (hle : s.blockSize ≤ 0x10000) (hn : 0 < n) :
    msg.copySize.toNat + 1 = n := by
  have hfits := h.fits
  have hnat := h.toNat_size hle
  have hone : (1 : UInt64) ≤ .ofNat n := by
    rw [UInt64.le_iff_toNat_le, hnat]
    exact hn
  have hone' : (1 : UInt64).toNat = 1 := rfl
  rw [h.copySize, UInt64.toNat_toUInt16, UInt64.toNat_sub_of_le _ _ hone, hnat, hone']
  omega

/-- The test of a schedule bounds the range exactly when its end does not wrap. -/
theorem Schedules.inside_iff {n : ℕ} {b : HostBlock} {msg : SubresMsg}
    (h : s.Schedules n b msg) (hle : s.blockSize ≤ 0x10000) (hn : 0 < n) :
    msg.dstOffset.toNat + (msg.copySize.toNat + 1) ≤ s.devresSize.toNat ↔
      s.devresOffset.toNat + n < 2 ^ 64 := by
  have hfits := h.fits
  have hnat := h.toNat_size hle
  have hsize := s.devresSize.toNat_lt
  have hin := UInt64.le_iff_toNat_le.mp h.inside
  rw [UInt64.toNat_add, hnat] at hin
  rw [h.copySize_toNat hle hn, h.dstOffset]
  constructor
  · intro _
    omega
  · intro hlt
    rwa [Nat.mod_eq_of_lt hlt] at hin

theorem Effect.inside (h : Effect read s op t) (hsize : s.Sized) (hall : ∀ m ∈ s.sent, s.Inside m)
    (hok : s.NoWrap op) : ∀ m ∈ t.sent, t.Inside m := by
  have hsizes := h.sizes.1
  have hkeep : ∀ m, s.Inside m → t.Inside m := fun m hm => by rwa [Inside, hsizes]
  cases h with
  | prepare hq | fail hq | take hq | ended hq | finish hq =>
    rw [hq.sent]
    exact fun m hm => hkeep m (hall m hm)
  | read _ heq =>
    rw [heq]
    exact fun m hm => heq ▸ hkeep m (hall m hm)
  | @schedule n io b msg hp hop hmsg heq =>
    intro m hm
    rw [heq, again_sent] at hm
    rcases List.mem_append.mp hm with hm | hm
    · exact hkeep m (hall m hm)
    · obtain rfl := List.mem_singleton.mp hm
      refine hkeep _ ((hmsg.inside_iff hsize.le (hsize.chunk n hp)).mpr ?_)
      exact hok n (by simp [scheduling, hp, hop]) hmsg.fits hmsg.inside
  | @report j m failed _ hm _ heq =>
    intro m' hm'
    rw [heq] at hm'
    rcases List.mem_or_eq_of_mem_set hm' with hm' | rfl
    · exact hkeep m' (hall m' hm')
    · exact hkeep _ (hall m (List.mem_of_getElem? hm))

/-- The ranges of all messages lie inside the device resource as long as no end wraps. -/
theorem sent_inside (devresSize offset : UInt64) (stream : σ) (ops : List LoadOp)
    (h : Exec.Meets (step read) NoWrap (start devresSize offset stream) ops) :
    Exec.Always (step read) (fun s => ∀ m ∈ s.sent, s.Inside m) (start devresSize offset stream)
      ops := by
  let I : SubLoad σ → Prop := fun s => s.Sized ∧ ∀ m ∈ s.sent, s.Inside m
  have hstart : I (start devresSize offset stream) := ⟨start_sized _ _ _, by rintro _ ⟨⟩⟩
  suffices hI : Exec.Always (step read) I (start devresSize offset stream) ops from
    hI.mono fun s hs => hs.2
  refine Exec.always_of_invariant hstart ?_ h
  rintro s op t ⟨hsize, hall⟩ hok hs
  exact ⟨hsize.step hs, (step_effect hsize.inv hsize.pos hs).inside hsize hall hok⟩

end SubLoad

/-- A callback that always delivers one byte. -/
def oneByte (_ : Unit) (dst : List UInt8) : ℤ × List UInt8 × Unit := (1, 7 :: dst.tail, ())

/-- The steps that fill and schedule a first block. -/
def firstBlock : List LoadOp :=
  [.create 0, .map 0 7 false, .createSubres .noError 3, .lock .noError, .read, .unlock .noError,
    .schedule ⟨true, false, true⟩]

theorem last_byte_inside : Exec.Always (step oneByte) (fun s => ∀ m ∈ s.sent, s.Inside m)
    (start 0x1000 0xfff ()) firstBlock :=
  sent_inside 0x1000 0xfff () firstBlock (by decide)

/-- The byte after the last one of the address space ends at zero. -/
theorem wrapped_range_written : ¬ Exec.Always (step oneByte) (fun s => ∀ m ∈ s.sent, s.Inside m)
    (start 0x1000 0xffffffffffffffff ()) firstBlock := by
  decide

end NNPIHost

import NNPIHost.SubLoad.Range

/-! # The clean-up of a load

After a loop without an error the function waits for both blocks before it gives them back.
After an error it does not wait, and what is in flight then stays in flight.
-/

namespace NNPIHost

/-- The function has waited for the block, or has skipped the waits. -/
def LoadPhase.waited : LoadPhase → Bool → Bool
  | .waitUnlock false, i | .waitLock true, i => !i
  | .waitUnlock true, _ | .unmap _, _ | .destroy _, _ | .returned, _ => true
  | _, _ => false

theorem LoadPhase.waited_of_reading {p : LoadPhase} (h : p.reading = true) (i : Bool) :
    p.waited i = false := by
  cases p <;> first | rfl | cases h

theorem LoadPhase.waited_of_next {p : LoadPhase} {i : Bool} (hp : p.inLoop = false)
    (h : p.next.waited i = true) : p.waited i = true ∨ p = .waitLock i := by
  cases p with
  | waitLock j => cases i <;> cases j <;> simp_all [next, waited]
  | waitUnlock j => cases i <;> cases j <;> simp_all [next, waited]
  | unmap j | destroy j | returned => exact .inl rfl
  | _ => cases hp

namespace SubLoad

variable {σ : Type*} {read : σ → List UInt8 → ℤ × List UInt8 × σ} {s t : SubLoad σ} {op : LoadOp}

/-- The block whose resource is unmapped or whose copy is destroyed by a step. -/
def tearsDown (s : SubLoad σ) (op : LoadOp) : Option Bool :=
  match s.phase, op with
  | .unmap i, .unmap => if s.unmaps i then some i else none
  | .destroy i, .destroy => if s.destroys i then some i else none
  | _, _ => none

/-- Nothing is taken from a copy that is in flight. -/
def TearsDownIdle (s : SubLoad σ) (op : LoadOp) : Prop := ∀ i ∈ s.tearsDown op, s.pending i = 0

/-- A clean-up after an error starts when no copy is in flight. -/
def ErrorExitIdle (s : SubLoad σ) (op : LoadOp) : Prop :=
  s.phase = .unmap false → op = .unmap → s.ret ≠ .noError → ∀ i, s.pending i = 0

instance (s : SubLoad σ) (op : LoadOp) : Decidable (s.TearsDownIdle op) :=
  inferInstanceAs (Decidable (∀ i ∈ s.tearsDown op, s.pending i = 0))

instance (s : SubLoad σ) (op : LoadOp) : Decidable (s.ErrorExitIdle op) :=
  inferInstanceAs (Decidable (s.phase = .unmap false → op = .unmap → s.ret ≠ .noError →
    ∀ i, s.pending i = 0))

/-- No copy is in flight from a block that was waited for. -/
def Settled (s : SubLoad σ) : Prop :=
  ∀ i, s.phase.waited i = true → s.pending i = 0 ∨ s.phase = .unmap false ∧ s.ret ≠ .noError

theorem Settled.of_not_waited (h : ∀ i, s.phase.waited i = false) : s.Settled :=
  fun i hi => absurd hi (by simp [h i])

theorem tearsDown_eq_some {i : Bool} (h : s.tearsDown op = some i) :
    s.phase = .unmap i ∧ op = .unmap ∨ s.phase = .destroy i ∧ op = .destroy := by
  unfold tearsDown at h
  split at h
  next j hp =>
    obtain rfl := Option.some.inj (Option.ite_none_right_eq_some.mp h).2
    exact .inl ⟨hp, rfl⟩
  next j hp =>
    obtain rfl := Option.some.inj (Option.ite_none_right_eq_some.mp h).2
    exact .inr ⟨hp, rfl⟩
  next => cases h

theorem Quiet.pending (h : s.Quiet t) (i : Bool) : t.pending i = s.pending i := by
  rw [SubLoad.pending, h.sent, SubLoad.pending]

theorem again_waited (s : SubLoad σ) (n : ℕ) (i : Bool) : (s.again n).phase.waited i = false := by
  rcases again_cases s n with ⟨_, p, hp, heq⟩ | ⟨_, heq⟩ <;> rw [heq]
  · exact LoadPhase.waited_of_reading hp i
  · rfl

/-- A block counts as waited for after its wait, after an error, or because it did before. -/
theorem Effect.waited_cases (h : Effect read s op t) {i : Bool}
    (hi : t.phase.waited i = true) :
    t.phase = .unmap false ∧ t.ret ≠ .noError ∨ t.pending i = 0 ∨
      s.phase.waited i = true ∧ t.pending i ≤ s.pending i ∧ t.ret = s.ret ∧
        (s.phase = .unmap false → t.phase = .unmap false ∨ op = .unmap) := by
  cases h with
  | prepare _ _ hp _ => exact absurd hi (by simp [LoadPhase.waited_of_reading hp])
  | fail _ _ hp hret => exact .inl ⟨hp, hret⟩
  | read _ heq => rw [heq] at hi; cases hi
  | take _ _ _ hp _ => rw [hp] at hi; cases hi
  | ended _ _ hp _ => rw [hp] at hi; cases hi
  | schedule _ _ _ heq => rw [heq, again_waited] at hi; cases hi
  | finish hq hloop hp hret hwait hunmap =>
    rw [hp] at hi
    rw [hq.pending]
    rcases LoadPhase.waited_of_next hloop hi with hi | hi
    · exact .inr (.inr ⟨hi, Nat.le_refl _, hret, fun hp => .inr (hunmap false hp)⟩)
    · exact .inr (.inl (hwait i hi))
  | report _ hm hr heq =>
    have hphase : t.phase = s.phase := by rw [heq]; rfl
    have hret : t.ret = s.ret := by rw [heq]; rfl
    rw [hphase] at hi ⊢
    refine .inr (.inr ⟨hi, ?_, hret, .inl⟩)
    exact (counts_set hm hr _ (congrArg SubLoad.sent heq)).1 ▸ Nat.le_add_right _ _

theorem Settled.step (h : s.Settled) (hsize : s.Sized) (hok : s.ErrorExitIdle op)
    (hs : step read s op = some t) : t.Settled := by
  intro i hi
  rcases (step_effect hsize.inv hsize.pos hs).waited_cases hi with
    herr | hzero | ⟨hi, hle, hret, hunmap⟩
  · exact .inr herr
  · exact .inl hzero
  · rcases h i hi with hzero | ⟨hp, herr⟩
    · exact .inl (by omega)
    · rcases hunmap hp with hp' | hop
      · exact .inr ⟨hp', hret ▸ herr⟩
      · have := hok hp hop herr i
        exact .inl (by omega)

/-- No copy is in flight from what the clean-up gives back, when the clean-ups that follow an
error start without one. -/
theorem cleanUp_idle (devresSize offset : UInt64) (stream : σ) (ops : List LoadOp)
    (h : Exec.Meets (step read) ErrorExitIdle (start devresSize offset stream) ops) :
    Exec.Meets (step read) TearsDownIdle (start devresSize offset stream) ops := by
  let I : SubLoad σ → Prop := fun s => s.Sized ∧ s.Settled
  have hstart : I (start devresSize offset stream) :=
    ⟨start_sized _ _ _, .of_not_waited fun _ => rfl⟩
  refine Exec.Meets.of_invariant hstart ?_ ?_ h
  · rintro s op t ⟨hsize, hset⟩ hok hs
    exact ⟨hsize.step hs, hset.step hsize hok hs⟩
  · rintro s op ⟨_, hset⟩ hok i hi
    rcases tearsDown_eq_some hi with ⟨hp, rfl⟩ | ⟨hp, rfl⟩
    · rcases hset i (by rw [hp]; rfl) with hzero | ⟨hphase, herr⟩
      · exact hzero
      · exact hok hphase rfl herr i
    · exact (hset i (by rw [hp]; rfl)).resolve_right fun h => by simp [hp] at h

end SubLoad

open SubLoad

/-- A callback that always fills the block of a small resource. -/
def fullPage (_ : Unit) (dst : List UInt8) : ℤ × List UInt8 × Unit := (0x1000, dst, ())

/-- The second block cannot be allocated after the first was copied. -/
theorem copied_block_cleaned_up : Exec.Meets (step fullPage) TearsDownIdle (start 0x1000 0 ())
    (firstBlock ++ [.complete 0 false, .create 12, .unmap, .destroy, .unmap, .destroy]) :=
  cleanUp_idle 0x1000 0 () _ (by decide +kernel)

/-- The second block cannot be allocated while the card copies the first. -/
theorem copy_in_flight_cleaned_up : ¬ Exec.Meets (step fullPage) TearsDownIdle
    (start 0x1000 0 ()) (firstBlock ++ [.create 12, .unmap, .destroy]) := by
  decide +kernel

end NNPIHost

import NNPIHost.SubLoad.CleanUp

/-! # Failed copies of a load

The loop sees that a copy has failed when it locks the block of the copy again. The waits after
the loop look at nothing, so that a failure that is reported later is lost.
-/

namespace NNPIHost

theorem LoadPhase.inLoop_of_waited {p : LoadPhase} {i : Bool} (h : p.waited i = true) :
    p.inLoop = false := by
  cases p <;> first | rfl | cases h

namespace SubLoad

variable {σ : Type*} {read : σ → List UInt8 → ℤ × List UInt8 × σ} {s t : SubLoad σ} {op : LoadOp}

/-- Neither host resource is broken. -/
def Intact (s : SubLoad σ) : Prop := ∀ i r, (s.blocks i).hostres = some r → r.broken = false

/-- No copy fails after the loop, and none has failed that the loop did not see. -/
def NoLateFailure (s : SubLoad σ) (op : LoadOp) : Prop :=
  s.phase.inLoop = false → s.Intact ∧ ∀ j, op ≠ .complete j true

/-- No copy was reported as failed. -/
def Unfailed (s : SubLoad σ) : Prop := ∀ m ∈ s.sent, m.report ≠ some false

theorem unfailed_iff : s.Unfailed ↔ ∀ i, s.failures i = 0 := by
  simp only [Unfailed, failures, List.countP_eq_zero, Bool.and_eq_true, beq_iff_eq, not_and]
  exact ⟨fun h i m hm _ => h m hm, fun h m hm => h m.block m hm rfl⟩

theorem Inv.intact_iff (h : s.Inv) : s.Intact ↔ s.Unfailed := by
  rw [unfailed_iff]
  refine forall_congr' fun i => ?_
  cases hr : (s.blocks i).hostres with
  | none => simpa using ((h.sound i).1 hr).2.2
  | some r => simpa using ((h.sound i).2 r hr).broken_iff

/-- A failure is never forgotten. -/
theorem Effect.unfailed (h : Effect read s op t) (ht : t.Unfailed) : s.Unfailed := by
  cases h with
  | prepare hq | fail hq | take hq | ended hq | finish hq => exact fun m hm => ht m (hq.sent ▸ hm)
  | read _ heq => exact fun m hm => ht m (by rw [heq]; exact hm)
  | schedule _ _ _ heq =>
    refine fun m hm => ht m ?_
    rw [heq, again_sent]
    exact List.mem_append_left _ hm
  | report _ hj hr heq =>
    intro m hm hbad
    obtain ⟨k, hk⟩ := List.mem_iff_getElem?.mp hm
    refine ht m (List.mem_iff_getElem?.mpr ⟨k, ?_⟩) hbad
    rw [heq, List.getElem?_set_ne, hk]
    rintro rfl
    rw [Option.some.inj (hj.symm.trans hk), hbad] at hr
    cases hr

theorem complete_not_unfailed {j : ℕ} (hs : s.complete j true = some t) : ¬ t.Unfailed := by
  obtain ⟨m, hm, _, rfl⟩ := complete_cases hs
  intro ht
  obtain ⟨hj, _⟩ := List.getElem?_eq_some_iff.mp hm
  exact ht { m with report := some !true } (List.mem_set hj _) rfl

/-- After a loop without an error the function waits for all copies. -/
def Waited (s : SubLoad σ) : Prop :=
  s.ret = .noError → ∀ i, s.phase.waited i = true → s.pending i = 0

theorem Waited.step (h : s.Waited) (he : Effect read s op t) : t.Waited := by
  intro hret i hi
  rcases he.waited_cases hi with ⟨_, herr⟩ | hzero | ⟨hi, hle, hret', _⟩
  · exact absurd hret herr
  · exact hzero
  · have := h (hret' ▸ hret) i hi
    omega

/-- What a run keeps whose steps after the loop meet the condition. -/
structure Seen (s : SubLoad σ) : Prop where
  sized : s.Sized
  waited : s.Waited
  unfailed : s.ret = .noError → s.phase.waited false = true → s.Unfailed

theorem Seen.step (h : s.Seen) (hok : s.NoLateFailure op) (hs : step read s op = some t) :
    t.Seen := by
  have he := step_effect h.sized.inv h.sized.pos hs
  refine ⟨h.sized.step hs, h.waited.step he, fun hret hi => ?_⟩
  cases he with
  | prepare _ _ hp _ => exact absurd hi (by simp [LoadPhase.waited_of_reading hp])
  | fail _ _ _ herr => exact absurd hret herr
  | read _ heq => rw [heq] at hi; cases hi
  | take _ _ _ hp _ => rw [hp] at hi; cases hi
  | ended _ _ hp _ => rw [hp] at hi; cases hi
  | schedule _ _ _ heq => rw [heq, again_waited] at hi; cases hi
  | finish hq hloop _ _ _ _ =>
    have hunf := h.sized.inv.intact_iff.mp (hok hloop).1
    exact fun m hm => hunf m (hq.sent ▸ hm)
  | @report j m failed hop hm hr heq =>
    have hphase : t.phase = s.phase := by rw [heq]; rfl
    obtain ⟨hint, hne⟩ := hok (LoadPhase.inLoop_of_waited (hphase ▸ hi))
    intro m' hm'
    rw [heq] at hm'
    rcases List.mem_or_eq_of_mem_set hm' with hm' | rfl
    · exact h.sized.inv.intact_iff.mp hint m' hm'
    · cases failed with
      | true => exact absurd hop (hne j)
      | false => simp

/-- A load that returns without an error has seen all failures exactly if none came after the
last lock of its block in the loop. -/
theorem noError_iff_noLateFailure {devresSize offset : UInt64} {stream : σ} {ops : List LoadOp}
    (hr : Exec.run (step read) (start devresSize offset stream) ops = some s)
    (hp : s.phase = .returned) (hret : s.ret = .noError) :
    (∀ m ∈ s.sent, m.report = some true) ↔
      Exec.Meets (step read) NoLateFailure (start devresSize offset stream) ops := by
  have hstart : (start devresSize offset stream).Seen :=
    ⟨start_sized _ _ _, by rintro _ _ ⟨⟩, by rintro _ ⟨⟩⟩
  constructor
  · intro hall
    have hunf : s.Unfailed := fun m hm => by simp [hall m hm]
    refine (Exec.Meets.of_last (start_sized _ _ _) (fun s op t h hs => h.step hs) ?_ hr hunf).2
    intro s op t h hs ht
    have hs' := (step_effect h.inv h.pos hs).unfailed ht
    refine ⟨hs', fun _ => ⟨h.inv.intact_iff.mpr hs', ?_⟩⟩
    rintro j rfl
    exact complete_not_unfailed (step_eq_some.mp hs) ht
  · intro hm m hmem
    have hseen : s.Seen :=
      (Exec.always_of_invariant hstart (fun s op t h hok hs => h.step hok hs) hm).last hr
    have hpend := hseen.waited hret m.block (by rw [hp]; rfl)
    have hunf := hseen.unfailed hret (by rw [hp]; rfl) m hmem
    have hrep := List.countP_eq_zero.mp hpend m hmem
    cases hrep' : m.report with
    | none => simp [hrep'] at hrep
    | some ok =>
      cases ok with
      | true => rfl
      | false => exact absurd hrep' hunf

end SubLoad

open SubLoad

/-- The steps after a loop without an error. -/
def afterLoop : List LoadOp :=
  [.waitLock .noError, .waitUnlock .noError, .waitLock .noError, .waitUnlock .noError, .unmap,
    .destroy, .unmap, .destroy]

theorem one_copy_noError_iff : ∃ s : SubLoad Unit,
    Exec.run (step oneByte) (start 0x1000 0 ()) (firstBlock ++ .complete 0 false :: afterLoop) =
        some s ∧ s.ret = .noError ∧
      ((∀ m ∈ s.sent, m.report = some true) ↔ Exec.Meets (step oneByte) NoLateFailure
        (start 0x1000 0 ()) (firstBlock ++ .complete 0 false :: afterLoop)) :=
  ⟨_, rfl, rfl, noError_iff_noLateFailure rfl rfl rfl⟩

/-- The only copy of a load fails while the function waits for it. -/
theorem last_failure_unseen : ∃ s : SubLoad Unit,
    Exec.run (step oneByte) (start 0x1000 0 ()) (firstBlock ++ .complete 0 true :: afterLoop) =
        some s ∧ s.phase = .returned ∧ s.ret = .noError ∧
      ¬ ∀ m ∈ s.sent, m.report = some true :=
  ⟨_, rfl, rfl, rfl, by decide⟩

end NNPIHost

import NNPIHost.Exec.Run
import NNPIHost.Kernel.Descriptors
import NNPIHost.Store.Handles

/-! # Channel descriptors of a device

`nnpiDevice` keeps the descriptors of its channels in `m_chan_fds` and can close them all at
once. A channel object keeps its descriptor too, and closes it when it is destroyed, also when
the number was closed before and is the number of something else by then.
-/

namespace NNPIHost

open Kernel Store

/-- The fields of `nnpiDevice` for its channels: `m_fd`, and `m_chan_fds` with whether a channel
is a context. -/
structure Device where
  fd : ℤ
  chanFds : OrderedMap ℕ Bool

/-- What becomes of the ioctl: it fails, the device refuses the channel, or there is one. -/
inductive CreateChannelReply where
  | failed (errno : ℕ)
  | refused (errno : ℕ)
  | created (channelId fd : ℕ)

namespace Device

def einval : ℕ := 22

def enodev : ℕ := 19

variable (dev : Device)

/-- An error, or the id and the descriptor of the new channel. `outs` is whether there are
pointers for these. A descriptor that `m_chan_fds` has already keeps its entry. -/
def createChannel (outs : Bool) (hostFd : ℤ) (isContext : Bool) (reply : CreateChannelReply) :
    Except ℕ (ℕ × ℕ) × Device :=
  if outs = false then (.error einval, dev)
  else if hostFd < 0 ∨ dev.fd < 0 then (.error enodev, dev)
  else
    match reply with
    | .failed errno | .refused errno => (.error errno, dev)
    | .created id fd =>
        (.ok (id, fd),
          { dev with chanFds := if fd ∈ dev.chanFds.keys then dev.chanFds
                                else dev.chanFds.insert fd isContext })

/-- The descriptor is closed, whatever `m_chan_fds` says. -/
def closeChannel (fd : ℕ) (kernel : Descriptors) : Device × Descriptors :=
  ({ dev with chanFds := dev.chanFds.erase fd }, kernel.close fd)

/-- The loop of `close_all_chan_fds` over the entries. -/
def closeLoop (onlyContexts : Bool) : List (ℕ × Bool) → Device → Descriptors → Device × Descriptors
  | [], dev, kernel => (dev, kernel)
  | (fd, isContext) :: entries, dev, kernel =>
      if onlyContexts = false ∨ isContext = true then
        closeLoop onlyContexts entries { dev with chanFds := dev.chanFds.erase fd }
          (kernel.close fd)
      else closeLoop onlyContexts entries dev kernel

def closeAllChanFds (onlyContexts : Bool) (kernel : Descriptors) : Device × Descriptors :=
  closeLoop onlyContexts dev.chanFds.entries dev kernel

end Device

/-- A device in its process, with the descriptors of the channel objects that there are. -/
structure DeviceUse where
  device : Device
  kernel : Descriptors
  channels : List ℕ

inductive DeviceOp where
  | createChannel (outs : Bool) (hostFd : ℤ) (isContext : Bool) (reply : CreateChannelReply)
  /-- The destructor of a channel object. -/
  | closeChannel (fd : ℕ)
  | closeAllChanFds (onlyContexts : Bool)
  | openRest (fd : ℕ)
  | closeRest (fd : ℕ)

namespace DeviceUse

/-- An open device without channels. -/
def start (fd : ℤ) : DeviceUse := ⟨⟨fd, .empty⟩, .init, []⟩

/-- The kernel gives out only numbers that are not in use. A channel object is there from the
creation of its channel on, and is destroyed once. -/
def step (s : DeviceUse) : DeviceOp → Option DeviceUse
  | .createChannel outs hostFd isContext reply =>
      match s.device.createChannel outs hostFd isContext reply with
      | (.error _, device) => some { s with device }
      | (.ok (_, fd), device) =>
          if s.kernel.holder fd = none then some ⟨device, s.kernel.give fd, fd :: s.channels⟩
          else none
  | .closeChannel fd =>
      if fd ∈ s.channels then
        let (device, kernel) := s.device.closeChannel fd s.kernel
        some ⟨device, kernel, s.channels.erase fd⟩
      else none
  | .closeAllChanFds onlyContexts =>
      let (device, kernel) := s.device.closeAllChanFds onlyContexts s.kernel
      some { s with device, kernel }
  | .openRest fd =>
      if s.kernel.holder fd = none then some { s with kernel := s.kernel.openRest fd } else none
  | .closeRest fd =>
      if s.kernel.holder fd = some .rest then some { s with kernel := s.kernel.closeRest fd }
      else none

/-- A channel is destroyed while its descriptor is in `m_chan_fds`. -/
def Known (s : DeviceUse) : DeviceOp → Prop
  | .closeChannel fd => fd ∈ s.channels → fd ∈ s.device.chanFds.keys
  | _ => True

instance (s : DeviceUse) : ∀ op, Decidable (s.Known op)
  | .closeChannel _ => inferInstanceAs (Decidable (_ → _))
  | .createChannel .. | .closeAllChanFds _ | .openRest _ | .closeRest _ => .isTrue trivial

/-- Every descriptor of a channel is closed once by the driver before the number is given out
again, and no other number is closed by it. -/
def ClosedOnce (s : DeviceUse) : Prop := s.kernel.ClosedOnce

end DeviceUse

/-- `m_chan_fds` has the numbers that the driver holds. -/
def Device.Holds (dev : Device) (kernel : Descriptors) : Prop :=
  ∀ fd, fd ∈ dev.chanFds.keys ↔ kernel.holder fd = some .component

namespace Device

variable {dev : Device} {kernel : Descriptors} {fd : ℕ} {onlyContexts : Bool}
  {entries : List (ℕ × Bool)}

variable {outs isContext : Bool} {hostFd : ℤ} {reply : CreateChannelReply} {dev' : Device}

theorem createChannel_eq_ok {id : ℕ}
    (hc : dev.createChannel outs hostFd isContext reply = (.ok (id, fd), dev')) :
    dev' = { dev with chanFds := if fd ∈ dev.chanFds.keys then dev.chanFds
                                 else dev.chanFds.insert fd isContext } := by
  unfold createChannel at hc
  split at hc
  · cases hc
  split at hc
  · cases hc
  cases reply with
  | failed => cases hc
  | refused => cases hc
  | created =>
    obtain ⟨hok, hdev⟩ := Prod.mk.inj hc
    obtain ⟨rfl, rfl⟩ := Prod.mk.inj (Except.ok.inj hok)
    exact hdev.symm

theorem createChannel_of_error {errno : ℕ}
    (hc : dev.createChannel outs hostFd isContext reply = (.error errno, dev')) : dev' = dev := by
  unfold createChannel at hc
  split at hc
  · exact (congrArg Prod.snd hc).symm
  split at hc
  · exact (congrArg Prod.snd hc).symm
  cases reply with
  | failed => exact (congrArg Prod.snd hc).symm
  | refused => exact (congrArg Prod.snd hc).symm
  | created => cases hc

theorem Holds.createChannel (h : dev.Holds kernel) {id : ℕ}
    (hc : dev.createChannel outs hostFd isContext reply = (.ok (id, fd), dev'))
    (hfree : kernel.holder fd = none) : dev'.Holds (kernel.give fd) := by
  have hnot : fd ∉ dev.chanFds.keys := fun hin => by simp [(h fd).mp hin] at hfree
  obtain rfl := createChannel_eq_ok hc
  intro n
  rw [if_neg hnot, OrderedMap.mem_keys_insert, Descriptors.give_holder]
  by_cases hn : n = fd
  · simp [hn]
  · rw [Function.update_of_ne hn, ← h n]
    exact or_iff_right hn

theorem Holds.setRest (h : dev.Holds kernel) {o : Option Holder}
    (hfd : kernel.holder fd ≠ some .component) (ho : o ≠ some .component) :
    dev.Holds { kernel with holder := Function.update kernel.holder fd o } := by
  intro n
  rw [h n]
  dsimp only
  by_cases hn : n = fd
  · subst hn
    rw [Function.update_self]
    exact iff_of_false hfd ho
  · rw [Function.update_of_ne hn]

theorem Holds.close (h : dev.Holds kernel) :
    (Device.mk dev.fd (dev.chanFds.erase fd)).Holds (kernel.close fd) := by
  intro n
  rw [OrderedMap.mem_keys_erase, Descriptors.close_holder]
  by_cases hn : n = fd
  · simp [hn]
  · rw [Function.update_of_ne hn, ← h n]
    exact and_iff_left hn

theorem closeLoop_spec (h : dev.Holds kernel) (hc : kernel.ClosedOnce)
    (hmem : ∀ e ∈ entries, e.1 ∈ dev.chanFds.keys) (hnd : (entries.map Prod.fst).Nodup) :
    (closeLoop onlyContexts entries dev kernel).1.Holds
        (closeLoop onlyContexts entries dev kernel).2 ∧
      (closeLoop onlyContexts entries dev kernel).2.ClosedOnce := by
  induction entries generalizing dev kernel with
  | nil => exact ⟨h, hc⟩
  | cons e entries ih =>
    obtain ⟨fd, isContext⟩ := e
    obtain ⟨hfd, hrest⟩ := List.forall_mem_cons.mp hmem
    obtain ⟨hnot, hnd⟩ := List.nodup_cons.mp hnd
    rw [closeLoop]
    split
    · refine ih h.close (hc.close_iff.mpr ((h fd).mp hfd)) (fun e he => ?_) hnd
      refine OrderedMap.mem_keys_erase.mpr ⟨hrest e he, ?_⟩
      rintro rfl
      exact hnot (List.mem_map.mpr ⟨e, he, rfl⟩)
    · exact ih h hc hrest hnd

theorem closeAllChanFds_spec (onlyContexts : Bool) (h : dev.Holds kernel)
    (hc : kernel.ClosedOnce) :
    (dev.closeAllChanFds onlyContexts kernel).1.Holds
        (dev.closeAllChanFds onlyContexts kernel).2 ∧
      (dev.closeAllChanFds onlyContexts kernel).2.ClosedOnce :=
  closeLoop_spec h hc (fun _ he => List.mem_map_of_mem he) dev.chanFds.nodup_keys

end Device

namespace DeviceUse

variable {s t : DeviceUse} {op : DeviceOp} {fd : ℕ}

/-- A step keeps `m_chan_fds` in line with the kernel, and closes soundly what it closes exactly
when a channel that is destroyed is in `m_chan_fds`. -/
theorem step_spec (h : s.device.Holds s.kernel) (hc : s.ClosedOnce) (hs : s.step op = some t) :
    t.device.Holds t.kernel ∧ (t.ClosedOnce ↔ s.Known op) := by
  cases op with
  | createChannel outs hostFd isContext reply =>
    simp only [step] at hs
    split at hs
    next errno device heq =>
      obtain rfl := Option.some.inj hs
      obtain rfl := Device.createChannel_of_error heq
      exact ⟨h, iff_of_true hc trivial⟩
    next id fd device heq =>
      rw [Option.ite_none_right_eq_some] at hs
      obtain ⟨hfree, hs⟩ := hs
      obtain rfl := Option.some.inj hs
      exact ⟨h.createChannel heq hfree, iff_of_true hc.give trivial⟩
  | closeChannel fd =>
    simp only [step, Option.ite_none_right_eq_some] at hs
    obtain ⟨hin, hs⟩ := hs
    obtain rfl := Option.some.inj hs
    refine ⟨h.close, hc.close_iff.trans ?_⟩
    rw [← h fd]
    exact ⟨fun hk _ => hk, fun hk => hk hin⟩
  | closeAllChanFds onlyContexts =>
    simp only [step] at hs
    obtain rfl := Option.some.inj hs
    obtain ⟨hh, hcl⟩ := Device.closeAllChanFds_spec onlyContexts h hc
    exact ⟨hh, iff_of_true hcl trivial⟩
  | openRest fd =>
    simp only [step, Option.ite_none_right_eq_some] at hs
    obtain ⟨hfree, hs⟩ := hs
    obtain rfl := Option.some.inj hs
    have hfd : s.kernel.holder fd ≠ some .component := by simp [hfree]
    exact ⟨h.setRest hfd (by simp), iff_of_true (hc.setRest hfd (by simp)) trivial⟩
  | closeRest fd =>
    simp only [step, Option.ite_none_right_eq_some] at hs
    obtain ⟨hrest, hs⟩ := hs
    obtain rfl := Option.some.inj hs
    have hfd : s.kernel.holder fd ≠ some .component := by simp [hrest]
    exact ⟨h.setRest hfd (by simp), iff_of_true (hc.setRest hfd (by simp)) trivial⟩

theorem known_of_disabled (hs : s.step op = none) : s.Known op := by
  cases op with
  | closeChannel fd =>
    simp only [step, ite_eq_right_iff, reduceCtorEq, imp_false] at hs
    exact fun hin => absurd hin hs
  | createChannel | closeAllChanFds | openRest | closeRest => trivial

/-- Every descriptor is closed once, and no other one, exactly when no channel is destroyed whose
descriptor is not in `m_chan_fds` any more. -/
theorem descriptors_closed_once_iff (fd : ℤ) (ops : List DeviceOp) :
    Exec.Always step ClosedOnce (start fd) ops ↔ Exec.Meets step Known (start fd) ops := by
  have hheld : (start fd).device.Holds (start fd).kernel := by
    intro n
    simp [start, OrderedMap.mem_keys, Descriptors.init]
  exact Exec.always_iff_meets Descriptors.init_closedOnce hheld
    (fun _ _ _ h hc hs => step_spec h hc hs) fun _ _ _ _ hs => known_of_disabled hs

/-- All channels are closed at exit, another file gets the number of one, and then that channel
is destroyed. -/
theorem late_destructor_closes_other_file :
    ¬ ∀ (fd : ℤ) (ops : List DeviceOp), Exec.Always step ClosedOnce (start fd) ops := by
  intro hall
  have hrun := hall 3 [.createChannel true 4 true (.created 0 5), .closeAllChanFds false,
    .openRest 5, .closeChannel 5]
  obtain ⟨t, ht, hstray⟩ : ∃ t, Exec.run step (start 3)
      [.createChannel true 4 true (.created 0 5), .closeAllChanFds false, .openRest 5,
        .closeChannel 5] = some t ∧ t.kernel.strays = [5] := ⟨_, rfl, rfl⟩
  have hown := (hrun.last ht).own
  simp [hstray] at hown

end DeviceUse

end NNPIHost

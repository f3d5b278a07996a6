import Mathlib.Logic.Function.Basic
import NNPIHost.Exec.Run
import NNPIHost.Ring.Messages
import NNPIHost.Ring.Refinement

/-! # Senders on a command ring

Threads send pages through the command ring and a message for each page through the channel.
Pages and messages are paired by their order alone: a sender fills its page, writes its message
and moves the tail of the ring with the mutex of the ring locked. Networks and infer requests
are sent with the mutex of the context locked too.
-/

namespace NNPIHost

/-- A call at one of its pages, counted from zero. -/
structure PageSend where
  call : SendCall
  page : ℕ
  snd : Sender
  sender_eq : call.sender page = some snd

def SendCall.first (c : SendCall) : Option PageSend :=
  match h : c.start with
  | none => none
  | some snd => some ⟨c, 0, snd, h⟩

def PageSend.next (x : PageSend) : Option PageSend :=
  match h : x.snd.next with
  | none => none
  | some snd => some ⟨x.call, x.page + 1, snd, by rw [SendCall.sender, x.sender_eq]; exact h⟩

/-- Where a thread stands in a call. -/
inductive SendPhase where
  | idle
  | ready (x : PageSend)
  /-- The free space at the offset is locked. -/
  | locked (x : PageSend) (off : UInt32)
  | filled (x : PageSend) (off : UInt32)
  /-- The channel write is over, or there was none to make. -/
  | wrote (x : PageSend) (off : UInt32) (ok : Bool)
  /-- The page loop is over. -/
  | finished

/-- The mutex of the ring is locked. -/
def SendPhase.inside : SendPhase → Bool
  | .locked _ _ | .filled _ _ | .wrote _ _ _ => true
  | _ => false

/-- A message with the thread that wrote it and the page of its call. -/
structure Announced (τ : Type*) where
  thread : τ
  call : SendCall
  page : ℕ
  msg : PageMsg

/-- The message of a thread that has yet to move the tail over its page. -/
def SendPhase.pending {τ : Type*} (t : τ) : SendPhase → List (Announced τ)
  | .wrote x _ true => [⟨t, x.call, x.page, x.snd.msg⟩]
  | _ => []

/-- A page that was produced: the thread, the page of its call, the offset and the contents. -/
structure ProducedPage (τ : Type*) where
  thread : τ
  call : SendCall
  page : ℕ
  off : ℕ
  bytes : List UInt8

structure SendState (τ : Type*) where
  ring : RingBuffer
  /-- The thread that has locked the mutex of the ring. -/
  ringOwner : Option τ
  ctxOwner : Option τ
  phase : τ → SendPhase
  /-- The messages on the channel; `none` is a message without a page. -/
  channel : List (Option (Announced τ))
  produced : List (ProducedPage τ)

inductive SendOp (τ : Type*) where
  | call (t : τ) (c : SendCall)
  | lockFreeSpace (t : τ)
  | fill (t : τ)
  | write (t : τ) (ok : Bool)
  | unlockFreeSpace (t : τ)
  | leave (t : τ)
  /-- A message without a page. -/
  | other
  | updateHead (n : UInt32)
  | setInvalid

namespace SendState

variable {τ : Type*}

def ringSize : UInt32 := 8192

def pageBytes : UInt32 := 4096

def create (buf : ℕ → UInt8) : SendState τ :=
  ⟨.create buf ringSize, none, none, fun _ => .idle, [], []⟩

/-- The messages that announce a page, in the order of the channel. -/
def announced (s : SendState τ) : List (Announced τ) := s.channel.filterMap id

variable [DecidableEq τ]

def setPhase (s : SendState τ) (t : τ) (p : SendPhase) : SendState τ :=
  { s with phase := Function.update s.phase t p }

def step (s : SendState τ) : SendOp τ → Option (SendState τ)
  | .call t c =>
      match s.phase t, c.first with
      | .idle, none => some s
      | .idle, some x =>
          if x.snd.locksContext then
            if s.ctxOwner = none then
              some ({ s with ctxOwner := some t }.setPhase t (.ready x))
            else none
          else some (s.setPhase t (.ready x))
      | _, _ => none
  | .lockFreeSpace t =>
      match s.phase t with
      | .ready x =>
          if s.ringOwner = none then
            match s.ring.lockFreeSpace pageBytes false with
            | .waiting => none
            | .null => some (s.setPhase t .finished)
            | .at off cont =>
                let s := { s with ringOwner := some t }
                if x.snd.checksCont ∧ cont ≠ pageBytes then some (s.setPhase t (.wrote x off false))
                else some (s.setPhase t (.locked x off))
          else none
      | _ => none
  | .fill t =>
      match s.phase t with
      | .locked x off =>
          let buf := Memory.write s.ring.buf off.toNat x.snd.bytes
          some ({ s with ring := { s.ring with buf } }.setPhase t (.filled x off))
      | _ => none
  | .write t ok =>
      match s.phase t with
      | .filled x off =>
          let msg : Announced τ := ⟨t, x.call, x.page, x.snd.msg⟩
          let channel := if ok then s.channel ++ [some msg] else s.channel
          some ({ s with channel }.setPhase t (.wrote x off ok))
      | _ => none
  | .unlockFreeSpace t =>
      match s.phase t with
      | .wrote x off true =>
          let page : ProducedPage τ :=
            ⟨t, x.call, x.page, off.toNat, Memory.read s.ring.buf off.toNat pageBytes.toNat⟩
          let s := { s with
            ring := s.ring.unlockFreeSpace pageBytes
            ringOwner := none
            produced := s.produced ++ [page] }
          match x.next with
          | none => some (s.setPhase t .finished)
          | some x => some (s.setPhase t (.ready x))
      | .wrote _ _ false =>
          some ({ s with ring := s.ring.unlockFreeSpace 0, ringOwner := none }.setPhase t .finished)
      | _ => none
  | .leave t =>
      match s.phase t with
      | .finished =>
          let ctxOwner := if s.ctxOwner = some t then none else s.ctxOwner
          some ({ s with ctxOwner }.setPhase t .idle)
      | _ => none
  | .other => some { s with channel := s.channel ++ [none] }
  | .updateHead n =>
      if s.ringOwner = none then some { s with ring := s.ring.updateHead n } else none
  | .setInvalid => if s.ringOwner = none then some { s with ring := s.ring.setInvalid } else none

/-- The message that is ahead of the pages: that of the thread that has the ring locked. -/
def pending (s : SendState τ) : List (Announced τ) :=
  match s.ringOwner with
  | none => []
  | some t => (s.phase t).pending t

/-- A message describes the page at the position of its turn, which its thread produced as the
same page of the same call. -/
structure Describes (k : ℕ) (m : Announced τ) (p : ProducedPage τ) : Prop where
  off : p.off = k * pageBytes.toNat % ringSize.toNat
  thread : p.thread = m.thread
  call : p.call = m.call
  page : p.page = m.page
  describes : m.call.Describes m.page m.msg p.bytes

/-- Each page that was produced is described by the message of the same turn, and a message
that is ahead of the pages has its page at the tail of the ring. -/
structure InStep (s : SendState τ) : Prop where
  tail : s.ring.tail.toNat = s.produced.length * pageBytes.toNat % ringSize.toNat
  count : s.announced.length = s.produced.length + s.pending.length
  single : s.pending.length ≤ 1
  paired : ∀ k p, s.produced[k]? = some p → ∃ m, s.announced[k]? = some m ∧ Describes k m p

/-- The tail moves only when a thread unlocks its page after a successful write. -/
def TailKept (s : SendState τ) (op : SendOp τ) : Prop :=
  ∀ s', s.step op = some s' → s'.ring.tail = s.ring.tail ∨
    ∃ t x off, op = .unlockFreeSpace t ∧ s.phase t = .wrote x off true

/-- The page at an offset starts with what its sender put into it. -/
def PageHolds (ring : RingBuffer) (off : UInt32) (snd : Sender) : Prop :=
  snd.bytes.take pageBytes.toNat <+: Memory.read ring.buf off.toNat pageBytes.toNat

theorem PageHolds.describes {ring : RingBuffer} {off : UInt32} {x : PageSend}
    (h : PageHolds ring off x.snd) : x.call.Describes x.page x.snd.msg
      (Memory.read ring.buf off.toNat pageBytes.toNat) := by
  have hpage : pageBytes.toNat = 4096 := rfl
  refine SendCall.describes x.sender_eq ?_
  rw [← hpage]
  exact h

/-- A thread that has the ring locked works on the page at the tail. -/
def PhaseOk (ring : RingBuffer) : SendPhase → Prop
  | .locked _ off => off = ring.tail
  | .filled x off => off = ring.tail ∧ PageHolds ring off x.snd
  | .wrote x off ok => off = ring.tail ∧ (ok = true → PageHolds ring off x.snd)
  | _ => True

structure Inv (s : SendState τ) : Prop where
  size : s.ring.size = ringSize
  tail : s.ring.tail.toNat = s.produced.length * pageBytes.toNat % ringSize.toNat
  owner : ∀ t, s.ringOwner = some t ↔ (s.phase t).inside = true
  phase : ∀ t, PhaseOk s.ring (s.phase t)
  ahead : s.produced.length ≤ s.announced.length ∧
    s.announced.drop s.produced.length = s.pending
  paired : ∀ k p, s.produced[k]? = some p → ∃ m, s.announced[k]? = some m ∧ Describes k m p

variable {s s' : SendState τ} {t : τ} {p : SendPhase}

omit [DecidableEq τ] in
theorem create_inv (buf : ℕ → UInt8) : (create buf : SendState τ).Inv where
  size := rfl
  tail := by simp [create, RingBuffer.create]
  owner _ := by simp [create, SendPhase.inside]
  phase _ := trivial
  ahead := ⟨Nat.le_refl _, rfl⟩
  paired _ _ := nofun

omit [DecidableEq τ] in
theorem Inv.inStep (h : s.Inv) : s.InStep where
  tail := h.tail
  count := by
    obtain ⟨hle, hdrop⟩ := h.ahead
    rw [← hdrop, List.length_drop]
    omega
  single := by
    unfold pending
    split
    · exact Nat.zero_le 1
    · unfold SendPhase.pending
      split
      · exact Nat.le_refl 1
      · exact Nat.zero_le 1
  paired := h.paired

omit [DecidableEq τ] in
theorem pending_eq (h : s.ringOwner = some t) : s.pending = (s.phase t).pending t := by
  simp [pending, h]

theorem pending_setPhase (h : s.ringOwner ≠ some t) : (s.setPhase t p).pending = s.pending := by
  unfold pending setPhase
  dsimp only
  split
  next => rfl
  next u hu =>
    rw [Function.update_of_ne]
    rintro rfl
    exact h hu

theorem phaseOk_of_outside {ring : RingBuffer} (h : p.inside = false) : PhaseOk ring p := by
  cases p with
  | locked | filled | wrote => cases h
  | _ => trivial

theorem phaseOk_congr {ring ring' : RingBuffer} (hbuf : ring'.buf = ring.buf)
    (htail : ring'.tail = ring.tail) (h : PhaseOk ring p) : PhaseOk ring' p := by
  cases p with
  | locked x off => exact h.trans htail.symm
  | filled x off =>
    simp only [PhaseOk, PageHolds, hbuf, htail]
    exact h
  | wrote x off ok =>
    simp only [PhaseOk, PageHolds, hbuf, htail]
    exact h
  | _ => trivial

omit [DecidableEq τ] in
theorem Inv.congr (h : s.Inv) {ring : RingBuffer} {channel : List (Option (Announced τ))}
    (ctxOwner : Option τ) (hbuf : ring.buf = s.ring.buf) (hsize : ring.size = s.ring.size)
    (htail : ring.tail = s.ring.tail) (hchannel : channel.filterMap id = s.announced) :
    Inv { s with ring, ctxOwner, channel } where
  size := hsize.trans h.size
  tail := htail ▸ h.tail
  owner := h.owner
  phase t := phaseOk_congr hbuf htail (h.phase t)
  ahead := by
    simp only [announced, hchannel]
    exact h.ahead
  paired k p hp := by
    simp only [announced, hchannel]
    exact h.paired k p hp

theorem Inv.outside (h : s.Inv) (ht : (s.phase t).inside = false)
    (hp : p.inside = false) : (s.setPhase t p).Inv := by
  have hnot : s.ringOwner ≠ some t := fun ho => by
    have hin := (h.owner t).mp ho
    rw [ht] at hin
    cases hin
  refine ⟨h.size, h.tail, fun u => ?_, fun u => ?_, ?_, h.paired⟩
  · by_cases hu : u = t
    · subst hu
      simp [setPhase, hnot, hp]
    · simpa [setPhase, Function.update_of_ne hu] using h.owner u
  · by_cases hu : u = t
    · subst hu
      simpa [setPhase] using phaseOk_of_outside hp
    · simpa [setPhase, Function.update_of_ne hu] using h.phase u
  · rw [pending_setPhase hnot]
    exact h.ahead

theorem Inv.inside (h : s.Inv) (hin : s.ringOwner = some t ∨ s.ringOwner = none)
    (ring : RingBuffer) (channel : List (Option (Announced τ))) (hsize : ring.size = s.ring.size)
    (htail : ring.tail = s.ring.tail) (hp : p.inside = true) (hok : PhaseOk ring p)
    (hahead : s.produced.length ≤ (channel.filterMap id).length ∧
      (channel.filterMap id).drop s.produced.length = p.pending t)
    (hpaired : s.announced <+: channel.filterMap id) :
    (setPhase { s with ring, channel, ringOwner := some t } t p).Inv := by
  have hother (u : τ) (hu : u ≠ t) : (s.phase u).inside = false := by
    rw [← Bool.not_eq_true, ← h.owner u]
    rcases hin with ho | ho <;> rw [ho] <;> simp [hu.symm]
  refine ⟨hsize.trans h.size, htail ▸ h.tail, fun u => ?_, fun u => ?_, ?_, fun k q hq => ?_⟩
  · by_cases hu : u = t
    · subst hu
      simp [setPhase, hp]
    · simp [setPhase, Function.update_of_ne hu, hother u hu, Ne.symm hu]
  · by_cases hu : u = t
    · subst hu
      simpa [setPhase] using hok
    · have hout := hother u hu
      simpa [setPhase, Function.update_of_ne hu] using phaseOk_of_outside hout
  · simpa [announced, pending, setPhase] using hahead
  · obtain ⟨m, hm, hd⟩ := h.paired k q hq
    obtain ⟨new, hnew⟩ := hpaired
    refine ⟨m, ?_, hd⟩
    change (channel.filterMap id)[k]? = some m
    rw [← hnew, List.getElem?_append_left (List.getElem?_eq_some_iff.mp hm).1, hm]

theorem Inv.release (h : s.Inv) (hin : s.ringOwner = some t) {ring : RingBuffer}
    {produced : List (ProducedPage τ)} (hsize : ring.size = s.ring.size)
    (htail : ring.tail.toNat = produced.length * pageBytes.toNat % ringSize.toNat)
    (hp : p.inside = false) (hlen : s.announced.length = produced.length)
    (hpaired : ∀ k q, produced[k]? = some q → ∃ m, s.announced[k]? = some m ∧ Describes k m q) :
    (setPhase { s with ring, produced, ringOwner := none } t p).Inv := by
  refine ⟨hsize.trans h.size, htail, fun u => ?_, fun u => ?_, ?_, hpaired⟩
  · by_cases hu : u = t
    · subst hu
      simp [setPhase, hp]
    · have hout := h.owner u
      rw [hin] at hout
      simpa [setPhase, Function.update_of_ne hu, Ne.symm hu] using hout
  · by_cases hu : u = t
    · subst hu
      simpa [setPhase] using phaseOk_of_outside hp
    · have hout : (s.phase u).inside = false := by
        rw [← Bool.not_eq_true, ← h.owner u, hin]
        simp [Ne.symm hu]
      simpa [setPhase, Function.update_of_ne hu] using phaseOk_of_outside hout
  · exact ⟨Nat.le_of_eq hlen.symm, List.drop_eq_nil_of_le (Nat.le_of_eq hlen)⟩

theorem Inv.produce (h : s.Inv) {x : PageSend} {off : UInt32}
    (hphase : s.phase t = .wrote x off true) (hp : p.inside = false) :
    (setPhase { s with
      ring := s.ring.unlockFreeSpace pageBytes
      ringOwner := none
      produced := s.produced ++
        [⟨t, x.call, x.page, off.toNat, Memory.read s.ring.buf off.toNat pageBytes.toNat⟩] }
      t p).Inv := by
  have hin : s.ringOwner = some t := (h.owner t).mpr (by rw [hphase]; rfl)
  obtain ⟨rfl, hholds⟩ : off = s.ring.tail ∧ (true = true → PageHolds s.ring off x.snd) := by
    have := h.phase t
    rwa [hphase] at this
  have hdescribes := PageHolds.describes (x := x) (hholds rfl)
  obtain ⟨hle, hdrop⟩ := h.ahead
  rw [pending_eq hin, hphase] at hdrop
  have hlen : s.announced.length = s.produced.length + 1 := by
    have := congrArg List.length hdrop
    rw [List.length_drop, SendPhase.pending, List.length_singleton] at this
    omega
  have hlast : s.announced[s.produced.length]? = some ⟨t, x.call, x.page, x.snd.msg⟩ := by
    have := congrArg (·[0]?) hdrop
    simpa [SendPhase.pending] using this
  have hring : s.ring.unlockFreeSpace pageBytes = s.ring.updateTailBy pageBytes :=
    RingBuffer.unlockFreeSpace_eq (by decide)
  apply h.release hin
  · simp [hring, RingBuffer.updateTailBy]
  · have hsize : ringSize.toNat = 8192 := rfl
    have hpage : pageBytes.toNat = 4096 := rfl
    have htail := h.tail
    have hlt : s.ring.tail.toNat < ringSize.toNat := by
      rw [htail]
      exact Nat.mod_lt _ (by omega)
    rw [hring, RingBuffer.updateTailBy, h.size, RingBuffer.toNat_advance (by omega) hlt
      (by omega), htail, Nat.mod_add_mod, List.length_append, List.length_singleton, Nat.add_mul,
      Nat.one_mul]
  · exact hp
  · simpa using hlen
  · intro k q hq
    rcases Nat.lt_or_ge k s.produced.length with hk | hk
    · rw [List.getElem?_append_left hk] at hq
      exact h.paired k q hq
    · rw [List.getElem?_append_right hk, List.getElem?_singleton] at hq
      split at hq
      next hk0 =>
        obtain rfl : k = s.produced.length := by omega
        obtain rfl := Option.some.inj hq
        exact ⟨_, hlast, h.tail, rfl, rfl, rfl, by simpa only using hdescribes⟩
      next => cases hq

theorem Inv.fill (h : s.Inv) {x : PageSend} {off : UInt32} (hphase : s.phase t = .locked x off) :
    (setPhase { s with
      ring := { s.ring with buf := Memory.write s.ring.buf off.toNat x.snd.bytes } } t
        (.filled x off)).Inv := by
  have hin : s.ringOwner = some t := (h.owner t).mpr (by rw [hphase]; rfl)
  have hoff : off = s.ring.tail := by
    have := h.phase t
    rwa [hphase] at this
  have hahead := h.ahead
  rw [pending_eq hin, hphase] at hahead
  have hholds : PageHolds { s.ring with buf := Memory.write s.ring.buf off.toNat x.snd.bytes } off
      x.snd := by
    rw [PageHolds, ← Memory.take_read_write]
    exact List.take_prefix ..
  have hmove := h.inside (t := t) (p := .filled x off) (.inl hin)
    { s.ring with buf := Memory.write s.ring.buf off.toNat x.snd.bytes } s.channel rfl rfl rfl
    ⟨hoff, hholds⟩ hahead (List.prefix_refl _)
  rwa [← hin] at hmove

theorem Inv.write (h : s.Inv) {x : PageSend} {off : UInt32}
    (hphase : s.phase t = .filled x off) (ok : Bool) :
    (setPhase { s with
      channel := if ok then s.channel ++ [some ⟨t, x.call, x.page, x.snd.msg⟩] else s.channel } t
        (.wrote x off ok)).Inv := by
  have hin : s.ringOwner = some t := (h.owner t).mpr (by rw [hphase]; rfl)
  obtain ⟨hoff, hholds⟩ : off = s.ring.tail ∧ PageHolds s.ring off x.snd := by
    have := h.phase t
    rwa [hphase] at this
  obtain ⟨hle, hdrop⟩ := h.ahead
  have hnone : s.pending = [] := by
    rw [pending_eq hin, hphase]
    rfl
  rw [hnone] at hdrop
  have hmove := h.inside (t := t) (p := .wrote x off ok) (.inl hin) s.ring
    (if ok then s.channel ++ [some ⟨t, x.call, x.page, x.snd.msg⟩] else s.channel) rfl rfl rfl
    ⟨hoff, fun _ => hholds⟩
  rw [← hin] at hmove
  have hsent : (s.channel ++ [some (Announced.mk t x.call x.page x.snd.msg)]).filterMap id =
      s.announced ++ [⟨t, x.call, x.page, x.snd.msg⟩] := by
    simp [announced]
  cases ok with
  | false => exact hmove ⟨hle, hdrop⟩ (List.prefix_refl _)
  | true =>
    refine hmove ⟨?_, ?_⟩ ?_
    · rw [if_pos rfl, hsent, List.length_append]
      omega
    · rw [if_pos rfl, hsent, List.drop_append_of_le_length hle, hdrop]
      rfl
    · rw [if_pos rfl, hsent]
      exact List.prefix_append ..

theorem Inv.giveBack (h : s.Inv) {x : PageSend} {off : UInt32}
    (hphase : s.phase t = .wrote x off false) (hp : p.inside = false) :
    (setPhase { s with ring := s.ring.unlockFreeSpace 0, ringOwner := none } t p).Inv := by
  have hin : s.ringOwner = some t := (h.owner t).mpr (by rw [hphase]; rfl)
  obtain ⟨hle, hdrop⟩ := h.ahead
  have hnone : s.pending = [] := by
    rw [pending_eq hin, hphase]
    rfl
  rw [hnone, List.drop_eq_nil_iff] at hdrop
  exact h.release hin rfl h.tail hp (Nat.le_antisymm hdrop hle) h.paired

theorem Inv.lock (h : s.Inv) (hfree : s.ringOwner = none) (hp : p.inside = true)
    (hok : PhaseOk s.ring p) (hnone : p.pending t = []) :
    (setPhase { s with ringOwner := some t } t p).Inv := by
  have hpending : s.pending = [] := by
    simp [pending, hfree]
  have hahead := h.ahead
  rw [hpending, ← hnone] at hahead
  exact h.inside (.inr hfree) s.ring s.channel rfl rfl hp hok hahead (List.prefix_refl _)

omit [DecidableEq τ] in
theorem Inv.updateHead (h : s.Inv) (n : UInt32) :
    Inv { s with ring := s.ring.updateHead n } := by
  have hring : (s.ring.updateHead n).buf = s.ring.buf ∧
      (s.ring.updateHead n).size = s.ring.size ∧ (s.ring.updateHead n).tail = s.ring.tail := by
    unfold RingBuffer.updateHead
    split <;> exact ⟨rfl, rfl, rfl⟩
  exact h.congr s.ctxOwner hring.1 hring.2.1 hring.2.2 rfl

theorem Inv.step (h : s.Inv) {op : SendOp τ} (hs : s.step op = some s') : s'.Inv := by
  cases op with
  | call t c =>
    simp only [SendState.step] at hs
    split at hs
    next => exact Option.some.inj hs ▸ h
    next x hphase _ =>
      have hout (s : SendState τ) (h : s.Inv) (hphase : s.phase t = .idle) :
          (s.setPhase t (.ready x)).Inv := h.outside (by rw [hphase]; rfl) rfl
      split_ifs at hs
      all_goals obtain rfl := Option.some.inj hs
      · exact hout _ (h.congr (some t) rfl rfl rfl rfl) hphase
      · exact hout _ h hphase
    next => cases hs
  | lockFreeSpace t =>
    simp only [SendState.step] at hs
    split at hs
    next x hphase =>
      rw [Option.ite_none_right_eq_some] at hs
      obtain ⟨hfree, hs⟩ := hs
      split at hs
      next => cases hs
      next => exact Option.some.inj hs ▸ h.outside (by rw [hphase]; rfl) rfl
      next off cont hat =>
        obtain ⟨_, _, rfl, _⟩ := RingBuffer.lockFreeSpace_eq_at.mp hat
        split at hs
        all_goals obtain rfl := Option.some.inj hs
        · exact h.lock hfree rfl ⟨rfl, nofun⟩ rfl
        · exact h.lock hfree rfl rfl rfl
    next => cases hs
  | fill t =>
    simp only [SendState.step] at hs
    split at hs
    next x off hphase => exact Option.some.inj hs ▸ h.fill hphase
    next => cases hs
  | write t ok =>
    simp only [SendState.step] at hs
    split at hs
    next x off hphase => exact Option.some.inj hs ▸ h.write hphase ok
    next => cases hs
  | unlockFreeSpace t =>
    simp only [SendState.step] at hs
    split at hs
    next x off hphase =>
      split at hs
      all_goals obtain rfl := Option.some.inj hs
      · exact h.produce hphase rfl
      · exact h.produce hphase rfl
    next x off hphase => exact Option.some.inj hs ▸ h.giveBack hphase rfl
    next => cases hs
  | leave t =>
    simp only [SendState.step] at hs
    split at hs
    next hphase =>
      obtain rfl := Option.some.inj hs
      exact (h.congr _ rfl rfl rfl rfl).outside (by rw [hphase]; rfl) rfl
    next => cases hs
  | other =>
    obtain rfl := Option.some.inj hs
    exact h.congr s.ctxOwner rfl rfl rfl (by simp [announced])
  | updateHead n =>
    simp only [SendState.step, Option.ite_none_right_eq_some] at hs
    obtain rfl := Option.some.inj hs.2
    exact h.updateHead n
  | setInvalid =>
    simp only [SendState.step, Option.ite_none_right_eq_some] at hs
    obtain rfl := Option.some.inj hs.2
    exact h.congr s.ctxOwner rfl rfl rfl rfl

theorem tailKept (s : SendState τ) (op : SendOp τ) : s.TailKept op := by
  intro s' hs
  cases op with
  | unlockFreeSpace t =>
    simp only [SendState.step] at hs
    split at hs
    next x off hphase => exact .inr ⟨t, x, off, rfl, hphase⟩
    next => exact .inl (Option.some.inj hs ▸ rfl)
    next => cases hs
  | call t c =>
    simp only [SendState.step] at hs
    split at hs
    next => exact .inl (Option.some.inj hs ▸ rfl)
    next =>
      split_ifs at hs
      all_goals exact .inl (Option.some.inj hs ▸ rfl)
    next => cases hs
  | lockFreeSpace t =>
    simp only [SendState.step] at hs
    split at hs
    next =>
      rw [Option.ite_none_right_eq_some] at hs
      obtain ⟨_, hs⟩ := hs
      split at hs
      next => cases hs
      next => exact .inl (Option.some.inj hs ▸ rfl)
      next =>
        split at hs
        all_goals exact .inl (Option.some.inj hs ▸ rfl)
    next => cases hs
  | fill t | write t ok | leave t =>
    simp only [SendState.step] at hs
    split at hs
    next => exact .inl (Option.some.inj hs ▸ rfl)
    next => cases hs
  | other => exact .inl (Option.some.inj hs ▸ rfl)
  | updateHead n =>
    simp only [SendState.step, Option.ite_none_right_eq_some] at hs
    obtain rfl := Option.some.inj hs.2
    refine .inl ?_
    dsimp only [RingBuffer.updateHead]
    split <;> rfl
  | setInvalid =>
    simp only [SendState.step, Option.ite_none_right_eq_some] at hs
    exact .inl (Option.some.inj hs.2 ▸ rfl)

/-- For every interleaving of the senders, with any of their writes failing, the messages that
announce pages and the pages are in step, and a failed write leaves the tail where it was. -/
theorem pages_in_step (buf : ℕ → UInt8) (ops : List (SendOp τ)) :
    Exec.Always step InStep (create buf) ops ∧ Exec.Meets step TailKept (create buf) ops :=
  ⟨(Exec.always_of_preserved (create_inv buf) fun _ _ _ h hs => h.step hs).mono
    fun _ h => h.inStep, .of_forall tailKept⟩

/-- A network of one resource, which is sent after a message without a page and a write that
failed. -/
example :
    let r : NetworkRequest := ⟨3, 1, true, [5], fun _ => 7, 2⟩
    (Exec.run step (create fun _ => 0)
      [.call 1 (.network r false), .other, .lockFreeSpace 1, .fill 1, .write 1 false,
        .unlockFreeSpace 1, .leave 1, .call 2 (.network r false), .lockFreeSpace 2, .fill 2,
        .write 2 true, .unlockFreeSpace 2]).map
      (fun s => (s.announced.map (·.msg), s.produced.map fun p => (p.off, p.bytes.take 5))) =
    some ([.network ⟨3, 1, 0, false, true, 1, 3, 0, false⟩], [(0, [5, 0, 7, 7, 0])]) := by
  decide +kernel

end SendState

end NNPIHost

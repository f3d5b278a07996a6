import Mathlib.Algebra.Group.Nat.Defs
import NNPIHost.Ring.Buffer

/-! # The ring buffer is a bounded queue

The unread bytes are the window of the block that starts at the head. Each operation of the
ring within its bounds moves a bounded byte queue the same way, so the free and available
counts, the full flag and the locked spaces are those of the queue after every run.
-/

namespace NNPIHost.RingBuffer

open Fifo

variable {r r' : RingBuffer} {q : Queue UInt8}

/-- The ring holds the unread bytes of the queue, oldest first, from its head on. -/
structure Repr (S : UInt32) (r : RingBuffer) (q : Queue UInt8) : Prop where
  size : r.size = S
  pos : 0 < S.toNat
  small : S.toNat < 2 ^ 31
  head : r.head.toNat < S.toNat
  valid : q.Valid
  fits : q.unread.length ≤ S.toNat
  tail : r.tail.toNat = (r.head.toNat + q.unread.length) % S.toNat
  full : r.isFull = true ↔ q.unread.length = S.toNat
  window : window r.buf S.toNat r.head.toNat q.unread.length = q.unread

variable {S : UInt32}

theorem Repr.tail_lt (h : Repr S r q) : r.tail.toNat < S.toNat :=
  h.tail ▸ Nat.mod_lt _ h.pos

theorem Repr.tail_cases (h : Repr S r q) :
    r.tail.toNat = r.head.toNat + q.unread.length ∨
      r.tail.toNat + S.toNat = r.head.toNat + q.unread.length := by
  have hh := h.head
  have hf := h.fits
  rcases Nat.lt_or_ge (r.head.toNat + q.unread.length) S.toNat with hlt | hge
  · exact .inl (h.tail.trans (Nat.mod_eq_of_lt hlt))
  · have ht := h.tail
    rw [Nat.mod_eq_sub_mod hge, Nat.mod_eq_of_lt (by omega)] at ht
    exact .inr (by omega)

theorem toNat_getFreeBytes (h : Repr S r q) :
    r.getFreeBytes.toNat = S.toNat - q.unread.length := by
  have hh := h.head
  have ht := h.tail_lt
  have hf := h.fits
  have hs := h.small
  have hc := h.tail_cases
  unfold getFreeBytes
  split
  next hfull => simp [h.full.mp hfull]
  next hfull =>
    have hlt : q.unread.length ≠ S.toNat := mt h.full.mpr hfull
    split <;> rename_i hle
    all_goals
      simp only [UInt32.le_iff_toNat_le, h.size, UInt32.toNat_sub, UInt32.toNat_add] at hle ⊢
      omega

theorem toNat_getAvailBytes (h : Repr S r q) : r.getAvailBytes.toNat = q.unread.length := by
  have hh := h.head
  have ht := h.tail_lt
  have hf := h.fits
  have hs := h.small
  have hc := h.tail_cases
  unfold getAvailBytes
  split
  next hfull => rw [h.size, h.full.mp hfull]
  next hfull =>
    have hlt : q.unread.length ≠ S.toNat := mt h.full.mpr hfull
    split <;> rename_i hle
    all_goals
      simp only [UInt32.lt_iff_toNat_lt, h.size, UInt32.toNat_sub, UInt32.toNat_add] at hle ⊢
      omega

theorem toNat_contSize (n : UInt32) {off : UInt32} (ho : off.toNat < S.toNat) :
    (if n ≤ S - off then n else S - off).toNat = min n.toNat (S.toNat - off.toNat) := by
  have hsub : (S - off).toNat = S.toNat - off.toNat :=
    UInt32.toNat_sub_of_le _ _ (UInt32.le_iff_toNat_le.mpr (Nat.le_of_lt ho))
  split <;> rename_i hle <;> rw [UInt32.le_iff_toNat_le] at hle <;> omega

theorem toNat_advance {off m : UInt32} (hs : S.toNat < 2 ^ 31) (ho : off.toNat < S.toNat)
    (hm : m.toNat ≤ S.toNat) : ((off + m) % S).toNat = (off.toNat + m.toNat) % S.toNat := by
  rw [UInt32.toNat_mod, UInt32.toNat_add, Nat.mod_eq_of_lt (a := off.toNat + m.toNat) (by omega)]

theorem lockFreeSpace_eq_at {n : UInt32} {expired : Bool} {off cont : UInt32} :
    r.lockFreeSpace n expired = .at off cont ↔
      r.invalid = false ∧ n ≤ r.getFreeBytes ∧ off = r.tail ∧
        cont = if n ≤ r.size - r.tail then n else r.size - r.tail := by
  unfold lockFreeSpace
  by_cases hn : n ≤ r.getFreeBytes <;> cases hi : r.invalid <;> cases expired <;>
    simp [hn, eq_comm]

theorem lockAvailSpace_eq_at {n : UInt32} {expired : Bool} {off cont : UInt32} :
    r.lockAvailSpace n expired = .at off cont ↔
      n ≤ r.getAvailBytes ∧ off = r.head ∧
        cont = if r.getAvailBytes ≤ r.size - r.head then r.getAvailBytes
          else r.size - r.head := by
  unfold lockAvailSpace
  by_cases hn : n ≤ r.getAvailBytes <;> cases expired <;> simp [hn, eq_comm]

theorem Repr.create (buf : ℕ → UInt8) (hpos : 0 < S.toNat) (hsmall : S.toNat < 2 ^ 31) :
    Repr S (create buf S) Queue.empty where
  size := rfl
  pos := hpos
  small := hsmall
  head := hpos
  valid := Nat.zero_le _
  fits := Nat.zero_le _
  tail := (Nat.zero_mod _).symm
  full := by simp [RingBuffer.create, Queue.unread, Queue.empty, Nat.ne_of_lt hpos]
  window := rfl

theorem Repr.fill (h : Repr S r q) {data : List UInt8}
    (hfit : q.unread.length + data.length ≤ S.toNat) : Repr S (r.fill data) q :=
  { h with
    window := by
      simp only [RingBuffer.fill, h.size, h.tail]
      exact (window_store_of_le h.head hfit).trans h.window }

theorem window_fill (h : Repr S r q) {data : List UInt8}
    (hfit : q.unread.length + data.length ≤ S.toNat) {m : ℕ} (hm : m ≤ data.length) :
    Fifo.window (r.fill data).buf S.toNat (r.fill data).tail.toNat m = data.take m := by
  simp only [RingBuffer.fill, h.size]
  exact window_store h.tail_lt (by omega) hm

theorem Repr.updateTailBy (h : Repr S r q) {m : UInt32} (hm : 0 < m.toNat)
    (hfit : q.unread.length + m.toNat ≤ S.toNat) :
    Repr S (r.updateTailBy m)
      { q with written := q.written ++ Fifo.window r.buf S.toNat r.tail.toNat m.toNat } := by
  have hadv : ((r.tail + m) % S).toNat =
      (r.head.toNat + (q.unread.length + m.toNat)) % S.toNat := by
    rw [toNat_advance h.small h.tail_lt (by omega), h.tail, Nat.mod_add_mod, Nat.add_assoc]
  have hwrap : (r.tail + m) % S = r.head ↔ q.unread.length + m.toNat = S.toNat := by
    have hh := h.head
    rw [← UInt32.toNat_inj, hadv]
    rcases Nat.lt_or_ge (r.head.toNat + (q.unread.length + m.toNat)) S.toNat with hlt | hge
    · rw [Nat.mod_eq_of_lt hlt]; omega
    · rw [Nat.mod_eq_sub_mod hge, Nat.mod_eq_of_lt (by omega)]; omega
  refine { h with valid := ?_, fits := ?_, tail := ?_, full := ?_, window := ?_ }
  · exact Nat.le_trans h.valid (by simp)
  · simpa [Queue.unread_put h.valid] using hfit
  · simpa [RingBuffer.updateTailBy, h.size, Queue.unread_put h.valid] using hadv
  · have hnot : r.isFull ≠ true := fun hf => by have := h.full.mp hf; omega
    simp [RingBuffer.updateTailBy, h.size, Queue.unread_put h.valid, hnot, hwrap]
  · simp only [RingBuffer.updateTailBy, Queue.unread_put h.valid, List.length_append,
      length_window, window_add, h.window, h.tail]

theorem Repr.updateHead (h : Repr S r q) {m : UInt32} (hm : m.toNat ≤ q.unread.length) :
    Repr S (r.updateHead m) { q with taken := q.taken + m.toNat } := by
  unfold RingBuffer.updateHead
  split
  next hpos =>
    have hf := h.fits
    have hlen : (Queue.unread { q with taken := q.taken + m.toNat }).length =
        q.unread.length - m.toNat := by rw [Queue.unread_get, List.length_drop]
    have hadv := toNat_advance h.small h.head (m := m) (by omega)
    rw [UInt32.lt_iff_toNat_lt, UInt32.toNat_zero] at hpos
    refine { h with head := ?_, valid := ?_, fits := ?_, tail := ?_, full := ?_, window := ?_ }
    · simpa only [h.size, hadv] using Nat.mod_lt _ h.pos
    · have hv := h.valid
      simp only [Queue.Valid, Queue.length_unread] at hv hm ⊢
      omega
    · omega
    · simp only [h.size, hadv, hlen, Nat.mod_add_mod]
      rw [h.tail, Nat.add_assoc, Nat.add_sub_of_le hm]
    · simp only [hlen, Bool.false_eq_true, false_iff]
      omega
    · simp only [h.size, hadv, hlen]
      rw [← drop_window hm, h.window, Queue.unread_get]
  next hpos =>
    rw [UInt32.lt_iff_toNat_lt, UInt32.toNat_zero] at hpos
    rwa [show m.toNat = 0 by omega]

theorem unlockFreeSpace_eq {m : UInt32} (hm : 0 < m) :
    r.unlockFreeSpace m = r.updateTailBy m := if_pos hm

theorem Repr.produce (h : Repr S r q) {data : List UInt8} {m : UInt32}
    (hfit : q.unread.length + data.length ≤ S.toNat) (hm : m.toNat ≤ data.length) :
    Repr S ((r.fill data).unlockFreeSpace m)
      { q with written := q.written ++ data.take m.toNat } := by
  have hfill := h.fill hfit
  by_cases hpos : 0 < m
  · have hput := hfill.updateTailBy (UInt32.lt_iff_toNat_lt.mp hpos) (by omega)
    rwa [window_fill h hfit hm, ← unlockFreeSpace_eq hpos] at hput
  · have hzero : m.toNat = 0 := by
      rw [UInt32.lt_iff_toNat_lt, UInt32.toNat_zero] at hpos
      omega
    simpa [unlockFreeSpace, hpos, hzero] using hfill

theorem step_simulates :
    Exec.Simulates step Bounded (Queue.step S.toNat) Op.effect (Repr S) := by
  intro r q op r' h hb hs
  have hfree := toNat_getFreeBytes h
  have havail := toNat_getAvailBytes h
  have hf := h.fits
  cases op with
  | produce n expired data m =>
    obtain ⟨hlen, hm⟩ := hb
    simp only [step] at hs
    split at hs
    next off cont hat =>
      obtain ⟨_, hn, _⟩ := lockFreeSpace_eq_at.mp hat
      obtain rfl := Option.some.inj hs
      rw [UInt32.le_iff_toNat_le] at hn hm
      refine ⟨_, if_pos ?_, h.produce ?_ ?_⟩
      · rw [List.length_take]; omega
      · omega
      · omega
    next => cases hs
  | updateTailBy data m =>
    obtain ⟨hlen, hpos, hm⟩ := hb
    obtain rfl := Option.some.inj hs
    rw [UInt32.le_iff_toNat_le] at hm
    have hput : Repr S ((r.fill data).unlockFreeSpace m) _ := h.produce (by omega) (by omega)
    rw [unlockFreeSpace_eq hpos, List.take_of_length_le (by omega)] at hput
    exact ⟨_, if_pos (by omega), hput⟩
  | consume minAvail expired m =>
    simp only [step] at hs
    split at hs
    next =>
      obtain rfl := Option.some.inj hs
      have hm := UInt32.le_iff_toNat_le.mp hb.2
      exact ⟨_, if_pos (by omega), h.updateHead (by omega)⟩
    next => cases hs
  | updateHead m =>
    obtain rfl := Option.some.inj hs
    have hm := UInt32.le_iff_toNat_le.mp hb
    exact ⟨_, if_pos (by omega), h.updateHead (by omega)⟩
  | setInvalid =>
    obtain rfl := Option.some.inj hs
    exact ⟨q, by simp [Op.effect, Queue.step], { h with }⟩

theorem lockFreeSpace_disjoint (h : Repr S r q) {n off cont : UInt32} {expired : Bool}
    (hl : r.lockFreeSpace n expired = .at off cont) :
    off.toNat + cont.toNat ≤ S.toNat ∧ ∀ i < cont.toNat, ∀ j < q.unread.length,
      off.toNat + i ≠ (r.head.toNat + j) % S.toNat := by
  obtain ⟨_, hn, rfl, rfl⟩ := lockFreeSpace_eq_at.mp hl
  have ht := h.tail_lt
  have hf := h.fits
  rw [UInt32.le_iff_toNat_le, toNat_getFreeBytes h] at hn
  rw [h.size, toNat_contSize n ht]
  refine ⟨by omega, fun i hi j hj heq => ?_⟩
  have hpos := window_positions_ne h.head hj (show q.unread.length + i < S.toNat by omega)
  rw [← Nat.mod_add_mod (r.head.toNat + q.unread.length), ← h.tail,
    Nat.mod_eq_of_lt (show r.tail.toNat + i < S.toNat by omega)] at hpos
  exact hpos heq.symm

theorem lockAvailSpace_oldest (h : Repr S r q) {n off cont : UInt32} {expired : Bool}
    (hl : r.lockAvailSpace n expired = .at off cont) :
    off.toNat + cont.toNat ≤ S.toNat ∧
      (List.range cont.toNat).map (fun i => r.buf (off.toNat + i)) =
        q.unread.take cont.toNat := by
  obtain ⟨_, rfl, rfl⟩ := lockAvailSpace_eq_at.mp hl
  have hh := h.head
  rw [h.size, toNat_contSize _ hh, toNat_getAvailBytes h]
  have hle : r.head.toNat + min q.unread.length (S.toNat - r.head.toNat) ≤ S.toNat := by omega
  refine ⟨hle, ?_⟩
  rw [← window_block hle, ← take_window (Nat.min_le_left _ _), h.window]

theorem lockFreeSpace_length (h : Repr S r q) {n off cont : UInt32} {expired : Bool}
    (hl : r.lockFreeSpace n expired = .at off cont) :
    n.toNat + q.unread.length ≤ S.toNat ∧ cont.toNat = min n.toNat (S.toNat - off.toNat) := by
  obtain ⟨_, hn, rfl, rfl⟩ := lockFreeSpace_eq_at.mp hl
  have hf := h.fits
  rw [UInt32.le_iff_toNat_le, toNat_getFreeBytes h] at hn
  rw [h.size, toNat_contSize n h.tail_lt]
  exact ⟨by omega, rfl⟩

theorem lockAvailSpace_length (h : Repr S r q) {n off cont : UInt32} {expired : Bool}
    (hl : r.lockAvailSpace n expired = .at off cont) :
    n.toNat ≤ q.unread.length ∧ cont.toNat = min q.unread.length (S.toNat - off.toNat) := by
  obtain ⟨hn, rfl, rfl⟩ := lockAvailSpace_eq_at.mp hl
  rw [UInt32.le_iff_toNat_le, toNat_getAvailBytes h] at hn
  rw [h.size, toNat_contSize _ h.head, toNat_getAvailBytes h]
  exact ⟨hn, rfl⟩

/-- What a ring shows of the queue it implements: the offsets stay in the block, the counts
and the flag are those of the queue, the unread bytes lie from the head on, and neither
locking call hands out the wrong bytes or too few. -/
structure Shows (S : UInt32) (r : RingBuffer) (q : Queue UInt8) : Prop where
  head : r.head < S
  tail : r.tail < S
  counts : r.getFreeBytes + r.getAvailBytes = S
  avail : r.getAvailBytes.toNat = q.written.length - q.taken
  full : r.isFull = true ↔ q.unread.length = S.toNat
  unread : Fifo.window r.buf S.toNat r.head.toNat q.unread.length = q.unread
  free : ∀ n expired off cont, r.lockFreeSpace n expired = .at off cont →
    off.toNat + cont.toNat ≤ S.toNat ∧ ∀ i < cont.toNat, ∀ j < q.unread.length,
      off.toNat + i ≠ (r.head.toNat + j) % S.toNat
  freeLength : ∀ n expired off cont, r.lockFreeSpace n expired = .at off cont →
    n.toNat + q.unread.length ≤ S.toNat ∧ cont.toNat = min n.toNat (S.toNat - off.toNat)
  oldest : ∀ n expired off cont, r.lockAvailSpace n expired = .at off cont →
    off.toNat + cont.toNat ≤ S.toNat ∧
      (List.range cont.toNat).map (fun i => r.buf (off.toNat + i)) = q.unread.take cont.toNat
  oldestLength : ∀ n expired off cont, r.lockAvailSpace n expired = .at off cont →
    n.toNat ≤ q.unread.length ∧ cont.toNat = min q.unread.length (S.toNat - off.toNat)

theorem Repr.shows (h : Repr S r q) : Shows S r q where
  head := UInt32.lt_iff_toNat_lt.mpr h.head
  tail := UInt32.lt_iff_toNat_lt.mpr h.tail_lt
  counts := by
    have hf := h.fits
    have hs := h.small
    rw [← UInt32.toNat_inj, UInt32.toNat_add, toNat_getFreeBytes h, toNat_getAvailBytes h]
    omega
  avail := (toNat_getAvailBytes h).trans Queue.length_unread
  full := h.full
  unread := h.window
  free _ _ _ _ hl := lockFreeSpace_disjoint h hl
  freeLength _ _ _ _ hl := lockFreeSpace_length h hl
  oldest _ _ _ _ hl := lockAvailSpace_oldest h hl
  oldestLength _ _ _ _ hl := lockAvailSpace_length h hl

/-- A ring of any size below `2 ^ 31` refines a bounded queue of bytes over every run of
operations within their bounds. -/
theorem refines_fifo (buf : ℕ → UInt8) (S : UInt32) (hpos : 0 < S) (hsmall : S.toNat < 2 ^ 31)
    (ops : List Op) (hb : Exec.Meets step Bounded (create buf S) ops)
    (hr : Exec.run step (create buf S) ops = some r) :
    ∃ q, Exec.run (Queue.step S.toNat) Queue.empty (ops.map Op.effect) = some q ∧
      Shows S r q := by
  have hinit : Repr S (create buf S) Queue.empty :=
    .create buf (UInt32.lt_iff_toNat_lt.mp hpos) hsmall
  obtain ⟨q, hq, hR⟩ := step_simulates.run hinit hb hr
  exact ⟨q, hq, hR.shows⟩

theorem refines_fifo_wrapping :
    ∃ r q, Exec.run step (create (fun _ => 0) 4)
        [.produce 3 false [1, 2, 3] 3, .consume 1 false 2, .produce 3 true [4, 5, 6] 3] = some r ∧
      Exec.run (Queue.step 4) Queue.empty [.put [1, 2, 3], .get 2, .put [4, 5, 6]] = some q ∧
      Shows 4 r q := by
  obtain ⟨q, hq, hs⟩ := refines_fifo (fun _ => 0) 4 (by decide) (by decide)
    [.produce 3 false [1, 2, 3] 3, .consume 1 false 2, .produce 3 true [4, 5, 6] 3]
    (by decide) rfl
  exact ⟨_, q, rfl, hq, hs⟩

end NNPIHost.RingBuffer

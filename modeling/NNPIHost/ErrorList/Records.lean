import NNPIHost.ErrorList.Query
import NNPIHost.Exec.Stream

/-! # Records of an error list

The loop of `completeQuery` goes from a descriptor over as many bytes as the descriptor says,
in 32-bit arithmetic and without a look at the end of the buffer. It stays inside when the
buffer is an array of descriptors, each with its message, and on no other buffer: a size that
is too large takes it out of the buffer, or round to a position where it has been before.
-/

namespace NNPIHost.ExecErrorList

open ErrorRecord

variable {H : Type*} {mem : ℕ → UInt8} {size fuel pos : ℕ} {descs : List ℕ}

/-- Where the loop goes on after a descriptor. -/
def nextDesc (mem : ℕ → UInt8) (pos : ℕ) : ℕ :=
  (pos + ExecErrorDesc.size + (ExecErrorDesc.load mem pos).errorMsgSize.toNat) % 2 ^ 32

theorem descLoop_eq_none :
    descLoop mem size fuel pos = none ↔ ∀ k ≤ fuel, (nextDesc mem)^[k] pos < size := by
  induction fuel generalizing pos with
  | zero =>
    unfold descLoop
    by_cases hpos : pos < size <;> simp [hpos]
  | succ fuel ih =>
    unfold descLoop
    by_cases hpos : pos < size
    · simp only [hpos, if_true, Option.map_eq_none_iff]
      rw [← nextDesc, ih]
      constructor
      · rintro h (_ | k) hk
        · exact hpos
        · exact h k (Nat.le_of_succ_le_succ hk)
      · exact fun h k hk => h (k + 1) (Nat.succ_le_succ hk)
    · simp only [hpos, if_false, reduceCtorEq, false_iff]
      exact fun h => hpos (h 0 (Nat.zero_le _))

/-- A loop that has not ended after as many steps as there are positions never ends. -/
theorem descLoop_never (h : descLoop mem size size pos = none) (fuel : ℕ) :
    descLoop mem size fuel pos = none := by
  rw [descLoop_eq_none] at h ⊢
  have hmem : ∀ k, (nextDesc mem)^[k] pos ∈ Finset.range size := by
    apply Exec.iterate_mem_of_card
    intro k hk
    rw [Finset.card_range] at hk
    exact Finset.mem_range.mpr (h k hk)
  exact fun k _ => Finset.mem_range.mp (hmem k)

/-- The descriptors lie inside the first `size` bytes, with their messages. -/
def Inside (mem : ℕ → UInt8) (size : ℕ) (descs : List ℕ) : Prop :=
  ∀ p ∈ descs, p + ExecErrorDesc.size + (ExecErrorDesc.load mem p).errorMsgSize.toNat ≤ size

/-- The record of a descriptor and the message that follows it. -/
def recordAt (mem : ℕ → UInt8) (pos : ℕ) : ErrorRecord where
  desc := .load mem pos
  msg := Memory.read mem (pos + ExecErrorDesc.size) (ExecErrorDesc.load mem pos).errorMsgSize.toNat
  size_eq := (Memory.length_read _).symm

theorem bytes_recordAt : (recordAt mem pos).bytes =
    Memory.read mem pos (ExecErrorDesc.size + (ExecErrorDesc.load mem pos).errorMsgSize.toNat) := by
  rw [Memory.read_add, ← ExecErrorDesc.encode_load]
  rfl

theorem exists_records (hpos : pos ≤ size) (hsize : size < 2 ^ 32)
    (hloop : descLoop mem size fuel pos = some descs) (hin : Inside mem size descs) :
    ∃ es, serialize es = Memory.read mem pos (size - pos) := by
  induction fuel generalizing pos descs with
  | zero =>
    unfold descLoop at hloop
    split at hloop
    · cases hloop
    · exact ⟨[], by rw [Nat.sub_eq_zero_of_le (by omega)]; rfl⟩
  | succ fuel ih =>
    unfold descLoop at hloop
    split at hloop
    next =>
      obtain ⟨rest, hrest, rfl⟩ := Option.map_eq_some_iff.mp hloop
      obtain ⟨hfirst, hin⟩ := List.forall_mem_cons.mp hin
      rw [Nat.mod_eq_of_lt (by omega)] at hrest
      obtain ⟨es, hes⟩ := ih hfirst hrest hin
      refine ⟨recordAt mem pos :: es, ?_⟩
      have hlen : size - pos =
          (ExecErrorDesc.size + (ExecErrorDesc.load mem pos).errorMsgSize.toNat) +
            (size - (pos + ExecErrorDesc.size +
              (ExecErrorDesc.load mem pos).errorMsgSize.toNat)) := by
        omega
      rw [hlen, Memory.read_add, ← bytes_recordAt, ← Nat.add_assoc, ← hes]
      rfl
    next => exact ⟨[], by rw [Nat.sub_eq_zero_of_le (by omega)]; rfl⟩

theorem inside_of_records {es : List ErrorRecord} (hsize : size < 2 ^ 32)
    (hes : serialize es = Memory.read mem 0 size) :
    ∃ descs, descLoop mem size size 0 = some descs ∧ Inside mem size descs := by
  have hlen : (serialize es).length = size := by rw [hes, Memory.length_read]
  have hfuel : es.length ≤ size := hlen ▸ length_le_serialize es
  obtain ⟨descs, hloop, hall⟩ :=
    descLoop_serialize (by rw [hlen, hes]) (by rw [Nat.zero_add, hlen]) hsize hfuel
  refine ⟨descs, hloop, ?_⟩
  intro p hp
  obtain ⟨i, hi, rfl⟩ := List.getElem_of_mem hp
  have hi' : i < es.length := hall.length_eq ▸ hi
  obtain ⟨hle, hread⟩ := hall.get hi hi'
  have hentry := (Memory.read_part hread).1
  rw [List.get_eq_getElem] at hle hentry
  rw [ExecErrorDesc.load_eq hentry, ErrorRecord.size_eq, Nat.add_assoc,
    ← ErrorRecord.length_bytes]
  exact hle

variable (s : ExecErrorList H)

/-- There is no result of a query exactly when its loop runs for ever. -/
theorem completeQuery_eq_none :
    s.completeQuery 0 = none ↔
      ∀ fuel, descLoop (s.buf.getD fun _ => 0) s.size fuel 0 = none := by
  simp only [completeQuery, if_true, Option.map_eq_none_iff]
  exact ⟨descLoop_never, fun h => h s.size⟩

/-- The query completes, and each descriptor it has recorded lies in the bytes received. -/
def RecordsInside (mem : ℕ → UInt8) : Prop :=
  ∃ t descs, s.completeQuery 0 = some t ∧ t.descVec = s.descVec ++ descs ∧
    Inside mem s.size descs

/-- It does so exactly when the bytes are an array of descriptors, each followed by as many
bytes as it says. -/
theorem records_inside_iff (hbuf : s.buf = some mem) (hsize : s.size ≤ 65535) :
    s.RecordsInside mem ↔ ∃ es, serialize es = Memory.read mem 0 s.size := by
  have hlt : s.size < 2 ^ 32 := by omega
  simp only [RecordsInside, completeQuery, if_true, hbuf, Option.getD_some]
  constructor
  · rintro ⟨t, descs, hloop, hdescs, hin⟩
    obtain ⟨descs', hdescs', rfl⟩ := Option.map_eq_some_iff.mp hloop
    obtain rfl : descs' = descs := List.append_cancel_left hdescs
    exact exists_records (Nat.zero_le _) hlt hdescs' hin
  · rintro ⟨es, hes⟩
    obtain ⟨descs, hloop, hin⟩ := inside_of_records hlt hes
    exact ⟨_, descs, by rw [hloop, Option.map_some], rfl, hin⟩

/-- A query that has received all its bytes. -/
def received (data : List UInt8) : ExecErrorList Unit :=
  { create.startQuery with
    buf := some fun i => data.getD i 0, bufSize := data.length, size := data.length }

theorem one_record_inside :
    (received [1, 7, 0, 0, 0, 31, 0, 2, 0, 0, 0, 65, 66]).RecordsInside
      fun i => [1, 7, 0, 0, 0, 31, 0, 2, 0, 0, 0, 65, 66].getD i 0 :=
  (records_inside_iff _ rfl (by decide)).mpr ⟨[⟨⟨1, 7, 0, 31, 2⟩, [65, 66], rfl⟩], by decide⟩

/-- A message of `2 ^ 32 - 11` bytes takes the loop round to where it was. -/
theorem message_size_stands_still :
    ¬ (received [1, 7, 0, 0, 0, 31, 0, 245, 255, 255, 255]).RecordsInside
        (fun i => [1, 7, 0, 0, 0, 31, 0, 245, 255, 255, 255].getD i 0) ∧
      ∀ fuel, descLoop (fun i => [1, 7, 0, 0, 0, 31, 0, 245, 255, 255, 255].getD i 0) 11 fuel 0 =
        none := by
  have hnone : (received [1, 7, 0, 0, 0, 31, 0, 245, 255, 255, 255]).completeQuery 0 = none := by
    decide
  refine ⟨?_, (completeQuery_eq_none _).mp hnone⟩
  rintro ⟨t, descs, hsome, _⟩
  rw [hnone] at hsome
  cases hsome

end NNPIHost.ExecErrorList

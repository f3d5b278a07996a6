import NNPIHost.CommandList.Send

/-! # What packing an element writes

Packing moves a prefix of an element's pending bytes into the page and leaves the rest
pending. An element is done when nothing of it is pending, and it stops short of its end only
when fewer than 16 bytes of room are left.
-/

namespace NNPIHost.CommandList

variable {room : ℕ}

/-- What packing keeps of an element with its pending bytes, whether it is done or not. -/
structure PackSpec {ε : Type*} (pending : ε → List UInt8) (cleared : ε → ε) (e : ε) (room : ℕ)
    (r : Bool × List UInt8 × ε) : Prop where
  bytes : pending e = r.2.1 ++ pending r.2.2
  fits : r.2.1.length ≤ room
  kept : cleared r.2.2 = cleared e
  done : r.1 = true → r.2.2 = cleared e
  stuck : r.1 = false → room < r.2.1.length + 16

namespace CopyParams

def pending (c : CopyParams) : List UInt8 := if c.edited then copyCodec.encode c.indexed else []

@[simp] theorem edited_clearEdits (c : CopyParams) : c.clearEdits.edited = false := rfl

@[simp] theorem clearEdits_clearEdits (c : CopyParams) : c.clearEdits.clearEdits = c.clearEdits :=
  rfl

@[simp] theorem pending_clearEdits (c : CopyParams) : c.clearEdits.pending = [] := rfl

theorem clearEdits_of_not_edited {c : CopyParams} (h : c.edited = false) : c.clearEdits = c := by
  obtain ⟨⟩ := c
  simp_all [clearEdits]

theorem length_pending_le (c : CopyParams) : c.pending.length ≤ 16 := by
  unfold pending
  split <;> simp

theorem pack_spec (c : CopyParams) (room : ℕ) :
    PackSpec pending clearEdits c room (c.pack room) := by
  by_cases he : c.edited
  · have hp : c.pending = copyCodec.encode c.indexed := if_pos he
    by_cases hr : room < 16
    · simp only [pack, he, hr, not_true, if_false, if_true]
      exact ⟨rfl, Nat.zero_le _, rfl, nofun, fun _ => by simpa using hr⟩
    · simp only [pack, he, hr, not_true, if_false]
      have hlen := length_copyCodec c.indexed
      refine ⟨?_, ?_, rfl, fun _ => rfl, nofun⟩
      · rw [hp]
        exact (List.append_nil _).symm
      · exact Nat.le_trans (Nat.le_of_eq hlen) (Nat.le_of_not_lt hr)
  · have hf : c.edited = false := by simpa using he
    simp only [pack, hf, Bool.false_eq_true, not_false_eq_true, if_true]
    exact ⟨rfl, Nat.zero_le _, rfl, fun _ => (clearEdits_of_not_edited hf).symm, nofun⟩

end CopyParams

namespace CopyListParams

def copiesPending (cs : List CopyParams) : List UInt8 := cs.flatMap CopyParams.pending

theorem packCopies_spec (cs : List CopyParams) (room : ℕ) :
    PackSpec copiesPending (List.map CopyParams.clearEdits) cs room (packCopies cs room) := by
  induction cs generalizing room with
  | nil => exact ⟨rfl, Nat.zero_le _, rfl, fun _ => rfl, nofun⟩
  | cons c cs ih =>
    have hc := c.pack_spec room
    rcases hp : c.pack room with ⟨_ | _, bs, c'⟩ <;> rw [hp] at hc
    · simp only [packCopies, hp]
      refine ⟨?_, hc.fits, ?_, nofun, hc.stuck⟩
      · simpa [copiesPending] using congrArg (· ++ copiesPending cs) hc.bytes
      · simpa using hc.kept
    · have hcs := ih (room - bs.length)
      rcases hp' : packCopies cs (room - bs.length) with ⟨ok, bs', cs'⟩
      rw [hp'] at hcs
      simp only [packCopies, hp, hp']
      have hbytes := hc.bytes
      have hfits := hc.fits
      have hfits' := hcs.fits
      have hrest := hcs.bytes
      have hdone := hc.done rfl
      simp only at hbytes hfits hfits' hrest hdone
      refine ⟨?_, ?_, ?_, ?_, ?_⟩
      · rw [hdone, CopyParams.pending_clearEdits, List.append_nil] at hbytes
        simp only [copiesPending, List.flatMap_cons, hbytes, hdone, CopyParams.pending_clearEdits,
          List.nil_append, List.append_assoc, List.append_cancel_left_eq]
        exact hrest
      · simp only [List.length_append]
        omega
      · simpa [hdone] using hcs.kept
      · intro hok
        simpa [hdone] using hcs.done hok
      · intro hok
        have := hcs.stuck hok
        simp only [List.length_append] at this ⊢
        omega

/-- All flags and the count reset, the parameters as they are. -/
def cleared (l : CopyListParams) : CopyListParams :=
  { l with copies := l.copies.map CopyParams.clearEdits, numEdits := 0, edited := false }

def pending (l : CopyListParams) : List UInt8 :=
  (if l.edited then l.header else []) ++ copiesPending l.copies

/-- A list that counts no edits has none; a packed header keeps the count of its copies. -/
def Consistent (l : CopyListParams) : Prop :=
  l.numEdits = 0 → l.edited = false ∧ ∀ c ∈ l.copies, c.edited = false

theorem consistent_cleared (l : CopyListParams) : l.cleared.Consistent := fun _ =>
  ⟨rfl, by simp [cleared]⟩

theorem map_clearEdits_of_not_edited {cs : List CopyParams} (h : ∀ c ∈ cs, c.edited = false) :
    cs.map CopyParams.clearEdits = cs :=
  (List.map_congr_left fun c hc => CopyParams.clearEdits_of_not_edited (h c hc)).trans
    (List.map_id' cs)

theorem cleared_of_numEdits {l : CopyListParams} (h : l.Consistent) (h0 : l.numEdits = 0) :
    l.cleared = l := by
  obtain ⟨he, hc⟩ := h h0
  obtain ⟨⟩ := l
  simp_all [cleared, map_clearEdits_of_not_edited]

theorem clearEdits_eq {l : CopyListParams} (h : l.Consistent) : l.clearEdits = l.cleared := by
  unfold clearEdits
  split
  next h0 => exact (cleared_of_numEdits h h0).symm
  next => rfl

theorem length_copiesPending_le (cs : List CopyParams) :
    (copiesPending cs).length ≤ 16 * cs.length := by
  induction cs with
  | nil => exact Nat.zero_le _
  | cons c cs ih =>
    have hc := c.length_pending_le
    simp only [copiesPending, List.flatMap_cons, List.length_append, List.length_cons] at ih ⊢
    omega

@[simp] theorem length_header (l : CopyListParams) : l.header.length = 7 := by simp [header]

theorem packBody_spec {l : CopyListParams} (h : l.Consistent) (he : l.edited = false)
    (room : ℕ) : PackSpec pending cleared l room (l.packBody room) := by
  unfold packBody
  split
  next =>
    have hcs := packCopies_spec l.copies room
    rcases hp : packCopies l.copies room with ⟨_ | _, bs, cs⟩ <;> rw [hp] at hcs
    · refine ⟨?_, hcs.fits, ?_, nofun, hcs.stuck⟩
      · simpa [pending, he] using hcs.bytes
      · exact congrArg (fun cs => { l with copies := cs, numEdits := 0, edited := false }) hcs.kept
    · have hdone := hcs.done rfl
      simp only at hdone
      refine ⟨?_, hcs.fits, ?_, fun _ => ?_, nofun⟩
      · simpa [pending, he] using hcs.bytes
      · simp [cleared, hdone]
      · simp [cleared, hdone, he]
  next hn =>
    have h0 : l.numEdits = 0 := UInt16.toNat_inj.mp (by simpa [UInt16.lt_iff_toNat_lt] using hn)
    exact ⟨rfl, Nat.zero_le _, rfl, fun _ => (cleared_of_numEdits h h0).symm, nofun⟩

theorem pack_spec {l : CopyListParams} (h : l.Consistent) (room : ℕ) :
    PackSpec pending cleared l room (l.pack room) := by
  unfold pack
  split
  next he =>
    have hp : l.pending = l.header ++ { l with edited := false }.pending := by
      simp [pending, he]
    split
    next hr =>
      exact ⟨rfl, Nat.zero_le _, rfl, nofun, fun _ => by simp only [List.length_nil]; omega⟩
    next hr =>
      have hb := packBody_spec (l := { l with edited := false })
        (fun h0 => ⟨rfl, (h h0).2⟩) rfl (room - 7)
      rcases hp' : packBody { l with edited := false } (room - 7) with ⟨ok, bs, l'⟩
      rw [hp'] at hb
      have hfits := hb.fits
      have hstuck := hb.stuck
      simp only at hfits hstuck
      refine ⟨?_, ?_, hb.kept, hb.done, fun hok => ?_⟩
      · rw [hp, hb.bytes, List.append_assoc]
      · simp only [List.length_append, length_header]
        omega
      · have := hstuck hok
        simp only [List.length_append, length_header]
        omega
  next he => exact packBody_spec h (by simpa using he) room

theorem packBody_numEdits (l : CopyListParams) (room : ℕ) (h : (l.packBody room).1 = false) :
    (l.packBody room).2.2.numEdits ≠ 0 := by
  unfold packBody at h ⊢
  by_cases hn : 0 < l.numEdits
  · rw [if_pos hn] at h ⊢
    rcases hp : packCopies l.copies room with ⟨_ | _, bs, cs⟩ <;> rw [hp] at h
    · exact (UInt16.ne_of_lt hn).symm
    · cases h
  · rw [if_neg hn] at h
    cases h

theorem pack_consistent {l : CopyListParams} (h : l.Consistent) (room : ℕ) :
    (l.pack room).2.2.Consistent := by
  cases hok : (l.pack room).1 with
  | true => exact (pack_spec h room).done hok ▸ consistent_cleared l
  | false =>
    unfold pack at hok ⊢
    split
    next he =>
      split
      next => exact h
      next hr =>
        rw [if_pos he, if_neg hr] at hok
        exact fun h0 => absurd h0 (packBody_numEdits _ _ hok)
    next he =>
      rw [if_neg he] at hok
      exact fun h0 => absurd h0 (packBody_numEdits _ _ hok)

end CopyListParams

namespace InfReqParams

def pending (r : InfReqParams) : List UInt8 :=
  if r.edited then (Record.infReq r.idx.toUInt32 r.record).encode else []

@[simp] theorem pending_clearEdits (r : InfReqParams) : r.clearEdits.pending = [] := rfl

theorem clearEdits_of_not_edited {r : InfReqParams} (h : r.edited = false) : r.clearEdits = r := by
  obtain ⟨⟩ := r
  simp_all [clearEdits]

theorem length_pending_le (r : InfReqParams) : r.pending.length ≤ 15 := by
  unfold pending
  cases hn : r.nullParams <;> split <;> simp [Record.encode, InfReqRecord.encode, record, hn]

theorem pack_spec (r : InfReqParams) (room : ℕ) :
    PackSpec pending clearEdits r room (r.pack room) := by
  by_cases he : r.edited
  · have hlen := r.length_pending_le
    have hp : r.pending = (Record.infReq r.idx.toUInt32 r.record).encode := if_pos he
    by_cases hr : room < 10 ∨ (¬ r.nullParams ∧ room < 15)
    · simp only [pack, he, hr, not_true, if_false, if_true]
      refine ⟨rfl, Nat.zero_le _, rfl, ?_, fun _ => by simp only [List.length_nil]; omega⟩
      rintro ⟨⟩
    · simp only [pack, he, hr, not_true, if_false]
      refine ⟨?_, ?_, rfl, fun _ => rfl, ?_⟩
      · rw [hp]
        cases hn : r.nullParams <;> simp [Record.encode, InfReqRecord.encode, record, hn, pending]
      · cases hn : r.nullParams <;> simp [hn] at hr ⊢ <;> omega
      · rintro ⟨⟩
  · have hf : r.edited = false := by simpa using he
    simp only [pack, hf, Bool.false_eq_true, not_false_eq_true, if_true]
    refine ⟨rfl, Nat.zero_le _, rfl, fun _ => (clearEdits_of_not_edited hf).symm, ?_⟩
    rintro ⟨⟩

end InfReqParams

end NNPIHost.CommandList

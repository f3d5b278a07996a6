import NNPIHost.Codec.Fill
import NNPIHost.CommandList.Stream

/-! # The pieces of an element

What an element writes is made of pieces that are never split: a copy or an infer request is
one, and a copy list is its header and one piece for each edited copy. Packing an element fills
the page with its pieces, whatever its edit flags are.
-/

namespace NNPIHost.CommandList

open Fill (fill fill_cons_of_lt fill_cons_of_le fill_append_of_nil fill_append_of_ne_nil)

variable {room : ℕ}

/-- Packing an element into the room of a page fills it with the pieces of the element, and
leaves the element with the pieces that do not fit. -/
structure Fills {ε : Type*} (pieces : ε → List (List UInt8)) (packed : ε → ε) (e : ε) (room : ℕ)
    (r : Bool × List UInt8 × ε) : Prop where
  fill : fill (pieces e) room = (r.2.1, pieces r.2.2)
  done : r.1 = true → r.2.2 = packed e ∧ pieces r.2.2 = []
  stuck : r.1 = false → pieces r.2.2 ≠ []
  kept : packed r.2.2 = packed e

section Fills

variable {ε : Type*} {pieces : ε → List (List UInt8)} {packed : ε → ε} {e e' : ε}
  {bs : List UInt8}

theorem Fills.of_done (hfill : Fill.fill (pieces e) room = (bs, [])) (hpieces : pieces e' = [])
    (hdone : e' = packed e) (hkept : packed e' = packed e) :
    Fills pieces packed e room (true, bs, e') where
  fill := hfill.trans (congrArg (Prod.mk bs) hpieces.symm)
  done _ := ⟨hdone, hpieces⟩
  stuck h := absurd h.symm Bool.false_ne_true
  kept := hkept

theorem Fills.of_stuck (hfill : Fill.fill (pieces e) room = (bs, pieces e')) (hne : pieces e' ≠ [])
    (hkept : packed e' = packed e) : Fills pieces packed e room (false, bs, e') where
  fill := hfill
  done h := absurd h Bool.false_ne_true
  stuck _ := hne
  kept := hkept

end Fills

namespace CopyParams

def pieces (c : CopyParams) : List (List UInt8) :=
  if c.edited then [copyCodec.encode c.indexed] else []

@[simp] theorem pieces_clearEdits (c : CopyParams) : c.clearEdits.pieces = [] := rfl

@[simp] theorem flatten_pieces (c : CopyParams) : c.pieces.flatten = c.pending := by
  unfold pieces pending
  split <;> simp

theorem pack_fills (c : CopyParams) (room : ℕ) :
    Fills pieces clearEdits c room (c.pack room) := by
  by_cases he : c.edited
  · have hp : c.pieces = [copyCodec.encode c.indexed] := if_pos he
    have hlen := length_copyCodec c.indexed
    by_cases hr : room < 16
    · simp only [pack, he, hr, not_true, if_false, if_true]
      refine .of_stuck ?_ ?_ rfl
      · rw [hp, fill_cons_of_lt [] (hlen ▸ hr)]
      · rw [hp]
        exact List.cons_ne_nil _ _
    · simp only [pack, he, hr, not_true, if_false]
      refine .of_done ?_ rfl rfl rfl
      rw [hp, fill_cons_of_le [] (hlen ▸ Nat.not_lt.mp hr), Fill.fill_nil, List.append_nil]
      rfl
  · have hf : c.edited = false := by simpa using he
    have hp : c.pieces = [] := if_neg he
    simp only [pack, hf, Bool.false_eq_true, not_false_eq_true, if_true]
    refine .of_done ?_ hp (clearEdits_of_not_edited hf).symm rfl
    rw [hp]
    rfl

end CopyParams

namespace CopyListParams

def copyPieces (cs : List CopyParams) : List (List UInt8) := cs.flatMap CopyParams.pieces

theorem packCopies_fills (cs : List CopyParams) (room : ℕ) :
    Fills copyPieces (List.map CopyParams.clearEdits) cs room (packCopies cs room) := by
  induction cs generalizing room with
  | nil => exact .of_done rfl rfl rfl rfl
  | cons c cs ih =>
    have hc := c.pack_fills room
    rcases hp : c.pack room with ⟨_ | _, bs, c'⟩ <;> rw [hp] at hc
    · have hne : c'.pieces ≠ [] := hc.stuck rfl
      have hfill : fill c.pieces room = (bs, c'.pieces) := hc.fill
      have hrest : (fill c.pieces room).2 ≠ [] := hfill ▸ hne
      simp only [packCopies, hp]
      refine .of_stuck ?_ ?_ ?_
      · rw [copyPieces, List.flatMap_cons, fill_append_of_ne_nil _ hrest, hfill]
        rfl
      · rw [copyPieces, List.flatMap_cons]
        exact List.append_ne_nil_of_left_ne_nil hne _
      · simpa using hc.kept
    · have hcs := ih (room - bs.length)
      obtain ⟨hdone, hnil⟩ := hc.done rfl
      have hfill : fill c.pieces room = (bs, c'.pieces) := hc.fill
      have hrest : (fill c.pieces room).2 = [] := hfill ▸ hnil
      rcases hp' : packCopies cs (room - bs.length) with ⟨ok, bs', cs'⟩
      rw [hp'] at hcs
      have hfill' : fill (copyPieces cs) (room - bs.length) = (bs', copyPieces cs') := hcs.fill
      have hpieces : copyPieces (c' :: cs') = copyPieces cs' := by
        rw [copyPieces, List.flatMap_cons, show c'.pieces = [] from hnil]
        rfl
      simp only [packCopies, hp, hp']
      refine ⟨?_, fun hok => ⟨?_, ?_⟩, fun hok => ?_, ?_⟩
      · rw [copyPieces, List.flatMap_cons, fill_append_of_nil _ hrest, hfill, hpieces]
        exact congrArg (fun r => (bs ++ r.1, r.2)) hfill'
      · rw [List.map_cons, show c' = c.clearEdits from hdone,
          show cs' = cs.map CopyParams.clearEdits from (hcs.done hok).1]
      · exact hpieces.trans (hcs.done hok).2
      · exact hpieces ▸ hcs.stuck hok
      · rw [List.map_cons, List.map_cons, show c' = c.clearEdits from hdone,
          CopyParams.clearEdits_clearEdits]
        exact congrArg (c.clearEdits :: ·) hcs.kept

/-- The header, if it is not written yet, and the edited copies of a list that counts edits. -/
def pieces (l : CopyListParams) : List (List UInt8) :=
  (if l.edited then [l.header] else []) ++ if l.numEdits = 0 then [] else copyPieces l.copies

/-- The list after it was packed in full. Without counted edits the copies are not looked
at. -/
def packed (l : CopyListParams) : CopyListParams :=
  if l.numEdits = 0 then { l with edited := false } else l.cleared

theorem packBody_fills {l : CopyListParams} (he : l.edited = false) (room : ℕ) :
    Fills pieces packed l room (l.packBody room) := by
  unfold packBody
  by_cases hn : l.numEdits = 0
  · have hpos : ¬ 0 < l.numEdits := by simp [hn]
    have hp : l.pieces = [] := by simp [pieces, he, hn]
    have hpack : l.packed = l := by
      obtain ⟨copies, numEdits, idx, edited⟩ := l
      simp only at he hn
      simp [packed, hn, he]
    rw [if_neg hpos]
    refine .of_done ?_ hp hpack.symm rfl
    rw [hp]
    rfl
  · have hpos : 0 < l.numEdits := UInt16.pos_iff_ne_zero.mpr hn
    have hp : l.pieces = copyPieces l.copies := by simp [pieces, he, hn]
    have hcs := packCopies_fills l.copies room
    rw [if_pos hpos]
    rcases hpack : packCopies l.copies room with ⟨_ | _, bs, cs⟩ <;> rw [hpack] at hcs
    · have hp' : pieces { l with copies := cs } = copyPieces cs := by simp [pieces, he, hn]
      refine .of_stuck ?_ ?_ ?_
      · rw [hp, hp']
        exact hcs.fill
      · exact hp' ▸ hcs.stuck rfl
      · have hkept : cs.map CopyParams.clearEdits = l.copies.map CopyParams.clearEdits := hcs.kept
        simp [packed, hn, cleared, hkept]
    · obtain ⟨hdone, hnil⟩ := hcs.done rfl
      have hp' : pieces { l with copies := cs, numEdits := 0 } = [] := by simp [pieces, he]
      have hcs' : cs = l.copies.map CopyParams.clearEdits := hdone
      refine .of_done ?_ hp' ?_ ?_
      · rw [hp]
        exact hcs.fill.trans (congrArg (Prod.mk bs) hnil)
      · simp [packed, hn, cleared, hcs', he]
      · simp [packed, hn, cleared, hcs']

theorem pack_fills (l : CopyListParams) (room : ℕ) : Fills pieces packed l room (l.pack room) := by
  unfold pack
  by_cases he : l.edited = true
  · have hp : l.pieces = l.header :: pieces { l with edited := false } := by simp [pieces, he]
    have hlen := l.length_header
    rw [if_pos he]
    by_cases hr : room < 7
    · rw [if_pos hr]
      refine .of_stuck ?_ ?_ rfl
      · rw [hp, fill_cons_of_lt _ (hlen ▸ hr)]
      · rw [hp]
        exact List.cons_ne_nil _ _
    · have hb := packBody_fills (l := { l with edited := false }) rfl (room - 7)
      rw [if_neg hr]
      rcases hpack : packBody { l with edited := false } (room - 7) with ⟨ok, bs, l'⟩
      rw [hpack] at hb
      refine ⟨?_, hb.done, hb.stuck, hb.kept⟩
      rw [hp, fill_cons_of_le _ (hlen ▸ Nat.not_lt.mp hr), hlen, hb.fill]
  · rw [if_neg he]
    exact packBody_fills (by simpa using he) room

end CopyListParams

namespace InfReqParams

def pieces (r : InfReqParams) : List (List UInt8) :=
  if r.edited then [(Record.infReq r.idx.toUInt32 r.record).encode] else []

theorem flatten_pieces (r : InfReqParams) : r.pieces.flatten = r.pending := by
  unfold pieces pending
  split <;> simp

theorem length_record (r : InfReqParams) :
    (Record.infReq r.idx.toUInt32 r.record).encode.length = if r.nullParams then 10 else 15 := by
  rw [Record.length_encode, Record.byteSize]
  cases hn : r.nullParams <;> simp [record, hn]

theorem pack_fills (r : InfReqParams) (room : ℕ) :
    Fills pieces clearEdits r room (r.pack room) := by
  by_cases he : r.edited
  · have hp : r.pieces = [(Record.infReq r.idx.toUInt32 r.record).encode] := if_pos he
    have hlen := r.length_record
    by_cases hr : room < 10 ∨ (¬ r.nullParams ∧ room < 15)
    · have hlt : room < (Record.infReq r.idx.toUInt32 r.record).encode.length := by
        cases hn : r.nullParams <;> simp [hn] at hlen hr ⊢ <;> omega
      simp only [pack, he, hr, not_true, if_false, if_true]
      refine .of_stuck ?_ ?_ rfl
      · rw [hp, fill_cons_of_lt [] hlt]
      · rw [hp]
        exact List.cons_ne_nil _ _
    · have hle : (Record.infReq r.idx.toUInt32 r.record).encode.length ≤ room := by
        cases hn : r.nullParams <;> simp [hn] at hlen hr ⊢ <;> omega
      simp only [pack, he, hr, not_true, if_false]
      refine .of_done ?_ rfl rfl rfl
      rw [hp, fill_cons_of_le [] hle, Fill.fill_nil, List.append_nil]
      cases hn : r.nullParams <;> simp [Record.encode, InfReqRecord.encode, record, hn]
  · have hf : r.edited = false := by simpa using he
    have hp : r.pieces = [] := if_neg he
    simp only [pack, hf, Bool.false_eq_true, not_false_eq_true, if_true]
    refine .of_done ?_ hp (clearEdits_of_not_edited hf).symm rfl
    rw [hp]
    rfl

end InfReqParams

namespace SchedParams

def pieces : SchedParams → List (List UInt8)
  | .copy c => c.pieces
  | .copyList l => l.pieces
  | .infReq r => r.pieces

def packed : SchedParams → SchedParams
  | .copy c => .copy c.clearEdits
  | .copyList l => .copyList l.packed
  | .infReq r => .infReq r.clearEdits

@[simp] theorem packed_packed (e : SchedParams) : e.packed.packed = e.packed := by
  cases e with
  | copy c => rfl
  | copyList l =>
    simp only [packed, CopyListParams.packed]
    split <;> simp_all [CopyListParams.cleared]
  | infReq r => rfl

theorem piece_bounds {e : SchedParams} {p : List UInt8} (h : p ∈ e.pieces) :
    p ≠ [] ∧ p.length ≤ 16 := by
  have hcopy : ∀ c : CopyParams, p ∈ c.pieces → p.length = 16 := by
    intro c hc
    rw [CopyParams.pieces] at hc
    split at hc
    · rw [List.mem_singleton.mp hc, length_copyCodec]
    · cases hc
  suffices hlen : 0 < p.length ∧ p.length ≤ 16 from ⟨List.ne_nil_of_length_pos hlen.1, hlen.2⟩
  cases e with
  | copy c =>
    have := hcopy c h
    omega
  | copyList l =>
    rcases List.mem_append.mp h with hh | hc
    · split at hh
      · rw [List.mem_singleton.mp hh, l.length_header]
        decide
      · cases hh
    · split at hc
      · cases hc
      · obtain ⟨c, _, hc⟩ := List.mem_flatMap.mp hc
        have := hcopy c hc
        omega
  | infReq r =>
    rw [pieces, InfReqParams.pieces] at h
    split at h
    · rw [List.mem_singleton.mp h, r.length_record]
      split <;> decide
    · cases h

theorem length_pieces_le (e : SchedParams) : e.pieces.length ≤ 1 + e.numOfSubcmds := by
  have hcopy : ∀ c : CopyParams, c.pieces.length ≤ 1 := by
    intro c
    unfold CopyParams.pieces
    split <;> simp
  cases e with
  | copy c => exact Nat.le_trans (hcopy c) (Nat.le_add_right 1 1)
  | copyList l =>
    have hsum : (CopyListParams.copyPieces l.copies).length ≤ l.copies.length := by
      induction l.copies with
      | nil => exact Nat.zero_le _
      | cons c cs ih =>
        have := hcopy c
        simp only [CopyListParams.copyPieces, List.flatMap_cons, List.length_append,
          List.length_cons] at ih ⊢
        omega
    simp only [pieces, CopyListParams.pieces, List.length_append, numOfSubcmds]
    refine Nat.add_le_add ?_ ?_
    · split <;> simp
    · split
      · exact Nat.zero_le _
      · exact hsum
  | infReq r =>
    have hinf : r.pieces.length ≤ 1 := by
      unfold InfReqParams.pieces
      split <;> simp
    exact Nat.le_trans hinf (Nat.le_add_right 1 1)

theorem pack_fills (e : SchedParams) (room : ℕ) : Fills pieces packed e room (e.pack room) := by
  cases e with
  | copy c =>
    obtain ⟨hf, hd, hs, hk⟩ := c.pack_fills room
    exact ⟨hf, fun h => ⟨congrArg SchedParams.copy (hd h).1, (hd h).2⟩, hs,
      congrArg SchedParams.copy hk⟩
  | copyList l =>
    obtain ⟨hf, hd, hs, hk⟩ := l.pack_fills room
    exact ⟨hf, fun h => ⟨congrArg SchedParams.copyList (hd h).1, (hd h).2⟩, hs,
      congrArg SchedParams.copyList hk⟩
  | infReq r =>
    obtain ⟨hf, hd, hs, hk⟩ := r.pack_fills room
    exact ⟨hf, fun h => ⟨congrArg SchedParams.infReq (hd h).1, (hd h).2⟩, hs,
      congrArg SchedParams.infReq hk⟩

end SchedParams

end NNPIHost.CommandList

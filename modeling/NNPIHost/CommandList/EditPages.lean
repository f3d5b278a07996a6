import NNPIHost.CommandList.Operations
import NNPIHost.CommandList.Pieces

/-! # The pages of a transaction

The page loop cuts the pieces of all elements into the same pages whatever happens to them. A
page is left at its end as well as at a piece that does not fit, so the elements after a page
that is filled to its last byte need one more page, which is empty when they send nothing.
-/

namespace NNPIHost.CommandList

open Fill (endOffset endOffset_eq fill_append_of_nil fill_append_of_ne_nil)

def piecesAll (es : List SchedParams) : List (List UInt8) := es.flatMap SchedParams.pieces

@[simp] theorem piecesAll_nil : piecesAll [] = [] := rfl

theorem piecesAll_bounds {es : List SchedParams} {p : List UInt8} (h : p ∈ piecesAll es) :
    p ≠ [] ∧ p.length ≤ 16 := by
  obtain ⟨e, _, hp⟩ := List.mem_flatMap.mp h
  exact SchedParams.piece_bounds hp

/-- The last element has nothing to send. -/
def EndsIdle (es : List SchedParams) : Prop := ∃ e ∈ es.getLast?, e.pieces = []

instance (es : List SchedParams) : Decidable (EndsIdle es) :=
  inferInstanceAs (Decidable (∃ e ∈ es.getLast?, e.pieces = []))

theorem not_endsIdle_nil : ¬ EndsIdle [] := nofun

theorem endsIdle_singleton {e : SchedParams} : EndsIdle [e] ↔ e.pieces = [] := by
  simp [EndsIdle]

theorem endsIdle_cons {es : List SchedParams} (h : es ≠ []) (e : SchedParams) :
    EndsIdle (e :: es) ↔ EndsIdle es := by
  cases es with
  | nil => exact absurd rfl h
  | cons e' es => rw [EndsIdle, EndsIdle, List.getLast?_cons_cons]

theorem endsIdle_of_piecesAll {es : List SchedParams} (hne : es ≠ []) (h : piecesAll es = []) :
    EndsIdle es := by
  have hlast := List.getLast_mem hne
  exact ⟨es.getLast hne, List.getLast?_eq_some_getLast hne, List.flatMap_eq_nil_iff.mp h _ hlast⟩

/-- What one page takes from the elements. It stops before elements without pieces only when
it is full, and it is not full when such elements end it. -/
structure PageFills (es : List SchedParams) (room : ℕ) (bs : List UInt8)
    (done rest : List SchedParams) : Prop where
  fill : Fill.fill (piecesAll es) room = (bs, piecesAll rest)
  kept : done ++ rest.map SchedParams.packed = es.map SchedParams.packed
  stops : rest ≠ [] → piecesAll rest = [] → bs.length = room
  ends : rest = [] → EndsIdle es → bs.length < room
  idle : rest ≠ [] → (EndsIdle rest ↔ EndsIdle es)

theorem packPage_fills (es : List SchedParams) (room : ℕ) :
    PageFills es room (packPage es room).1 (packPage es room).2.1 (packPage es room).2.2 := by
  induction es generalizing room with
  | nil => exact ⟨rfl, rfl, fun h => absurd rfl h, fun _ h => absurd h not_endsIdle_nil,
      fun _ => Iff.rfl⟩
  | cons e es ih =>
    by_cases hroom : room = 0
    · subst hroom
      have hpieces : ∀ p ∈ piecesAll (e :: es), p ≠ [] := fun p hp => (piecesAll_bounds hp).1
      simp only [packPage, if_true]
      exact ⟨Fill.fill_zero hpieces, rfl, fun _ _ => rfl,
        fun h => absurd h (List.cons_ne_nil e es), fun _ => Iff.rfl⟩
    · have hp := e.pack_fills room
      rcases hpack : e.pack room with ⟨_ | _, bs, e'⟩ <;> rw [hpack] at hp
      · have hfill : Fill.fill e.pieces room = (bs, e'.pieces) := hp.fill
        have hne : e'.pieces ≠ [] := hp.stuck rfl
        have hne' : e.pieces ≠ [] := by
          intro h
          rw [h, Fill.fill_nil, Prod.mk.injEq] at hfill
          exact hne hfill.2.symm
        have hrest : (Fill.fill e.pieces room).2 ≠ [] := hfill ▸ hne
        simp only [packPage, hroom, if_false, hpack]
        refine ⟨?_, ?_, fun _ h => ?_, fun h => absurd h (List.cons_ne_nil e' es), fun _ => ?_⟩
        · rw [piecesAll, List.flatMap_cons, fill_append_of_ne_nil _ hrest, hfill]
          rfl
        · exact congrArg (· :: es.map SchedParams.packed) hp.kept
        · exact absurd (List.flatMap_eq_nil_iff.mp h e' List.mem_cons_self) hne
        · cases es with
          | nil => rw [endsIdle_singleton, endsIdle_singleton, iff_false_intro hne,
              iff_false_intro hne']
          | cons e₂ es => rw [endsIdle_cons (List.cons_ne_nil e₂ es),
              endsIdle_cons (List.cons_ne_nil e₂ es)]
      · have hpage := ih (room - bs.length)
        have hfill : Fill.fill e.pieces room = (bs, e'.pieces) := hp.fill
        obtain ⟨hdone, hnil⟩ := hp.done rfl
        have hrest : (Fill.fill e.pieces room).2 = [] := hfill ▸ hnil
        have hle : bs.length ≤ room := by
          have := Fill.length_fill_le e.pieces room
          rwa [hfill] at this
        rcases hpack' : packPage es (room - bs.length) with ⟨bs', done, rest⟩
        rw [hpack'] at hpage
        have hne : rest ≠ [] → es ≠ [] := by
          rintro h rfl
          rw [packPage, Prod.mk.injEq, Prod.mk.injEq] at hpack'
          exact h hpack'.2.2.symm
        have hstops : rest ≠ [] → piecesAll rest = [] → bs'.length = room - bs.length :=
          hpage.stops
        have hends : rest = [] → EndsIdle es → bs'.length < room - bs.length := hpage.ends
        simp only [packPage, hroom, if_false, hpack, hpack']
        refine ⟨?_, ?_, fun h h' => ?_, fun h hidle => ?_, fun h => ?_⟩
        · rw [piecesAll, List.flatMap_cons, fill_append_of_nil _ hrest, hfill]
          exact congrArg (fun r => (bs ++ r.1, r.2)) hpage.fill
        · rw [List.map_cons, List.cons_append, show e' = e.packed from hdone]
          exact congrArg (e.packed :: ·) hpage.kept
        · have := hstops h h'
          rw [List.length_append]
          omega
        · rw [List.length_append]
          by_cases hes : es = []
          · subst hes
            rw [endsIdle_singleton] at hidle
            rw [hidle, Fill.fill_nil, Prod.mk.injEq] at hfill
            rw [packPage, Prod.mk.injEq] at hpack'
            rw [← hfill.1, ← hpack'.1]
            exact Nat.pos_of_ne_zero hroom
          · have := hends h ((endsIdle_cons hes e).mp hidle)
            omega
        · exact (hpage.idle h).trans (endsIdle_cons (hne h) e).symm

theorem PageFills.of_eq {es done rest : List SchedParams} {room : ℕ} {bs : List UInt8}
    (h : packPage es room = (bs, done, rest)) : PageFills es room bs done rest := by
  have := packPage_fills es room
  rwa [h] at this

theorem PageFills.kept_of_rest {es done rest vec : List SchedParams} {room : ℕ}
    {bs : List UInt8} (h : PageFills es room bs done rest)
    (hv : vec.map SchedParams.packed = rest.map SchedParams.packed) :
    (done ++ vec).map SchedParams.packed = es.map SchedParams.packed := by
  have hk := congrArg (List.map SchedParams.packed) h.kept
  rw [List.map_append, hv]
  simpa [Function.comp_def] using hk

def countBytes (numEdits : UInt16) (isFirst : Bool) : List UInt8 :=
  if isFirst then Codec.u32.encode numEdits.toUInt32 else []

theorem length_countBytes_le (numEdits : UInt16) (isFirst : Bool) :
    (countBytes numEdits isFirst).length ≤ 4 := by
  cases isFirst <;> simp [countBytes]

/-- The bytes of the pages that the page loop goes through when no page fails. -/
inductive Pages (numEdits : UInt16) : Bool → List SchedParams → List (List UInt8) → Prop
  | nil {isFirst} : Pages numEdits isFirst [] []
  | page {isFirst es bs done rest pages} : es ≠ [] →
      packPage es (pageSize - (countBytes numEdits isFirst).length) = (bs, done, rest) →
      Pages numEdits false rest pages →
      Pages numEdits isFirst es ((countBytes numEdits isFirst ++ bs) :: pages)

section Pages

variable {numEdits : UInt16} {isFirst : Bool} {es done rest : List SchedParams}
  {bs : List UInt8} {pages : List (List UInt8)}

theorem packPage_progress (hne : es ≠ [])
    (hpack : packPage es (pageSize - (countBytes numEdits isFirst).length) = (bs, done, rest)) :
    rest.length + (piecesAll rest).length < es.length + (piecesAll es).length := by
  have hpage := PageFills.of_eq hpack
  have hcount := length_countBytes_le numEdits isFirst
  have hlen : rest.length ≤ es.length := by
    have := congrArg List.length hpage.kept
    simp only [List.length_append, List.length_map] at this
    omega
  have hfill := hpage.fill
  by_cases hp : piecesAll es = []
  · have hrest : rest = [] := by
      by_contra h
      rw [hp, Fill.fill_nil, Prod.mk.injEq] at hfill
      have := hpage.stops h hfill.2.symm
      rw [← hfill.1, List.length_nil, pageSize] at this
      omega
    have hpos := List.length_pos_of_ne_nil hne
    simp only [hrest, piecesAll, List.flatMap_nil, List.length_nil]
    omega
  · have hsmall : ∀ p ∈ piecesAll es,
        p.length ≤ pageSize - (countBytes numEdits isFirst).length := by
      intro p h
      have := (piecesAll_bounds h).2
      rw [pageSize]
      omega
    have hlt := Fill.length_fill_snd_lt hp hsmall
    rw [hfill] at hlt
    exact Nat.add_lt_add_of_le_of_lt hlen hlt

theorem exists_pages (numEdits : UInt16) (isFirst : Bool) (es : List SchedParams) :
    ∃ pages, Pages numEdits isFirst es pages := by
  generalize hn : es.length + (piecesAll es).length = n
  induction n using Nat.strongRecOn generalizing isFirst es with
  | _ n ih =>
    by_cases hne : es = []
    · subst hne
      exact ⟨[], .nil⟩
    · rcases hpack : packPage es (pageSize - (countBytes numEdits isFirst).length) with
        ⟨bs, done, rest⟩
      obtain ⟨pages, hpages⟩ := ih _ (hn ▸ packPage_progress hne hpack) false rest rfl
      exact ⟨_, .page hne hpack hpages⟩

theorem Pages.length_le (h : Pages numEdits isFirst es pages) :
    pages.length ≤ es.length + (piecesAll es).length := by
  induction h with
  | nil => exact Nat.zero_le _
  | page hne hpack _ ih =>
    have hlt := packPage_progress hne hpack
    rw [List.length_cons]
    omega

theorem length_piecesAll_le (es : List SchedParams) :
    es.length + (piecesAll es).length ≤ pagesBound es := by
  induction es with
  | nil => exact Nat.zero_le _
  | cons e es ih =>
    have he := e.length_pieces_le
    simp only [piecesAll, pagesBound, List.length_cons, List.flatMap_cons, List.length_append,
      List.map_cons, List.sum_cons] at ih ⊢
    omega

theorem length_page_le
    (hpack : packPage es (pageSize - (countBytes numEdits isFirst).length) = (bs, done, rest)) :
    (countBytes numEdits isFirst ++ bs).length ≤ pageSize := by
  have hle := Fill.length_fill_le (piecesAll es) (pageSize - (countBytes numEdits isFirst).length)
  have hcount := length_countBytes_le numEdits isFirst
  rw [(PageFills.of_eq hpack).fill] at hle
  simp only [List.length_append, pageSize] at hle ⊢
  omega

theorem Pages.flatten (h : Pages numEdits isFirst es pages) (hne : es ≠ []) :
    pages.flatten = countBytes numEdits isFirst ++ (piecesAll es).flatten := by
  induction h with
  | nil => exact absurd rfl hne
  | @page isFirst es bs done rest pages hne hpack hpages ih =>
    have hflat := Fill.fill_flatten (piecesAll es)
      (pageSize - (countBytes numEdits isFirst).length)
    rw [(PageFills.of_eq hpack).fill] at hflat
    have hrest : pages.flatten = (piecesAll rest).flatten := by
      by_cases hr : rest = []
      · subst hr
        cases hpages with
        | nil => rfl
        | page hne' => exact absurd rfl hne'
      · simpa [countBytes] using ih hr
    rw [List.flatten_cons, hrest, List.append_assoc]
    exact congrArg (countBytes numEdits isFirst ++ ·) hflat

theorem Pages.eq_empty_page (h : Pages numEdits false es pages) (hne : es ≠ [])
    (hp : piecesAll es = []) : [] ∈ pages := by
  cases h with
  | nil => exact absurd rfl hne
  | @page _ _ bs done rest pages _ hpack _ =>
    have hfill := (PageFills.of_eq hpack).fill
    rw [hp, Fill.fill_nil, Prod.mk.injEq] at hfill
    rw [← hfill.1]
    exact List.mem_cons_self

/-- A page is empty exactly when the pieces end at the end of a page and the last element has
none. -/
theorem Pages.empty_mem_iff (h : Pages numEdits isFirst es pages)
    (hs : isFirst = true ∨ piecesAll es ≠ [] ∨ es = []) :
    [] ∈ pages ↔
      endOffset pageSize (countBytes numEdits isFirst).length (piecesAll es) = pageSize ∧
        EndsIdle es := by
  induction h with
  | nil => exact iff_of_false List.not_mem_nil fun h => not_endsIdle_nil h.2
  | @page isFirst es bs done rest pages hne hpack hpages ih =>
    have hpage := PageFills.of_eq hpack
    have hcount := length_countBytes_le numEdits isFirst
    have hfirst : countBytes numEdits isFirst ++ bs ≠ [] := by
      rcases hs with rfl | hp | rfl
      · exact List.append_ne_nil_of_left_ne_nil
          (List.ne_nil_of_length_pos (by simp [countBytes])) _
      · refine List.append_ne_nil_of_right_ne_nil _ ?_
        have hsmall : ∀ p ∈ piecesAll es,
            p ≠ [] ∧ p.length ≤ pageSize - (countBytes numEdits isFirst).length := by
          intro p h
          obtain ⟨hne, hlen⟩ := piecesAll_bounds h
          refine ⟨hne, ?_⟩
          rw [pageSize]
          omega
        have hbs := Fill.fill_ne_nil hp hsmall
        rwa [hpage.fill] at hbs
      · exact absurd rfl hne
    have hoff : (countBytes numEdits isFirst).length ≤ pageSize :=
      Nat.le_trans hcount (by decide)
    have hfits : ∀ p ∈ piecesAll es, p.length ≤ pageSize :=
      fun p h => Nat.le_trans (piecesAll_bounds h).2 (by decide)
    have hend := endOffset_eq hoff hfits
    simp only [hpage.fill] at hend
    rw [List.mem_cons, or_iff_right hfirst.symm]
    by_cases hr : rest = []
    · subst hr
      obtain rfl : pages = [] := by
        cases hpages with
        | nil => rfl
        | page hne' => exact absurd rfl hne'
      apply iff_of_false
      · exact List.not_mem_nil
      · rintro ⟨hoff, hidle⟩
        have hlt := hpage.ends rfl hidle
        rw [if_pos piecesAll_nil] at hend
        omega
    · by_cases hp : piecesAll rest = []
      · apply iff_of_true
        · exact hpages.eq_empty_page hr hp
        · constructor
          · have hfull := hpage.stops hr hp
            rw [if_pos hp] at hend
            rw [hend, hfull, pageSize]
            omega
          · exact (hpage.idle hr).mp (endsIdle_of_piecesAll hr hp)
      · rw [if_neg hp] at hend
        rw [ih (.inr (.inl hp)), hend, hpage.idle hr]
        rfl

/-- What the page loop writes: its messages carry the first of the pages, and all of them when
it succeeds. -/
structure Carries (io : ℕ → PageIO) (es : List SchedParams) (pages : List (List UInt8))
    (out : PagesOut) : Prop where
  payloads : out.sent.map Sent.payload <+: pages
  sizes : ∀ s ∈ out.sent, s.msg.size.toNat = s.payload.length
  kept : out.vec.map SchedParams.packed = es.map SchedParams.packed
  done : out.ret = .noError →
    out.sent.map Sent.payload = pages ∧ out.vec = es.map SchedParams.packed
  succeeds : (∀ k, (io k).Succeeds) → out.ret = .noError

theorem carries_failed {io : ℕ → PageIO} {vec : List SchedParams}
    (hk : vec.map SchedParams.packed = es.map SchedParams.packed) (hio : ¬ (io 0).Succeeds) :
    Carries io es pages ⟨.ioError, [], vec⟩ where
  payloads := List.nil_prefix
  sizes := nofun
  kept := hk
  done := nofun
  succeeds h := absurd (h 0) hio

theorem Carries.cons {io : ℕ → PageIO} {room : ℕ} {bytes stale : List UInt8} {msg : CmdListMsg}
    {isFirst isLast : Bool} {out : PagesOut}
    (hc : Carries (fun k => io (k + 1)) rest pages out) (hlen : bytes.length ≤ pageSize)
    (hpage : PageFills es room bs done rest) :
    Carries io es (bytes :: pages)
      { out with
        sent := ⟨msg.forPage isFirst isLast bytes.length, bytes ++ stale⟩ :: out.sent
        vec := done ++ out.vec } := by
  have hpay : Sent.payload ⟨msg.forPage isFirst isLast bytes.length, bytes ++ stale⟩ = bytes :=
    payload_forPage hlen
  refine ⟨?_, List.forall_mem_cons.mpr ⟨?_, hc.sizes⟩, hpage.kept_of_rest hc.kept,
    fun hret => ⟨?_, ?_⟩, fun hs => hc.succeeds fun k => hs (k + 1)⟩
  · rw [List.map_cons, hpay]
    exact (List.prefix_cons_inj bytes).mpr hc.payloads
  · rw [hpay]
    exact UInt16.toNat_ofNat_of_lt' (Nat.lt_of_le_of_lt hlen (by decide))
  · rw [List.map_cons, hpay, (hc.done hret).1]
  · simp only [(hc.done hret).2]
    exact hpage.kept

theorem sendPages_carries (msg : CmdListMsg) {fuel : ℕ} (io : ℕ → PageIO)
    (h : Pages numEdits isFirst es pages) (hfuel : pages.length ≤ fuel) :
    ∃ out, sendPages msg numEdits fuel io isFirst es = some out ∧ Carries io es pages out := by
  induction h generalizing fuel io with
  | @nil isFirst =>
    have hnil : sendPages msg numEdits fuel io isFirst [] = some ⟨.noError, [], []⟩ := by
      cases fuel <;> rfl
    exact ⟨_, hnil, List.prefix_refl _, nofun, rfl, fun _ => ⟨rfl, rfl⟩, fun _ => rfl⟩
  | @page isFirst es bs done rest pages hne hpack _ ih =>
    cases fuel with
    | zero => cases hfuel
    | succ fuel =>
      cases es with
      | nil => exact absurd rfl hne
      | cons e es =>
        have hlen := length_page_le hpack
        have hpage := PageFills.of_eq hpack
        by_cases hcont : (io 0).cont ≠ some pageSize
        · exact ⟨_, if_pos hcont, carries_failed rfl fun hs => hcont hs.1⟩
        · have hpack' := hpack
          rw [countBytes] at hpack'
          simp only [sendPages, hcont, if_false, hpack']
          cases hw : (io 0).written with
          | false =>
            refine ⟨_, rfl, carries_failed (hpage.kept_of_rest rfl) fun hs => ?_⟩
            exact absurd hs.2 (by simp [hw])
          | true =>
            obtain ⟨out, hout, hc⟩ := ih (fun k => io (k + 1))
              (Nat.le_of_succ_le_succ hfuel)
            simp only [if_true, hout, Option.map_some]
            exact ⟨_, rfl, hc.cons hlen hpage⟩

end Pages

namespace CmdList

variable {l : CmdList}

theorem sendToCard_carries (opcode : CmdListOpcode) (io : ℕ → PageIO) (hne : l.vec ≠ [])
    (h0 : l.numEdits ≠ 0) {pages : List (List UInt8)}
    (hpages : Pages l.numEdits true l.vec pages) :
    ∃ out, Carries io l.vec pages out ∧ l.sendToCard opcode false io =
      some (out.ret, out.sent, { l with
        vec := if out.ret = .noError then out.vec else out.vec.map SchedParams.clearEdits
        numEdits := 0 }) := by
  obtain ⟨out, hout, hc⟩ := sendPages_carries (l.cmdMsg opcode) io hpages
    (Nat.le_trans hpages.length_le (length_piecesAll_le l.vec))
  have hemp : l.vec.isEmpty = false := by simpa using hne
  exact ⟨out, hc, by simp [sendToCard, hemp, h0, hout]⟩

/-- What a call of `send_to_card` does on a list with any edit flags. -/
inductive Sends (l : CmdList) (io : ℕ → PageIO) : NNPError → List Sent → CmdList → Prop
  | refused {ret} : ret ≠ .noError → Sends l io ret [] l
  | noEdits {msg} : l.numEdits = 0 → Sends l io .noError [⟨msg, []⟩] l
  | pages {pages out} : l.vec ≠ [] → l.numEdits ≠ 0 → Pages l.numEdits true l.vec pages →
      Carries io l.vec pages out →
      Sends l io out.ret out.sent
        { l with
          vec := if out.ret = .noError then out.vec else out.vec.map SchedParams.clearEdits
          numEdits := 0 }

theorem sendToCard_sends {opcode : CmdListOpcode} {broken : Bool} {io : ℕ → PageIO}
    {ret : NNPError} {sent : List Sent} {l' : CmdList}
    (h : l.sendToCard opcode broken io = some (ret, sent, l')) : l.Sends io ret sent l' := by
  by_cases hne : l.vec = []
  · rw [sendToCard, hne] at h
    cases h
    exact .refused (by decide)
  have hemp : l.vec.isEmpty = false := by simpa using hne
  cases broken with
  | true =>
    simp only [sendToCard, hemp, Bool.false_eq_true, if_false, if_true] at h
    cases h
    exact .refused (by decide)
  | false =>
    by_cases h0 : l.numEdits = 0
    · cases hw : (io 0).written <;>
        simp only [sendToCard, hemp, h0, hw, Bool.false_eq_true, if_false, if_true] at h <;>
        cases h
      · exact .refused (by decide)
      · exact .noEdits h0
    · obtain ⟨pages, hpages⟩ := exists_pages l.numEdits true l.vec
      obtain ⟨out, hc, hsend⟩ := sendToCard_carries opcode io hne h0 hpages
      cases hsend.symm.trans h
      exact .pages hne h0 hpages hc

/-- The messages of a call of `send_to_card` that a page of the ring was consumed for. -/
def pageMessages (l : CmdList) (sent : List Sent) : List Sent :=
  if l.numEdits = 0 then [] else sent

/-- Every message that a page is consumed for announces at least one byte of it. -/
def AnnouncesPages (l : CmdList) : Prop :=
  ∀ opcode broken io ret sent l', l.sendToCard opcode broken io = some (ret, sent, l') →
    ∀ s ∈ l.pageMessages sent, 1 ≤ s.msg.size.toNat

/-- The count and the pieces of the edited elements end at the end of a page, and the last
element is not edited. -/
def FillsLastPage (l : CmdList) : Prop :=
  l.numEdits ≠ 0 ∧ endOffset pageSize 4 (piecesAll l.vec) = pageSize ∧ EndsIdle l.vec

instance : Decidable l.FillsLastPage := inferInstanceAs (Decidable (_ ∧ _ ∧ _))

theorem exists_empty_page (h : l.FillsLastPage) (opcode : CmdListOpcode) (io : ℕ → PageIO)
    (hio : ∀ k, (io k).Succeeds) :
    ∃ sent l', l.sendToCard opcode false io = some (.noError, sent, l') ∧
      ∃ s ∈ l.pageMessages sent, s.msg.size = 0 := by
  obtain ⟨h0, hoff, hidle⟩ := h
  have hne : l.vec ≠ [] := by
    intro hnil
    rw [hnil] at hidle
    exact not_endsIdle_nil hidle
  obtain ⟨pages, hpages⟩ := exists_pages l.numEdits true l.vec
  obtain ⟨out, hc, hsend⟩ := sendToCard_carries opcode io hne h0 hpages
  have hret := hc.succeeds hio
  have hmem : [] ∈ out.sent.map Sent.payload := by
    rw [(hc.done hret).1, hpages.empty_mem_iff (.inl rfl)]
    exact ⟨by simpa [countBytes] using hoff, hidle⟩
  obtain ⟨s, hs, hpay⟩ := List.mem_map.mp hmem
  refine ⟨out.sent, _, hret ▸ hsend, s, ?_, ?_⟩
  · rwa [pageMessages, if_neg h0]
  · apply UInt16.toNat_inj.mp
    rw [hc.sizes s hs, hpay]
    rfl

/-- No page is empty unless the edits fill the last of their pages and an element without
edits comes after them. -/
theorem announcesPages_iff (l : CmdList) : l.AnnouncesPages ↔ ¬ l.FillsLastPage := by
  constructor
  · intro h hfill
    obtain ⟨sent, l', hsend, s, hs, hsize⟩ := exists_empty_page hfill .chanScheduleCmdlist
      (fun _ => ⟨some pageSize, [], true⟩) fun _ => ⟨rfl, rfl⟩
    have := h _ _ _ _ _ _ hsend s hs
    rw [hsize] at this
    exact absurd this (by decide)
  · intro h opcode broken io ret sent l' hsend s hs
    cases sendToCard_sends hsend with
    | refused => rw [pageMessages, ite_self] at hs; cases hs
    | noEdits h0 => rw [pageMessages, if_pos h0] at hs; cases hs
    | pages hne h0 hpages hc =>
      rw [pageMessages, if_neg h0] at hs
      have hmem := hc.payloads.mem (List.mem_map_of_mem hs)
      rw [hc.sizes s hs, Nat.one_le_iff_ne_zero, ne_eq, List.length_eq_zero_iff]
      intro hnil
      rw [hnil, hpages.empty_mem_iff (.inl rfl)] at hmem
      exact h ⟨h0, by simpa [countBytes] using hmem.1, hmem.2⟩

/-- 252 copies and six infer requests without parameters, all edited, fill the first page
after the count; the last infer request is not edited. -/
def fullPageList : CmdList :=
  let copies := (List.range 252).map fun i =>
    SchedParams.copy ⟨⟨1, true, true, 64⟩, 0, 64, UInt16.ofNat i, true⟩
  let infReqs := (List.range 7).map fun i =>
    SchedParams.infReq ⟨0, 0, true, 0, 0, false, false, UInt16.ofNat (252 + i), i < 6⟩
  { create 0 0 true with finalized := true, vec := copies ++ infReqs, numEdits := 258 }

theorem fullPageList_empty_page : ¬ fullPageList.AnnouncesPages := by
  intro h
  obtain ⟨sent, l', hsend, s, hs, hsize⟩ := exists_empty_page (l := fullPageList)
    (by decide +kernel) .chanScheduleCmdlist
    (fun _ => ⟨some pageSize, [], true⟩) fun _ => ⟨rfl, rfl⟩
  have := h _ _ _ _ _ _ hsend s hs
  rw [hsize] at this
  exact absurd this (by decide)

end CmdList

end NNPIHost.CommandList

import Mathlib.Data.Set.Subsingleton
import NNPIHost.Context.CreateReply
import NNPIHost.Store.Search

/-! # The order of the reply keys

Two keys of one type are compared by an id only if both give it. If the keys of each type give
the same ids, this is a strict weak order, and the map of the replies finds what was stored. Keys
that give different ids break it: the one that leaves an id out counts as two that differ in it.
-/

namespace NNPIHost

/-- Which of its two ids a key gives. -/
structure KeyForm where
  id : Bool
  id2 : Bool
  deriving DecidableEq

/-- An id of 16 bits, or that of a key that does not give it. -/
def IsObjId (i : ℤ) : Prop := i = -1 ∨ 0 ≤ i ∧ i < 65536

instance : DecidablePred IsObjId := fun _ => inferInstanceAs (Decidable (_ ∨ _))

namespace InfContextObjID

def form (a : InfContextObjID) : KeyForm := ⟨a.id ≠ -1, a.id2 ≠ -1⟩

/-- A key of the type and form with the given values for its ids. -/
def ofForm (t : InfContextObjType) (f : KeyForm) (id id2 : UInt16) : InfContextObjID :=
  ⟨t, if f.id then id.toNat else -1, if f.id2 then id2.toNat else -1⟩

theorem form_ofForm (t : InfContextObjType) (f : KeyForm) (id id2 : UInt16) :
    (ofForm t f id id2).form = f := by
  obtain ⟨_ | _, _ | _⟩ := f <;> simp [form, ofForm]

theorem equiv_ofForm {t : InfContextObjType} {f g : KeyForm} {i i2 j j2 : UInt16} :
    (ofForm t f i i2).equiv (ofForm t g j j2) = true ↔
      (f.id = true → g.id = true → i = j) ∧ (f.id2 = true → g.id2 = true → i2 = j2) := by
  have hval (a b : UInt16) : (a.toNat : ℤ) = b.toNat ↔ a = b := by
    rw [← UInt16.toNat_inj]
    omega
  rw [equiv_iff]
  obtain ⟨_ | _, _ | _⟩ := f <;> obtain ⟨_ | _, _ | _⟩ := g <;> simp [ofForm, hval]

theorem type_eq_of_val {t u : InfContextObjType} (h : t.val = u.val) : t = u := by
  cases t <;> cases u <;> first | rfl | cases h

theorem lt_or_lt_of_lt {a b c : InfContextObjID} (hab : a.type = b.type → a.form = b.form)
    (hbc : b.type = c.type → b.form = c.form) (h : a.lt c = true) :
    a.lt b = true ∨ b.lt c = true := by
  simp only [form, KeyForm.mk.injEq, decide_eq_decide] at hab hbc
  have htab := @type_eq_of_val a.type b.type
  have htbc := @type_eq_of_val b.type c.type
  simp only [lt] at h ⊢
  grind

theorem not_lt_of_lt {a b : InfContextObjID} (h : a.lt b = true) : ¬ b.lt a = true := by
  simp only [lt] at h ⊢
  grind

theorem isObjId_ite (given : Bool) (id : UInt16) :
    IsObjId (if given then (id.toNat : ℤ) else -1) := by
  have hlt := id.toNat_lt
  cases given with
  | true => exact .inr ⟨Int.natCast_nonneg _, Int.ofNat_lt.mpr hlt⟩
  | false => exact .inl rfl

end InfContextObjID

/-- A key that the driver builds, when the keys of each type have the given forms. -/
structure ReplyKey (forms : InfContextObjType → Set KeyForm) where
  key : InfContextObjID
  isObjId : IsObjId key.id
  isObjId2 : IsObjId key.id2
  form_mem : key.form ∈ forms key.type

theorem EventReport.isObjId_replyKey {ev : EventReport} {key : InfContextObjID}
    (h : ev.replyKey = some key) : IsObjId key.id ∧ IsObjId key.id2 := by
  have hid (given : Bool) (id : BitVec 16) :
      IsObjId (if given then (id.toNat : ℤ) else -1) :=
    InfContextObjID.isObjId_ite given (.ofBitVec id)
  unfold replyKey at h
  extract_lets mk at h
  split at h
  case h_26 => cases h
  all_goals
    obtain rfl := Option.some.inj h
    exact ⟨hid ev.objValid ev.objId, hid ev.objValid2 ev.objId2⟩

namespace ReplyKey

open InfContextObjID

variable {forms : InfContextObjType → Set KeyForm}

/-- `operator<` on these keys. -/
def Lt (a b : ReplyKey forms) : Prop := a.key.lt b.key = true

instance : DecidableRel (@Lt forms) := fun _ _ => inferInstanceAs (Decidable (_ = true))

/-- Neither is less than the other exactly when the map takes them for the same key. -/
theorem incomp_iff {a b : ReplyKey forms} :
    ¬ Lt a b ∧ ¬ Lt b a ↔ a.key.equiv b.key = true := by
  simp [Lt, equiv]

/-- The key of a form that the type has. -/
def ofForm (t : InfContextObjType) (f : KeyForm) (hf : f ∈ forms t) (id id2 : UInt16) :
    ReplyKey forms where
  key := InfContextObjID.ofForm t f id id2
  isObjId := isObjId_ite f.id id
  isObjId2 := isObjId_ite f.id2 id2
  form_mem := (form_ofForm t f id id2).symm ▸ hf

/-- The keys of each type give the same ids. -/
def Uniform (forms : InfContextObjType → Set KeyForm) : Prop := ∀ t, (forms t).Subsingleton

theorem not_isStrictWeakOrder {t : InfContextObjType} {f g : KeyForm} (hf : f ∈ forms t)
    (hg : g ∈ forms t) (hne : f.id = true ∧ g.id = false ∨ f.id2 = true ∧ g.id2 = false) :
    ¬ IsStrictWeakOrder (ReplyKey forms) Lt := by
  intro h
  rcases hne with ⟨hgiven, hleft⟩ | ⟨hgiven, hleft⟩
  · have htrans := h.incomp_trans (ofForm t f hf 1 1) (ofForm t g hg 1 1) (ofForm t f hf 2 1)
    simp [incomp_iff, ofForm, equiv_ofForm, hgiven, hleft] at htrans
  · have htrans := h.incomp_trans (ofForm t f hf 1 1) (ofForm t g hg 1 1) (ofForm t f hf 1 2)
    simp [incomp_iff, ofForm, equiv_ofForm, hgiven, hleft] at htrans

theorem isStrictWeakOrder (h : Uniform forms) : IsStrictWeakOrder (ReplyKey forms) Lt := by
  have hform (a b : ReplyKey forms) (ht : a.key.type = b.key.type) : a.key.form = b.key.form :=
    h a.key.type a.form_mem (ht ▸ b.form_mem)
  have hconn : IsOrderConnected (ReplyKey forms) Lt :=
    ⟨fun a b c => lt_or_lt_of_lt (hform a b) (hform b c)⟩
  have hasymm : Std.Asymm (@Lt forms) := ⟨fun _ _ => not_lt_of_lt⟩
  exact isStrictWeakOrder_of_isOrderConnected

/-- `find` on `m_create_reply`, in any tree that keeps the replies in order: it finds the reply
that is stored for the id. -/
def FindsStored (forms : InfContextObjType → Set KeyForm) : Prop :=
  ∀ createReply : Store.SearchTree (ReplyKey forms) EventReport, createReply.Sorted Lt →
    ∀ key reply, (key, reply) ∈ createReply.entries → ∀ id : ReplyKey forms,
      key.key.equiv id.key = true → createReply.find? Lt id = some (key, reply)

theorem findsStored (h : Uniform forms) : FindsStored forms := by
  have hweak := isStrictWeakOrder h
  intro createReply hsorted key reply hmem id hid
  exact hsorted.find?_eq hmem (incomp_iff.mpr hid)

/-- The ids that the keys of waiters give. -/
def waiterForm : InfContextObjType → KeyForm
  | .context => ⟨false, false⟩
  | .infreq => ⟨true, true⟩
  | .devres | .copy | .devnet | .cmd | .p2p => ⟨true, false⟩

theorem form_objId (kind : RequestKind) {id id2 : ℤ} (hid : id ≠ -1) (hid2 : id2 ≠ -1) :
    (kind.objId id id2).form = waiterForm (kind.objId id id2).type := by
  cases kind <;> simp [RequestKind.objId, form, waiterForm, hid, hid2]

theorem isStrictWeakOrder_waiters :
    IsStrictWeakOrder (ReplyKey fun t => {waiterForm t}) Lt ∧
      FindsStored fun t => {waiterForm t} :=
  have huniform : Uniform fun t => {waiterForm t} := fun _ => Set.subsingleton_singleton
  ⟨isStrictWeakOrder huniform, findsStored huniform⟩

/-- The comparison is a strict weak order, and the map finds what is stored, exactly when the
keys of each type give the same ids. -/
theorem isStrictWeakOrder_iff (forms : InfContextObjType → Set KeyForm) :
    IsStrictWeakOrder (ReplyKey forms) Lt ∧ FindsStored forms ↔ Uniform forms := by
  constructor
  · rintro ⟨hweak, _⟩ t f hf g hg
    by_contra hne
    have hdiff : (f.id = true ∧ g.id = false ∨ f.id2 = true ∧ g.id2 = false) ∨
        (g.id = true ∧ f.id = false ∨ g.id2 = true ∧ f.id2 = false) := by
      obtain ⟨_ | _, _ | _⟩ := f <;> obtain ⟨_ | _, _ | _⟩ := g <;> simp at hne ⊢
    rcases hdiff with hdiff | hdiff
    · exact not_isStrictWeakOrder hf hg hdiff hweak
    · exact not_isStrictWeakOrder hg hf hdiff hweak
  · intro huniform
    exact ⟨isStrictWeakOrder huniform, findsStored huniform⟩

/-- Two replies about one network, and a waiter that leaves the second id out. -/
theorem wildcard_breaks_order :
    ¬ (IsStrictWeakOrder (ReplyKey fun _ => Set.univ) Lt ∧ FindsStored fun _ => Set.univ) := by
  rintro ⟨h, _⟩
  have htrans := h.incomp_trans
    ⟨⟨.devnet, 7, 1⟩, by decide, by decide, trivial⟩
    ⟨⟨.devnet, 7, -1⟩, by decide, by decide, trivial⟩
    ⟨⟨.devnet, 7, 2⟩, by decide, by decide, trivial⟩ (by decide) (by decide)
  exact absurd htrans (by decide)

/-- The order even has cycles. -/
example : (⟨.infreq, 5, 1⟩ : InfContextObjID).lt ⟨.infreq, -1, 2⟩ = true ∧
    (⟨.infreq, -1, 2⟩ : InfContextObjID).lt ⟨.infreq, 3, 3⟩ = true ∧
    (⟨.infreq, 3, 3⟩ : InfContextObjID).lt ⟨.infreq, 5, 1⟩ = true := by
  decide

end ReplyKey

end NNPIHost

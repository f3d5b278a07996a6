import Mathlib.Data.Int.Notation
import Mathlib.Logic.Function.Basic
import NNPIHost.Exec.Run
import NNPIHost.Store.Filtered

/-! # The table of devices

`s_devices` has a weak pointer for each device number. `get` gives the device whose pointer is at
the number, and opens it when there is none. `clear_devices` takes the pointers of devices that
have no channel left out of the vector, and moves the later ones to lower numbers.
-/

namespace NNPIHost

open Store

/-- The fields of an `nnpiDevice` that the table depends on: `m_dev_num`, and for each entry of
`m_chan_fds` whether it is a context. -/
structure OpenDevice where
  devNum : ℕ
  chanFds : List Bool
  deriving DecidableEq, Repr

/-- `close_all_chan_fds`. -/
def OpenDevice.closeAllChanFds (onlyContexts : Bool) (d : OpenDevice) : OpenDevice :=
  { d with chanFds := d.chanFds.filter fun isContext => onlyContexts && !isContext }

/-- What `get` finds: the result of `findMaxDeviceNumber`, whether the device file opens and
whether its addresses can be read. -/
structure OpenOutcome where
  maxDevNum : ℤ
  opened : Bool
  barRead : Bool

/-- The device objects there are, and `s_devices`. -/
structure DeviceTable where
  made : ℕ
  devices : ℕ → Option OpenDevice
  slots : List (Option ℕ)

inductive DeviceTableOp where
  | get (devNum : UInt32) (io : OpenOutcome)
  | createChannel (dev : ℕ) (isContext : Bool)
  | closeChannel (dev : ℕ) (isContext : Bool)
  /-- The last pointer to a device goes. -/
  | destroy (dev : ℕ)
  | clearDevices (onlyContexts : Bool)

namespace DeviceTable

def start : DeviceTable := ⟨0, fun _ => none, []⟩

variable (s : DeviceTable)

/-- `lock` of a weak pointer. -/
def lock (w : Option ℕ) : Option ℕ := w.filter fun x => (s.devices x).isSome

/-- `s_devices` after `resize`. -/
def resized (n : ℕ) : List (Option ℕ) := s.slots ++ List.replicate (n + 1 - s.slots.length) none

def get (devNum : UInt32) (io : OpenOutcome) : Option ℕ × DeviceTable :=
  if devNum + 1 = 0 then (none, s)
  else if s.slots.length ≤ devNum.toNat ∧ io.maxDevNum < devNum.toNat then (none, s)
  else
    let slots := s.resized devNum.toNat
    match s.lock (slots[devNum.toNat]?).join with
    | some x => (some x, { s with slots })
    | none =>
        if io.opened ∧ io.barRead then
          (some s.made,
            { made := s.made + 1
              devices := Function.update s.devices s.made (some ⟨devNum.toNat, []⟩)
              slots := slots.set devNum.toNat (some s.made) })
        else (none, { s with slots })

def modify (x : ℕ) (f : OpenDevice → OpenDevice) : Option DeviceTable :=
  (s.devices x).map fun d => { s with devices := Function.update s.devices x (some (f d)) }

/-- The device is there and loses its last channel. -/
def emptied (onlyContexts : Bool) (x : ℕ) : Bool :=
  (s.devices x).any fun d => (d.closeAllChanFds onlyContexts).chanFds.isEmpty

def clearDevices (onlyContexts : Bool) : DeviceTable :=
  { s with
    devices := fun x =>
      if some x ∈ s.slots then (s.devices x).map (OpenDevice.closeAllChanFds onlyContexts)
      else s.devices x
    slots := s.slots.filter fun w => !w.any (s.emptied onlyContexts) }

def step : DeviceTableOp → Option DeviceTable
  | .get devNum io => some (s.get devNum io).2
  | .createChannel x isContext => s.modify x fun d => { d with chanFds := isContext :: d.chanFds }
  | .closeChannel x isContext =>
      s.modify x fun d => { d with chanFds := d.chanFds.erase isContext }
  | .destroy x => some { s with devices := Function.update s.devices x none }
  | .clearDevices onlyContexts => some (s.clearDevices onlyContexts)

/-- A device that there is is what its number gives. -/
def FoundAgain : Prop :=
  ∀ x d devNum io, s.devices x = some d → devNum.toNat = d.devNum → (s.get devNum io).1 = some x

/-- What a number gives is a device of this number. -/
def RightNumber : Prop :=
  ∀ devNum io x, (s.get devNum io).1 = some x →
    ∃ d, (s.get devNum io).2.devices x = some d ∧ d.devNum = devNum.toNat

/-- Every device keeps a channel: only contexts are closed, and it has another one. -/
def KeepsChannels : DeviceTableOp → Prop
  | .clearDevices onlyContexts => ∀ x d, s.devices x = some d →
      (d.closeAllChanFds onlyContexts).chanFds ≠ []
  | _ => True

/-- No device loses its last channel while one at a later number keeps one. -/
def MovesNone : DeviceTableOp → Prop
  | .clearDevices onlyContexts => ∀ (i j x y : ℕ), i < j → s.slots[i]? = some (some x) →
      s.slots[j]? = some (some y) → s.emptied onlyContexts x = true →
        (s.devices y).isSome → s.emptied onlyContexts y = true
  | _ => True

/-- `FoundAgain` by the slots. -/
def Registered : Prop := ∀ x d, s.devices x = some d → s.slots[d.devNum]? = some (some x)

/-- `RightNumber` by the slots. -/
def Indexed : Prop := ∀ i x d, s.slots[i]? = some (some x) → s.devices x = some d → d.devNum = i

/-- What holds in every run. -/
structure Inv (s : DeviceTable) : Prop where
  length : s.slots.length < 4294967296
  slots : ∀ x, some x ∈ s.slots → x < s.made
  devices : ∀ x d, s.devices x = some d → x < s.made ∧ d.devNum + 1 < 4294967296

variable {s} {t : DeviceTable} {i n x : ℕ} {d : OpenDevice} {w : Option ℕ} {devNum : UInt32}

theorem lock_eq_some : s.lock w = some x ↔ w = some x ∧ (s.devices x).isSome := by
  cases w with
  | none => simp [lock]
  | some y =>
    simp only [lock, Option.filter_some, Option.ite_none_right_eq_some, Option.some.injEq]
    constructor
    · rintro ⟨hy, rfl⟩
      exact ⟨rfl, hy⟩
    · rintro ⟨rfl, hy⟩
      exact ⟨hy, rfl⟩

theorem resized_getElem? (hx : (s.resized n)[i]? = some (some x)) :
    s.slots[i]? = some (some x) := by
  rw [resized, List.getElem?_append] at hx
  split at hx
  · exact hx
  · rw [List.getElem?_replicate] at hx
    split at hx <;> cases hx

theorem getElem?_resized (hx : s.slots[i]? = some (some x)) :
    (s.resized n)[i]? = some (some x) := by
  have hlt := (List.getElem?_eq_some_iff.mp hx).1
  rw [resized, List.getElem?_append_left hlt, hx]

theorem lt_length_resized : n < (s.resized n).length := by
  rw [resized, List.length_append, List.length_replicate]
  omega

theorem toNat_succ_lt (h : ¬ devNum + 1 = 0) : devNum.toNat + 1 < 4294967296 := by
  have hlt := devNum.toNat_lt
  by_contra hge
  apply h
  apply UInt32.toNat_inj.mp
  rw [UInt32.toNat_add, show devNum.toNat = 4294967295 by omega]
  rfl

/-- What `get` does. -/
inductive Got (s : DeviceTable) (devNum : UInt32) (io : OpenOutcome) :
    Option ℕ × DeviceTable → Prop where
  | refused (h : devNum + 1 = 0 ∨ s.slots.length ≤ devNum.toNat) : Got s devNum io (none, s)
  | found (x : ℕ) (hx : s.slots[devNum.toNat]? = some (some x)) (hlive : (s.devices x).isSome) :
      Got s devNum io (some x, { s with slots := s.resized devNum.toNat })
  | opened (hnum : devNum.toNat + 1 < 4294967296) (hio : io.opened = true)
      (hdead : ∀ x, s.slots[devNum.toNat]? = some (some x) → s.devices x = none) :
      Got s devNum io (some s.made,
        { made := s.made + 1
          devices := Function.update s.devices s.made (some ⟨devNum.toNat, []⟩)
          slots := (s.resized devNum.toNat).set devNum.toNat (some s.made) })
  | failed (hnum : devNum.toNat + 1 < 4294967296)
      (hdead : ∀ x, s.slots[devNum.toNat]? = some (some x) → s.devices x = none) :
      Got s devNum io (none, { s with slots := s.resized devNum.toNat })

theorem got (s : DeviceTable) (devNum : UInt32) (io : OpenOutcome) :
    s.Got devNum io (s.get devNum io) := by
  unfold get
  split
  next hnum => exact .refused (.inl hnum)
  next hnum =>
    split
    next hlen => exact .refused (.inr hlen.1)
    next =>
      simp only
      split
      next x hx =>
        obtain ⟨hw, hlive⟩ := lock_eq_some.mp hx
        exact .found x (resized_getElem? (Option.join_eq_some_iff.mp hw)) hlive
      next hnone =>
        have hdead : ∀ x, s.slots[devNum.toNat]? = some (some x) → s.devices x = none := by
          intro x hx
          cases hd : s.devices x with
          | none => rfl
          | some d =>
            have hlock : s.lock ((s.resized devNum.toNat)[devNum.toNat]?).join = some x := by
              rw [getElem?_resized hx]
              exact lock_eq_some.mpr ⟨rfl, by rw [hd]; rfl⟩
            rw [hnone] at hlock
            cases hlock
        split
        next hio => exact .opened (toNat_succ_lt hnum) hio.1 hdead
        next => exact .failed (toNat_succ_lt hnum) hdead

theorem succ_ne_zero (hnum : devNum.toNat + 1 < 4294967296) : ¬ devNum + 1 = 0 := by
  intro h
  have hzero := congrArg UInt32.toNat h
  rw [UInt32.toNat_add, UInt32.toNat_one, Nat.mod_eq_of_lt hnum] at hzero
  cases hzero

theorem Inv.index_lt (h : s.Inv) {w : Option ℕ} (hw : s.slots[i]? = some w) :
    i + 1 ≤ 4294967295 := by
  have hlt := (List.getElem?_eq_some_iff.mp hw).1
  have hlen := h.length
  omega

theorem foundAgain_iff (h : s.Inv) : s.FoundAgain ↔ s.Registered := by
  constructor
  · intro hf x d hd
    have hlt : d.devNum < 4294967296 := Nat.lt_of_succ_lt (h.devices x d hd).2
    have hnum : (UInt32.ofNat d.devNum).toNat = d.devNum := UInt32.toNat_ofNat_of_lt' hlt
    have hget := hf x d _ ⟨-1, false, false⟩ hd hnum
    have hgot := s.got (UInt32.ofNat d.devNum) ⟨-1, false, false⟩
    generalize s.get (UInt32.ofNat d.devNum) ⟨-1, false, false⟩ = r at hget hgot
    cases hgot with
    | refused => cases hget
    | found y hy =>
      obtain rfl := Option.some.inj hget
      rwa [hnum] at hy
    | opened _ hio => cases hio
    | failed => cases hget
  · rintro hr x d devNum io hd hnum
    have hslot := hr x d hd
    rw [← hnum] at hslot
    have hgot := s.got devNum io
    generalize s.get devNum io = r at hgot
    cases hgot with
    | refused hno =>
      rcases hno with hno | hno
      · exact absurd hno (succ_ne_zero (by rw [hnum]; exact (h.devices x d hd).2))
      · rw [List.getElem?_eq_none hno] at hslot
        cases hslot
    | found y hy =>
      rw [hslot] at hy
      exact (Option.some.inj hy).symm
    | opened _ _ hdead =>
      rw [hdead x hslot] at hd
      cases hd
    | failed _ hdead =>
      rw [hdead x hslot] at hd
      cases hd

theorem rightNumber_iff (h : s.Inv) : s.RightNumber ↔ s.Indexed := by
  constructor
  · intro hr i x d hx hd
    have hlt := h.index_lt hx
    have hi : i < 4294967296 := by omega
    have hnum : (UInt32.ofNat i).toNat = i := UInt32.toNat_ofNat_of_lt' hi
    have hright := hr (UInt32.ofNat i) ⟨-1, false, false⟩
    have hgot := s.got (UInt32.ofNat i) ⟨-1, false, false⟩
    generalize s.get (UInt32.ofNat i) ⟨-1, false, false⟩ = r at hright hgot
    cases hgot with
    | refused hno =>
      rcases hno with hno | hno
      · exact absurd hno (succ_ne_zero (by omega))
      · rw [hnum] at hno
        rw [List.getElem?_eq_none hno] at hx
        cases hx
    | found y hy =>
      rw [hnum, hx] at hy
      obtain rfl := Option.some.inj (Option.some.inj hy)
      obtain ⟨d', hd', hnum'⟩ := hright x rfl
      rw [hd] at hd'
      obtain rfl := Option.some.inj hd'
      rw [hnum', hnum]
    | opened _ hio => cases hio
    | failed _ hdead =>
      rw [hnum] at hdead
      rw [hdead x hx] at hd
      cases hd
  · rintro hi devNum io x hx
    have hgot := s.got devNum io
    generalize s.get devNum io = r at hx hgot
    cases hgot with
    | refused => cases hx
    | found y hy hlive =>
      obtain rfl := Option.some.inj hx
      obtain ⟨d, hd⟩ := Option.isSome_iff_exists.mp hlive
      exact ⟨d, hd, hi _ _ _ hy hd⟩
    | opened =>
      obtain rfl := Option.some.inj hx
      exact ⟨⟨devNum.toNat, []⟩, Function.update_self .., rfl⟩
    | failed => cases hx

theorem length_resized (s : DeviceTable) (n : ℕ) :
    (s.resized n).length = max s.slots.length (n + 1) := by
  rw [resized, List.length_append, List.length_replicate]
  omega

theorem mem_resized : some x ∈ s.resized n ↔ some x ∈ s.slots := by
  simp [resized, List.mem_append, List.mem_replicate]

theorem emptied_iff {o : Bool} :
    s.emptied o x = true ↔ ∃ d, s.devices x = some d ∧ (d.closeAllChanFds o).chanFds = [] := by
  simp [emptied, Option.any_eq_true]

/-- The devices of the second table are devices of the first one, under the same numbers. -/
def Fewer (s t : DeviceTable) : Prop :=
  ∀ x d, t.devices x = some d → ∃ d', s.devices x = some d' ∧ d'.devNum = d.devNum

theorem modify_spec {f : OpenDevice → OpenDevice} (hs : s.modify x f = some t)
    (hf : ∀ d, (f d).devNum = d.devNum) : t.made = s.made ∧ t.slots = s.slots ∧ s.Fewer t := by
  obtain ⟨d, hd, rfl⟩ := Option.map_eq_some_iff.mp hs
  refine ⟨rfl, rfl, fun y e hy => ?_⟩
  simp only [Function.update_apply] at hy
  split at hy
  next heq =>
    obtain rfl := Option.some.inj hy
    exact ⟨d, heq ▸ hd, (hf d).symm⟩
  next => exact ⟨e, hy, rfl⟩

theorem fewer_destroy (s : DeviceTable) (x : ℕ) :
    s.Fewer { s with devices := Function.update s.devices x none } := by
  intro y d hy
  simp only [Function.update_apply] at hy
  split at hy
  · cases hy
  · exact ⟨d, hy, rfl⟩

theorem fewer_clearDevices (s : DeviceTable) (o : Bool) : s.Fewer (s.clearDevices o) := by
  intro x d hx
  simp only [clearDevices] at hx
  split at hx
  · obtain ⟨d', hd', rfl⟩ := Option.map_eq_some_iff.mp hx
    exact ⟨d', hd', rfl⟩
  · exact ⟨d, hx, rfl⟩

theorem Inv.fewer (h : s.Inv) (hf : s.Fewer t) (hmade : t.made = s.made)
    (hlen : t.slots.length ≤ s.slots.length) (hsub : ∀ w ∈ t.slots, w ∈ s.slots) : t.Inv where
  length := Nat.lt_of_le_of_lt hlen h.length
  slots x hx := hmade ▸ h.slots x (hsub _ hx)
  devices x d hd := by
    obtain ⟨d', hd', hnum⟩ := hf x d hd
    exact hmade ▸ hnum ▸ h.devices x d' hd'

theorem Registered.fewer (hr : s.Registered) (hf : s.Fewer t) (hslots : t.slots = s.slots) :
    t.Registered := by
  intro x d hd
  obtain ⟨d', hd', hnum⟩ := hf x d hd
  rw [hslots, ← hnum]
  exact hr x d' hd'

theorem Indexed.fewer (hi : s.Indexed) (hf : s.Fewer t) (hslots : t.slots = s.slots) :
    t.Indexed := by
  intro i x d hx hd
  obtain ⟨d', hd', hnum⟩ := hf x d hd
  rw [← hnum]
  exact hi i x d' (hslots ▸ hx) hd'

theorem Inv.resize (h : s.Inv) (hn : n + 1 < 4294967296) :
    ({ s with slots := s.resized n } : DeviceTable).Inv where
  length := by
    have hlen := h.length
    rw [length_resized]
    omega
  slots x hx := h.slots x (mem_resized.mp hx)
  devices := h.devices

theorem Inv.got {r : Option ℕ × DeviceTable} {io : OpenOutcome} (h : s.Inv)
    (hg : s.Got devNum io r) : r.2.Inv := by
  cases hg with
  | refused => exact h
  | found x hx =>
    have hlt := h.index_lt hx
    exact h.resize (by omega)
  | opened hnum =>
    have hres := h.resize hnum
    constructor
    · rw [List.length_set]
      exact hres.length
    · intro x hx
      rcases List.mem_or_eq_of_mem_set hx with hx | hx
      · exact Nat.lt_succ_of_lt (hres.slots x hx)
      · obtain rfl := Option.some.inj hx
        exact Nat.lt_succ_self _
    · intro x d hd
      simp only [Function.update_apply] at hd
      split at hd
      next heq =>
        obtain rfl := Option.some.inj hd
        exact ⟨heq ▸ Nat.lt_succ_self _, hnum⟩
      next =>
        obtain ⟨hx, hd⟩ := h.devices x d hd
        exact ⟨Nat.lt_succ_of_lt hx, hd⟩
  | failed hnum => exact h.resize hnum

theorem Inv.step {op : DeviceTableOp} (h : s.Inv) (hs : s.step op = some t) : t.Inv := by
  cases op with
  | get devNum io =>
    obtain rfl := Option.some.inj hs
    exact h.got (s.got devNum io)
  | createChannel x o =>
    obtain ⟨hmade, hslots, hf⟩ := modify_spec hs fun _ => rfl
    exact h.fewer hf hmade (Nat.le_of_eq (by rw [hslots])) fun w hw => hslots ▸ hw
  | closeChannel x o =>
    obtain ⟨hmade, hslots, hf⟩ := modify_spec hs fun _ => rfl
    exact h.fewer hf hmade (Nat.le_of_eq (by rw [hslots])) fun w hw => hslots ▸ hw
  | destroy x =>
    obtain rfl := Option.some.inj hs
    exact h.fewer (s.fewer_destroy x) rfl (Nat.le_refl _) fun w hw => hw
  | clearDevices o =>
    obtain rfl := Option.some.inj hs
    refine h.fewer (s.fewer_clearDevices o) rfl (List.length_filter_le _ _) fun w hw => ?_
    exact (List.mem_filter.mp hw).1

theorem Registered.got {r : Option ℕ × DeviceTable} {io : OpenOutcome} (hr : s.Registered)
    (hg : s.Got devNum io r) : r.2.Registered := by
  have hold : ∀ {x d}, s.devices x = some d →
      (s.resized devNum.toNat)[d.devNum]? = some (some x) := fun hd => getElem?_resized (hr _ _ hd)
  cases hg with
  | refused => exact hr
  | found => exact fun x d hd => hold hd
  | opened hnum _ hdead =>
    intro x d hd
    simp only [Function.update_apply] at hd
    split at hd
    next heq =>
      obtain rfl := Option.some.inj hd
      rw [heq]
      exact List.getElem?_set_self lt_length_resized
    next =>
      have hne : devNum.toNat ≠ d.devNum := by
        intro heq
        rw [hdead x (heq ▸ hr x d hd)] at hd
        cases hd
      rw [List.getElem?_set_ne hne]
      exact hold hd
  | failed => exact fun x d hd => hold hd

theorem Indexed.got {r : Option ℕ × DeviceTable} {io : OpenOutcome} (h : s.Inv) (hi : s.Indexed)
    (hg : s.Got devNum io r) : r.2.Indexed := by
  have hold : ∀ i x d, (s.resized devNum.toNat)[i]? = some (some x) → s.devices x = some d →
      d.devNum = i := fun i x d hx => hi i x d (resized_getElem? hx)
  cases hg with
  | refused => exact hi
  | found => exact hold
  | opened =>
    intro i x d hx hd
    rw [List.getElem?_set] at hx
    split at hx
    next heq =>
      split at hx
      · obtain rfl := Option.some.inj (Option.some.inj hx)
        simp only [Function.update_self] at hd
        obtain rfl := Option.some.inj hd
        exact heq
      · cases hx
    next =>
      have hlt := h.slots x (List.mem_of_getElem? (resized_getElem? hx))
      have hne : x ≠ s.made := Nat.ne_of_lt hlt
      simp only [Function.update_of_ne hne] at hd
      exact hold i x d hx hd
  | failed => exact hold

theorem registered_clearDevices_iff (hr : s.Registered) (o : Bool) :
    (s.clearDevices o).Registered ↔
      ∀ x d, s.devices x = some d → (d.closeAllChanFds o).chanFds ≠ [] := by
  constructor
  · intro h x d hd hempty
    have hslot := List.mem_of_getElem? (hr x d hd)
    have hd' : (s.clearDevices o).devices x = some (d.closeAllChanFds o) := by
      simp only [clearDevices, if_pos hslot, hd, Option.map_some]
    have hkept := (List.mem_filter.mp (List.mem_of_getElem? (h x _ hd'))).2
    rw [Option.any_some, emptied_iff.mpr ⟨d, hd, hempty⟩] at hkept
    cases hkept
  · intro h
    apply hr.fewer (s.fewer_clearDevices o)
    apply List.filter_eq_self.mpr
    rintro (_ | x) -
    · rfl
    · rw [Option.any_some, Bool.not_eq_true', Bool.eq_false_iff, ne_eq, emptied_iff]
      rintro ⟨d, hd, hempty⟩
      exact h x d hd hempty

theorem indexed_clearDevices_iff (hi : s.Indexed) (o : Bool) :
    (s.clearDevices o).Indexed ↔ s.MovesNone (.clearDevices o) := by
  constructor
  · intro h i j x y hij hx hy hemptied hlive
    by_contra hstays
    obtain ⟨d, hd⟩ := Option.isSome_iff_exists.mp hlive
    have hkeep : (!(some y).any (s.emptied o)) = true := by
      rw [Option.any_some, Bool.not_eq_true', Bool.eq_false_iff]
      exact hstays
    have hplace : (s.clearDevices o).slots[_]? = _ := getElem?_filter_take hy hkeep
    have hd' : (s.clearDevices o).devices y = some (d.closeAllChanFds o) := by
      simp only [clearDevices, if_pos (List.mem_of_getElem? hy), hd, Option.map_some]
    have hnum : (d.closeAllChanFds o).devNum = _ := h _ y _ hplace hd'
    have hj : j ≤ s.slots.length := Nat.le_of_lt (List.getElem?_eq_some_iff.mp hy).1
    have hlen := (length_filter_take_eq_iff hj).mp (hnum.symm.trans (hi j y d hy hd)) i hij _ hx
    rw [Option.any_some, hemptied] at hlen
    cases hlen
  · intro h i x d' hx hd'
    obtain ⟨d, hd, hnum⟩ := s.fewer_clearDevices o x d' hd'
    obtain ⟨j, hj, hkeep, hlen⟩ := exists_of_getElem?_filter hx
    rw [← hnum, hi j x d hj hd, ← hlen, eq_comm]
    apply (length_filter_take_eq_iff (Nat.le_of_lt (List.getElem?_eq_some_iff.mp hj).1)).mpr
    rintro k hk (_ | y) hy
    · rfl
    · rw [Option.any_some, Bool.not_eq_true', Bool.eq_false_iff]
      intro hemptied
      have hx := h k j y x hk hy hj hemptied (by rw [hd]; rfl)
      rw [Option.any_some, hx] at hkeep
      cases hkeep

theorem registered_step_iff {op : DeviceTableOp} (hr : s.Registered) (hs : s.step op = some t) :
    t.Registered ↔ s.KeepsChannels op := by
  cases op with
  | get devNum io =>
    obtain rfl := Option.some.inj hs
    exact iff_of_true (hr.got (s.got devNum io)) trivial
  | createChannel x o =>
    obtain ⟨-, hslots, hf⟩ := modify_spec hs fun _ => rfl
    exact iff_of_true (hr.fewer hf hslots) trivial
  | closeChannel x o =>
    obtain ⟨-, hslots, hf⟩ := modify_spec hs fun _ => rfl
    exact iff_of_true (hr.fewer hf hslots) trivial
  | destroy x =>
    obtain rfl := Option.some.inj hs
    exact iff_of_true (hr.fewer (s.fewer_destroy x) rfl) trivial
  | clearDevices o =>
    obtain rfl := Option.some.inj hs
    exact registered_clearDevices_iff hr o

theorem indexed_step_iff {op : DeviceTableOp} (h : s.Inv) (hi : s.Indexed)
    (hs : s.step op = some t) : t.Indexed ↔ s.MovesNone op := by
  cases op with
  | get devNum io =>
    obtain rfl := Option.some.inj hs
    exact iff_of_true (hi.got h (s.got devNum io)) trivial
  | createChannel x o =>
    obtain ⟨-, hslots, hf⟩ := modify_spec hs fun _ => rfl
    exact iff_of_true (hi.fewer hf hslots) trivial
  | closeChannel x o =>
    obtain ⟨-, hslots, hf⟩ := modify_spec hs fun _ => rfl
    exact iff_of_true (hi.fewer hf hslots) trivial
  | destroy x =>
    obtain rfl := Option.some.inj hs
    exact iff_of_true (hi.fewer (s.fewer_destroy x) rfl) trivial
  | clearDevices o =>
    obtain rfl := Option.some.inj hs
    exact indexed_clearDevices_iff hi o

theorem start_inv : start.Inv where
  length := by decide
  slots x hx := absurd hx List.not_mem_nil
  devices x d hd := by cases hd

/-- In every run, every device that there is is found again by its number, so that no number
gets a second device, exactly while `clear_devices` leaves every device a channel. -/
theorem found_again_iff (ops : List DeviceTableOp) :
    Exec.Always step FoundAgain start ops ↔ Exec.Meets step KeepsChannels start ops := by
  have hreg : start.Registered := fun x d hd => by cases hd
  refine Exec.always_iff_meets ((foundAgain_iff start_inv).mpr hreg) start_inv ?_ ?_
  · intro s op t h hf hs
    have ht := h.step hs
    exact ⟨ht, (foundAgain_iff ht).trans (registered_step_iff ((foundAgain_iff h).mp hf) hs)⟩
  · intro s op _ _ hs
    cases op with
    | clearDevices o => cases hs
    | _ => trivial

/-- In every run, a look-up gives a device of the number it is asked for exactly while
`clear_devices` takes no device out of the vector that one with channels left comes after. -/
theorem right_number_iff (ops : List DeviceTableOp) :
    Exec.Always step RightNumber start ops ↔ Exec.Meets step MovesNone start ops := by
  have hidx : start.Indexed := fun i x d hx => by cases hx
  refine Exec.always_iff_meets ((rightNumber_iff start_inv).mpr hidx) start_inv ?_ ?_
  · intro s op t h hr hs
    have ht := h.step hs
    exact ⟨ht, (rightNumber_iff ht).trans (indexed_step_iff h ((rightNumber_iff h).mp hr) hs)⟩
  · intro s op _ _ hs
    cases op with
    | clearDevices o => cases hs
    | _ => trivial

/-- The first device has only a context, the second one another channel. With the contexts
closed, the second device is what the number of the first one gives. -/
example : (Exec.run step start [.get 0 ⟨1, true, true⟩, .get 1 ⟨1, true, true⟩,
    .createChannel 0 true, .createChannel 1 false, .clearDevices true]).map
      (fun s => (s.get 0 ⟨1, true, true⟩).1) = some (some 1) := by
  decide

end DeviceTable

end NNPIHost

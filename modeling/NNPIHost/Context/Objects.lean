import NNPIHost.Memory.Counted

/-! # Who holds whom

The objects of the driver hold one another by shared pointers. Most of these lead down, from a
request to its network, from there to the context, to its channel and to the device. Three kinds
lead up or across: `m_this` of a context or a channel, the entries of a context's object
database, and the peer of a device resource.
-/

namespace NNPIHost.Lifetime

open Memory Relation Store

inductive Kind
  | hostProc | device | hostRes | ringBuffer | channel | infContext | devRes | devNet
  | copyCommand | infReq | commandList
  deriving DecidableEq, Repr

/-- The references of a kind lead to kinds of a smaller rank, but for those that close circles. -/
def Kind.rank : Kind → ℕ
  | hostProc | device => 0
  | hostRes => 1
  | ringBuffer => 2
  | channel => 3
  | infContext => 4
  | devRes => 5
  | devNet | copyCommand => 6
  | infReq => 7
  | commandList => 8

/-- The kinds of `nnpiContextObjDB`'s entries. -/
def objDBKinds : List Kind := [.copyCommand, .devNet, .infReq, .commandList]

/-- The shared pointers in an `nnpiChannel`. -/
structure Channel where
  this : Option ℕ
  proc : ℕ
  dev : ℕ
  ringbufs : List ℕ := []
  deriving DecidableEq, Repr

/-- The shared pointers in an `nnpiInfContext`, with those of its object database and those of
the host resources in its error list. -/
structure InfContext where
  this : Option ℕ := none
  chan : Option ℕ := none
  rings : List ℕ := []
  objdb : List ℕ := []
  failedHostres : List ℕ := []
  deriving DecidableEq, Repr

/-- The shared pointers in an `nnpiCopyCommand`. A subresource copy has a host resource only
while it is scheduled, and a copy between devices has a source instead. -/
structure CopyCommand where
  subres : Bool
  ctx : ℕ
  devres : ℕ
  hostres : Option ℕ := none
  srcDevres : Option ℕ := none
  deriving DecidableEq, Repr

inductive Obj
  | hostProc
  | device (number : ℕ)
  | hostRes (proc : ℕ) (alloced : Bool)
  | ringBuffer (hostres : ℕ)
  | channel (c : Channel)
  | infContext (c : InfContext)
  | devRes (ctx : ℕ) (peer : Option ℕ)
  | devNet (ctx : ℕ) (devres : List ℕ)
  | copyCommand (c : CopyCommand)
  | infReq (devnet : ℕ) (inputs outputs : List ℕ)
  | commandList (ctx : ℕ) (vec failedHostres : List ℕ)
  deriving DecidableEq, Repr

namespace Obj

def kind : Obj → Kind
  | hostProc => .hostProc
  | device _ => .device
  | hostRes _ _ => .hostRes
  | ringBuffer _ => .ringBuffer
  | channel _ => .channel
  | infContext _ => .infContext
  | devRes _ _ => .devRes
  | devNet _ _ => .devNet
  | copyCommand _ => .copyCommand
  | infReq _ _ _ => .infReq
  | commandList _ _ _ => .commandList

/-- The pointers that lead down, with the kinds of what they point to. -/
def down : Obj → List (List Kind × ℕ)
  | hostProc => []
  | device _ => []
  | hostRes p _ => [([.hostProc], p)]
  | ringBuffer h => [([.hostRes], h)]
  | channel c =>
      ([.hostProc], c.proc) :: ([.device], c.dev) :: c.ringbufs.map fun r => ([.ringBuffer], r)
  | infContext c =>
      (c.chan.toList.map fun ch => ([.channel], ch)) ++
        (c.rings.map fun r => ([.ringBuffer], r)) ++
        c.failedHostres.map fun h => ([.hostRes], h)
  | devRes c _ => [([.infContext], c)]
  | devNet c rs => ([.infContext], c) :: rs.map fun r => ([.devRes], r)
  | copyCommand c =>
      ([.infContext], c.ctx) :: ([.devRes], c.devres) ::
        ((c.hostres.toList.map fun h => ([.hostRes], h)) ++
          c.srcDevres.toList.map fun r => ([.devRes], r))
  | infReq n ins outs => ([.devNet], n) :: (ins ++ outs).map fun r => ([.devRes], r)
  | commandList c vec failed =>
      ([.infContext], c) :: ((vec.map fun x => ([.copyCommand, .infReq], x)) ++
        failed.map fun h => ([.hostRes], h))

/-- The pointers that can close a circle. -/
def loops : Obj → List (List Kind × ℕ)
  | channel c => c.this.toList.map fun x => ([.channel], x)
  | infContext c =>
      (c.this.toList.map fun x => ([.infContext], x)) ++ c.objdb.map fun x => (objDBKinds, x)
  | devRes _ peer => peer.toList.map fun r => ([.devRes], r)
  | _ => []

def typedRefs (o : Obj) : List (List Kind × ℕ) := o.down ++ o.loops

/-- The shared pointers in an object. -/
def refs (o : Obj) : List ℕ := o.typedRefs.map Prod.snd

/-- The context that an object talks to its card through. -/
def ctx? : Obj → Option ℕ
  | devRes c _ | devNet c _ | commandList c _ _ => some c
  | copyCommand c => some c.ctx
  | _ => none

/-- `m_this`, of the objects that have it. -/
def this? : Obj → Option ℕ
  | channel c => c.this
  | infContext c => c.this
  | _ => none

/-- `m_chan` of a context. -/
def chan? : Obj → Option ℕ
  | infContext c => c.chan
  | _ => none

/-- A context with a channel. -/
def HasChan (o : Obj) : Prop := o.chan?.isSome

instance (o : Obj) : Decidable o.HasChan := inferInstanceAs (Decidable (o.chan?.isSome = true))

def dev? : Obj → Option ℕ
  | channel c => some c.dev
  | _ => none

variable {o : Obj} {x : ℕ} {r : List Kind × ℕ}

theorem rank_lt_of_mem_down {k : Kind} (hr : r ∈ o.down) (hk : k ∈ r.1) : k.rank < o.kind.rank := by
  cases o with
  | hostProc => cases hr
  | device => cases hr
  | hostRes => simp_all [down, kind, Kind.rank]
  | ringBuffer => simp_all [down, kind, Kind.rank]
  | channel c =>
    simp only [down, List.mem_cons, List.mem_map] at hr
    rcases hr with rfl | rfl | ⟨y, -, rfl⟩ <;> simp_all [kind, Kind.rank]
  | infContext c =>
    simp only [down, List.mem_append, List.mem_map] at hr
    rcases hr with (⟨y, -, rfl⟩ | ⟨y, -, rfl⟩) | ⟨y, -, rfl⟩ <;> simp_all [kind, Kind.rank]
  | devRes => simp_all [down, kind, Kind.rank]
  | devNet c rs =>
    simp only [down, List.mem_cons, List.mem_map] at hr
    rcases hr with rfl | ⟨y, -, rfl⟩ <;> simp_all [kind, Kind.rank]
  | copyCommand c =>
    simp only [down, List.mem_cons, List.mem_append, List.mem_map] at hr
    rcases hr with rfl | rfl | ⟨y, -, rfl⟩ | ⟨y, -, rfl⟩ <;> simp_all [kind, Kind.rank]
  | infReq n ins outs =>
    simp only [down, List.mem_cons, List.mem_map] at hr
    rcases hr with rfl | ⟨y, -, rfl⟩ <;> simp_all [kind, Kind.rank]
  | commandList c vec failed =>
    simp only [down, List.mem_cons, List.mem_append, List.mem_map] at hr
    rcases hr with rfl | ⟨y, -, rfl⟩ | ⟨y, -, rfl⟩
    · simp_all [kind, Kind.rank]
    · rcases List.mem_cons.mp hk with rfl | hk
      · simp [kind, Kind.rank]
      · simp_all [kind, Kind.rank]
    · simp_all [kind, Kind.rank]

theorem ctx?_mem_refs (h : o.ctx? = some x) : x ∈ o.refs := by
  cases o <;> simp_all [ctx?, refs, typedRefs, down]

end Obj

/-- The objects by their addresses. -/
abbrev Heap := OrderedMap ℕ Obj

namespace Heap

def kind? (m : Heap) (x : ℕ) : Option Kind := (m.find? x).map Obj.kind

def rank (m : Heap) (x : ℕ) : ℕ := ((kind? m x).map Kind.rank).getD 0

/-- Every pointer points to an object of a kind it may point to. -/
def WellKinded (m : Heap) : Prop :=
  ∀ e ∈ m, ∀ r ∈ e.2.typedRefs, ∀ o', (r.2, o') ∈ m → o'.kind ∈ r.1

/-- `context->device()`: through the channel of a context. -/
def device? (m : Heap) (c : ℕ) : Option ℕ :=
  ((m.find? c).bind Obj.chan?).bind fun ch => ((m.find? ch).bind Obj.dev?).bind fun d =>
    if kind? m d = some .device then some d else none

end Heap

/-- What a destructor asks of the kernel, with the object whose descriptor it uses. -/
inductive Syscall
  | close
  | munmap
  | destroyHostRes (proc : ℕ)
  | destroyRingBuf (dev : ℕ)
  | closeChannel (dev : ℕ)
  | unmapHostRes (dev : ℕ)
  deriving DecidableEq, Repr

/-- The destructors. There is no result when one of them goes through a pointer to an object that
is not there. -/
def destructor (m : Heap) : Obj → Option (List Syscall)
  | .hostProc | .device _ => some [.close]
  | .hostRes p alloced =>
      if m.kind? p = some .hostProc then
        some ((if alloced then [.munmap] else []) ++ [.destroyHostRes p])
      else none
  | .channel c =>
      if m.kind? c.dev = some .device then
        some ((c.ringbufs.map fun _ => .destroyRingBuf c.dev) ++ [.closeChannel c.dev])
      else none
  | .copyCommand c =>
      if c.subres || c.srcDevres.isSome then some []
      else (m.device? c.ctx).map fun d => [.unmapHostRes d]
  | .ringBuffer _ | .infContext _ | .devRes _ _ | .devNet _ _ | .infReq _ _ _
  | .commandList _ _ _ => some []

namespace Heap

variable {m : Heap} {x y : ℕ} {o : Obj}

theorem kind?_of_mem (h : (x, o) ∈ m) : kind? m x = some o.kind := by
  rw [kind?, OrderedMap.find?_eq_some.mpr h, Option.map_some]

theorem rank_of_mem (h : (x, o) ∈ m) : rank m x = o.kind.rank := by
  rw [rank, kind?_of_mem h, Option.map_some, Option.getD_some]

theorem refers_iff : Refers Obj.refs m x y ↔ ∃ o, (x, o) ∈ m ∧ ∃ r ∈ o.typedRefs, r.2 = y := by
  simp only [Refers, Obj.refs, List.mem_map]

theorem WellKinded.points (h : WellKinded m) {roots : List ℕ} (hk : Kept Obj.refs roots m)
    (ho : (x, o) ∈ m) {r : List Kind × ℕ} (hr : r ∈ o.typedRefs) :
    ∃ o', (r.2, o') ∈ m ∧ o'.kind ∈ r.1 := by
  have href : Refers Obj.refs m x r.2 := ⟨o, ho, List.mem_map_of_mem hr⟩
  obtain ⟨o', ho'⟩ := OrderedMap.mem_keys.mp (href.live hk).2
  exact ⟨o', ho', h _ ho r hr o' ho'⟩

theorem WellKinded.kind? (h : WellKinded m) {roots : List ℕ} (hk : Kept Obj.refs roots m)
    (ho : (x, o) ∈ m) {k : Kind} (hr : ([k], y) ∈ o.typedRefs) : Heap.kind? m y = some k := by
  obtain ⟨o', ho', hmem⟩ := h.points hk ho hr
  exact (kind?_of_mem ho').trans (congrArg some (List.mem_singleton.mp hmem))

theorem WellKinded.device? (h : WellKinded m) {roots : List ℕ} (hk : Kept Obj.refs roots m)
    (ho : (x, o) ∈ m) (hchan : o.HasChan) : ∃ d, Heap.device? m x = some d := by
  cases o with
  | infContext c =>
    obtain ⟨ch, hch⟩ := Option.isSome_iff_exists.mp hchan
    have hcr : ([.channel], ch) ∈ (Obj.infContext c).typedRefs := by
      have hc : c.chan = some ch := hch
      simp [Obj.typedRefs, Obj.down, hc]
    obtain ⟨o', ho', hk'⟩ := h.points hk ho hcr
    cases o' with
    | channel c' =>
      have hd : Heap.kind? m c'.dev = some .device :=
        h.kind? hk ho' (by simp [Obj.typedRefs, Obj.down])
      refine ⟨c'.dev, ?_⟩
      rw [Heap.device?, OrderedMap.find?_eq_some.mpr ho, Option.bind_some, hch, Option.bind_some,
        OrderedMap.find?_eq_some.mpr ho', Option.bind_some, Obj.dev?, Option.bind_some, if_pos hd]
    | _ => simp [Obj.kind] at hk'
  | _ => cases hchan

theorem WellKinded.destructor (h : WellKinded m) {roots : List ℕ} (hk : Kept Obj.refs roots m)
    (ho : (x, o) ∈ m) (hready : ∀ c ∈ o.ctx?, ∃ o', (c, o') ∈ m ∧ o'.HasChan) :
    (destructor m o).isSome := by
  cases o with
  | hostRes p alloced =>
    have hp : Heap.kind? m p = some .hostProc :=
      h.kind? hk ho (by simp [Obj.typedRefs, Obj.down])
    rw [Lifetime.destructor, if_pos hp, Option.isSome_some]
  | channel c =>
    have hd : Heap.kind? m c.dev = some .device :=
      h.kind? hk ho (by simp [Obj.typedRefs, Obj.down])
    rw [Lifetime.destructor, if_pos hd, Option.isSome_some]
  | copyCommand c =>
    rw [Lifetime.destructor]
    split
    next => rfl
    next =>
      obtain ⟨o', ho', hchan⟩ := hready c.ctx rfl
      obtain ⟨d, hd⟩ := h.device? hk ho' hchan
      rw [hd, Option.map_some, Option.isSome_some]
  | _ => rfl

theorem WellKinded.loop (h : WellKinded m) {roots : List ℕ} (hk : Kept Obj.refs roots m)
    (hxy : Refers Obj.refs m x y) (hnot : ¬ rank m y < rank m x) :
    ∃ o, (x, o) ∈ m ∧ o.loops ≠ [] := by
  obtain ⟨o', ho'⟩ := OrderedMap.mem_keys.mp (hxy.live hk).2
  obtain ⟨o, ho, r, hr, rfl⟩ := refers_iff.mp hxy
  refine ⟨o, ho, fun hnil => hnot ?_⟩
  rw [Obj.typedRefs, hnil, List.append_nil] at hr
  rw [rank_of_mem ho', rank_of_mem ho]
  exact Obj.rank_lt_of_mem_down hr (h _ ho r (List.mem_append_left _ hr) o' ho')

end Heap

end NNPIHost.Lifetime

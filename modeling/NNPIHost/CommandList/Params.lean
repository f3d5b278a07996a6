import NNPIHost.CommandList.Wire

/-! # Scheduled commands and their edits

The elements of a command list: copies, copy lists and infer requests. Each keeps whether it
was edited since it was last packed. Packing writes the edited part of an element into the
room left in a page and clears the flags of what it wrote, so it can be resumed in the next
page.
-/

namespace NNPIHost.CommandList

/-- What a scheduled copy reads of its `nnpiCopyCommand`. -/
structure CopyInfo where
  id : UInt16
  isC2h : Bool
  isD2d : Bool
  maxSize : UInt64
  deriving DecidableEq, Repr

/-- `nnpiInfCopyCommandSchedParams`. -/
structure CopyParams where
  copy : CopyInfo
  priority : UInt8
  size : UInt64
  idx : UInt16
  edited : Bool
  deriving DecidableEq, Repr

/-- `nnpiCopyListParams`. -/
structure CopyListParams where
  copies : List CopyParams
  numEdits : UInt16
  idx : UInt16
  edited : Bool
  deriving DecidableEq, Repr

/-- `nnpiInfReqSchedParams`, with the two ids it reads of its infer request. -/
structure InfReqParams where
  netId : UInt16
  id : UInt16
  nullParams : Bool
  batchSize : UInt16
  priority : UInt8
  debugOn : Bool
  collectInfo : Bool
  idx : UInt16
  edited : Bool
  deriving DecidableEq, Repr

/-- The parameters of a scheduled infer request that a caller gives. -/
structure InfSchedParams where
  batchSize : UInt16
  priority : UInt8
  debugOn : Bool
  collectInfo : Bool
  deriving DecidableEq, Repr

namespace CopyParams

def create (copy : CopyInfo) (priority : UInt8) (size : UInt64) : CopyParams :=
  ⟨copy, priority, min size copy.maxSize, 0xffff, true⟩

def overwrite (c : CopyParams) (priority : UInt8) (size : UInt64) : CopyParams :=
  { c with priority, size := min size c.copy.maxSize }

def clearEdits (c : CopyParams) : CopyParams := { c with edited := false }

def setIndex (c : CopyParams) (idx : UInt16) : CopyParams := { c with idx }

def getCmdForOverwrite (c : CopyParams) : CopyParams := { c with edited := true }

/-- Pack into the room left in a page: whether the element is done, the bytes written, and
the element with its flag after that. -/
def pack (c : CopyParams) (room : ℕ) : Bool × List UInt8 × CopyParams :=
  if ¬ c.edited then (true, [], c)
  else if room < 16 then (false, [], c)
  else
    (true, Codec.u32.encode c.idx.toUInt32 ++ Codec.u8.encode CmdListCommandType.copy.code ++
      (Codec.u16.encode c.copy.id ++ Codec.u8.encode c.priority ++ Codec.u64.encode c.size),
      { c with edited := false })

/-- The parameters as the card is told them. -/
def record (c : CopyParams) : CopyRecord := ⟨c.copy.id, c.priority, c.size⟩

def indexed (c : CopyParams) : UInt32 × CopyRecord := (c.idx.toUInt32, c.record)

end CopyParams

namespace CopyListParams

/-- The loop of `pack` over the copies, up to the first that does not fit. -/
def packCopies : List CopyParams → ℕ → Bool × List UInt8 × List CopyParams
  | [], _ => (true, [], [])
  | c :: cs, room =>
      match c.pack room with
      | (false, bs, c') => (false, bs, c' :: cs)
      | (true, bs, c') =>
          match packCopies cs (room - bs.length) with
          | (ok, bs', cs') => (ok, bs ++ bs', c' :: cs')

/-- The number of copies is 16 bits wide, and the list counts each of them as edited. -/
def create (copies : List CopyParams) : CopyListParams where
  copies := copies.mapIdx fun i c => c.setIndex (UInt16.ofNat i)
  numEdits := UInt16.ofNat copies.length
  idx := 0xffff
  edited := true

def packBody (l : CopyListParams) (room : ℕ) : Bool × List UInt8 × CopyListParams :=
  if 0 < l.numEdits then
    match packCopies l.copies room with
    | (true, bs, cs) => (true, bs, { l with copies := cs, numEdits := 0 })
    | (false, bs, cs) => (false, bs, { l with copies := cs })
  else (true, [], l)

def header (l : CopyListParams) : List UInt8 :=
  Codec.u32.encode l.idx.toUInt32 ++ Codec.u8.encode CmdListCommandType.copyList.code ++
    Codec.u16.encode l.numEdits

/-- The header is written once; after a page end the copies left are packed without it. -/
def pack (l : CopyListParams) (room : ℕ) : Bool × List UInt8 × CopyListParams :=
  if l.edited then
    if room < 7 then (false, [], l)
    else
      match packBody { l with edited := false } (room - 7) with
      | (ok, bs, l') => (ok, l.header ++ bs, l')
  else packBody l room

def clearEdits (l : CopyListParams) : CopyListParams :=
  if l.numEdits = 0 then l
  else { l with copies := l.copies.map CopyParams.clearEdits, numEdits := 0, edited := false }

/-- Editing a copy counts it unless it was counted already. -/
def getCmdForOverwrite (l : CopyListParams) (i : ℕ) (f : CopyParams → CopyParams) :
    Option CopyListParams :=
  (l.copies[i]?).map fun c =>
    let copies := l.copies.set i (f c.getCmdForOverwrite)
    if c.edited then { l with copies }
    else { l with copies, numEdits := l.numEdits + 1, edited := true }

end CopyListParams

namespace InfReqParams

def create (netId id : UInt16) : Option InfSchedParams → InfReqParams
  | none => ⟨netId, id, true, 0, 0, false, false, 0xffff, true⟩
  | some p => ⟨netId, id, false, p.batchSize, p.priority, p.debugOn, p.collectInfo, 0xffff, true⟩

/-- An overwrite takes every parameter but the priority. -/
def overwrite (r : InfReqParams) : Option InfSchedParams → InfReqParams
  | none => { r with nullParams := true }
  | some p =>
      { r with
        nullParams := false
        batchSize := p.batchSize
        debugOn := p.debugOn
        collectInfo := p.collectInfo }

def clearEdits (r : InfReqParams) : InfReqParams := { r with edited := false }

def getCmdForOverwrite (r : InfReqParams) : InfReqParams := { r with edited := true }

def pack (r : InfReqParams) (room : ℕ) : Bool × List UInt8 × InfReqParams :=
  if ¬ r.edited then (true, [], r)
  else if room < 10 ∨ (¬ r.nullParams ∧ room < 15) then (false, [], r)
  else
    (true, Codec.u32.encode r.idx.toUInt32 ++ Codec.u8.encode CmdListCommandType.infreq.code ++
      (Codec.u16.encode r.netId ++ Codec.u16.encode r.id ++ Codec.bool.encode r.nullParams ++
        if r.nullParams then []
        else Codec.u16.encode r.batchSize ++ Codec.u8.encode r.priority ++
          Codec.bool.encode r.debugOn ++ Codec.bool.encode r.collectInfo),
      { r with edited := false })

def record (r : InfReqParams) : InfReqRecord where
  netId := r.netId
  id := r.id
  sched :=
    if r.nullParams then none else some ⟨r.batchSize, r.priority, r.debugOn, r.collectInfo⟩

end InfReqParams

/-- An element of a command list, `nnpiInfCommandSchedParams`. -/
inductive SchedParams where
  | copy (c : CopyParams)
  | copyList (l : CopyListParams)
  | infReq (r : InfReqParams)
  deriving DecidableEq, Repr

namespace SchedParams

def type : SchedParams → CmdListCommandType
  | .copy _ => .copy
  | .copyList _ => .copyList
  | .infReq _ => .infreq

def isEdited : SchedParams → Bool
  | .copy c => c.edited
  | .copyList l => l.edited
  | .infReq r => r.edited

def idx : SchedParams → UInt16
  | .copy c => c.idx
  | .copyList l => l.idx
  | .infReq r => r.idx

def setIndex (i : UInt16) : SchedParams → SchedParams
  | .copy c => .copy (c.setIndex i)
  | .copyList l => .copyList { l with idx := i }
  | .infReq r => .infReq { r with idx := i }

def clearEdits : SchedParams → SchedParams
  | .copy c => .copy c.clearEdits
  | .copyList l => .copyList l.clearEdits
  | .infReq r => .infReq r.clearEdits

def numOfSubcmds : SchedParams → ℕ
  | .copyList l => l.copies.length
  | _ => 1

def pack (e : SchedParams) (room : ℕ) : Bool × List UInt8 × SchedParams :=
  match e with
  | .copy c => match c.pack room with | (ok, bs, c') => (ok, bs, .copy c')
  | .copyList l => match l.pack room with | (ok, bs, l') => (ok, bs, .copyList l')
  | .infReq r => match r.pack room with | (ok, bs, r') => (ok, bs, .infReq r')

@[simp] theorem idx_setIndex (j : UInt16) (e : SchedParams) : (e.setIndex j).idx = j := by
  cases e <;> rfl

end SchedParams

end NNPIHost.CommandList

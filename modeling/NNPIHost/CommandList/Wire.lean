import NNPIHost.Codec.Sequential

/-! # The records of an edit stream

A transaction starts with a 32-bit count of edited commands, and one record of each command
follows. A record gives the index and the type of its command and then the fields of that
type; the record of a copy list holds the records of its edited copies.
-/

namespace NNPIHost.CommandList

inductive CmdListCommandType where
  | infreq
  | copy
  | copyList
  deriving DecidableEq, Repr

def CmdListCommandType.code : CmdListCommandType → UInt8
  | .infreq => 0
  | .copy => 1
  | .copyList => 2

structure CopyRecord where
  id : UInt16
  priority : UInt8
  size : UInt64
  deriving DecidableEq, Repr

structure SchedRecord where
  batchSize : UInt16
  priority : UInt8
  debugOn : Bool
  collectInfo : Bool
  deriving DecidableEq, Repr

structure InfReqRecord where
  netId : UInt16
  id : UInt16
  sched : Option SchedRecord
  deriving DecidableEq, Repr

inductive Record where
  | infReq (idx : UInt32) (r : InfReqRecord)
  | copy (idx : UInt32) (r : CopyRecord)
  | copyList (idx : UInt32) (copies : List (UInt32 × CopyRecord))
  deriving DecidableEq, Repr

namespace CopyRecord

def encode (r : CopyRecord) : List UInt8 :=
  Codec.u16.encode r.id ++ Codec.u8.encode r.priority ++ Codec.u64.encode r.size

def decode (bs : List UInt8) : Option (CopyRecord × List UInt8) := do
  let (id, bs) ← Codec.u16.decode bs
  let (priority, bs) ← Codec.u8.decode bs
  let (size, bs) ← Codec.u64.decode bs
  return (⟨id, priority, size⟩, bs)

@[simp] theorem decode_encode (r : CopyRecord) (rest : List UInt8) :
    decode (r.encode ++ rest) = some (r, rest) := by
  simp [decode, encode]

end CopyRecord

/-- A copy record with its index and type, 16 bytes. -/
def copyCodec : Codec (UInt32 × CopyRecord) where
  encode r := Codec.u32.encode r.1 ++ Codec.u8.encode CmdListCommandType.copy.code ++ r.2.encode
  decode bs := do
    let (idx, bs) ← Codec.u32.decode bs
    let (type, bs) ← Codec.u8.decode bs
    let (r, bs) ← CopyRecord.decode bs
    if type = CmdListCommandType.copy.code then return ((idx, r), bs) else none
  Fits _ := True
  decode_encode _ rest := by simp

@[simp] theorem length_copyCodec (r : UInt32 × CopyRecord) : (copyCodec.encode r).length = 16 := by
  simp [copyCodec, CopyRecord.encode]

namespace InfReqRecord

def encode (r : InfReqRecord) : List UInt8 :=
  Codec.u16.encode r.netId ++ Codec.u16.encode r.id ++ Codec.bool.encode r.sched.isNone ++
    match r.sched with
    | none => []
    | some s => Codec.u16.encode s.batchSize ++ Codec.u8.encode s.priority ++
        Codec.bool.encode s.debugOn ++ Codec.bool.encode s.collectInfo

def decode (bs : List UInt8) : Option (InfReqRecord × List UInt8) := do
  let (netId, bs) ← Codec.u16.decode bs
  let (id, bs) ← Codec.u16.decode bs
  let (nullParams, bs) ← Codec.bool.decode bs
  if nullParams then
    return (⟨netId, id, none⟩, bs)
  else
    let (batchSize, bs) ← Codec.u16.decode bs
    let (priority, bs) ← Codec.u8.decode bs
    let (debugOn, bs) ← Codec.bool.decode bs
    let (collectInfo, bs) ← Codec.bool.decode bs
    return (⟨netId, id, some ⟨batchSize, priority, debugOn, collectInfo⟩⟩, bs)

@[simp] theorem decode_encode (r : InfReqRecord) (rest : List UInt8) :
    decode (r.encode ++ rest) = some (r, rest) := by
  obtain ⟨netId, id, _ | s⟩ := r <;> simp [decode, encode]

end InfReqRecord

theorem decodeN_flatMap_copies (copies : List (UInt32 × CopyRecord)) (rest : List UInt8) :
    copyCodec.decodeN copies.length (copies.flatMap copyCodec.encode ++ rest) =
      some (copies, rest) :=
  Codec.decodeN_flatMap (fun _ _ => trivial) rest

namespace Record

def encode : Record → List UInt8
  | .infReq idx r =>
      Codec.u32.encode idx ++ Codec.u8.encode CmdListCommandType.infreq.code ++ r.encode
  | .copy idx r => copyCodec.encode (idx, r)
  | .copyList idx copies =>
      Codec.u32.encode idx ++ Codec.u8.encode CmdListCommandType.copyList.code ++
        Codec.u16.encode (UInt16.ofNat copies.length) ++ copies.flatMap copyCodec.encode

def decode (bs : List UInt8) : Option (Record × List UInt8) := do
  let (idx, bs) ← Codec.u32.decode bs
  let (type, bs) ← Codec.u8.decode bs
  if type = CmdListCommandType.infreq.code then
    let (r, bs) ← InfReqRecord.decode bs
    return (.infReq idx r, bs)
  else if type = CmdListCommandType.copy.code then
    let (r, bs) ← CopyRecord.decode bs
    return (.copy idx r, bs)
  else if type = CmdListCommandType.copyList.code then
    let (n, bs) ← Codec.u16.decode bs
    let (copies, bs) ← copyCodec.decodeN n.toNat bs
    return (.copyList idx copies, bs)
  else none

/-- The copies of a list are counted in 16 bits. -/
def Fits : Record → Prop
  | .copyList _ copies => copies.length < 2 ^ 16
  | _ => True

theorem decode_encode {r : Record} (h : r.Fits) (rest : List UInt8) :
    decode (r.encode ++ rest) = some (r, rest) := by
  cases r with
  | infReq idx r => simp [decode, encode]
  | copy idx r => simp [decode, encode, copyCodec, CmdListCommandType.code]
  | copyList idx copies =>
    have hn : (UInt16.ofNat copies.length).toNat = copies.length :=
      UInt16.toNat_ofNat_of_lt' h
    have hdec := decodeN_flatMap_copies copies rest
    simp [decode, encode, CmdListCommandType.code, hn, hdec]

def codec : Codec Record := ⟨encode, decode, Fits, decode_encode⟩

/-- The number of bytes of a record. -/
def byteSize : Record → ℕ
  | .infReq _ r => if r.sched.isNone then 10 else 15
  | .copy _ _ => 16
  | .copyList _ copies => 7 + 16 * copies.length

@[simp] theorem length_encode (r : Record) : r.encode.length = r.byteSize := by
  cases r with
  | infReq idx r => obtain ⟨_, _, _ | s⟩ := r <;> rfl
  | copy idx r => rfl
  | copyList idx copies =>
    simp only [encode, byteSize, List.length_append, Codec.length_u32, Codec.length_u8,
      Codec.length_u16, List.length_flatMap, length_copyCodec, List.map_const',
      List.sum_replicate_nat]
    omega

theorem encode_ne_nil (r : Record) : r.encode ≠ [] := by
  apply List.ne_nil_of_length_pos
  rw [length_encode]
  cases r <;> simp only [byteSize] <;> [split; skip; skip] <;> omega

end Record

/-- The count and the records of a transaction, read sequentially to its end. -/
def readTransaction (bs : List UInt8) : Option (UInt32 × List Record) := do
  let (n, rest) ← Codec.u32.decode bs
  let rs ← Record.codec.decodeAll rest.length rest
  return (n, rs)

theorem readTransaction_encode {rs : List Record} (h : ∀ r ∈ rs, r.Fits) (n : UInt32) :
    readTransaction (Codec.u32.encode n ++ rs.flatMap Record.encode) = some (n, rs) := by
  have hall := Record.codec.decodeAll_flatMap (fun r _ => r.encode_ne_nil) h (Nat.le_refl _)
  simp only [readTransaction, Codec.decode_u32, Option.bind_eq_bind, Option.bind_some]
  exact congrArg (·.bind fun rs => some (n, rs)) hall

end NNPIHost.CommandList

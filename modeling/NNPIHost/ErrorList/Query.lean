import Mathlib.Data.List.Forall2
import Mathlib.Data.Nat.Basic
import Mathlib.Order.Basic
import NNPIHost.Exec.Run
import NNPIHost.Ipc.Events
import NNPIHost.Memory.Block

/-! # Error lists

`nnpiExecErrorList` collects the packets of an error list in a buffer and, when the last byte
has come, records where in the buffer each descriptor stands. A message follows its descriptor.
Sizes and positions are 32-bit words.
-/

namespace NNPIHost

/-- `ipc_exec_error_desc`, which is packed. -/
structure ExecErrorDesc where
  cmdType : UInt8
  objId : UInt16
  devnetId : UInt16
  eventVal : UInt16
  errorMsgSize : UInt32
  deriving DecidableEq, Repr

namespace ExecErrorDesc

/-- The size of a descriptor in bytes. -/
def size : ℕ := 11

def encode (d : ExecErrorDesc) : List UInt8 :=
  Codec.u8.encode d.cmdType ++ (Codec.u16.encode d.objId ++ (Codec.u16.encode d.devnetId ++
    (Codec.u16.encode d.eventVal ++ Codec.u32.encode d.errorMsgSize)))

/-- The descriptor that stands at an offset. -/
def load (mem : ℕ → UInt8) (off : ℕ) : ExecErrorDesc where
  cmdType := .ofNat (Memory.loadLe mem 1 off)
  objId := .ofNat (Memory.loadLe mem 2 (off + 1))
  devnetId := .ofNat (Memory.loadLe mem 2 (off + 3))
  eventVal := .ofNat (Memory.loadLe mem 2 (off + 5))
  errorMsgSize := .ofNat (Memory.loadLe mem 4 (off + 7))

variable {d : ExecErrorDesc} {mem : ℕ → UInt8} {off : ℕ}

@[simp] theorem length_encode : d.encode.length = size := by simp [encode, size]

theorem load_eq (h : Memory.read mem off d.encode.length = d.encode) : load mem off = d := by
  obtain ⟨hcmd, h⟩ := Memory.read_part h
  obtain ⟨hobj, h⟩ := Memory.read_part h
  obtain ⟨hnet, h⟩ := Memory.read_part h
  obtain ⟨hval, hsize⟩ := Memory.read_part h
  simp only [Codec.length_u8, Codec.length_u16] at hobj hnet hval hsize
  have hcmd := Memory.loadLe_eq (w := 1) d.cmdType.toNat_lt hcmd
  have hobj := Memory.loadLe_eq (w := 2) d.objId.toNat_lt hobj
  have hnet := Memory.loadLe_eq (w := 2) d.devnetId.toNat_lt hnet
  have hval := Memory.loadLe_eq (w := 2) d.eventVal.toNat_lt hval
  have hsize := Memory.loadLe_eq (w := 4) d.errorMsgSize.toNat_lt hsize
  simp only [load, hcmd, hobj, hnet, hval, hsize, UInt8.ofNat_toNat, UInt16.ofNat_toNat,
    UInt32.ofNat_toNat]

theorem encode_load : (load mem off).encode = Memory.read mem off size := by
  have hsplit : Memory.read mem off size = Memory.read mem off 1 ++
      (Memory.read mem (off + 1) 2 ++ (Memory.read mem (off + 3) 2 ++
        (Memory.read mem (off + 5) 2 ++ Memory.read mem (off + 7) 4))) := by
    simp only [← Memory.read_add, size]
  have h8 : Codec.u8.encode (load mem off).cmdType = Memory.read mem off 1 := by
    rw [← Memory.le_loadLe]
    exact congrArg (Codec.le 1) (UInt8.toNat_ofNat_of_lt' Memory.loadLe_lt)
  have h16 (o : ℕ) : Codec.u16.encode (.ofNat (Memory.loadLe mem 2 o)) = Memory.read mem o 2 := by
    rw [← Memory.le_loadLe]
    exact congrArg (Codec.le 2) (UInt16.toNat_ofNat_of_lt' Memory.loadLe_lt)
  have h32 : Codec.u32.encode (load mem off).errorMsgSize = Memory.read mem (off + 7) 4 := by
    rw [← Memory.le_loadLe]
    exact congrArg (Codec.le 4) (UInt32.toNat_ofNat_of_lt' Memory.loadLe_lt)
  rw [encode, h8, h32, hsplit]
  simp only [load, h16]

end ExecErrorDesc

/-- A descriptor with the message whose size it gives. -/
structure ErrorRecord where
  desc : ExecErrorDesc
  msg : List UInt8
  size_eq : desc.errorMsgSize.toNat = msg.length

namespace ErrorRecord

def bytes (e : ErrorRecord) : List UInt8 := e.desc.encode ++ e.msg

/-- The error list as the card sends it. -/
def serialize (es : List ErrorRecord) : List UInt8 := es.flatMap bytes

theorem length_bytes (e : ErrorRecord) : e.bytes.length = ExecErrorDesc.size + e.msg.length := by
  simp [bytes]

theorem length_le_serialize (es : List ErrorRecord) : es.length ≤ (serialize es).length := by
  induction es with
  | nil => exact Nat.le_refl _
  | cons e es ih =>
    have he := e.length_bytes
    have hsize : 0 < ExecErrorDesc.size := by decide
    simp only [serialize, List.flatMap_cons, List.length_append, List.length_cons] at ih ⊢
    omega

end ErrorRecord

inductive ErrorListState where
  | cleared
  | queryStarted
  | completed
  deriving DecidableEq, Repr

/-- The fields of `nnpiExecErrorList`, for any type of host resources. A descriptor is the
position in the buffer where it stands. -/
structure ExecErrorList (H : Type*) where
  buf : Option (ℕ → UInt8)
  bufSize : ℕ
  size : ℕ
  completeEventVal : UInt16
  state : ErrorListState
  descVec : List ℕ
  failedHostres : List H

namespace ExecErrorList

variable {H : Type*}

def noMemory : UInt16 := 8

def ioError : UInt16 := 31

def create : ExecErrorList H := ⟨none, 0, 0, 0, .cleared, [], []⟩

/-- The loop of `completeQuery` from a position on. It takes more steps than there are
positions only if it never ends. -/
def descLoop (mem : ℕ → UInt8) (size : ℕ) : ℕ → ℕ → Option (List ℕ)
  | fuel, pos =>
      if pos < size then
        match fuel with
        | 0 => none
        | fuel + 1 =>
            let msgSize := (ExecErrorDesc.load mem pos).errorMsgSize.toNat
            let next := (pos + ExecErrorDesc.size + msgSize) % 2 ^ 32
            (descLoop mem size fuel next).map (pos :: ·)
      else some []

variable (s : ExecErrorList H)

def queryCompleted : Bool := s.state = .completed

def completionEventVal : UInt16 := s.completeEventVal

def numErrors : ℕ := s.descVec.length % 2 ^ 32

def clear : ExecErrorList H :=
  { s with descVec := [], buf := none, size := 0, bufSize := 0, completeEventVal := 0,
           state := .cleared }

def startQuery : ExecErrorList H := { s with completeEventVal := 0, state := .queryStarted }

/-- There is no result when the loop does not end. -/
def completeQuery (eventVal : UInt16) : Option (ExecErrorList H) :=
  let completed := { s with state := .completed, completeEventVal := eventVal }
  if eventVal = 0 then
    (descLoop (s.buf.getD fun _ => 0) s.size s.size 0).map fun descs =>
      { completed with descVec := s.descVec ++ descs }
  else some completed

/-- `packet` is the bytes at the pointer, if it is not null, and `fresh` is what `malloc`
returns. -/
def appendErrorListPacket (fresh : Option (ℕ → UInt8)) (packet : Option (List UInt8))
    (totalSize : ℕ) (errorEventVal : UInt16) : Option (ExecErrorList H) :=
  if s.state ≠ .queryStarted then some s
  else
    match packet with
    | none | some [] => s.completeQuery errorEventVal
    | some data =>
        let s :=
          if s.buf.isNone then { s with buf := fresh, bufSize := totalSize } else s
        let size := (s.size + data.length) % 2 ^ 32
        match s.buf with
        | none => s.completeQuery noMemory
        | some mem =>
            if size ≤ s.bufSize then
              let s := { s with buf := some (Memory.write mem s.size data), size }
              if size = totalSize then s.completeQuery 0 else some s
            else s.completeQuery noMemory

/-- The count of failed copies of the resource goes up by one. -/
def addFailedHostRes (hostRes : H) : ExecErrorList H :=
  { s with failedHostres := s.failedHostres ++ [hostRes] }

/-- The list, and the resources whose count of failed copies goes down by one each. -/
def clearFailedHostRes : ExecErrorList H × List H :=
  ({ s with failedHostres := [] }, s.failedHostres)

def clearRequestSucceeded : ExecErrorList H × List H :=
  let (s, hostres) := s.clear.clearFailedHostRes
  ({ s with state := .completed, completeEventVal := 0 }, hostres)

def getDesc (idx : ℕ) : Option ExecErrorDesc :=
  match s.descVec[idx]?, s.buf with
  | some pos, some mem => some (.load mem pos)
  | _, _ => none

/-- What is returned, what is stored through `out_buf_size` where that is given, and the
buffer of the caller afterwards. -/
def getErrorMessage (idx : ℕ) (buf : Option (ℕ → UInt8)) (bufSize : ℕ) :
    NNPError × Option ℕ × Option (ℕ → UInt8) :=
  match s.descVec[idx]?, s.buf with
  | some pos, some mem =>
      let size := (ExecErrorDesc.load mem pos).errorMsgSize.toNat
      if size = 0 then (.invalidArgument, none, buf)
      else
        let msg := Memory.read mem (pos + ExecErrorDesc.size) size
        (.noError, some size,
          if 0 < bufSize ∧ size ≤ bufSize then buf.map (Memory.write · 0 msg) else buf)
  | _, _ => (.invalidArgument, none, buf)

open ErrorRecord

theorem descLoop_serialize {mem : ℕ → UInt8} {size fuel pos : ℕ} {es : List ErrorRecord}
    (hbytes : Memory.read mem pos (serialize es).length = serialize es)
    (hend : pos + (serialize es).length = size) (hsize : size < 2 ^ 32)
    (hfuel : es.length ≤ fuel) :
    ∃ descs, descLoop mem size fuel pos = some descs ∧
      List.Forall₂ (fun p e => p + e.bytes.length ≤ size ∧
        Memory.read mem p e.bytes.length = e.bytes) descs es := by
  induction es generalizing fuel pos with
  | nil =>
    have hpos : ¬ pos < size := by
      rw [← hend]
      exact Nat.lt_irrefl pos
    refine ⟨[], ?_, .nil⟩
    unfold descLoop
    exact if_neg hpos
  | cons e es ih =>
    have hfirst : Memory.read mem pos (e.bytes ++ serialize es).length =
        e.bytes ++ serialize es := hbytes
    obtain ⟨he, hes⟩ := Memory.read_part hfirst
    have hentry : Memory.read mem pos (e.desc.encode ++ e.msg).length =
        e.desc.encode ++ e.msg := he
    have hdesc := ExecErrorDesc.load_eq (Memory.read_part hentry).1
    have hlen : (serialize (e :: es)).length = e.bytes.length + (serialize es).length :=
      List.length_append
    have hebytes := e.length_bytes
    have hdescsize : 0 < ExecErrorDesc.size := by decide
    have hpos : pos < size := by omega
    have hnext : (pos + ExecErrorDesc.size + e.desc.errorMsgSize.toNat) % 2 ^ 32 =
        pos + e.bytes.length := by
      rw [e.size_eq, Nat.mod_eq_of_lt (by omega)]
      omega
    cases fuel with
    | zero => exact absurd hfuel (Nat.not_succ_le_zero _)
    | succ fuel =>
      obtain ⟨descs, hloop, hall⟩ := ih hes (by omega) (Nat.le_of_succ_le_succ hfuel)
      refine ⟨pos :: descs, ?_, .cons ⟨by omega, he⟩ hall⟩
      unfold descLoop
      simp only [hpos, if_true, hdesc, hnext, hloop, Option.map_some]

/-- A query of a list of `total` bytes that has received the first of them. -/
structure Received (total : ℕ) (data : List UInt8) (s : ExecErrorList H) : Prop where
  state : s.state = .queryStarted
  descVec : s.descVec = []
  size : s.size = data.length
  buf : (s.buf = none ∧ data = []) ∨
    ∃ mem, s.buf = some mem ∧ s.bufSize = total ∧ Memory.read mem 0 data.length = data

/-- A completed query as its user sees it: the descriptors are those of the records, and a
message that is not empty is copied into a buffer that is large enough. -/
structure Reports (es : List ErrorRecord) (s : ExecErrorList H) : Prop where
  completed : s.queryCompleted = true
  eventVal : s.completionEventVal = 0
  count : s.numErrors = es.length
  descs : ∀ i, (hi : i < es.length) → s.getDesc i = some es[i].desc
  messages : ∀ i, (hi : i < es.length) → es[i].msg ≠ [] → ∀ buf bufSize,
    s.getErrorMessage i buf bufSize = (.noError, some es[i].msg.length,
      if es[i].msg.length ≤ bufSize then buf.map (Memory.write · 0 es[i].msg) else buf)

/-- A query that has received the records. -/
structure Holds (es : List ErrorRecord) (s : ExecErrorList H) : Prop where
  state : s.state = .completed
  eventVal : s.completeEventVal = 0
  records : ∃ mem, s.buf = some mem ∧
    List.Forall₂ (fun p e => Memory.read mem p e.bytes.length = e.bytes) s.descVec es

variable {s : ExecErrorList H} {es : List ErrorRecord} {total : ℕ} {data packet : List UInt8}
  {mem : ℕ → UInt8}

theorem received_startQuery (s : ExecErrorList H) (total : ℕ) :
    Received total [] s.clear.startQuery where
  state := rfl
  descVec := rfl
  size := rfl
  buf := .inl ⟨rfl, rfl⟩

theorem Received.append (h : s.Received total data) (htotal : total < 2 ^ 32)
    (hne : packet ≠ []) (hle : (data ++ packet).length ≤ total) :
    ∃ mem', Memory.read mem' 0 (data ++ packet).length = data ++ packet ∧
      s.appendErrorListPacket (some mem) (some packet) total 0 =
        let s := { s with buf := some mem', bufSize := total, size := (data ++ packet).length }
        if (data ++ packet).length = total then s.completeQuery 0 else some s := by
  obtain ⟨b, bs, rfl⟩ := List.exists_cons_of_ne_nil hne
  obtain ⟨old, hbuf, hread⟩ : ∃ old,
      (if s.buf.isNone then { s with buf := some mem, bufSize := total } else s) =
        { s with buf := some old, bufSize := total } ∧
      Memory.read old 0 data.length = data := by
    rcases h.buf with ⟨hnone, rfl⟩ | ⟨old, hsome, htot, hread⟩
    · exact ⟨mem, by simp [hnone], rfl⟩
    · refine ⟨old, ?_, hread⟩
      rw [if_neg (by simp [hsome]), ← hsome, ← htot]
  refine ⟨Memory.write old s.size (b :: bs), ?_, ?_⟩
  · rw [h.size]
    exact Memory.read_write_append hread
  have hsum : (s.size + (b :: bs).length) % 2 ^ 32 = (data ++ b :: bs).length := by
    rw [h.size, ← List.length_append]
    exact Nat.mod_eq_of_lt (by omega)
  rw [appendErrorListPacket, if_neg (by simp [h.state])]
  simp only [hbuf, hsum, hle, if_true]
  exact hne

theorem Received.append_lt (h : s.Received total data) (mem : ℕ → UInt8) (htotal : total < 2 ^ 32)
    (hne : packet ≠ []) (hlt : (data ++ packet).length < total) :
    ∃ t, s.appendErrorListPacket (some mem) (some packet) total 0 = some t ∧
      t.Received total (data ++ packet) := by
  obtain ⟨mem', hread, happ⟩ := h.append htotal hne hlt.le
  rw [if_neg hlt.ne] at happ
  exact ⟨_, happ, h.state, h.descVec, rfl, .inr ⟨mem', rfl, rfl, hread⟩⟩

theorem Received.append_last (h : s.Received (serialize es).length data) (mem : ℕ → UInt8)
    (htotal : (serialize es).length < 2 ^ 32) (hne : packet ≠ [])
    (hdata : data ++ packet = serialize es) :
    ∃ t, s.appendErrorListPacket (some mem) (some packet) (serialize es).length 0 = some t ∧
      t.Holds es := by
  obtain ⟨mem', hread, happ⟩ := h.append htotal hne (le_of_eq (congrArg _ hdata))
  rw [hdata] at hread happ
  obtain ⟨descs, hloop, hall⟩ := descLoop_serialize hread (Nat.zero_add _) htotal
    (length_le_serialize es)
  rw [if_pos rfl, completeQuery, if_pos rfl, Option.getD_some, hloop, Option.map_some,
    h.descVec, List.nil_append] at happ
  exact ⟨_, happ, rfl, rfl, mem', rfl, hall.imp fun _ _ h => h.2⟩

theorem Holds.numErrors (h : s.Holds es) (hlen : (serialize es).length ≤ 65535) :
    s.numErrors = es.length := by
  obtain ⟨mem, _, hall⟩ := h.records
  have hle := length_le_serialize es
  rw [ExecErrorList.numErrors, hall.length_eq]
  exact Nat.mod_eq_of_lt (by omega)

theorem Holds.record (h : s.Holds es) {i : ℕ} (hi : i < es.length) :
    ∃ mem pos, s.buf = some mem ∧ s.descVec[i]? = some pos ∧
      Memory.read mem pos es[i].bytes.length = es[i].bytes := by
  obtain ⟨mem, hbuf, hall⟩ := h.records
  have hpos : i < s.descVec.length := hall.length_eq ▸ hi
  exact ⟨mem, s.descVec[i], hbuf, List.getElem?_eq_getElem hpos, hall.get hpos hi⟩

theorem Holds.getDesc (h : s.Holds es) {i : ℕ} (hi : i < es.length) :
    s.getDesc i = some es[i].desc := by
  obtain ⟨mem, pos, hbuf, hpos, hread⟩ := h.record hi
  have hdesc := ExecErrorDesc.load_eq (Memory.read_part hread).1
  simp only [ExecErrorList.getDesc, hpos, hbuf, hdesc]

theorem Holds.getErrorMessage (h : s.Holds es) {i : ℕ} (hi : i < es.length)
    (hne : es[i].msg ≠ []) (buf : Option (ℕ → UInt8)) (bufSize : ℕ) :
    s.getErrorMessage i buf bufSize = (.noError, some es[i].msg.length,
      if es[i].msg.length ≤ bufSize then buf.map (Memory.write · 0 es[i].msg) else buf) := by
  obtain ⟨mem, pos, hbuf, hpos, hread⟩ := h.record hi
  obtain ⟨hdesc, hmsg⟩ := Memory.read_part hread
  rw [ExecErrorDesc.length_encode] at hmsg
  have hlen := List.length_pos_iff.mpr hne
  have hcond : (0 < bufSize ∧ es[i].msg.length ≤ bufSize) ↔ es[i].msg.length ≤ bufSize :=
    and_iff_right_of_imp fun hle => by omega
  simp only [ExecErrorList.getErrorMessage, hpos, hbuf, ExecErrorDesc.load_eq hdesc,
    es[i].size_eq, hlen.ne', if_false, hmsg, hcond]

/-- One packet of a list of `total` bytes, when the allocation succeeds. -/
def receive (mem : ℕ → UInt8) (total : ℕ) (s : ExecErrorList H) (packet : List UInt8) :
    Option (ExecErrorList H) :=
  s.appendErrorListPacket (some mem) (some packet) total 0

theorem Received.run_lt {packets : List (List UInt8)} (h : s.Received total data)
    (mem : ℕ → UInt8) (htotal : total < 2 ^ 32) (hne : ∀ p ∈ packets, p ≠ [])
    (hlt : (data ++ packets.flatten).length < total) :
    ∃ t, Exec.run (receive mem total) s packets = some t ∧
      t.Received total (data ++ packets.flatten) := by
  induction packets generalizing s data with
  | nil => exact ⟨s, rfl, by simpa using h⟩
  | cons p packets ih =>
    obtain ⟨hp, hne⟩ := List.forall_mem_cons.mp hne
    rw [List.flatten_cons, ← List.append_assoc] at hlt ⊢
    have hlt' : (data ++ p).length < total := by
      rw [List.length_append] at hlt
      omega
    obtain ⟨u, hu, hrec⟩ := h.append_lt mem htotal hp hlt'
    obtain ⟨t, ht, hrec⟩ := ih hrec hne hlt
    exact ⟨t, Option.bind_eq_some_iff.mpr ⟨u, hu, ht⟩, hrec⟩

theorem Holds.reports (h : s.Holds es) (hlen : (serialize es).length ≤ 65535) :
    s.Reports es where
  completed := decide_eq_true h.state
  eventVal := h.eventVal
  count := h.numErrors hlen
  descs _ hi := h.getDesc hi
  messages _ hi hne := h.getErrorMessage hi hne

/-- However the bytes of an error list are cut into packets, the query is completed by the last
packet and not before, and then reports the list. -/
theorem query_round_trip (s : ExecErrorList H) (mem : ℕ → UInt8) {es : List ErrorRecord}
    (hes : es ≠ []) (hlen : (serialize es).length ≤ 65535) {packets : List (List UInt8)}
    (hsplit : packets.flatten = serialize es)
    (hsizes : ∀ p ∈ packets, 1 ≤ p.length ∧ p.length ≤ 4096) :
    (∀ k < packets.length, ∃ t,
      Exec.run (receive mem (serialize es).length) s.clear.startQuery (packets.take k) = some t ∧
        t.queryCompleted = false) ∧
    ∃ t, Exec.run (receive mem (serialize es).length) s.clear.startQuery packets = some t ∧
      t.Reports es := by
  have htotal : (serialize es).length < 2 ^ 32 := by omega
  have hne : ∀ p ∈ packets, p ≠ [] := fun p hp => List.length_pos_iff.mp (hsizes p hp).1
  have hrec := received_startQuery s (serialize es).length
  constructor
  · intro k hk
    have hlt : (packets.take k).flatten.length < (serialize es).length := by
      have hdrop : packets.drop k = packets[k] :: packets.drop (k + 1) :=
        List.drop_eq_getElem_cons hk
      have hpos := (hsizes _ (List.getElem_mem hk)).1
      rw [← hsplit]
      conv_rhs => rw [← List.take_append_drop k packets, List.flatten_append, hdrop,
        List.flatten_cons]
      simp only [List.length_append]
      omega
    obtain ⟨t, ht, hrec⟩ := hrec.run_lt mem htotal
      (fun p hp => hne p (List.mem_of_mem_take hp)) hlt
    exact ⟨t, ht, by simp [queryCompleted, hrec.state]⟩
  · rcases List.eq_nil_or_concat packets with rfl | ⟨front, last, rfl⟩
    · have hpos := (List.length_pos_iff.mpr hes).trans_le (length_le_serialize es)
      rw [← hsplit] at hpos
      exact absurd hpos (Nat.lt_irrefl _)
    · rw [List.concat_eq_append] at hne hsplit ⊢
      obtain ⟨hfront, hlast⟩ := List.forall_mem_append.mp hne
      have hlast := List.forall_mem_singleton.mp hlast
      rw [List.flatten_append, List.flatten_singleton] at hsplit
      have hlt : front.flatten.length < (serialize es).length := by
        have hpos := List.length_pos_iff.mpr hlast
        rw [← hsplit, List.length_append]
        omega
      obtain ⟨t, ht, hrec⟩ := hrec.run_lt mem htotal hfront hlt
      obtain ⟨u, hu, hholds⟩ := hrec.append_last mem htotal hlast hsplit
      refine ⟨u, ?_, hholds.reports hlen⟩
      rw [Exec.run_append ht]
      exact Option.bind_eq_some_iff.mpr ⟨u, hu, rfl⟩

/-- One failed copy with a message of two bytes, cut inside the descriptor and the message. -/
theorem query_round_trip_three_packets :
    ∃ t, Exec.run (receive (fun _ => 0) 13) (create (H := Unit)).clear.startQuery
        [[1, 7, 0], [0, 0, 31, 0, 2, 0, 0, 0, 65], [66]] = some t ∧
      t.Reports [⟨⟨1, 7, 0, 31, 2⟩, [65, 66], rfl⟩] :=
  (@query_round_trip Unit create (fun _ => 0) [⟨⟨1, 7, 0, 31, 2⟩, [65, 66], rfl⟩] (by decide)
    (by decide) [[1, 7, 0], [0, 0, 31, 0, 2, 0, 0, 0, 65], [66]] (by decide) (by decide)).2

end ExecErrorList

end NNPIHost

import Mathlib.Algebra.GroupWithZero.Nat
import NNPIHost.Ipc.Events
import NNPIHost.CommandList.Params

/-! # Sending edits to the card

`send_to_card` packs the edited elements page by page into the command ring and writes one
message per page. The first page starts with the number of edits, the last message is marked,
and an error on the way clears all edits. Without edits a single message without a page is
written.
-/

namespace NNPIHost.CommandList

def pageSize : ℕ := 4096

inductive CmdListOpcode where
  | chanInfCmdlist
  | chanScheduleCmdlist
  deriving DecidableEq, Repr

def CmdListOpcode.code : CmdListOpcode → BitVec 6
  | .chanInfCmdlist => 46
  | .chanScheduleCmdlist => 47

/-- `h2c_ChanInferenceCmdListOp`. -/
structure CmdListMsg where
  opcode : CmdListOpcode
  chanId : BitVec 10
  cmdID : BitVec 16
  destroy : Bool
  isFirst : Bool
  isLast : Bool
  optDependencies : Bool
  size : UInt16
  deriving DecidableEq, Repr

/-- The message of a page, with the fields that the page loop sets. -/
def CmdListMsg.forPage (msg : CmdListMsg) (isFirst isLast : Bool) (size : ℕ) : CmdListMsg :=
  { msg with isFirst, isLast, size := UInt16.ofNat size }

/-- A message on the channel with the contents of its page when it was written. -/
structure Sent where
  msg : CmdListMsg
  page : List UInt8
  deriving DecidableEq, Repr

/-- The bytes of the page that a message announces. -/
def Sent.payload (s : Sent) : List UInt8 := s.page.take s.msg.size.toNat

/-- What a page meets on its way: the contiguous space that `lockFreeSpace` gives, if any,
the bytes that were in the page before, and whether the channel write succeeds. -/
structure PageIO where
  cont : Option ℕ
  stale : List UInt8
  written : Bool

def PageIO.Succeeds (p : PageIO) : Prop := p.cont = some pageSize ∧ p.written = true

instance (p : PageIO) : Decidable p.Succeeds := inferInstanceAs (Decidable (_ ∧ _))

/-- The inner loop: pack elements into the room of one page, up to the first that does not
fit. The bytes, the elements that are done and those that are left. -/
def packPage : List SchedParams → ℕ → List UInt8 × List SchedParams × List SchedParams
  | [], _ => ([], [], [])
  | e :: es, room =>
      if room = 0 then ([], [], e :: es)
      else
        match e.pack room with
        | (true, bs, e') =>
            match packPage es (room - bs.length) with
            | (bs', done, rest) => (bs ++ bs', e' :: done, rest)
        | (false, bs, e') => (bs, [], e' :: es)

/-- What the page loop leaves behind: its result, the messages written and the elements. -/
structure PagesOut where
  ret : NNPError
  sent : List Sent
  vec : List SchedParams

/-- The page loop; `none` when the given number of pages is not enough. -/
def sendPages (msg : CmdListMsg) (numEdits : UInt16) :
    ℕ → (ℕ → PageIO) → Bool → List SchedParams → Option PagesOut
  | _, _, _, [] => some ⟨.noError, [], []⟩
  | 0, _, _, _ :: _ => none
  | fuel + 1, io, isFirst, e :: es =>
      if (io 0).cont ≠ some pageSize then some ⟨.ioError, [], e :: es⟩
      else
        let count := if isFirst then Codec.u32.encode numEdits.toUInt32 else []
        match packPage (e :: es) (pageSize - count.length) with
        | (bs, done, rest) =>
            let bytes := count ++ bs
            let page := bytes ++ (io 0).stale.drop bytes.length
            let msg' := msg.forPage isFirst rest.isEmpty bytes.length
            if (io 0).written then
              (sendPages msg numEdits fuel (fun k => io (k + 1)) false rest).map fun out =>
                { out with sent := ⟨msg', page⟩ :: out.sent, vec := done ++ out.vec }
            else some ⟨.ioError, [], done ++ rest⟩

/-- `nnpiCommandList`, with what `send_to_card` reads of its context and environment. -/
structure CmdList where
  protocolID : BitVec 16
  chanId : BitVec 10
  optDependencies : Bool
  finalized : Bool
  inFlight : Bool
  failedCommands : ℕ
  vec : List SchedParams
  numEdits : UInt16

/-- Enough pages for any list: every page packs an element or at least a byte of one. -/
def pagesBound (vec : List SchedParams) : ℕ :=
  (vec.map fun e => 16 * (1 + e.numOfSubcmds)).sum

/-- The message before the page loop. -/
def CmdList.cmdMsg (l : CmdList) (opcode : CmdListOpcode) : CmdListMsg where
  opcode := opcode
  chanId := l.chanId
  cmdID := l.protocolID
  destroy := false
  isFirst := true
  isLast := true
  optDependencies := opcode == .chanInfCmdlist && l.optDependencies
  size := 0

/-- `send_to_card` on a context that is `broken` or not: the result, the messages written
and the list afterwards. -/
def CmdList.sendToCard (l : CmdList) (opcode : CmdListOpcode) (broken : Bool)
    (io : ℕ → PageIO) : Option (NNPError × List Sent × CmdList) :=
  if l.vec.isEmpty then some (.notSupported, [], l)
  else if broken then some (.contextBroken, [], l)
  else if l.numEdits = 0 then
    if (io 0).written then some (.noError, [⟨l.cmdMsg opcode, []⟩], l) else some (.ioError, [], l)
  else
    (sendPages (l.cmdMsg opcode) l.numEdits (pagesBound l.vec) io true l.vec).map fun out =>
      let vec := if out.ret = .noError then out.vec else out.vec.map SchedParams.clearEdits
      (out.ret, out.sent, { l with vec, numEdits := 0 })

end NNPIHost.CommandList

import NNPIHost.CommandList.Send

/-! # The pages of a command list

One iteration of the page loop of `send_to_card`: what it puts into its page, the message of
the page, and the elements that are left for the next one.
-/

namespace NNPIHost.CommandList

/-- The variables of the page loop; it goes on while there are elements. -/
structure CmdListSend where
  msg : CmdListMsg
  numEdits : UInt16
  isFirst : Bool
  vec : List SchedParams

/-- What `send_to_card` does before the page loop, if it gets there. -/
def CmdList.startPages (l : CmdList) (opcode : CmdListOpcode) (broken : Bool) :
    Option CmdListSend :=
  if l.vec.isEmpty ∨ broken ∨ l.numEdits = 0 then none
  else some ⟨l.cmdMsg opcode, l.numEdits, true, l.vec⟩

namespace CmdListSend

variable (s : CmdListSend)

/-- The number of edits, at the start of the first page. -/
def count : List UInt8 := if s.isFirst then Codec.u32.encode s.numEdits.toUInt32 else []

/-- The bytes of the elements, the elements that are done and those that are left. -/
def packed : List UInt8 × List SchedParams × List SchedParams :=
  packPage s.vec (pageSize - s.count.length)

def bytes : List UInt8 := s.count ++ s.packed.1

def done : List SchedParams := s.packed.2.1

def rest : List SchedParams := s.packed.2.2

def pageMsg : CmdListMsg := s.msg.forPage s.isFirst s.rest.isEmpty s.bytes.length

/-- The loop variables after the page, or nothing when the loop ends. -/
def next : Option CmdListSend :=
  if s.rest.isEmpty then none else some { s with isFirst := false, vec := s.rest }

theorem sendPages_succ (fuel : ℕ) {io : ℕ → PageIO} (hio : (io 0).Succeeds) (hvec : s.vec ≠ []) :
    sendPages s.msg s.numEdits (fuel + 1) io s.isFirst s.vec =
      (sendPages s.msg s.numEdits fuel (fun k => io (k + 1)) false s.rest).map fun out =>
        { out with
          sent := ⟨s.pageMsg, s.bytes ++ (io 0).stale.drop s.bytes.length⟩ :: out.sent
          vec := s.done ++ out.vec } := by
  obtain ⟨hcont, hwritten⟩ := hio
  obtain ⟨msg, numEdits, isFirst, vec⟩ := s
  cases vec with
  | nil => exact absurd rfl hvec
  | cons e es => simp [sendPages, hcont, hwritten, pageMsg, bytes, done, rest, packed, count]

end CmdListSend

end NNPIHost.CommandList

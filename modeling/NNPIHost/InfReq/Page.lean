import NNPIHost.DevNet.Pages
import NNPIHost.InfReq.Create

/-! # What the receiver of an infer request reads

The test whether a request fits into a page is made on a sum that wraps at 32 bits. What is
put into the page decodes to the request when the sum does not wrap.
-/

namespace NNPIHost

/-- The inputs, the outputs and the configuration data of the page of an infer request. -/
def decodeInfReq (page : List UInt8) : Option (List UInt16 × List UInt16 × List UInt8) := do
  let (numInputs, page) ← Codec.u32.decode page
  let (numOutputs, page) ← Codec.u32.decode page
  let (configSize, page) ← Codec.u32.decode page
  let (inputs, page) ← Codec.u16.decodeN numInputs.toNat page
  let (outputs, page) ← Codec.u16.decodeN numOutputs.toNat page
  return (inputs, outputs, page.take configSize.toNat)

namespace InfReqRequest

variable {r : InfReqRequest} {broken : Bool} {id : Option (BitVec 16)} {send : InfReqSend}

def config (r : InfReqRequest) : List UInt8 :=
  match r.configData with
  | none => []
  | some data => Memory.read data 0 r.configDataSize.toNat

/-- What is put into the page ends in it and decodes to the request, and the message tells its
size. -/
structure FitsPage (r : InfReqRequest) (send : InfReqSend) : Prop where
  ends : send.bytes.length ≤ 4096
  size : send.msg.size.toNat = send.bytes.length
  decodes : ∀ old, decodeInfReq (ringPage send.bytes old) =
    some (r.inputs.map (·.id), r.outputs.map (·.id), r.config)

theorem start_eq_ok (h : r.start broken id = .ok send) :
    (r.configData = none → r.configDataSize = 0) ∧ r.packetSize < 4096 ∧
      send.msg.size = .ofNat 12 r.packetSize ∧ send.bytes = r.bytes := by
  unfold start at h
  split_ifs at h with hconf _ _ hsize _ _
  cases id with
  | none => cases h
  | some id =>
    obtain rfl := Except.ok.inj h
    refine ⟨fun hnone => ?_, by omega, rfl, rfl⟩
    have hzero : ¬ 0 < r.configDataSize := fun hpos => hconf ⟨by rw [hnone]; rfl, hpos⟩
    exact UInt32.toNat_inj.mp (Nat.eq_zero_of_not_pos hzero)

theorem length_config (hconf : r.configData = none → r.configDataSize = 0) :
    r.config.length = r.configDataSize.toNat := by
  cases hdata : r.configData with
  | none => simp [config, hdata, hconf hdata]
  | some data => simp [config, hdata]

theorem decodeN_ids (ds : List ReqDevRes) (hn : ds.length < 2 ^ 32) (rest : List UInt8) :
    Codec.u16.decodeN (UInt32.ofNat ds.length).toNat
      ((ds.flatMap fun d => Codec.u16.encode d.id) ++ rest) = some (ds.map (·.id), rest) := by
  have hnat : (UInt32.ofNat ds.length).toNat = (ds.map (·.id)).length := by
    rw [UInt32.toNat_ofNat_of_lt' hn, List.length_map]
  have hids : (ds.flatMap fun d => Codec.u16.encode d.id) =
      (ds.map (·.id)).flatMap Codec.u16.encode := (List.flatMap_map ..).symm
  rw [hnat, hids]
  exact Codec.decodeN_flatMap (fun _ _ => trivial) rest

/-- The page decodes whatever follows in it. -/
theorem decodeInfReq_bytes (hconf : r.configData = none → r.configDataSize = 0)
    (hin : r.inputs.length < 2 ^ 32) (hout : r.outputs.length < 2 ^ 32) (rest : List UInt8) :
    decodeInfReq (r.bytes ++ rest) =
      some (r.inputs.map (·.id), r.outputs.map (·.id), r.config) := by
  have hbytes : r.bytes = Codec.u32.encode (.ofNat r.inputs.length) ++
      (Codec.u32.encode (.ofNat r.outputs.length) ++ (Codec.u32.encode r.configDataSize ++
        ((r.inputs.flatMap fun d => Codec.u16.encode d.id) ++
          ((r.outputs.flatMap fun d => Codec.u16.encode d.id) ++ r.config)))) := by
    simp only [bytes, List.append_assoc]
    rfl
  have htake : (r.config ++ rest).take r.configDataSize.toNat = r.config := by
    rw [← length_config hconf, List.take_left]
  simp only [decodeInfReq, hbytes, List.append_assoc, Codec.decode_u32, Option.bind_eq_bind,
    Option.bind_some, decodeN_ids _ hin, decodeN_ids _ hout, htake, Option.pure_def]

/-- A request that is not refused fits into its page unless its size wraps. -/
theorem fitsPage_iff (h : r.start broken id = .ok send) : r.FitsPage send ↔
    12 + (r.inputs.length + r.outputs.length) * 2 + r.configDataSize.toNat < 2 ^ 32 := by
  obtain ⟨hconf, hlt, hsize, hbytes⟩ := start_eq_ok h
  have hlen := length_bytes_eq r hconf
  rw [← hlen]
  constructor
  · intro hfits
    have := hbytes ▸ hfits.ends
    omega
  · intro hwrap
    have hpacket : r.packetSize = r.bytes.length := by
      rw [← length_bytes r hconf, Nat.mod_eq_of_lt hwrap]
    refine ⟨by rw [hbytes]; omega, ?_, fun old => ?_⟩
    · rw [hsize, hbytes, BitVec.toNat_ofNat, hpacket]
      omega
    · rw [ringPage, hbytes]
      exact decodeInfReq_bytes hconf (by omega) (by omega) _

/-- A request of one output and two bytes. -/
def oneOutput : InfReqRequest where
  chanId := 3
  netID := 1
  netValid := true
  inputs := []
  outputs := [⟨5, ReqDevRes.nnOutput⟩]
  configData := some fun _ => 7
  configDataSize := 2

/-- The size of this request is 2^32. -/
def wrapped : InfReqRequest := { oneOutput with configDataSize := 0xfffffff2 }

theorem oneOutput_fitsPage_iff : ∃ send, oneOutput.start false (some 0) = .ok send ∧
    (oneOutput.FitsPage send ↔ 12 + (oneOutput.inputs.length + oneOutput.outputs.length) * 2 +
      oneOutput.configDataSize.toNat < 2 ^ 32) :=
  have h : oneOutput.start false (some 0) = .ok _ := rfl
  ⟨_, h, fitsPage_iff h⟩

/-- The request is put over the end of the page. -/
theorem wrapped_overruns_page : ∃ send, wrapped.start false (some 0) = .ok send ∧
    send.bytes.length = 2 ^ 32 ∧ send.msg.size.toNat = 0 :=
  ⟨_, rfl, length_bytes_eq wrapped (by rintro ⟨⟩), rfl⟩

end InfReqRequest

end NNPIHost

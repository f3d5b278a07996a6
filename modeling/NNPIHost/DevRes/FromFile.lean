import NNPIHost.Context.Finish
import NNPIHost.DevRes.Create
import NNPIHost.Store.Handles
import NNPIHost.SubLoad.Failures

/-! # Device resources and networks from files

A file is loaded into a device resource that is created for it, and a network is created from
one or two such resources, which are destroyed again in the end. The resource of a load that
fails is left behind: its creator returns the error, and its caller counts only whole loads.
-/

namespace NNPIHost

open Store (OrderedMap)

/-- A file that is open for reading, which may fail from some position on. -/
structure FileStream where
  data : List UInt8
  failsAt : Option ℕ
  pos : ℕ
  eof : Bool

namespace FileStream

variable (st : FileStream)

/-- Whether reading fails before the end of the file. -/
def fails : Bool := st.failsAt.any (· < st.data.length)

/-- Where reading stops. -/
def stop : ℕ := st.failsAt.elim st.data.length (min st.data.length)

/-- `file_stream_read_cb`. -/
def read (dst : List UInt8) : ℤ × List UInt8 × FileStream :=
  let n := min (st.stop - st.pos) dst.length
  let eof := st.eof || (decide (n < dst.length) && !st.fails)
  let stream := { st with pos := st.pos + n, eof }
  if n = 0 ∧ eof = false then (-1, dst, stream)
  else (n, (st.data.drop st.pos).take n ++ dst.drop n, stream)

end FileStream

/-- An error number, as the system sets it when a call fails. -/
abbrev Errno := { n : ℕ // n ≠ 0 }

/-- What the system says of a file: its size by `stat`, and what `fopen` gives. -/
structure SystemFile where
  stat : Except Errno UInt64
  fopen : Except Errno FileStream

/-- What the loading of a file meets: the address of the new resource, what its creation meets,
and the steps of the load. -/
structure FileResourceIO where
  addr : ℕ
  create : DevResIO
  load : List LoadOp

/-- What the creation of a network from files meets. `malloc` is whether there is memory for the
second name, and `destroy` is about the resource of each file. -/
structure FileNetworkIO where
  blob : FileResourceIO
  data : FileResourceIO
  malloc : Bool
  addr : ℕ
  network : NetworkIO
  destroy : ℕ → DestroyOutcome

/-- The objects behind the handles. -/
structure FileApi where
  contexts : ℕ → Option ApiContext
  devres : OrderedMap ℕ DevRes
  networks : ℕ → Option ApiNetwork

namespace DevRes

def lockless : UInt32 := 128

end DevRes

/-- The load of a resource, which returns nothing while it goes on. -/
def nnpdrvDeviceResourceSubLoadFromStream {σ : Type*}
    (read : σ → List UInt8 → ℤ × List UInt8 × σ) (devres : OrderedMap ℕ DevRes) (h : ℕ)
    (offset : UInt64) (stream : σ) (ops : List LoadOp) : Option NNPError :=
  match devres.find? h with
  | none => some .noSuchResource
  | some r =>
      (Exec.run (SubLoad.step read) (.start (.ofNat r.size) offset stream) ops).bind fun t =>
        if t.phase = .returned then some t.ret else none

namespace FileApi

open DevRes (network lockless)

variable (s : FileApi)

/-- `out` is whether there is a pointer for the handle. -/
def nnpdrvCreateDeviceResourceFIFO (ctx : ℕ) (elemByteSize : UInt64) (depth : UInt32)
    (align : UInt64) (usageFlags : UInt32) (out : Bool) (addr : ℕ) (io : DevResIO) :
    Except NNPError (ℕ × FileApi) :=
  if out = false then .error .invalidArgument
  else if usageFlags &&& lockless ≠ 0 then .error .invalidArgument
  else
    match s.contexts ctx with
    | none => .error .noSuchContext
    | some c =>
        match ((⟨elemByteSize, depth, align, usageFlags⟩ : DevResRequest).create c.chanId io).2 with
        | .error e => .error e
        | .ok created =>
            let (h, devres) :=
              s.devres.makeHandle addr ⟨c, created.id, elemByteSize.toNat, usageFlags⟩
            .ok (h, { s with devres })

def nnpdrvCreateDeviceResource (ctx : ℕ) (byteSize align : UInt64) (usageFlags : UInt32)
    (out : Bool) (addr : ℕ) (io : DevResIO) : Except NNPError (ℕ × FileApi) :=
  s.nnpdrvCreateDeviceResourceFIFO ctx byteSize 1 align usageFlags out addr io

/-- `nnpdrvCreateDeviceResourceFromFile` before the load: the open file, the handle of the new
resource, and the handles with it. -/
def openFile (files : List Char → SystemFile) (ctx : ℕ) (fileName : Option (List Char))
    (align : UInt64) (usageFlags : UInt32) (out : Bool) (io : FileResourceIO) :
    Except NNPError (FileStream × ℕ × FileApi) :=
  match fileName with
  | none => .error .invalidArgument
  | some name =>
      if usageFlags &&& network ≠ 0 ∧ usageFlags ≠ network then .error .invalidArgument
      else
        match (files name).stat with
        | .error errno => .error (errnoToNNPError errno)
        | .ok fileSize =>
            match (files name).fopen with
            | .error errno => .error (errnoToNNPError errno)
            | .ok stream =>
                (s.nnpdrvCreateDeviceResource ctx fileSize align usageFlags out io.addr
                  io.create).map (stream, ·)

def loadFile (devres : OrderedMap ℕ DevRes) (h : ℕ) (stream : FileStream) (ops : List LoadOp) :
    Option NNPError := nnpdrvDeviceResourceSubLoadFromStream FileStream.read devres h 0 stream ops

/-- What is returned, what is stored through `out_devRes`, and the handles. -/
def nnpdrvCreateDeviceResourceFromFile (files : List Char → SystemFile) (ctx : ℕ)
    (fileName : Option (List Char)) (align : UInt64) (usageFlags : UInt32) (out : Bool)
    (io : FileResourceIO) : Option (NNPError × Option ℕ × FileApi) :=
  match s.openFile files ctx fileName align usageFlags out io with
  | .error e => some (e, none, s)
  | .ok (stream, h, t) => (loadFile t.devres h stream io.load).map fun ret => (ret, some h, t)

def nnpdrvDestroyDeviceResource (io : DestroyOutcome) (h : ℕ) : NNPError × FileApi :=
  let (ret, devres) := destroyHandle .noSuchResource (fun _ => io.destroyDevRes) h s.devres
  (ret, { s with devres })

/-- The state of the handles as the creation of a network sees it. -/
def toApi : ApiState := ⟨0, s.contexts, s.devres.find?, s.networks, []⟩

def nnpdrvCreateDeviceNetworkWithResources (h ctx : ℕ) (devResArray : List ℕ)
    (config : ConfigData) (io : NetworkIO) : NNPError × FileApi :=
  let (ret, api) := s.toApi.createDeviceNetworkWithResources h ctx devResArray config io
  (ret, { s with networks := api.networks })

/-- The loop after the label `finish`, from the resource `i` on. -/
def destroyLoop (destroy : ℕ → DestroyOutcome) : ℕ → List ℕ → FileApi → FileApi
  | _, [], s => s
  | i, h :: hs, s =>
      destroyLoop destroy (i + 1) hs (s.nnpdrvDestroyDeviceResource (destroy i) h).2

def xmlExtension : List Char := ['.', 'x', 'm', 'l']

def dataXmlExtension : List Char := ['.', 'd', 'a', 't', 'a', '.', 'x', 'm', 'l']

def endsXml (name : List Char) : Bool :=
  decide (4 ≤ name.length) && name.drop (name.length - 4) = xmlExtension

def dataFileName (name : List Char) : List Char :=
  name.take (name.length - 4) ++ dataXmlExtension

/-- The end of `nnpdrvCreateDeviceNetwork`, with the resources that are loaded. -/
def createFromResources (ctx : ℕ) (devRes : List ℕ) (config : ConfigData) (io : FileNetworkIO) :
    NNPError × FileApi :=
  let (ret, s) := s.nnpdrvCreateDeviceNetworkWithResources io.addr ctx devRes config io.network
  (ret, destroyLoop io.destroy 0 devRes s)

/-- The part of `nnpdrvCreateDeviceNetwork` after the first file, whose resource is in `devRes`:
a name that ends in `.xml` has a second file, whose failure is passed over. -/
def createFromBlob (files : List Char → SystemFile) (ctx : ℕ) (name : List Char)
    (devRes : List ℕ) (config : ConfigData) (io : FileNetworkIO) : Option (NNPError × FileApi) :=
  if endsXml name then
    if io.malloc then
      (s.nnpdrvCreateDeviceResourceFromFile files ctx (some (dataFileName name)) 0 network true
        io.data).map fun (ret, o, s) =>
          s.createFromResources ctx (if ret = .noError then devRes ++ o.toList else devRes) config
            io
    else some (.outOfMemory, destroyLoop io.destroy 0 devRes s)
  else some (s.createFromResources ctx devRes config io)

def nnpdrvCreateDeviceNetwork (files : List Char → SystemFile) (ctx : ℕ)
    (netBlobFilename : Option (List Char)) (config : ConfigData) (out : Bool)
    (io : FileNetworkIO) : Option (NNPError × FileApi) :=
  match netBlobFilename with
  | none => some (.invalidArgument, s)
  | some name =>
      if out = false then some (.invalidArgument, s)
      else if 0 < config.size ∧ config.data.isNone then some (.invalidArgument, s)
      else
        (s.nnpdrvCreateDeviceResourceFromFile files ctx (some name) 0 network true
          io.blob).bind fun (ret, o, s) =>
            if ret ≠ .noError then some (ret, s)
            else s.createFromBlob files ctx name o.toList config io

/-- When the file is opened and its resource created, the load does not fail. -/
def LoadsWhole (files : List Char → SystemFile) (ctx : ℕ) (fileName : Option (List Char))
    (align : UInt64) (usageFlags : UInt32) (out : Bool) (io : FileResourceIO) : Prop :=
  ∀ stream h t, s.openFile files ctx fileName align usageFlags out io = .ok (stream, h, t) →
    loadFile t.devres h stream io.load = some .noError

/-- Nothing goes wrong in the creation of a network from one resource. -/
def NetworkCreated (ctx h : ℕ) (config : ConfigData) (io : NetworkIO) : Prop :=
  ∃ c r id, s.contexts ctx = some c ∧ s.devres.find? h = some r ∧ r.uses network = true ∧
    io.id = some id ∧
    (ApiState.networkRequest c id true [r] config).Completes io.broken io.pages io.reply

/-- The loads of both files do not fail, if they are begun, or that of the second one does and
there is a network without it. -/
def LoadsBoth (files : List Char → SystemFile) (ctx : ℕ) (netBlobFilename : Option (List Char))
    (config : ConfigData) (out : Bool) (io : FileNetworkIO) : Prop :=
  ∀ name, netBlobFilename = some name → out = true → ¬ (0 < config.size ∧ config.data.isNone) →
    s.LoadsWhole files ctx (some name) 0 network true io.blob ∧
    ∀ stream h t, s.openFile files ctx (some name) 0 network true io.blob = .ok (stream, h, t) →
      endsXml name = true → io.malloc = true →
        t.LoadsWhole files ctx (some (dataFileName name)) 0 network true io.data ∨
          t.NetworkCreated ctx h config io.network

/-- A resource was added under a handle that was not in use. -/
structure Added (h : ℕ) (r : DevRes) (s t : FileApi) : Prop where
  fresh : h ∉ s.devres.keys
  devres : t.devres = s.devres.insert h r
  contexts : t.contexts = s.contexts

section FromFile

variable {s} {t : FileApi} {files : List Char → SystemFile} {ctx h : ℕ} {e : NNPError}
  {fileName : Option (List Char)} {align byteSize : UInt64} {depth usageFlags : UInt32}
  {out : Bool} {io : FileResourceIO} {create : DevResIO} {addr : ℕ} {stream : FileStream}

theorem createFIFO_eq_ok (hc : s.nnpdrvCreateDeviceResourceFIFO ctx byteSize depth align
    usageFlags out addr create = .ok (h, t)) : ∃ r, Added h r s t := by
  unfold nnpdrvCreateDeviceResourceFIFO at hc
  split at hc
  · cases hc
  split at hc
  · cases hc
  split at hc
  · cases hc
  split at hc
  · cases hc
  · obtain ⟨rfl, rfl⟩ := Prod.mk.inj (Except.ok.inj hc)
    exact ⟨_, s.devres.freshKey_notMem _, rfl, rfl⟩

theorem create_error {r : DevResRequest} {chanId : BitVec 10}
    (hc : (r.create chanId create).2 = .error e) : e ≠ .noError := by
  unfold DevResRequest.create at hc
  split at hc
  next hcheck =>
    obtain rfl := Except.error.inj hc
    exact hcheck
  split at hc
  · obtain rfl := Except.error.inj hc
    decide
  unfold DevResRequest.createDevRes at hc
  split at hc
  · obtain rfl := Except.error.inj hc
    decide
  split at hc
  · dsimp only at hc
    split at hc
    · cases hc
    next hret =>
      obtain rfl := Except.error.inj hc
      exact hret
  · obtain rfl := Except.error.inj hc
    decide

theorem createFIFO_error (hc : s.nnpdrvCreateDeviceResourceFIFO ctx byteSize depth align
    usageFlags out addr create = .error e) : e ≠ .noError := by
  unfold nnpdrvCreateDeviceResourceFIFO at hc
  split at hc
  · obtain rfl := Except.error.inj hc
    decide
  split at hc
  · obtain rfl := Except.error.inj hc
    decide
  split at hc
  · obtain rfl := Except.error.inj hc
    decide
  split at hc
  next he =>
    obtain rfl := Except.error.inj hc
    exact create_error he
  next => cases hc

theorem openFile_eq_ok
    (ho : s.openFile files ctx fileName align usageFlags out io = .ok (stream, h, t)) :
    ∃ r, Added h r s t := by
  unfold openFile at ho
  split at ho
  · cases ho
  split at ho
  · cases ho
  split at ho
  · cases ho
  split at ho
  · cases ho
  next size _ _ _ _ =>
    cases hc : s.nnpdrvCreateDeviceResource ctx size align usageFlags out io.addr io.create with
    | error => simp only [hc, Except.map, reduceCtorEq] at ho
    | ok p =>
      simp only [hc, Except.map, Except.ok.injEq, Prod.mk.injEq] at ho
      obtain ⟨_, rfl⟩ := ho
      exact createFIFO_eq_ok hc

theorem openFile_error (ho : s.openFile files ctx fileName align usageFlags out io = .error e) :
    e ≠ .noError := by
  unfold openFile at ho
  split at ho
  · obtain rfl := Except.error.inj ho
    decide
  split at ho
  · obtain rfl := Except.error.inj ho
    decide
  split at ho
  next errno _ =>
    obtain rfl := Except.error.inj ho
    exact errnoToNNPError_ne errno.2
  split at ho
  next errno _ =>
    obtain rfl := Except.error.inj ho
    exact errnoToNNPError_ne errno.2
  next size _ _ _ _ =>
    cases hc : s.nnpdrvCreateDeviceResource ctx size align usageFlags out io.addr io.create with
    | error =>
      simp only [hc, Except.map, Except.error.injEq] at ho
      exact ho ▸ createFIFO_error hc
    | ok p => simp only [hc, Except.map, reduceCtorEq] at ho

theorem loadsWhole_of_error
    (ho : s.openFile files ctx fileName align usageFlags out io = .error e) :
    s.LoadsWhole files ctx fileName align usageFlags out io := by
  intro stream h t hok
  cases ho.symm.trans hok

theorem loadsWhole_iff_of_ok
    (ho : s.openFile files ctx fileName align usageFlags out io = .ok (stream, h, t)) :
    s.LoadsWhole files ctx fileName align usageFlags out io ↔
      loadFile t.devres h stream io.load = some .noError := by
  constructor
  · exact fun hwhole => hwhole stream h t ho
  · intro hload stream' h' t' hok
    obtain ⟨rfl, rfl, rfl⟩ : stream = stream' ∧ h = h' ∧ t = t' := by
      simpa using ho.symm.trans hok
    exact hload

/-- The call gives an error and leaves the handles as they were, or it has added a resource and
gives what the load returns. -/
theorem fromFile_cases {ret : NNPError} {o : Option ℕ}
    (hcall : s.nnpdrvCreateDeviceResourceFromFile files ctx fileName align usageFlags out io =
      some (ret, o, t)) :
    (s.openFile files ctx fileName align usageFlags out io = .error ret ∧ ret ≠ .noError ∧
        o = none ∧ t = s) ∨
      ∃ stream h r, s.openFile files ctx fileName align usageFlags out io = .ok (stream, h, t) ∧
        Added h r s t ∧ o = some h ∧
        (ret = .noError ↔ s.LoadsWhole files ctx fileName align usageFlags out io) := by
  unfold nnpdrvCreateDeviceResourceFromFile at hcall
  split at hcall
  next e ho =>
    obtain ⟨rfl, rfl, rfl⟩ : e = ret ∧ none = o ∧ s = t := by simpa using hcall
    exact .inl ⟨ho, openFile_error ho, rfl, rfl⟩
  next stream h t' ho =>
    obtain ⟨ret', hload, heq⟩ := Option.map_eq_some_iff.mp hcall
    obtain ⟨rfl, rfl, rfl⟩ : ret' = ret ∧ some h = o ∧ t' = t := by simpa using heq
    obtain ⟨r, hadd⟩ := openFile_eq_ok ho
    refine .inr ⟨stream, h, r, ho, hadd, rfl, ?_⟩
    rw [loadsWhole_iff_of_ok ho, hload, Option.some.injEq]

theorem Added.keys_ne {r : DevRes} (ha : Added h r s t) : t.devres.keys ≠ s.devres.keys := by
  rw [ha.devres]
  exact OrderedMap.insert_keys_ne ha.fresh

theorem fromFile_keeps_iff {ret : NNPError} {o : Option ℕ}
    (hcall : s.nnpdrvCreateDeviceResourceFromFile files ctx fileName align usageFlags out io =
      some (ret, o, t)) :
    (ret ≠ .noError → t.devres.keys = s.devres.keys) ↔
      s.LoadsWhole files ctx fileName align usageFlags out io := by
  obtain ⟨ho, _, _, rfl⟩ | ⟨stream, h, r, _, hadd, _, hwhole⟩ := fromFile_cases hcall
  · exact iff_of_true (fun _ => rfl) (loadsWhole_of_error ho)
  · rw [← hwhole]
    constructor
    · intro hkeep
      by_contra hne
      exact hadd.keys_ne (hkeep hne)
    · exact fun heq hne => absurd heq hne

end FromFile

section Network

variable {s} {t u v : FileApi} {files : List Char → SystemFile} {ctx h h' : ℕ} {ret : NNPError}
  {name : List Char} {netBlobFilename : Option (List Char)} {config : ConfigData} {out : Bool}
  {io : FileNetworkIO} {r r' : DevRes} {destroy : ℕ → DestroyOutcome} {hs : List ℕ}

theorem destroyLoop_devres (hw : ∀ i, (destroy i).written = true) (i : ℕ) :
    (destroyLoop destroy i hs s).devres = hs.foldl OrderedMap.erase s.devres := by
  induction hs generalizing s i with
  | nil => rfl
  | cons h hs ih =>
    rw [destroyLoop, ih, List.foldl_cons]
    congr 1
    have hsend : (destroy i).destroyDevRes = .noError :=
      DestroyOutcome.send_eq_noError.mpr (.inr (hw i))
    simp only [nnpdrvDestroyDeviceResource, destroyHandle]
    split
    next hf => exact (OrderedMap.erase_of_not_mem (OrderedMap.find?_eq_none.mp hf)).symm
    next => exact if_pos hsend

theorem createFromResources_devres (hw : ∀ i, (io.destroy i).written = true)
    (hc : s.createFromResources ctx hs config io = (ret, t)) :
    t.devres = hs.foldl OrderedMap.erase s.devres := by
  obtain ⟨_, rfl⟩ := Prod.mk.inj hc
  exact destroyLoop_devres hw 0

theorem createWithResources_fst {api : ApiState} {c : ApiContext} {vec : List DevRes}
    {id : BitVec 16} {net : NetworkIO} {arr : List ℕ} {a : ℕ} (hctx : api.contexts ctx = some c)
    (harr : api.getDevresArray arr = .ok vec) (hid : net.id = some id) :
    (api.createDeviceNetworkWithResources a ctx arr config net).1 =
      ((ApiState.networkRequest c id true vec config).send net.broken net.pages net.reply).2 := by
  simp only [ApiState.createDeviceNetworkWithResources, hctx, harr, hid]
  split <;> rfl

theorem getDevresArray_singleton : s.toApi.getDevresArray [h] =
    match s.devres.find? h with
    | none => .error .noSuchResource
    | some r => if r.uses network = true then .ok [r] else .error .incompatibleResources := by
  simp only [ApiState.getDevresArray, ApiState.findAll, toApi, ite_not]
  rfl

theorem createFromResources_eq_noError :
    (s.createFromResources ctx [h] config io).1 = .noError ↔
      s.NetworkCreated ctx h config io.network := by
  change (s.toApi.createDeviceNetworkWithResources io.addr ctx [h] config io.network).1 = _ ↔ _
  have harr := s.getDevresArray_singleton (h := h)
  constructor
  · intro hret
    cases hctx : s.contexts ctx with
    | none => simp [ApiState.createDeviceNetworkWithResources, toApi, hctx] at hret
    | some c =>
      have hctx' : s.toApi.contexts ctx = some c := hctx
      cases hf : s.devres.find? h with
      | none =>
        simp only [hf] at harr
        simp [ApiState.createDeviceNetworkWithResources, hctx', harr] at hret
      | some r =>
        cases hu : r.uses network with
        | false =>
          simp only [hf, hu, Bool.false_eq_true, if_false] at harr
          simp [ApiState.createDeviceNetworkWithResources, hctx', harr] at hret
        | true =>
          simp only [hf, hu, if_true] at harr
          cases hid : io.network.id with
          | none => simp [ApiState.createDeviceNetworkWithResources, hctx', harr, hid] at hret
          | some id =>
            rw [createWithResources_fst hctx' harr hid, NetworkRequest.send_eq_noError] at hret
            exact ⟨c, r, id, hctx, hf, hu, hid, hret⟩
  · rintro ⟨c, r, id, hctx, hf, hu, hid, hdone⟩
    have hctx' : s.toApi.contexts ctx = some c := hctx
    simp only [hf, hu, if_true] at harr
    rw [createWithResources_fst hctx' harr hid]
    exact NetworkRequest.send_eq_noError.mpr hdone

theorem Added.find? (ha : Added h r s t) : t.devres.find? h = some r :=
  OrderedMap.find?_eq_some.mpr (ha.devres ▸ OrderedMap.mem_insert.mpr (.inl rfl))

theorem Added.mem_keys (ha : Added h r s t) : h ∈ t.devres.keys :=
  OrderedMap.mem_keys.mpr ⟨r, OrderedMap.find?_eq_some.mp ha.find?⟩

theorem Added.erase (ha : Added h r s t) : t.devres.erase h = s.devres :=
  ha.devres ▸ OrderedMap.erase_insert ha.fresh

theorem Added.erase_first (ha : Added h r s t) (ha' : Added h' r' t u) :
    u.devres.erase h = s.devres.insert h' r' ∧ h' ∉ s.devres.keys := by
  have hne : h' ≠ h := by
    rintro rfl
    exact ha'.fresh ha.mem_keys
  constructor
  · rw [ha'.devres, OrderedMap.erase_insert_of_ne hne, ha.erase]
  · intro hin
    refine ha'.fresh ?_
    rw [ha.devres]
    exact OrderedMap.mem_keys_insert.mpr (.inr hin)

theorem Added.networkCreated (ha : Added h r s t) (ha' : Added h' r' t u) :
    u.NetworkCreated ctx h config io.network ↔ t.NetworkCreated ctx h config io.network := by
  have hne : h ≠ h' := by
    rintro rfl
    exact ha'.fresh ha.mem_keys
  have hfind : u.devres.find? h = t.devres.find? h := by
    rw [ha.find?, OrderedMap.find?_eq_some, ha'.devres]
    exact OrderedMap.mem_insert.mpr (.inr ⟨OrderedMap.find?_eq_some.mp ha.find?, hne⟩)
  simp only [NetworkCreated, ha'.contexts, hfind]

theorem createFromResources_keys (ha : Added h r s t) (hw : ∀ i, (io.destroy i).written = true)
    (hc : t.createFromResources ctx [h] config io = (ret, u)) :
    u.devres.keys = s.devres.keys := by
  rw [createFromResources_devres hw hc, List.foldl_cons, ha.erase, List.foldl_nil]

theorem createFromResources_both_keys (ha : Added h r s t) (ha' : Added h' r' t u)
    (hw : ∀ i, (io.destroy i).written = true)
    (hc : u.createFromResources ctx [h, h'] config io = (ret, v)) :
    v.devres.keys = s.devres.keys := by
  obtain ⟨herase, hfresh⟩ := ha.erase_first ha'
  rw [createFromResources_devres hw hc, List.foldl_cons, List.foldl_cons, herase,
    OrderedMap.erase_insert hfresh, List.foldl_nil]

/-- After the first file, its resource goes in the end, and that of the second file too if it is
loaded. -/
theorem createFromBlob_keeps_iff (ha : Added h r s t) (hw : ∀ i, (io.destroy i).written = true)
    (hcall : t.createFromBlob files ctx name [h] config io = some (ret, u)) :
    (ret ≠ .noError → u.devres.keys = s.devres.keys) ↔
      (endsXml name = true → io.malloc = true →
        t.LoadsWhole files ctx (some (dataFileName name)) 0 network true io.data ∨
          t.NetworkCreated ctx h config io.network) := by
  unfold createFromBlob at hcall
  split at hcall
  next hxml =>
    split at hcall
    next hmalloc =>
      simp only [hxml, hmalloc, true_implies]
      obtain ⟨⟨ret', o, v⟩, hfile, hrest⟩ := Option.map_eq_some_iff.mp hcall
      dsimp only at hrest
      obtain ⟨ho, hne, rfl, rfl⟩ | ⟨stream, h', r', _, ha', rfl, hwhole⟩ := fromFile_cases hfile
      · rw [if_neg hne] at hrest
        refine iff_of_true (fun _ => ?_) (.inl (loadsWhole_of_error ho))
        exact createFromResources_keys ha hw hrest
      · split at hrest
        next hret =>
          refine iff_of_true (fun _ => ?_) (.inl (hwhole.mp hret))
          exact createFromResources_both_keys ha ha' hw hrest
        next hret =>
          -- the second resource stays when its load fails
          obtain ⟨herase, hfresh⟩ := ha.erase_first ha'
          have hdevres : u.devres = s.devres.insert h' r' := by
            rw [createFromResources_devres hw hrest, List.foldl_cons, List.foldl_nil, herase]
          have hcreated : ret = .noError ↔ v.NetworkCreated ctx h config io.network := by
            rw [← createFromResources_eq_noError, hrest]
          rw [or_iff_right (mt hwhole.mpr hret), ← ha.networkCreated ha', ← hcreated, hdevres]
          constructor
          · intro hkeep
            by_contra herr
            exact OrderedMap.insert_keys_ne hfresh (hkeep herr)
          · exact fun heq herr => absurd heq herr
    next hmalloc =>
      obtain ⟨_, rfl⟩ := Prod.mk.inj (Option.some.inj hcall)
      refine iff_of_true (fun _ => ?_) fun _ hm => absurd hm hmalloc
      rw [destroyLoop_devres hw, List.foldl_cons, ha.erase, List.foldl_nil]
  next hxml =>
    refine iff_of_true (fun _ => ?_) fun hx => absurd hx hxml
    exact createFromResources_keys ha hw (Option.some.inj hcall)

theorem network_keeps_iff (hw : ∀ i, (io.destroy i).written = true)
    (hcall : s.nnpdrvCreateDeviceNetwork files ctx netBlobFilename config out io =
      some (ret, u)) :
    (ret ≠ .noError → u.devres.keys = s.devres.keys) ↔
      s.LoadsBoth files ctx netBlobFilename config out io := by
  unfold nnpdrvCreateDeviceNetwork at hcall
  split at hcall
  next =>
    obtain ⟨_, rfl⟩ := Prod.mk.inj (Option.some.inj hcall)
    exact iff_of_true (fun _ => rfl) fun _ hname => by cases hname
  next name =>
    simp only [LoadsBoth, Option.some.injEq, forall_eq']
    split at hcall
    next hout =>
      obtain ⟨_, rfl⟩ := Prod.mk.inj (Option.some.inj hcall)
      exact iff_of_true (fun _ => rfl) fun ho => absurd (hout.symm.trans ho) Bool.false_ne_true
    next hout =>
      split at hcall
      next hconfig =>
        obtain ⟨_, rfl⟩ := Prod.mk.inj (Option.some.inj hcall)
        exact iff_of_true (fun _ => rfl) fun _ hc => absurd hconfig hc
      next hconfig =>
        simp only [Bool.not_eq_false] at hout
        simp only [hout, hconfig, not_false_eq_true, true_implies]
        obtain ⟨⟨ret', o, t⟩, hfile, hrest⟩ := Option.bind_eq_some_iff.mp hcall
        dsimp only at hrest
        obtain ⟨ho, hne, rfl, rfl⟩ | ⟨stream, h, r, ho, ha, rfl, hwhole⟩ := fromFile_cases hfile
        · rw [if_pos hne] at hrest
          obtain ⟨rfl, rfl⟩ := Prod.mk.inj (Option.some.inj hrest)
          refine iff_of_true (fun _ => rfl) ⟨loadsWhole_of_error ho, fun stream h t hok => ?_⟩
          cases ho.symm.trans hok
        · split at hrest
          next hne =>
            obtain ⟨rfl, rfl⟩ := Prod.mk.inj (Option.some.inj hrest)
            refine iff_of_false (fun hkeep => ha.keys_ne (hkeep hne)) fun hboth => ?_
            exact hne (hwhole.mpr hboth.1)
          next heq =>
            rw [not_not] at heq
            rw [createFromBlob_keeps_iff ha hw hrest, and_iff_right (hwhole.mp heq)]
            constructor
            · intro hblob stream' h' t' hok
              obtain ⟨_, rfl, rfl⟩ : stream = stream' ∧ h = h' ∧ t = t' := by
                simpa using ho.symm.trans hok
              exact hblob
            · exact fun hall => hall stream h t ho

end Network

/-- When a call returns an error, the handles of device resources are those at its entry exactly
if no load has failed for which a resource was created. -/
theorem failed_calls_keep_handles_iff (s : FileApi) (files : List Char → SystemFile) (ctx : ℕ) :
    (∀ fileName align usageFlags out io ret o t,
      s.nnpdrvCreateDeviceResourceFromFile files ctx fileName align usageFlags out io =
        some (ret, o, t) →
      ((ret ≠ .noError → t.devres.keys = s.devres.keys) ↔
        s.LoadsWhole files ctx fileName align usageFlags out io)) ∧
    ∀ netBlobFilename config out io ret t, (∀ i, (io.destroy i).written = true) →
      s.nnpdrvCreateDeviceNetwork files ctx netBlobFilename config out io = some (ret, t) →
      ((ret ≠ .noError → t.devres.keys = s.devres.keys) ↔
        s.LoadsBoth files ctx netBlobFilename config out io) :=
  ⟨fun _ _ _ _ _ _ _ _ hcall => fromFile_keeps_iff hcall,
    fun _ _ _ _ _ _ hw hcall => network_keeps_iff hw hcall⟩

/-- A context without resources. -/
def oneContext : FileApi := ⟨fun _ => some ⟨0, 0, 3⟩, .empty, fun _ => none⟩

/-- Every file has one byte. -/
def oneByteFiles : List Char → SystemFile := fun _ => ⟨.ok 1, .ok ⟨[7], none, 0, false⟩⟩

/-- The network finds no room in the ring. -/
def networkWithoutRoom (blob data : List LoadOp) : FileNetworkIO where
  blob := ⟨64, DevResRequest.created 0, blob⟩
  data := ⟨128, DevResRequest.created 1, data⟩
  malloc := true
  addr := 192
  network := ⟨some 0, false, [⟨false, false⟩], none⟩
  destroy := fun _ => ⟨false, true⟩

/-- The steps of a load of one byte. -/
def byteLoad : List LoadOp := firstBlock ++ .complete 0 false :: afterLoop

/-- There is no memory for a host block. -/
def failedLoad : List LoadOp := [.create 12, .unmap, .destroy, .unmap, .destroy]

/-- The creation of a network that fails after both files are loaded. -/
def failedNetwork : Option (NNPError × FileApi) :=
  oneContext.nnpdrvCreateDeviceNetwork oneByteFiles 0 (some ('n' :: xmlExtension)) ⟨none, 0⟩ true
    (networkWithoutRoom byteLoad byteLoad)

theorem failed_network_keeps_handles_iff : ∃ t, failedNetwork = some (.ioError, t) ∧
    ((NNPError.ioError ≠ .noError → t.devres.keys = oneContext.devres.keys) ↔
      oneContext.LoadsBoth oneByteFiles 0 (some ('n' :: xmlExtension)) ⟨none, 0⟩ true
        (networkWithoutRoom byteLoad byteLoad)) := by
  have hrun : failedNetwork.map Prod.fst = some .ioError := by decide +kernel
  obtain ⟨⟨ret, t⟩, hcall, hret⟩ := Option.map_eq_some_iff.mp hrun
  obtain rfl : ret = .ioError := hret
  exact ⟨t, hcall, (failed_calls_keep_handles_iff oneContext oneByteFiles 0).2 _ _ _ _ _ _
    (fun _ => rfl) hcall⟩

/-- The load of the file of a network fails, and its resource is left. -/
theorem failed_load_leaves_resource :
    ¬ ∀ (s : FileApi) files ctx netBlobFilename config out io ret t,
      (∀ i, (io.destroy i).written = true) →
      s.nnpdrvCreateDeviceNetwork files ctx netBlobFilename config out io = some (ret, t) →
      ret ≠ .noError → t.devres.keys = s.devres.keys := by
  intro hall
  have hcall : oneContext.nnpdrvCreateDeviceNetwork oneByteFiles 0 (some ['n']) ⟨none, 0⟩ true
      (networkWithoutRoom failedLoad []) = some (.ioError, _) := rfl
  have hkeys := hall _ _ _ _ _ _ _ _ _ (fun _ => rfl) hcall (by decide)
  exact absurd (congrArg List.length hkeys) (by decide)

end FileApi

end NNPIHost

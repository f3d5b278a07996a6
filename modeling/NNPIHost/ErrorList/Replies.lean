import Mathlib.Data.List.OfFn
import Mathlib.Logic.Function.Basic
import NNPIHost.Context.ObjDB
import NNPIHost.ErrorList.Query
import NNPIHost.Ring.Refinement

/-! # Error list replies

The card answers an error list query with pages in the response ring and a message for each of
them. The message counts its page as produced before anything else, and the page is consumed
when its bytes have been appended to the error list; a message for a command list that is not
there returns in between, and its page stays in the ring.
-/

namespace NNPIHost

/-- `c2h_ExecErrorList`, with the widths of its bit fields. -/
structure ExecErrorListMsg where
  cmdId : BitVec 16
  cmdIdValid : Bool
  clearStatus : BitVec 2
  pktSize : BitVec 12
  totalSize : BitVec 16
  isError : Bool
  deriving DecidableEq, Repr

/-- The message comes with a page in the response ring. -/
def ExecErrorListMsg.isPage (msg : ExecErrorListMsg) : Bool :=
  !msg.isError && msg.clearStatus = 0

/-- What `processExecErrorList` works on, for any type of host resources. The command lists of
the database are addresses. -/
structure ErrorReplies (H : Type*) where
  respRb : RingBuffer
  objdb : ContextObjDB Unit Unit ℕ ℕ
  /-- The error list of the context. -/
  errorList : ExecErrorList H
  /-- The error lists of the command lists. -/
  cmdErrorLists : ℕ → ExecErrorList H
  /-- The sizes of the head updates sent. -/
  headUpdates : List UInt32
  /-- The number of pages that the card has put into the ring. -/
  pages : ℕ

inductive ErrorRepliesOp (H : Type*) where
  /-- The page is put into the ring if the message comes with one. -/
  | message (msg : ExecErrorListMsg) (page : Fin 4096 → UInt8) (fresh : Option (ℕ → UInt8))
  /-- What other threads do to the database and the lists. -/
  | other (objdb : ContextObjDB Unit Unit ℕ ℕ) (errorList : ExecErrorList H)
      (cmdErrorLists : ℕ → ExecErrorList H)

namespace ErrorReplies

variable {H : Type*}

def ringSize : UInt32 := 8192

def pageSize : UInt32 := 4096

def create (buf : ℕ → UInt8) : ErrorReplies H :=
  ⟨.create buf ringSize, .create, .create, fun _ => .create, [], 0⟩

variable (s : ErrorReplies H)

/-- Change the error list of a command list, or that of the context. -/
def updateList (cmdlist : Option ℕ) (f : ExecErrorList H → Option (ExecErrorList H)) :
    Option (ErrorReplies H) :=
  match cmdlist with
  | none => (f s.errorList).map fun list => { s with errorList := list }
  | some addr => (f (s.cmdErrorLists addr)).map fun list =>
      { s with cmdErrorLists := Function.update s.cmdErrorLists addr list }

/-- `processExecErrorList` once it has its list. The head update is assumed to be written. -/
def handle (cmdlist : Option ℕ) (msg : ExecErrorListMsg) (fresh : Option (ℕ → UInt8)) :
    Option (ErrorReplies H) :=
  if msg.isError then
    s.updateList cmdlist (·.appendErrorListPacket fresh none 0 (.ofBitVec msg.totalSize))
  else if msg.clearStatus = 0 then
    match s.respRb.lockAvailSpace pageSize true with
    | .at off _ =>
        let packet := Memory.read s.respRb.buf off.toNat (msg.pktSize.toNat + 1)
        let s := { s with
          respRb := s.respRb.unlockAvailSpace pageSize
          headUpdates := s.headUpdates ++ [pageSize] }
        s.updateList cmdlist (·.appendErrorListPacket fresh (some packet) msg.totalSize.toNat 0)
    | _ => s.updateList cmdlist (·.appendErrorListPacket fresh none 0 ExecErrorList.ioError)
  else s.updateList cmdlist fun list => some list.clearRequestSucceeded.1

/-- There is no result when the query it completes has none. -/
def processExecErrorList (msg : ExecErrorListMsg) (fresh : Option (ℕ → UInt8)) :
    Option (ErrorReplies H) :=
  let s := if msg.isPage then { s with respRb := s.respRb.updateTailBy pageSize } else s
  if msg.cmdIdValid then
    match s.objdb.getCommandList msg.cmdId.toNat with
    | (none, objdb) => some { s with objdb }
    | (some addr, objdb) => { s with objdb }.handle (some addr) msg fresh
  else s.handle none msg fresh

/-- The card's page. -/
def putPage (page : Fin 4096 → UInt8) : ErrorReplies H :=
  { s with respRb := s.respRb.fill (List.ofFn page), pages := s.pages + 1 }

def step : ErrorRepliesOp H → Option (ErrorReplies H)
  | .message msg page fresh =>
      (if msg.isPage then s.putPage page else s).processExecErrorList msg fresh
  | .other objdb errorList cmdErrorLists => some { s with objdb, errorList, cmdErrorLists }

/-- The ring is empty, and one head update of a page was sent for each page. -/
def Drained (s : ErrorReplies H) : Prop :=
  s.respRb.getAvailBytes = 0 ∧ s.headUpdates = List.replicate s.pages pageSize

/-- A page is not for a command list that is missing. -/
def Addressed (s : ErrorReplies H) : ErrorRepliesOp H → Prop
  | .message msg _ _ =>
      msg.isPage = true → msg.cmdIdValid = true →
        (s.objdb.getCommandList msg.cmdId.toNat).1 ≠ none
  | .other _ _ _ => True

/-- The ring is a queue of bytes. -/
def Inv (s : ErrorReplies H) : Prop := ∃ q, RingBuffer.Repr ringSize s.respRb q

/-- The ring and the counts are the same. -/
def SameRing (s t : ErrorReplies H) : Prop :=
  t.respRb = s.respRb ∧ t.headUpdates = s.headUpdates ∧ t.pages = s.pages

variable {s} {t : ErrorReplies H} {cmdlist : Option ℕ} {msg : ExecErrorListMsg}
  {page : Fin 4096 → UInt8} {fresh : Option (ℕ → UInt8)}

theorem updateList_sameRing {f : ExecErrorList H → Option (ExecErrorList H)}
    (h : s.updateList cmdlist f = some t) : SameRing s t := by
  cases cmdlist with
  | none =>
    obtain ⟨list, _, rfl⟩ := Option.map_eq_some_iff.mp h
    exact ⟨rfl, rfl, rfl⟩
  | some addr =>
    obtain ⟨list, _, rfl⟩ := Option.map_eq_some_iff.mp h
    exact ⟨rfl, rfl, rfl⟩

theorem handle_sameRing (hp : msg.isPage = false) (h : s.handle cmdlist msg fresh = some t) :
    SameRing s t := by
  unfold handle at h
  split_ifs at h with herr hclear
  · exact updateList_sameRing h
  · simp [ExecErrorListMsg.isPage, herr, hclear] at hp
  · exact updateList_sameRing h

theorem process_sameRing (hp : msg.isPage = false)
    (h : s.processExecErrorList msg fresh = some t) : SameRing s t := by
  unfold processExecErrorList at h
  simp only [hp, Bool.false_eq_true, if_false] at h
  split at h
  · split at h
    next => exact Option.some.inj h ▸ ⟨rfl, rfl, rfl⟩
    next =>
      have hsame := handle_sameRing hp h
      exact hsame
  · exact handle_sameRing hp h

theorem handle_page (hp : msg.isPage = true) (havail : pageSize ≤ s.respRb.getAvailBytes)
    (h : s.handle cmdlist msg fresh = some t) :
    t.respRb = s.respRb.unlockAvailSpace pageSize ∧
      t.headUpdates = s.headUpdates ++ [pageSize] ∧ t.pages = s.pages := by
  obtain ⟨herr, hclear⟩ : msg.isError = false ∧ msg.clearStatus = 0 := by
    simpa [ExecErrorListMsg.isPage] using hp
  obtain ⟨off, cont, hlock⟩ : ∃ off cont,
      s.respRb.lockAvailSpace pageSize true = .at off cont :=
    ⟨_, _, RingBuffer.lockAvailSpace_eq_at.mpr ⟨havail, rfl, rfl⟩⟩
  simp only [handle, herr, hclear, Bool.false_eq_true, if_false, if_true, hlock] at h
  have hsame := updateList_sameRing h
  exact hsame

theorem Inv.produce (h : s.Inv) (hempty : s.respRb.getAvailBytes = 0) (page : Fin 4096 → UInt8) :
    ∃ q, RingBuffer.Repr ringSize ((s.putPage page).respRb.updateTailBy pageSize) q ∧
      q.unread.length = 4096 := by
  obtain ⟨q, hq⟩ := h
  have hlen : q.unread.length = 0 := by
    rw [← RingBuffer.toNat_getAvailBytes hq, hempty, UInt32.toNat_zero]
  have hsize : ringSize.toNat = 8192 := rfl
  have hpage : pageSize.toNat = 4096 := rfl
  have hfill : RingBuffer.Repr ringSize (s.respRb.fill (List.ofFn page)) q :=
    hq.fill (by rw [List.length_ofFn]; omega)
  have hput := hfill.updateTailBy (m := pageSize) (by decide) (by omega)
  refine ⟨_, hput, ?_⟩
  rw [Fifo.Queue.unread_put hq.valid, List.length_append, Fifo.length_window, hlen, hpage]

theorem handle_drains {q : Fifo.Queue UInt8} (hq : RingBuffer.Repr ringSize s.respRb q)
    (hlen : q.unread.length = 4096) (hpages : s.pages = s.headUpdates.length + 1)
    (hupdates : s.headUpdates = List.replicate s.headUpdates.length pageSize)
    (hp : msg.isPage = true) (h : s.handle cmdlist msg fresh = some t) : t.Inv ∧ t.Drained := by
  have hpage : pageSize.toNat = 4096 := rfl
  have havail := RingBuffer.toNat_getAvailBytes hq
  obtain ⟨hring, hsent, hcount⟩ := handle_page hp (UInt32.le_iff_toNat_le.mpr (by omega)) h
  have hpop : RingBuffer.Repr ringSize (s.respRb.updateHead pageSize) _ :=
    hq.updateHead (by omega)
  have hring' : t.respRb = s.respRb.updateHead pageSize := hring
  rw [← hring'] at hpop
  refine ⟨⟨_, hpop⟩, ?_, ?_⟩
  · rw [← UInt32.toNat_inj, RingBuffer.toNat_getAvailBytes hpop, Fifo.Queue.unread_get,
      List.length_drop, hlen, hpage]
    rfl
  · rw [hsent, hcount, hpages, List.replicate_succ', ← hupdates]

/-- A message leaves an empty ring empty, and owes no head update, exactly if the command list
of its page is there. -/
theorem Inv.message (h : s.Inv) (hd : s.Drained) (hs : s.step (.message msg page fresh) = some t) :
    t.Inv ∧ (t.Drained ↔ s.Addressed (.message msg page fresh)) := by
  obtain ⟨hempty, hupdates⟩ := hd
  cases hp : msg.isPage with
  | false =>
    simp only [step, hp, Bool.false_eq_true, if_false] at hs
    obtain ⟨hring, hsent, hcount⟩ := process_sameRing hp hs
    have hinv : t.Inv := by
      obtain ⟨q, hq⟩ := h
      exact ⟨q, hring ▸ hq⟩
    refine ⟨hinv, iff_of_true ⟨?_, ?_⟩ fun hp' => ?_⟩
    · rw [hring, hempty]
    · rw [hsent, hcount, hupdates]
    · exact absurd (hp.symm.trans hp') Bool.false_ne_true
  | true =>
    obtain ⟨q, hq, hlen⟩ := h.produce hempty page
    have hcount : s.headUpdates.length = s.pages := by rw [hupdates, List.length_replicate]
    have hupdates' : s.headUpdates = List.replicate s.headUpdates.length pageSize := by
      rw [hcount, ← hupdates]
    simp only [step, hp, if_true, processExecErrorList] at hs
    split at hs
    next hvalid =>
      split at hs
      next objdb hget =>
        obtain rfl := Option.some.inj hs
        refine ⟨⟨q, hq⟩, iff_of_false (fun hd => ?_) fun hok => ?_⟩
        · have havail := RingBuffer.toNat_getAvailBytes hq
          rw [hlen] at havail
          exact absurd (havail.symm.trans (congrArg UInt32.toNat hd.1)) (by decide)
        · exact hok hp hvalid (congrArg Prod.fst hget)
      next addr objdb hget =>
        have hdrain := handle_drains (s := { (s.putPage page) with respRb := _, objdb := objdb })
          hq hlen (congrArg (· + 1) hcount.symm) hupdates' hp hs
        refine ⟨hdrain.1, iff_of_true hdrain.2 fun _ _ hnone => ?_⟩
        exact absurd ((congrArg Prod.fst hget).symm.trans hnone) (Option.some_ne_none addr)
    next hvalid =>
      have hdrain := handle_drains (s := { (s.putPage page) with respRb := _ })
        hq hlen (congrArg (· + 1) hcount.symm) hupdates' hp hs
      exact ⟨hdrain.1, iff_of_true hdrain.2 fun _ hv => absurd hv hvalid⟩

theorem addressed_of_step_eq_none {op : ErrorRepliesOp H} (hs : s.step op = none) :
    s.Addressed op := by
  cases op with
  | other objdb errorList cmdErrorLists => cases hs
  | message msg page fresh =>
    intro hp hvalid hnone
    simp only [step, hp, if_true, processExecErrorList, hvalid] at hs
    split at hs
    next => cases hs
    next addr objdb hget =>
      exact Option.some_ne_none addr ((congrArg Prod.fst hget).symm.trans hnone)

/-- After every message the ring is empty and a head update of a page was sent for each page,
exactly when no page is for a command list that is missing. -/
theorem pages_consumed (buf : ℕ → UInt8) (ops : List (ErrorRepliesOp H)) :
    Exec.Always step Drained (create buf) ops ↔ Exec.Meets step Addressed (create buf) ops := by
  have hinv : (create buf : ErrorReplies H).Inv := ⟨_, .create buf (by decide) (by decide)⟩
  have hempty : (create buf : ErrorReplies H).respRb.getAvailBytes = 0 := by
    simp [create, RingBuffer.create, RingBuffer.getAvailBytes]
  apply Exec.always_iff_meets ⟨hempty, rfl⟩ hinv
  · intro s op t h hd hs
    cases op with
    | message msg page fresh => exact h.message hd hs
    | other objdb errorList cmdErrorLists =>
      obtain rfl := Option.some.inj hs
      exact ⟨h, iff_of_true hd trivial⟩
  · exact fun _ _ _ _ hs => addressed_of_step_eq_none hs

/-- A page for a command list that has been removed stays in the ring. -/
theorem missing_list_leaves_page :
    ¬ Exec.Always step Drained (create (H := Unit) fun _ => 0)
      [.message ⟨5, true, 0, 10, 11, false⟩ (fun _ => 0) none] := by
  intro h
  exact absurd (h.2 _ rfl).2 (by decide)

end ErrorReplies

end NNPIHost

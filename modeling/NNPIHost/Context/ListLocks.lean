import NNPIHost.Context.ResponseThread

/-! # Deadlocks over command lists

Threads call functions of command lists while the response thread handles messages. A call
that destroys a list wants the mutex of the object database under that of the list, and the
response thread takes these two the other way round after a fatal event; it also wants the
mutex of a list for a completion or an error that comes before the reply a call waits for.
-/

namespace NNPIHost

open Lock

variable {τ : Type*} [DecidableEq τ]

/-- The threads that call the driver, and the response thread. -/
abbrev CtxSystem (τ : Type*) := Lock.System (Option τ) CtxMutex CtxData

inductive CtxTurn (τ : Type*) where
  | call (t : τ) (c : CmdListCall)
  | message (msg : CardMessage)
  | wake (p : Option τ)
  /-- The next operation of a thread, and what the environment decides in it. -/
  | run (p : Option τ) (choice : Bool)

namespace CtxSystem

omit [DecidableEq τ] in
def turn : CtxTurn τ → Turn (Option τ) CtxMutex CtxData
  | .call t c => .start (some t) c.program
  | .message msg => .start none (CtxProgram.respond msg)
  | .wake p => .wake p
  | .run p choice => .run p choice

def step (s : CtxSystem τ) (a : CtxTurn τ) : Option (CtxSystem τ) := System.step s (turn a)

/-- No threads wait for each other in a cycle, where one waits for a mutex that the other
holds, or sleeps until the response thread has handled what it waits for. -/
def NoDeadlock (s : CtxSystem τ) : Prop := System.NoDeadlock none s

/-- The response thread finds no mutex of a command list locked by a thread that sleeps or is
blocked on a mutex of the response thread. While the response thread is blocked on the mutex
of a command list, the thread that holds this one neither falls asleep nor finds a mutex locked
by the response thread. -/
def Clear (s : CtxSystem τ) (a : CtxTurn τ) : Prop := System.Clear CtxMutex.IsList none s (turn a)

theorem turn_allowed (a : CtxTurn τ) :
    System.Allowed (System.disciplines CtxMutex.IsList none) (turn a) := by
  cases a with
  | call t c =>
    simp only [turn, System.Allowed, System.disciplines_client (Option.some_ne_none t)]
    exact c.follows
  | message msg =>
    simp only [turn, System.Allowed, System.disciplines_hub]
    exact CtxProgram.respond_follows msg
  | _ => trivial

/-- A run of calls and messages, in any order and from any data, reaches no deadlock exactly
if all its turns are clear. -/
theorem no_deadlock_iff_clear (d : CtxData) (as : List (CtxTurn τ)) :
    Exec.Always step NoDeadlock (System.init d) as ↔
      Exec.Meets step Clear (System.init d : CtxSystem τ) as :=
  System.always_noDeadlock_iff turn_allowed d as

/-- A context with one command list, which is not finalized. -/
def oneList : CtxData where
  critical := .zero
  createReply := []
  finalizedInProgress := 0
  objdb := ContextObjDB.create.insertCommandList 0 0
  lists _ := ⟨0, false, false, true, 1, 0, .create⟩
  errorList := .create
  cmdRbs _ := .create (fun _ => 0) 8192
  killed := false
  exited := false

/-- A thread destroys the list while the response thread completes it after a fatal event. -/
def destroyDuringFatal : List (CtxTurn Unit) :=
  [.call () (.destroy 0), .run (some ()) false, .run (some ()) false,
    .message (.event (.ofCode 96)), .run none false,
    .run none false, .run none false, .run none false, .run none false,
    .run none false, .run none false, .run none false, .run (some ()) false]

/-- The thread waits for the database mutex and the response thread for that of the list. -/
theorem destroy_deadlocks :
    ¬ Exec.Always step NoDeadlock (System.init oneList : CtxSystem Unit) destroyDuringFatal := by
  intro h
  have hsome : (Exec.run step (System.init oneList) destroyDuringFatal).isSome = true := rfl
  have hno := h.last (Option.some_get hsome).symm
  refine hno none (.head (b := some ()) (.inl ⟨.list 0, ?_, ?_⟩) (.single (.inl ⟨.objdb, ?_, ?_⟩)))
  all_goals rfl

end CtxSystem

end NNPIHost

import Mathlib.Algebra.Ring.Nat
import Mathlib.Data.List.Basic
import GitFullSend.Lib.Folds

/-! The accept loop: connections are served within a number of slots, and drained on shutdown. -/

namespace GitFullSend

variable {Sock : Type}

/-- How far a spawned handler has come. -/
inductive HandlerStage where
  | running
  /-- Its future has completed, and its permit is about to be dropped. -/
  | completed
  /-- It has ended, by completing or by a panic, and was not joined yet. -/
  | ended
  | joined
  deriving DecidableEq

/-- Whether a handler in this stage owns a permit. -/
def HandlerStage.owns : HandlerStage → Bool
  | running | completed => true
  | ended | joined => false

/-- A task of the join set: the handler of one connection, with the permit it was given. -/
structure Handler (Sock : Type) where
  sock : Sock
  stage : HandlerStage
  deriving DecidableEq

/-- Where the accept loop is. -/
inductive LoopPhase (Sock : Type) where
  /--
  It waits for a slot.

  The shutdown is polled before the permit; the permit may be assigned before it is taken.
  -/
  | acquiring (polled assigned : Bool)
  /-- It has a slot, and waits for a connection; the shutdown is polled before the listener. -/
  | accepting (polled : Bool)
  /-- It has a slot and a connection. -/
  | accepted (sock : Sock)
  /-- The handler of a connection is made, and not spawned yet. -/
  | handled (sock : Sock)
  /-- It has seen the shutdown, and waits for the handlers. -/
  | draining
  | returned
  /-- The hook files are dropped. -/
  | closed
  deriving DecidableEq

namespace LoopPhase

/-- The permits that the loop itself has a hold of. -/
def permits : LoopPhase Sock → Nat
  | acquiring _ assigned => assigned.toNat
  | accepting _ | accepted _ | handled _ => 1
  | draining | returned | closed => 0

/-- Whether the loop is at one of its two `select!`s. -/
def waiting : LoopPhase Sock → Bool
  | acquiring _ _ | accepting _ => true
  | _ => false

/-- The connection that was accepted and not handed to the handler yet. -/
def unhanded : LoopPhase Sock → List Sock
  | accepted sock => [sock]
  | _ => []

/-- The connection whose handler is made and not spawned yet. -/
def unspawned : LoopPhase Sock → List Sock
  | handled sock => [sock]
  | _ => []

/-- Whether the loop has seen the shutdown. -/
def stopped : LoopPhase Sock → Bool
  | draining | returned | closed => true
  | _ => false

/-- Whether the loop has returned. -/
def done : LoopPhase Sock → Bool
  | returned | closed => true
  | _ => false

end LoopPhase

/-- The accept loop with its semaphore and its join set, and what it has taken and handed on. -/
structure AcceptLoop (Sock : Type) where
  phase : LoopPhase Sock
  /-- The permits that are free. -/
  free : Nat
  /-- The handlers in the order they were spawned. -/
  handlers : List (Handler Sock)
  /-- Whether the shutdown has resolved. -/
  shutdown : Bool
  /-- The connections the listener has given out. -/
  accepted : List Sock
  /-- The connections the handler was called with. -/
  handed : List Sock
  deriving DecidableEq

/-- The most permits a semaphore takes on a machine with 64-bit words. -/
def maxPermits : Nat := (2 ^ 64 - 1) / 2 ^ 3

/-- The loop at its start, unless a semaphore cannot have so many permits, which is a panic. -/
def AcceptLoop.start (maxConnections : Nat) : Option (AcceptLoop Sock) :=
  if maxPermits < maxConnections then none
  else some ⟨.acquiring false false, maxConnections, [], false, [], []⟩

/-- Something that happens to the loop or in it. -/
inductive LoopAction (Sock : Type) where
  /-- The shutdown resolves. -/
  | signal
  /-- A `select!` polls the shutdown, which is its first branch. -/
  | pollShutdown
  /-- A `select!` finds its second branch pending too, and waits. -/
  | pend
  /-- The semaphore assigns a free permit to the loop. -/
  | assign
  | acquire
  | accept (sock : Sock)
  | acceptFails
  | handle
  | spawn
  | complete (handler : Nat)
  | release (handler : Nat)
  /-- A handler panics, and what it owns is dropped. -/
  | panics (handler : Nat)
  | joinNext (handler : Nat)
  /-- The join set is empty. -/
  | finish
  | dropHooks
  deriving DecidableEq

namespace AcceptLoop

/-- A handler goes from one stage to another, when it is in the first. -/
def advance (state : AcceptLoop Sock) (handler : Nat) (before after : HandlerStage) :
    Option (AcceptLoop Sock) :=
  match state.handlers[handler]? with
  | some found =>
    if found.stage = before then
      some { state with handlers := state.handlers.set handler ⟨found.sock, after⟩ }
    else none
  | none => none

/-- So many more permits are free. -/
def give (state : AcceptLoop Sock) (permits : Nat) : AcceptLoop Sock :=
  { state with free := state.free + permits }

/-- The loop goes on to another phase. -/
def enter (state : AcceptLoop Sock) (phase : LoopPhase Sock) : AcceptLoop Sock :=
  { state with phase := phase }

/-- One step, or `none` when it cannot be taken now. -/
def act (state : AcceptLoop Sock) : LoopAction Sock → Option (AcceptLoop Sock)
  | .signal => some { state with shutdown := true }
  | .pollShutdown =>
    match state.phase with
    | .acquiring false assigned =>
      -- Leaving drops the future of the permit, and a permit assigned to it.
      if state.shutdown then some ((state.give assigned.toNat).enter .draining)
      else some (state.enter (.acquiring true assigned))
    | .accepting false =>
      if state.shutdown then some ((state.give 1).enter .draining)
      else some (state.enter (.accepting true))
    | _ => none
  | .pend =>
    match state.phase with
    | .acquiring true assigned => some (state.enter (.acquiring false assigned))
    | .accepting true => some (state.enter (.accepting false))
    | _ => none
  | .assign =>
    match state.phase, state.free with
    | .acquiring polled false, free + 1 =>
      some ({ state with free := free }.enter (.acquiring polled true))
    | _, _ => none
  | .acquire =>
    match state.phase with
    | .acquiring true true => some (state.enter (.accepting false))
    | _ => none
  | .accept sock =>
    match state.phase with
    | .accepting true =>
      some ({ state with accepted := state.accepted ++ [sock] }.enter (.accepted sock))
    | _ => none
  | .acceptFails =>
    match state.phase with
    -- The next turn of the loop starts without the permit.
    | .accepting true => some ((state.give 1).enter (.acquiring false false))
    | _ => none
  | .handle =>
    match state.phase with
    | .accepted sock =>
      some ({ state with handed := state.handed ++ [sock] }.enter (.handled sock))
    | _ => none
  | .spawn =>
    match state.phase with
    | .handled sock =>
      let handler : Handler Sock := ⟨sock, .running⟩
      some ({ state with handlers := state.handlers ++ [handler] }.enter (.acquiring false false))
    | _ => none
  | .complete handler => state.advance handler .running .completed
  | .release handler => (state.advance handler .completed .ended).map (·.give 1)
  | .panics handler => (state.advance handler .running .ended).map (·.give 1)
  | .joinNext handler =>
    match state.phase with
    | .draining => state.advance handler .ended .joined
    | _ => none
  | .finish =>
    match state.phase with
    | .draining =>
      if state.handlers.all (·.stage = .joined) then some (state.enter .returned) else none
    | _ => none
  | .dropHooks =>
    match state.phase with
    | .returned => some (state.enter .closed)
    | _ => none

/-- The loop after steps in their order, from its start. -/
def execute (maxConnections : Nat) (actions : List (LoopAction Sock)) :
    Option (AcceptLoop Sock) :=
  (start maxConnections).bind fun state => actions.foldlM act state

/-- What a step can do. -/
inductive Moves (state : AcceptLoop Sock) : AcceptLoop Sock → Prop where
  | signal : Moves state { state with shutdown := true }
  /-- It finds nothing ready, and looks again later. -/
  | waits {phase : LoopPhase Sock} : state.phase.waiting = true → phase.waiting = true →
      phase.permits = state.phase.permits → Moves state (state.enter phase)
  /-- It sees the shutdown while it waits, and gives its permit back. -/
  | stops : state.phase.waiting = true →
      Moves state ((state.give state.phase.permits).enter .draining)
  | assigned {polled : Bool} {free : Nat} : state.phase = .acquiring polled false →
      state.free = free + 1 →
      Moves state ({ state with free := free }.enter (.acquiring polled true))
  | accepts (sock : Sock) {polled : Bool} : state.phase = .accepting polled →
      Moves state ({ state with accepted := state.accepted ++ [sock] }.enter (.accepted sock))
  | fails {polled : Bool} : state.phase = .accepting polled →
      Moves state ((state.give 1).enter (.acquiring false false))
  | handles {sock : Sock} : state.phase = .accepted sock →
      Moves state ({ state with handed := state.handed ++ [sock] }.enter (.handled sock))
  | spawns {sock : Sock} : state.phase = .handled sock →
      Moves state ({ state with handlers := state.handlers ++ [Handler.mk sock .running] }.enter
        (.acquiring false false))
  /-- A handler goes on, and the permit it does not own any more is free. -/
  | advances {handler : Nat} {found : Handler Sock} {stage : HandlerStage} {permits : Nat} :
      state.handlers[handler]? = some found →
      found.stage ≠ .joined → stage ≠ .running →
      permits + stage.owns.toNat = found.stage.owns.toNat →
      Moves state ({ state with handlers := state.handlers.set handler ⟨found.sock, stage⟩ }.give
        permits)
  | returns : state.phase = .draining → (∀ handler ∈ state.handlers, handler.stage = .joined) →
      Moves state (state.enter .returned)
  | closes : state.phase = .returned → Moves state (state.enter .closed)

section Act

variable {state after : AcceptLoop Sock} {action : LoopAction Sock}

private theorem advance_moves {handler : Nat} {old new : HandlerStage} {permits : Nat}
    (started : old ≠ .joined) (onward : new ≠ .running)
    (owned : permits + new.owns.toNat = old.owns.toNat)
    (moved : state.advance handler old new = some after) : Moves state (after.give permits) := by
  -- The handler was there, in the stage that it left.
  unfold advance at moved
  split at moved
  · rename_i found located
    split at moved
    · rename_i same
      subst same
      obtain rfl := Option.some.inj moved
      exact .advances located started onward owned
    · cases moved
  · cases moved

/-- A loop at a `select!` may stay at one, with the permits it has. -/
private theorem waits_of {here there : LoopPhase Sock} (phase : state.phase = here)
    (waiting : here.waiting = true) (waiting' : there.waiting = true)
    (same : there.permits = here.permits) : Moves state (state.enter there) := by
  subst phase
  exact .waits waiting waiting' same

/-- A loop at a `select!` may see the shutdown, and frees the permits it has. -/
private theorem stops_of {here : LoopPhase Sock} {permits : Nat} (phase : state.phase = here)
    (waiting : here.waiting = true) (held : here.permits = permits) :
    Moves state ((state.give permits).enter .draining) := by
  subst phase held
  exact .stops waiting

/-- A step that is taken is one of the moves. -/
theorem act_moves (taken : state.act action = some after) : Moves state after := by
  -- One case for each action, which is taken in the phases that allow it and in no other.
  cases action with
  | signal =>
    obtain rfl := Option.some.inj taken
    exact .signal
  | pollShutdown =>
    simp only [act] at taken
    split at taken
    · -- A permit that was assigned is dropped with its future.
      rename_i assigned phase
      split at taken
      · obtain rfl := Option.some.inj taken
        exact stops_of phase rfl rfl
      · obtain rfl := Option.some.inj taken
        exact waits_of phase rfl rfl rfl
    · -- The permit that was acquired is dropped at the end of the turn.
      rename_i phase
      split at taken
      · obtain rfl := Option.some.inj taken
        exact stops_of phase rfl rfl
      · obtain rfl := Option.some.inj taken
        exact waits_of phase rfl rfl rfl
    · cases taken
  | pend =>
    simp only [act] at taken
    split at taken
    · rename_i assigned phase
      obtain rfl := Option.some.inj taken
      exact waits_of phase rfl rfl rfl
    · rename_i phase
      obtain rfl := Option.some.inj taken
      exact waits_of phase rfl rfl rfl
    · cases taken
  | assign =>
    simp only [act] at taken
    split at taken
    · rename_i polled free phase available
      obtain rfl := Option.some.inj taken
      exact .assigned phase available
    · cases taken
  | acquire =>
    simp only [act] at taken
    split at taken
    · -- The assigned permit is the one that the loop owns now.
      rename_i phase
      obtain rfl := Option.some.inj taken
      exact waits_of phase rfl rfl rfl
    · cases taken
  | accept sock =>
    simp only [act] at taken
    split at taken
    · rename_i phase
      obtain rfl := Option.some.inj taken
      exact .accepts sock phase
    · cases taken
  | acceptFails =>
    simp only [act] at taken
    split at taken
    · rename_i phase
      obtain rfl := Option.some.inj taken
      exact .fails phase
    · cases taken
  | handle =>
    simp only [act] at taken
    split at taken
    · rename_i sock phase
      obtain rfl := Option.some.inj taken
      exact .handles phase
    · cases taken
  | spawn =>
    simp only [act] at taken
    split at taken
    · rename_i sock phase
      obtain rfl := Option.some.inj taken
      exact .spawns phase
    · cases taken
  | complete handler =>
    -- The permit is dropped later than the handler's future.
    have kept : 0 + HandlerStage.completed.owns.toNat = HandlerStage.running.owns.toNat := rfl
    exact advance_moves (by decide) (by decide) kept taken
  | release handler =>
    obtain ⟨middle, moved, rfl⟩ := Option.map_eq_some_iff.mp taken
    exact advance_moves (by decide) (by decide) (by decide) moved
  | panics handler =>
    obtain ⟨middle, moved, rfl⟩ := Option.map_eq_some_iff.mp taken
    exact advance_moves (by decide) (by decide) (by decide) moved
  | joinNext handler =>
    -- A handler that is joined owned no permit any more.
    have kept : 0 + HandlerStage.joined.owns.toNat = HandlerStage.ended.owns.toNat := rfl
    simp only [act] at taken
    split at taken
    · exact advance_moves (by decide) (by decide) kept taken
    · cases taken
  | finish =>
    simp only [act] at taken
    split at taken
    · rename_i phase
      split at taken
      · rename_i ended
        obtain rfl := Option.some.inj taken
        exact .returns phase (by simpa using ended)
      · cases taken
    · cases taken
  | dropHooks =>
    simp only [act] at taken
    split at taken
    · rename_i phase
      obtain rfl := Option.some.inj taken
      exact .closes phase
    · cases taken

end Act

end AcceptLoop

end GitFullSend

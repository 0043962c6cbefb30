import Mathlib.Logic.Function.Basic
import Mathlib.Logic.Relation
import GitFullSend.Lib.Folds

/-! Any number of syncs of one stream from one client repository, step by step, to one server. -/

namespace GitFullSend

variable {Commit : Type}

/-- The two chains of commits that a sync encodes and pushes. -/
inductive Chain where
  | code
  | extra
  deriving DecidableEq

/-- The commits one sync has encoded, which are also the ones its summary reports. -/
structure Encoded (Commit : Type) where
  code : Commit
  extra : Commit

/-- The encoded commit of a chain. -/
def Encoded.tip (encoded : Encoded Commit) : Chain → Commit
  | .code => encoded.code
  | .extra => encoded.extra

/-- How far a sync has come. -/
inductive SyncPhase (Commit : Type) where
  | start
  /-- The `code` commit is written, and no ref names it yet. -/
  | codeWritten (code : Commit)
  | codeEncoded (code : Commit)
  /-- The pin of the `extra` chain has been read. -/
  | parentRead (code : Commit) (parent : Option Commit)
  /-- The `extra` commit is written, and no ref names it yet. -/
  | extraWritten (encoded : Encoded Commit)
  /-- This chain is the next to be pushed. -/
  | ready (chain : Chain) (encoded : Encoded Commit)
  /-- `git push` sends the commit that the chain's ref named when it looked. -/
  | pushing (chain : Chain) (encoded : Encoded Commit) (sent : Commit)
  /-- The push was reported successful, and its tip is not retained yet. -/
  | pushed (chain : Chain) (encoded : Encoded Commit)
  | returned (summary : Encoded Commit)
  /-- The sync has returned an error, or its process is gone. -/
  | stopped

/-- Whether a sync in this phase has steps left. -/
def SyncPhase.active : SyncPhase Commit → Bool
  | .returned _ | .stopped => false
  | _ => true

/-- What a sync does once the tip of a chain is retained. -/
def Encoded.next (encoded : Encoded Commit) : Chain → SyncPhase Commit
  | .code => .ready .extra encoded
  | .extra => .returned encoded

/-- The client repository's refs of the stream, its syncs, and what the server has taken. -/
structure SyncState (Commit : Type) where
  /-- The `code` and `extra` refs. -/
  tip : Chain → Option Commit
  /-- The `sent/code` and `sent/extra` refs. -/
  sent : Chain → Option Commit
  phase : Nat → SyncPhase Commit
  /-- The pushes that are on their way, which the server may still apply. -/
  flying : List (Chain × Commit)
  /-- The commits the server's refs have been moved to, the latest first. -/
  accepted : Chain → List Commit
  /-- The `extra` commits that have been created. -/
  extras : List Commit
  /-- The pushes that have been reported successful, by the sync and the chain. -/
  reports : List (Nat × Chain)

/-- Before the first sync. -/
def SyncState.initial : SyncState Commit :=
  ⟨fun _ => none, fun _ => none, fun _ => .start, [], fun _ => [], [], []⟩

/-- A sync goes over to its next phase. -/
def SyncState.enter (state : SyncState Commit) (run : Nat) (phase : SyncPhase Commit) :
    SyncState Commit :=
  { state with phase := Function.update state.phase run phase }

/-- Create or force-update the ref of a chain. -/
def SyncState.updateRef (state : SyncState Commit) (chain : Chain) (commit : Commit) :
    SyncState Commit :=
  { state with tip := Function.update state.tip chain (some commit) }

/-- Pin a just-pushed tip under the `sent` ref of its chain. -/
def SyncState.retainPushedTip (state : SyncState Commit) (chain : Chain) (commit : Commit) :
    SyncState Commit :=
  { state with sent := Function.update state.sent chain (some commit) }

/-- The next thing a sync does. -/
inductive SyncAction (Commit : Type) where
  /-- Write the `code` commit on what `HEAD` was. -/
  | writeCode (head : Option Commit) (commit : Commit)
  /-- Move the ref of the chain whose commit was just written. -/
  | updateRef
  | readParent
  | writeExtra (commit : Commit)
  /-- Begin to push the next chain by the name of its ref. -/
  | push
  /-- Learn that the push was successful. -/
  | report
  | retain
  /-- Return an error, or be gone. -/
  | stop

/-- Something that happens in the client repository or on the server. -/
inductive SyncEvent (Commit : Type) where
  /-- A sync takes a step. -/
  | act (run : Nat) (action : SyncAction Commit)
  /-- The server applies a push that is on its way. -/
  | land (chain : Chain) (commit : Commit)

/-- The sync that takes a step in an event. -/
def SyncEvent.run : SyncEvent Commit → Option Nat
  | .act run _ => some run
  | .land .. => none

variable [DecidableEq Commit]

/-- One step of a sync, or `none` when it cannot take that step now. -/
def SyncState.act (parents : Commit → List Commit) (state : SyncState Commit) (run : Nat)
    (action : SyncAction Commit) : Option (SyncState Commit) :=
  match state.phase run, action with
  | .start, .writeCode head commit =>
    if parents commit = head.toList then some (state.enter run (.codeWritten commit)) else none
  | .codeWritten code, .updateRef =>
    some ((state.updateRef .code code).enter run (.codeEncoded code))
  | .codeEncoded code, .readParent =>
    -- The parent is what the last successful push is recorded to have sent.
    some (state.enter run (.parentRead code (state.sent .extra)))
  | .parentRead code parent, .writeExtra commit =>
    if parents commit = parent.toList then
      let written := { state with extras := commit :: state.extras }
      some (written.enter run (.extraWritten ⟨code, commit⟩))
    else none
  | .extraWritten encoded, .updateRef =>
    some ((state.updateRef .extra encoded.extra).enter run (.ready .code encoded))
  | .ready chain encoded, .push =>
    match state.tip chain with
    | none => none
    | some commit =>
      -- The ref is pushed by its name, so what is sent is whatever it names by now.
      let begun := { state with flying := (chain, commit) :: state.flying }
      some (begun.enter run (.pushing chain encoded commit))
  | .pushing chain encoded sent, .report =>
    -- A push is successful only if the server's ref was moved there, now or before.
    if sent ∈ state.accepted chain then
      let told := { state with reports := (run, chain) :: state.reports }
      some (told.enter run (.pushed chain encoded))
    else none
  | .pushed chain encoded, .retain =>
    -- What is retained is the commit this sync encoded, whatever was sent.
    some ((state.retainPushedTip chain (encoded.tip chain)).enter run (encoded.next chain))
  | phase, .stop => if phase.active then some (state.enter run .stopped) else none
  | _, _ => none

/-- The server applies a push that is on its way, even if its sync is gone or was told otherwise. -/
def SyncState.land (state : SyncState Commit) (chain : Chain) (commit : Commit) :
    Option (SyncState Commit) :=
  if (chain, commit) ∈ state.flying then
    some { state with
      flying := state.flying.erase (chain, commit)
      accepted := Function.update state.accepted chain (commit :: state.accepted chain) }
  else none

/-- One event, or `none` when it cannot happen now. -/
def syncStep (parents : Commit → List Commit) (state : SyncState Commit) :
    SyncEvent Commit → Option (SyncState Commit)
  | .act run action => state.act parents run action
  | .land chain commit => state.land chain commit

/-- Events in their order. -/
def executeSyncs (parents : Commit → List Commit) (events : List (SyncEvent Commit)) :
    Option (SyncState Commit) :=
  events.foldlM (syncStep parents) .initial

/-- What a step of a sync can do. -/
inductive SyncMoves (parents : Commit → List Commit) (state : SyncState Commit) (run : Nat) :
    SyncAction Commit → SyncState Commit → Prop where
  | writeCode {head commit} : state.phase run = .start → parents commit = head.toList →
      SyncMoves parents state run (.writeCode head commit) (state.enter run (.codeWritten commit))
  | codeRef {code} : state.phase run = .codeWritten code →
      SyncMoves parents state run .updateRef
        ((state.updateRef .code code).enter run (.codeEncoded code))
  | readParent {code} : state.phase run = .codeEncoded code →
      SyncMoves parents state run .readParent
        (state.enter run (.parentRead code (state.sent .extra)))
  | writeExtra {code parent commit} : state.phase run = .parentRead code parent →
      parents commit = parent.toList →
      SyncMoves parents state run (.writeExtra commit)
        ({ state with extras := commit :: state.extras }.enter run (.extraWritten ⟨code, commit⟩))
  | extraRef {encoded} : state.phase run = .extraWritten encoded →
      SyncMoves parents state run .updateRef
        ((state.updateRef .extra encoded.extra).enter run (.ready .code encoded))
  | push {chain encoded commit} : state.phase run = .ready chain encoded →
      state.tip chain = some commit →
      SyncMoves parents state run .push
        ({ state with flying := (chain, commit) :: state.flying }.enter run
          (.pushing chain encoded commit))
  | report {chain encoded sent} : state.phase run = .pushing chain encoded sent →
      sent ∈ state.accepted chain →
      SyncMoves parents state run .report
        ({ state with reports := (run, chain) :: state.reports }.enter run (.pushed chain encoded))
  | retain {chain encoded} : state.phase run = .pushed chain encoded →
      SyncMoves parents state run .retain
        ((state.retainPushedTip chain (encoded.tip chain)).enter run (encoded.next chain))
  | stop : SyncMoves parents state run .stop (state.enter run .stopped)

/-- A push that lands was on its way, and is accepted. -/
theorem SyncState.land_ok {state after : SyncState Commit} {chain : Chain} {commit : Commit}
    (landed : state.land chain commit = some after) :
    (chain, commit) ∈ state.flying ∧ after = { state with
      flying := state.flying.erase (chain, commit)
      accepted := Function.update state.accepted chain (commit :: state.accepted chain) } := by
  unfold SyncState.land at landed
  split at landed <;> cases landed
  exact ⟨‹_›, rfl⟩

section Act

variable {parents : Commit → List Commit} {state after : SyncState Commit} {run : Nat}
  {action : SyncAction Commit}

/-- Every step of a sync is one of these moves. -/
theorem SyncState.act_moves (acted : state.act parents run action = some after) :
    SyncMoves parents state run action after := by
  -- Every action has a phase of its own, except that a sync may stop in any.
  cases action with
  | writeCode head commit =>
    cases found : state.phase run <;> simp only [SyncState.act, found, reduceCtorEq] at acted
    split at acted <;> cases acted
    rename_i formed
    exact .writeCode found formed
  | updateRef =>
    cases found : state.phase run <;> simp only [SyncState.act, found, reduceCtorEq] at acted
    · cases acted
      exact .codeRef found
    · cases acted
      exact .extraRef found
  | readParent =>
    cases found : state.phase run <;> simp only [SyncState.act, found, reduceCtorEq] at acted
    cases acted
    exact .readParent found
  | writeExtra commit =>
    cases found : state.phase run <;> simp only [SyncState.act, found, reduceCtorEq] at acted
    split at acted <;> cases acted
    rename_i formed
    exact .writeExtra found formed
  | push =>
    cases found : state.phase run <;> simp only [SyncState.act, found, reduceCtorEq] at acted
    split at acted <;> cases acted
    rename_i named
    exact .push found named
  | report =>
    cases found : state.phase run <;> simp only [SyncState.act, found, reduceCtorEq] at acted
    split at acted <;> cases acted
    rename_i landed
    exact .report found landed
  | retain =>
    cases found : state.phase run <;> simp only [SyncState.act, found, reduceCtorEq] at acted
    cases acted
    exact .retain found
  | stop =>
    have stopped : after = state.enter run .stopped := by
      cases found : state.phase run <;> simp_all [SyncState.act, SyncPhase.active]
    exact stopped ▸ .stop

end Act

end GitFullSend

import Mathlib.Logic.Function.Basic
import GitFullSend.Lib.Folds
import GitFullSend.Server.Worktree

/-! Any number of concurrent worktree updates, step by step, among pushes to their streams. -/

namespace GitFullSend

open Utf8 (Bytes ofText)

variable {Leaf : Type} [DecidableEq Leaf]

/-- What one run was asked for: a stream, the canonical path of a worktree, and a lock mode. -/
structure Job where
  stream : StreamId
  worktree : Bytes
  mode : LockMode
  deriving DecidableEq

/-- What a stream's `code` and `extra` refs point at after a push. -/
structure Push (Leaf : Type) where
  code : Option (Tree Leaf)
  extra : Option (Tree Leaf)

/-- The state of a stream after so many of its pushes. -/
def stateAt (pushes : List (Push Leaf)) (count : Nat) : Push Leaf :=
  ((⟨none, none⟩ :: pushes)[count]?).getD ⟨none, none⟩

/-- What a run has resolved: its tree, and the pushes and the moments it read the refs at. -/
structure Ticket (Leaf : Type) where
  tree : Tree Leaf
  /-- How many pushes had landed when the `code` ref was read. -/
  codePush : Nat
  /-- How many pushes had landed when the `extra` ref was read. -/
  extraPush : Nat
  /-- When resolving began. -/
  began : Nat
  /-- When resolving was finished. -/
  resolved : Nat

/-- How far a run has come. -/
inductive Phase (Leaf : Type) where
  | start
  | code (tree : Tree Leaf) (codePush began : Nat)
  | ready (ticket : Ticket Leaf)
  | holding (ticket : Ticket Leaf) (unchanged : Bool)
  | checkedOut (ticket : Ticket Leaf) (unchanged : Bool)
  | swept (ticket : Ticket Leaf) (unchanged : Bool)
  | returned (ticket : Ticket Leaf) (report : Report Leaf)
  | failed (failure : ServerError)
  | crashed

/-- Whether a run in this phase holds the lock of its worktree. -/
def Phase.holds : Phase Leaf → Bool
  | .holding .. | .checkedOut .. | .swept .. => true
  | _ => false

/-- Whether a run in this phase has steps left. -/
def Phase.active : Phase Leaf → Bool
  | .returned .. | .failed _ | .crashed => false
  | _ => true

/-- What a run in this phase has resolved. -/
def Phase.ticket : Phase Leaf → Option (Ticket Leaf)
  | .ready ticket | .holding ticket _ | .checkedOut ticket _ | .swept ticket _
  | .returned ticket _ => some ticket
  | _ => none

/-- What a run sees: its own phase, its worktree, and who holds that worktree's lock. -/
structure View (Leaf : Type) where
  phase : Phase Leaf
  worktree : Worktree Leaf
  holder : Option Nat

/-- The next thing a run does. -/
inductive Action where
  | resolveCode (calls : TreeCalls)
  | resolveExtra (calls : TreeCalls)
  | prepareFails
  | acquire
  | refuse
  | lockFails
  | readTree (outcome : StepOutcome)
  | clean (outcome : StepOutcome)
  | record (outcome : RecordOutcome)
  | crash

/-- One step of a run, or `none` when it cannot take that step now. -/
def advance (rules : IgnoreRules Leaf) (job : Job) (run : Nat) (pushes : List (Push Leaf))
    (clock : Nat) (view : View Leaf) (action : Action) : Option (View Leaf) :=
  match view.phase, action with
  | .start, .resolveCode calls =>
    match resolveCodeTree calls job.stream (stateAt pushes pushes.length).code with
    | .error failure => some { view with phase := .failed failure }
    | .ok code => some { view with phase := .code code pushes.length clock }
  | .code code codePush began, .resolveExtra calls =>
    match (resolveExtraTree calls (stateAt pushes pushes.length).extra).bind
        (overlayExtraOntoCode calls code) with
    | .error failure => some { view with phase := .failed failure }
    | .ok tree => some { view with phase := .ready ⟨tree, codePush, pushes.length, began, clock⟩ }
  | .ready _, .prepareFails => some { view with phase := .failed .createWorktree }
  | .ready ticket, .acquire =>
    match view.holder with
    | some _ => none
    | none =>
      -- The record of the last tree is read first thing under the lock.
      let unchanged := treeUnchanged ticket.tree view.worktree
      some { view with phase := .holding ticket unchanged, holder := some run }
  | .ready _, .refuse =>
    match view.holder, job.mode.refusal job.worktree with
    | some _, some failure => some { view with phase := .failed failure }
    | _, _ => none
  | .ready _, .lockFails => some { view with phase := .failed .lock }
  | .holding ticket unchanged, .readTree outcome =>
    match readTree outcome ticket.tree view.worktree with
    | (.ok (), after) => some { view with phase := .checkedOut ticket unchanged, worktree := after }
    | (.error failure, after) => some ⟨.failed failure, after, none⟩
  | .checkedOut ticket unchanged, .clean outcome =>
    match clean rules outcome view.worktree with
    | (.ok (), after) => some { view with phase := .swept ticket unchanged, worktree := after }
    | (.error failure, after) => some ⟨.failed failure, after, none⟩
  | .swept ticket unchanged, .record outcome =>
    some ⟨.returned ticket ⟨job.stream, job.worktree, ticket.tree, unchanged⟩,
      recordTree outcome ticket.tree view.worktree, none⟩
  | phase, .crash =>
    -- The operating system releases the lock of a process that is gone.
    if phase.active then
      some { view with phase := .crashed, holder := if phase.holds then none else view.holder }
    else none
  | _, _ => none

/-- A run that returned successfully, with the files it left. -/
structure Return (Leaf : Type) where
  run : Nat
  job : Job
  ticket : Ticket Leaf
  files : Tree Leaf

/-- The server: its streams, its worktrees with their locks, its runs, and who has returned. -/
structure System (Leaf : Type) where
  pushes : StreamId → List (Push Leaf)
  worktree : Bytes → Worktree Leaf
  holder : Bytes → Option Nat
  phase : Nat → Phase Leaf
  clock : Nat
  /-- The successful returns, in their order. -/
  log : List (Return Leaf)

/-- Something that happens on the server. -/
inductive Event (Leaf : Type) where
  /-- A push to a stream lands. -/
  | push (stream : StreamId) (state : Push Leaf)
  /-- A run takes a step. -/
  | act (run : Nat) (action : Action)

/-- Before anything has happened. -/
def System.initial (worktree : Bytes → Worktree Leaf) : System Leaf :=
  ⟨fun _ => [], worktree, fun _ => none, fun _ => .start, 0, []⟩

/-- What a run sees of the server. -/
def System.view (system : System Leaf) (job : Job) (run : Nat) : View Leaf :=
  ⟨system.phase run, system.worktree job.worktree, system.holder job.worktree⟩

/-- The return a step of a run comes to, if it is its last. -/
def View.returns (view : View Leaf) (job : Job) (run : Nat) : List (Return Leaf) :=
  match view.phase with
  | .returned ticket _ => [⟨run, job, ticket, view.worktree.files⟩]
  | _ => []

/-- The server after a run has changed what it sees. -/
def System.show (system : System Leaf) (job : Job) (run : Nat) (view : View Leaf) : System Leaf :=
  { system with
    phase := Function.update system.phase run view.phase
    worktree := Function.update system.worktree job.worktree view.worktree
    holder := Function.update system.holder job.worktree view.holder
    clock := system.clock + 1
    log := system.log ++ view.returns job run }

/-- One event, or `none` when it cannot happen now. -/
def step (rules : IgnoreRules Leaf) (jobs : Nat → Job) (system : System Leaf) :
    Event Leaf → Option (System Leaf)
  | .push stream state => some { system with
      pushes := Function.update system.pushes stream (system.pushes stream ++ [state])
      clock := system.clock + 1 }
  | .act run action =>
    (advance rules (jobs run) run (system.pushes (jobs run).stream) system.clock
      (system.view (jobs run) run) action).map (system.show (jobs run) run)

/-- Events in their order. -/
def execute (rules : IgnoreRules Leaf) (jobs : Nat → Job) (system : System Leaf)
    (events : List (Event Leaf)) : Option (System Leaf) :=
  events.foldlM (step rules jobs) system

/-- Later pushes do not change what a stream was before. -/
theorem stateAt_concat {Leaf : Type} {pushes : List (Push Leaf)} {count : Nat}
    (landed : count ≤ pushes.length) (state : Push Leaf) :
    stateAt (pushes ++ [state]) count = stateAt pushes count := by
  -- The states of the earlier pushes keep their places.
  rw [stateAt, stateAt, ← List.cons_append, List.getElem?_append_left (by simp; omega)]

/-- What a step of a run can do to what it sees. -/
inductive Moves (rules : IgnoreRules Leaf) (job : Job) (run : Nat) (pushes : List (Push Leaf))
    (clock : Nat) : View Leaf → View Leaf → Prop where
  /-- It gives up, or is gone, without the lock. -/
  | stop {phase ended worktree holder} : phase.active = true → phase.holds = false →
      ended.active = false → ended.ticket = none →
      Moves rules job run pushes clock ⟨phase, worktree, holder⟩ ⟨ended, worktree, holder⟩
  | code {code worktree holder} : (stateAt pushes pushes.length).code = some code →
      Moves rules job run pushes clock ⟨.start, worktree, holder⟩
        ⟨.code code pushes.length clock, worktree, holder⟩
  | extra {code codePush began worktree holder} :
      Moves rules job run pushes clock ⟨.code code codePush began, worktree, holder⟩
        ⟨.ready ⟨combined code (stateAt pushes pushes.length).extra, codePush, pushes.length, began,
          clock⟩, worktree, holder⟩
  | acquire {ticket worktree} : Moves rules job run pushes clock ⟨.ready ticket, worktree, none⟩
      ⟨.holding ticket (treeUnchanged ticket.tree worktree), worktree, some run⟩
  | read {ticket unchanged worktree holder} :
      Moves rules job run pushes clock ⟨.holding ticket unchanged, worktree, holder⟩
        ⟨.checkedOut ticket unchanged, (readTree .done ticket.tree worktree).2, holder⟩
  /-- It gives up, or is gone, in or before its `read-tree`. -/
  | readFails (outcome : StepOutcome) {ticket unchanged worktree holder ended failure} :
      (readTree outcome ticket.tree worktree).1 = .error failure → ended.active = false →
      ended.ticket = none →
      Moves rules job run pushes clock ⟨.holding ticket unchanged, worktree, holder⟩
        ⟨ended, (readTree outcome ticket.tree worktree).2, none⟩
  | clean {ticket unchanged worktree holder} :
      Moves rules job run pushes clock ⟨.checkedOut ticket unchanged, worktree, holder⟩
        ⟨.swept ticket unchanged, (clean rules .done worktree).2, holder⟩
  /-- It gives up, or is gone, in or before its `clean`. -/
  | cleanFails (outcome : StepOutcome) {ticket unchanged worktree holder ended failure} :
      (clean rules outcome worktree).1 = .error failure → ended.active = false →
      ended.ticket = none →
      Moves rules job run pushes clock ⟨.checkedOut ticket unchanged, worktree, holder⟩
        ⟨ended, (clean rules outcome worktree).2, none⟩
  | record {ticket unchanged worktree holder} (outcome : RecordOutcome) :
      Moves rules job run pushes clock ⟨.swept ticket unchanged, worktree, holder⟩
        ⟨.returned ticket ⟨job.stream, job.worktree, ticket.tree, unchanged⟩,
          recordTree outcome ticket.tree worktree, none⟩
  /-- It is gone when only the record is left to write. -/
  | recordLost {ticket unchanged worktree holder ended} : ended.active = false →
      ended.ticket = none →
      Moves rules job run pushes clock ⟨.swept ticket unchanged, worktree, holder⟩
        ⟨ended, worktree, none⟩

section Advance

variable {rules : IgnoreRules Leaf} {job : Job} {run : Nat} {pushes : List (Push Leaf)}
  {clock : Nat} {view after : View Leaf}

private theorem advance_crash (moved : advance rules job run pushes clock view .crash = some after) :
    Moves rules job run pushes clock view after := by
  obtain ⟨phase, worktree, holder⟩ := view
  cases phase with
  | start | code _ _ _ | ready _ => cases moved; exact .stop rfl rfl rfl rfl
  -- Under the lock this is a `git` step that never started, or a record never written.
  | holding ticket unchanged =>
    cases moved
    exact .readFails .notSpawned rfl rfl rfl
  | checkedOut ticket unchanged =>
    cases moved
    exact .cleanFails .notSpawned rfl rfl rfl
  | swept ticket unchanged => cases moved; exact .recordLost rfl rfl
  | returned _ _ | failed _ | crashed => cases moved

/-- Every step of a run is one of these moves. -/
theorem advance_moves {action : Action}
    (moved : advance rules job run pushes clock view action = some after) :
    Moves rules job run pushes clock view after := by
  by_cases gone : action = .crash
  · exact advance_crash (gone ▸ moved)
  obtain ⟨phase, worktree, holder⟩ := view
  -- Every other action has a phase of its own.
  cases action with
  | resolveCode calls =>
    cases phase <;> try cases moved
    simp only [advance] at moved
    split at moved <;> rename_i resolved <;> cases moved
    · exact .stop rfl rfl rfl rfl
    · exact .code (resolveCodeTree_ok resolved)
  | resolveExtra calls =>
    cases phase <;> try cases moved
    simp only [advance] at moved
    split at moved <;> rename_i resolved <;> cases moved
    · exact .stop rfl rfl rfl rfl
    · rw [overlayExtraTree_ok resolved]
      exact .extra
  | prepareFails | lockFails => cases phase <;> cases moved; exact .stop rfl rfl rfl rfl
  | acquire =>
    cases phase <;> try cases moved
    cases holder <;> cases moved
    exact .acquire
  | refuse =>
    cases phase <;> try cases moved
    simp only [advance] at moved
    split at moved <;> cases moved
    exact .stop rfl rfl rfl rfl
  | readTree outcome =>
    cases phase <;> try cases moved
    cases outcome with
    | done => cases moved; exact .read
    | notSpawned => cases moved; exact .readFails .notSpawned rfl rfl rfl
    | failed touched => cases moved; exact .readFails (.failed touched) rfl rfl rfl
  | clean outcome =>
    cases phase <;> try cases moved
    cases outcome with
    | done => cases moved; exact .clean
    | notSpawned => cases moved; exact .cleanFails .notSpawned rfl rfl rfl
    | failed touched => cases moved; exact .cleanFails (.failed touched) rfl rfl rfl
  | record outcome => cases phase <;> cases moved; exact .record outcome
  | crash => exact absurd rfl gone

end Advance

/-- A run that is over takes no more steps. -/
theorem Moves.active {rules : IgnoreRules Leaf} {job : Job} {run : Nat}
    {pushes : List (Push Leaf)} {clock : Nat} {view after : View Leaf}
    (moved : Moves rules job run pushes clock view after) : view.phase.active = true := by
  cases moved with
  | stop going => exact going
  | code | extra | acquire | read | readFails | clean | cleanFails | record | recordLost => rfl

/-- An event is a push, or a move of one run. -/
theorem step_cases {rules : IgnoreRules Leaf} {jobs : Nat → Job} {system after : System Leaf}
    {event : Event Leaf} (stepped : step rules jobs system event = some after) :
    (∃ stream state, after = { system with
      pushes := Function.update system.pushes stream (system.pushes stream ++ [state])
      clock := system.clock + 1 }) ∨
    ∃ run view, Moves rules (jobs run) run (system.pushes (jobs run).stream)
        system.clock (system.view (jobs run) run) view ∧ after = system.show (jobs run) run view := by
  -- A push changes no run, and a run changes what it sees and nothing else.
  cases event with
  | push stream state => exact .inl ⟨stream, state, (Option.some.inj stepped).symm⟩
  | act run action =>
    obtain ⟨view, moved, rfl⟩ := Option.map_eq_some_iff.mp stepped
    exact .inr ⟨run, view, advance_moves moved, rfl⟩

end GitFullSend

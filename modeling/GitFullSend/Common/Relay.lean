import GitFullSend.Common.Process
import GitFullSend.Common.PumpSteps

/-! A child between two pumps, at one end of a connection. -/

namespace GitFullSend

open Utf8 (Bytes)
open Channels (Channel)

/-- The two ends of a connection. -/
inductive Side where
  /-- The one of `git push`, to which a pair of sockets leads. -/
  | client
  /-- The one of `receive-pack`, to which a pipe in each direction leads. -/
  | server
  deriving DecidableEq

/-- What a child does, call by call. -/
inductive Program where
  | exit (status : ExitStatus)
  /-- It reads, and goes on with some bytes, or with none at the end of the stream. -/
  | read (next : Bytes → Program)
  /-- It writes some bytes, and goes on in another way when they are refused. -/
  | write (first : UInt8) (more : Bytes) (next broken : Program)
  /-- It writes some bytes to its standard error. -/
  | log (first : UInt8) (more : Bytes) (next : Program)

/-- A child that runs, or has ended. -/
inductive Process where
  | running (program : Program)
  | ended (status : ExitStatus)

/-- Whether a child has ended. -/
def Process.isEnded : Process → Bool
  | running _ => false
  | ended _ => true

/-- Whether a pump is over. -/
def Pump.isOver (pump : Pump) : Bool :=
  match pump.stage with
  | .stopped => true
  | _ => false

/-- A connection, as one end of it sees it. -/
structure Line where
  arriving : Channel UInt8
  /-- The peer sends no more. -/
  hungUp : Bool
  departing : Channel UInt8
  /-- The connection is reset, so calls may fail. -/
  broken : Bool

namespace Relay

/-- How far the handler of a connection has come. -/
inductive Stage where
  /-- It reads the standard error of the child. -/
  | draining
  | waiting
  | joiningOutbound
  | joiningInbound
  | joiningWatchdog
  | returned
  deriving DecidableEq

/-- The next thing that happens at one end. -/
inductive Action where
  | inbound (action : Pump.Action)
  | outbound (action : Pump.Action)
  /-- The child makes its next call, which moves so many bytes. -/
  | call (count : Nat)
  /-- A write of the child is refused. -/
  | refuse
  /-- The handler reads so many bytes of the standard error. -/
  | drain (count : Nat)
  /-- The handler goes on behind what it waits for. -/
  | handle
  /-- The time of the connection is up. -/
  | timeout
  /-- The watchdog hears that the handler is done. -/
  | standDown
  deriving DecidableEq

end Relay

/-- One end of a connection. -/
structure Relay where
  child : Process
  /-- From the inbound pump to the child. -/
  input : Channel UInt8
  /-- From the child to the outbound pump. -/
  output : Channel UInt8
  stderr : Channel UInt8
  inbound : Pump
  outbound : Pump
  handler : Relay.Stage
  /-- The socket was shut down, in both directions. -/
  shut : Bool
  /-- The watchdog has neither fired nor stood down. -/
  watching : Bool

namespace Relay

/-- The child is spawned; only the server has a watchdog. -/
def start (side : Side) (program : Program) : Relay where
  child := .running program
  input := .empty
  output := .empty
  stderr := .empty
  inbound := .start
  outbound := .start
  handler := .draining
  shut := false
  watching := side = .server

/-- The inbound pump is between the socket and the child. -/
def inboundBetween (relay : Relay) (line : Line) : Pump.Between where
  source := line.arriving
  ended := line.hungUp || relay.shut
  failing := line.broken
  sink := relay.input
  closed := relay.child.isEnded
  broken := relay.child.isEnded

/-- The outbound pump is between the child and the socket. -/
def outboundBetween (side : Side) (relay : Relay) (line : Line) : Pump.Between where
  source := relay.output
  ended := relay.child.isEnded
  -- A socket of a pair fails in its end when the other one was closed with bytes unread.
  failing := side = .client ∧ relay.child.isEnded ∧ relay.output.left = []
  sink := line.departing
  closed := relay.shut
  broken := relay.shut || line.broken

/--
Whether the writes of the child are refused.

The pump of the server owns the only reading end of its pipe. On the client the socket of the pair
is open for as long as the handler has it.
-/
def refuses (side : Side) (relay : Relay) : Bool := side = .server ∧ relay.outbound.isOver

/-- The peer is told that no more is sent: the client's outbound pump does that when it is over. -/
def finished (side : Side) (relay : Relay) : Bool :=
  relay.shut || decide (side = .client ∧ relay.outbound.isOver)

/-- What a child does next when some bytes of a call are left, or none. -/
def behind (left : Bytes) (again : UInt8 → Bytes → Program) (next : Program) : Program :=
  match left with
  | [] => next
  | first :: more => again first more

/-- The next call of the child. -/
def call (side : Side) (buffer : Buffer) (relay : Relay) (count : Nat) : Option Relay :=
  match relay.child with
  | .running (.exit status) => some { relay with child := .ended status }
  | .running (.read next) =>
    if count ≤ relay.input.left.length ∧
        (0 < count ∨ relay.input.left = [] ∧ relay.inbound.isOver) then
      some { relay with
        child := .running (next (relay.input.left.take count))
        input := relay.input.take count }
    else none
  | .running (.write first more next broken) =>
    if 0 < count ∧ count ≤ (first :: more).length ∧ !refuses side relay ∧
        buffer.fits relay.output.left.length count then
      some { relay with
        child := .running (behind ((first :: more).drop count)
          (fun first more => .write first more next broken) next)
        output := relay.output.put ((first :: more).take count) }
    else none
  | .running (.log first more next) =>
    if 0 < count ∧ count ≤ (first :: more).length ∧
        buffer.fits relay.stderr.left.length count then
      some { relay with
        child := .running (behind ((first :: more).drop count)
          (fun first more => .log first more next) next)
        stderr := relay.stderr.put ((first :: more).take count) }
    else none
  | .ended _ => none

/-- The handler goes on, from one thing it waits for to the next. -/
def handle (side : Side) (relay : Relay) : Option Relay :=
  match relay.handler with
  | .draining =>
    if relay.stderr.left = [] ∧ relay.child.isEnded then
      some { relay with handler := .waiting }
    else none
  | .waiting =>
    if relay.child.isEnded then some { relay with handler := .joiningOutbound } else none
  -- Everything of the child is in the socket, which is shut down only now.
  | .joiningOutbound =>
    if relay.outbound.isOver then some { relay with handler := .joiningInbound, shut := true }
    else none
  | .joiningInbound =>
    if relay.inbound.isOver then
      some { relay with
        handler := if side = .server then .joiningWatchdog else .returned }
    else none
  | .joiningWatchdog => if relay.watching then none else some { relay with handler := .returned }
  | .returned => none

/-- One step at an end with what it does to the connection, or `none` when it cannot come now. -/
def advance (side : Side) (buffer : Buffer) (line : Line) (relay : Relay) (action : Action) :
    Option (Relay × Channel UInt8 × Channel UInt8) :=
  match action with
  | .inbound action =>
    (Pump.advance buffer (relay.inboundBetween line) relay.inbound action).map
      fun (pump, source, sink) =>
        ({ relay with inbound := pump, input := sink }, source, line.departing)
  | .outbound action =>
    (Pump.advance buffer (relay.outboundBetween side line) relay.outbound action).map
      fun (pump, source, sink) =>
        ({ relay with outbound := pump, output := source }, line.arriving, sink)
  | .call count => (relay.call side buffer count).map (·, line.arriving, line.departing)
  | .refuse =>
    match relay.child with
    | .running (.write _ _ _ broken) =>
      if refuses side relay then
        some ({ relay with child := .running broken }, line.arriving, line.departing)
      else none
    | _ => none
  | .drain count =>
    if relay.handler = .draining ∧ 0 < count ∧ count ≤ relay.stderr.left.length then
      some ({ relay with stderr := relay.stderr.take count }, line.arriving, line.departing)
    else none
  | .handle => (relay.handle side).map (·, line.arriving, line.departing)
  | .timeout =>
    if relay.watching then
      some ({ relay with shut := true, watching := false }, line.arriving, line.departing)
    else none
  | .standDown =>
    if relay.watching ∧ relay.handler = .joiningWatchdog then
      some ({ relay with watching := false }, line.arriving, line.departing)
    else none

/-- One program comes directly behind a call of another one. -/
inductive Follows : Program → Program → Prop where
  | read (next : Bytes → Program) (bytes : Bytes) : Follows (next bytes) (.read next)
  | wroteOn {first first' : UInt8} {more more' : Bytes} {next broken : Program}
      (shorter : more'.length < more.length) :
      Follows (.write first' more' next broken) (.write first more next broken)
  | wrote {first : UInt8} {more : Bytes} {next broken : Program} :
      Follows next (.write first more next broken)
  | refused {first : UInt8} {more : Bytes} {next broken : Program} :
      Follows broken (.write first more next broken)
  | loggedOn {first first' : UInt8} {more more' : Bytes} {next : Program}
      (shorter : more'.length < more.length) :
      Follows (.log first' more' next) (.log first more next)
  | logged {first : UInt8} {more : Bytes} {next : Program} : Follows next (.log first more next)

/-- What is left of a call is shorter, or the next call comes. -/
theorem behind_cases {first : UInt8} {more : Bytes} {count : Nat} (some : 0 < count)
    (again : UInt8 → Bytes → Program) (next : Program) :
    behind ((first :: more).drop count) again next = next ∨
      ∃ first' more', more'.length < more.length ∧
        behind ((first :: more).drop count) again next = again first' more' := by
  -- At least one byte is gone.
  cases rest : (first :: more).drop count with
  | nil => exact .inl rfl
  | cons first' more' =>
    have length := congrArg List.length rest
    simp only [List.length_drop, List.length_cons] at length
    exact .inr ⟨first', more', by omega, rfl⟩

/-- What a step at an end can be. -/
inductive Moves (side : Side) (line : Line) (relay : Relay) :
    Action → Relay → Channel UInt8 → Channel UInt8 → Prop where
  | inbound {action : Pump.Action} {pump : Pump} {source sink : Channel UInt8}
      (moved : Pump.Moves (relay.inboundBetween line) relay.inbound action pump source sink) :
      Moves side line relay (.inbound action) { relay with inbound := pump, input := sink }
        source line.departing
  | outbound {action : Pump.Action} {pump : Pump} {source sink : Channel UInt8}
      (moved : Pump.Moves (relay.outboundBetween side line) relay.outbound action pump source
        sink) :
      Moves side line relay (.outbound action) { relay with outbound := pump, output := source }
        line.arriving sink
  | exits {status : ExitStatus} {count : Nat} (runs : relay.child = .running (.exit status)) :
      Moves side line relay (.call count) { relay with child := .ended status }
        line.arriving line.departing
  | reads {next : Bytes → Program} {count : Nat} (runs : relay.child = .running (.read next))
      (able : 0 < count ∨ relay.input.left = [] ∧ relay.inbound.isOver = true) :
      Moves side line relay (.call count)
        { relay with
          child := .running (next (relay.input.left.take count))
          input := relay.input.take count } line.arriving line.departing
  | writes {first : UInt8} {more bytes : Bytes} {next broken program : Program} {count : Nat}
      (runs : relay.child = .running (.write first more next broken))
      (follows : Follows program (.write first more next broken)) :
      Moves side line relay (.call count)
        { relay with child := .running program, output := relay.output.put bytes }
        line.arriving line.departing
  | logs {first : UInt8} {more bytes : Bytes} {next program : Program} {count : Nat}
      (runs : relay.child = .running (.log first more next))
      (follows : Follows program (.log first more next)) :
      Moves side line relay (.call count)
        { relay with child := .running program, stderr := relay.stderr.put bytes }
        line.arriving line.departing
  | refused {first : UInt8} {more : Bytes} {next broken : Program}
      (runs : relay.child = .running (.write first more next broken)) :
      Moves side line relay .refuse { relay with child := .running broken }
        line.arriving line.departing
  | drains {count : Nat} (reading : relay.handler = .draining) (some : 0 < count)
      (within : count ≤ relay.stderr.left.length) :
      Moves side line relay (.drain count) { relay with stderr := relay.stderr.take count }
        line.arriving line.departing
  | drained (reading : relay.handler = .draining) (nothing : relay.stderr.left = [])
      (ended : relay.child.isEnded = true) :
      Moves side line relay .handle { relay with handler := .waiting }
        line.arriving line.departing
  | waited (waits : relay.handler = .waiting) (ended : relay.child.isEnded = true) :
      Moves side line relay .handle { relay with handler := .joiningOutbound }
        line.arriving line.departing
  | joinsOutbound (waits : relay.handler = .joiningOutbound)
      (stopped : relay.outbound.isOver = true) :
      Moves side line relay .handle { relay with handler := .joiningInbound, shut := true }
        line.arriving line.departing
  | joinsInbound (waits : relay.handler = .joiningInbound) (stopped : relay.inbound.isOver = true) :
      Moves side line relay .handle
        { relay with handler := if side = .server then .joiningWatchdog else .returned }
        line.arriving line.departing
  | returns (waits : relay.handler = .joiningWatchdog) (alone : relay.watching = false) :
      Moves side line relay .handle { relay with handler := .returned }
        line.arriving line.departing
  | timeout (watches : relay.watching = true) :
      Moves side line relay .timeout { relay with shut := true, watching := false }
        line.arriving line.departing
  | standsDown (watches : relay.watching = true) (waits : relay.handler = .joiningWatchdog) :
      Moves side line relay .standDown { relay with watching := false }
        line.arriving line.departing

section Steps

variable {side : Side} {buffer : Buffer} {line : Line} {relay after : Relay} {action : Action}
  {arriving departing : Channel UInt8} {count : Nat}

/-- Every call of the child is one of these steps. -/
theorem call_moves (called : relay.call side buffer count = some after) :
    Moves side line relay (.call count) after line.arriving line.departing := by
  -- The cases are the calls of the program.
  unfold call at called
  split at called
  · rename_i status runs
    cases called
    exact .exits runs
  · rename_i next runs
    split at called
    · rename_i able
      cases called
      exact .reads runs able.2
    · cases called
  · rename_i first more next broken runs
    split at called
    · rename_i able
      cases called
      refine .writes runs ?_
      rcases behind_cases able.1 (fun first more => .write first more next broken) next with
        same | ⟨first', more', shorter, same⟩
      · rw [same]
        exact .wrote
      · rw [same]
        exact .wroteOn shorter
    · cases called
  · rename_i first more next runs
    split at called
    · rename_i able
      cases called
      refine .logs runs ?_
      rcases behind_cases able.1 (fun first more => .log first more next) next with
        same | ⟨first', more', shorter, same⟩
      · rw [same]
        exact .logged
      · rw [same]
        exact .loggedOn shorter
    · cases called
  · cases called

/-- Every step of the handler is one of these. -/
theorem handle_moves (handled : relay.handle side = some after) :
    Moves side line relay .handle after line.arriving line.departing := by
  -- The cases are the stages of the handler.
  unfold handle at handled
  split at handled
  · rename_i stage
    split at handled
    · rename_i able
      cases handled
      exact .drained stage able.1 able.2
    · cases handled
  · rename_i stage
    split at handled
    · rename_i ended
      cases handled
      exact .waited stage ended
    · cases handled
  · rename_i stage
    split at handled
    · rename_i stopped
      cases handled
      exact .joinsOutbound stage stopped
    · cases handled
  · rename_i stage
    split at handled
    · rename_i stopped
      cases handled
      exact .joinsInbound stage stopped
    · cases handled
  · rename_i stage
    split at handled
    · cases handled
    · rename_i alone
      cases handled
      exact .returns stage (by simpa using alone)
  · cases handled

/-- Every step is one of these. -/
theorem advance_moves
    (moved : advance side buffer line relay action = some (after, arriving, departing)) :
    Moves side line relay action after arriving departing := by
  -- The cases are the actions, and each has its own part of the definition.
  unfold advance at moved
  cases action with
  | inbound action =>
    obtain ⟨⟨pump, source, sink⟩, stepped, same⟩ := Option.map_eq_some_iff.mp moved
    cases same
    exact .inbound (Pump.advance_moves stepped)
  | outbound action =>
    obtain ⟨⟨pump, source, sink⟩, stepped, same⟩ := Option.map_eq_some_iff.mp moved
    cases same
    exact .outbound (Pump.advance_moves stepped)
  | call count =>
    obtain ⟨next, called, same⟩ := Option.map_eq_some_iff.mp moved
    cases same
    exact call_moves called
  | refuse =>
    simp only at moved
    split at moved
    · rename_i first more next broken runs
      split at moved
      · cases moved
        exact .refused runs
      · cases moved
    · cases moved
  | drain count =>
    simp only at moved
    split at moved
    · rename_i able
      cases moved
      exact .drains able.1 able.2.1 able.2.2
    · cases moved
  | handle =>
    obtain ⟨next, handled, same⟩ := Option.map_eq_some_iff.mp moved
    cases same
    exact handle_moves handled
  | timeout =>
    simp only at moved
    split at moved
    · rename_i watches
      cases moved
      exact .timeout watches
    · cases moved
  | standDown =>
    simp only at moved
    split at moved
    · rename_i able
      cases moved
      exact .standsDown able.1 able.2
    · cases moved

end Steps

end Relay

end GitFullSend

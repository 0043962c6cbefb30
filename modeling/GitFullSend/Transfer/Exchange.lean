import GitFullSend.Server.Relayed
import GitFullSend.Transfer.Wire

/-! `git push` and `receive-pack` with everything that stands between them. -/

namespace GitFullSend

open Utf8 (Bytes)
open Arrivals (delivered)
open Channels (Channel)

/-- What the client makes of a push when it has returned. -/
def Relay.pushed (preamble : Bytes) (line : Line) (relay : Relay) : Option Pushed :=
  match relay.handler, relay.child with
  | .returned, .ended status => some
    { result :=
        if status.success then .ok ⟨relay.outbound.split.counts, relay.inbound.split.counts⟩
        else
          let stderr := (Text.ofBytes (Utf8.lossy relay.stderr.taken)).getD ""
          .error (.pushFailed status (Text.trim stderr))
      preamble := preamble
      produced := relay.output.taken
      sent := line.departing.all
      received := line.arriving.taken
      forwarded := relay.input.all }
  | _, _ => none

/-- The traffic of a push is what went through its channels. -/
theorem Relay.pushed_traffic {preamble : Bytes} {line : Line} {relay : Relay} {pushed : Pushed}
    (made : relay.pushed preamble line = some pushed) :
    pushed.preamble = preamble ∧ pushed.produced = relay.output.taken ∧
      pushed.sent = line.departing.all ∧ pushed.received = line.arriving.taken ∧
      pushed.forwarded = relay.input.all := by
  -- It is made only when the handler has returned and the child has ended.
  unfold Relay.pushed at made
  split at made
  · cases made
    exact ⟨rfl, rfl, rfl, rfl, rfl⟩
  · cases made

/-- A client that has returned has made of the push what the copies of both ways make. -/
theorem Relay.Sound.pushed {relay : Relay} {line : Line}
    (sound : relay.Sound .client line.arriving.taken line.departing.all)
    (returned : relay.handler = .returned) (preamble : Bytes) :
    ∃ sock : Socket, ∃ git : GitPush, relay.child = .ended git.status ∧
      git.stderr = relay.stderr.all ∧ delivered sock.incoming = line.arriving.taken ∧
      delivered git.output = relay.output.taken ∧
      relay.pushed preamble line = some (exchange preamble sock git) := by
  -- Both pumps are over, and each of them has done what a copy does.
  have early : relay.handler.cost = 0 := by rw [returned, Relay.Stage.cost]
  obtain ⟨ended, nothing⟩ := sound.ended (by omega)
  have inbound := sound.inbound
  have outbound := sound.outbound
  rw [Pump.Sound, Pump.isOver_iff.mp (sound.stopped (by omega))] at inbound
  rw [Pump.Sound, Pump.isOver_iff.mp (sound.joined (by omega)).1] at outbound
  obtain ⟨arrived, input, forwards⟩ := inbound
  obtain ⟨produced, outgoing, sends⟩ := outbound
  cases child : relay.child with
  | running program => simp [child, Process.isEnded] at ended
  | ended status =>
    refine ⟨⟨relay.inbound.met, outgoing⟩,
      ⟨relay.outbound.met, input, relay.stderr.all, status⟩, rfl, rfl, arrived, produced, ?_⟩
    simp only [Relay.pushed, returned, child, exchange, forwards, sends,
      Channel.taken_all nothing]

/-- Both ends of a push, behind the gate, and the connection between them. -/
structure Exchange where
  client : Relay
  server : Relay
  /-- What the client sends. -/
  up : Channel UInt8
  /-- What the server sends. -/
  down : Channel UInt8
  /-- The connection was reset from outside. -/
  reset : Bool

namespace Exchange

/-- The connection, as the client sees it: a server that is gone resets it for unread bytes. -/
def clientLine (state : Exchange) : Line where
  arriving := state.down
  hungUp := state.server.finished .server
  departing := state.up
  broken := state.reset || decide (state.server.handler = .returned ∧ state.up.left ≠ [])

/-- The connection, as the server sees it. -/
def serverLine (state : Exchange) : Line where
  arriving := state.up
  hungUp := state.client.finished .client
  departing := state.down
  broken := state.reset || decide (state.client.handler = .returned ∧ state.down.left ≠ [])

/-- What happens next. -/
inductive Event where
  | client (action : Relay.Action)
  | server (action : Relay.Action)
  | reset
  deriving DecidableEq

/-- Both children are spawned, and nothing is sent. -/
def initial (pushing receiving : Program) : Exchange :=
  ⟨.start .client pushing, .start .server receiving, .empty, .empty, false⟩

/-- One step, or `none` when it cannot come now. -/
def step (buffer : Buffer) (state : Exchange) : Event → Option Exchange
  | .client action =>
    (Relay.advance .client buffer state.clientLine state.client action).map
      fun (relay, arriving, departing) =>
        { state with client := relay, down := arriving, up := departing }
  | .server action =>
    (Relay.advance .server buffer state.serverLine state.server action).map
      fun (relay, arriving, departing) =>
        { state with server := relay, up := arriving, down := departing }
  | .reset => some { state with reset := true }

/-- Steps in their order. -/
def execute (buffer : Buffer) (state : Exchange) (events : List Event) : Option Exchange :=
  events.foldlM (step buffer) state

/-- What a step can be. -/
inductive Moves (state : Exchange) : Event → Exchange → Prop where
  | client {action : Relay.Action} {relay : Relay} {arriving departing : Channel UInt8}
      (moved : Relay.Moves .client state.clientLine state.client action relay arriving departing) :
      Moves state (.client action) { state with client := relay, down := arriving, up := departing }
  | server {action : Relay.Action} {relay : Relay} {arriving departing : Channel UInt8}
      (moved : Relay.Moves .server state.serverLine state.server action relay arriving departing) :
      Moves state (.server action) { state with server := relay, up := arriving, down := departing }
  | reset : Moves state .reset { state with reset := true }

section Safety

variable {buffer : Buffer} {state after : Exchange} {event : Event} {events : List Event}
  {pushing receiving : Program}

/-- Every step is one of these. -/
theorem step_moves (stepped : step buffer state event = some after) : Moves state event after := by
  -- A step of an end has a relation of its own.
  cases event with
  | client action =>
    obtain ⟨⟨relay, arriving, departing⟩, moved, same⟩ := Option.map_eq_some_iff.mp stepped
    cases same
    exact .client (Relay.advance_moves moved)
  | server action =>
    obtain ⟨⟨relay, arriving, departing⟩, moved, same⟩ := Option.map_eq_some_iff.mp stepped
    cases same
    exact .server (Relay.advance_moves moved)
  | reset => cases stepped; exact .reset

/-- Both ends are sound, and a way is lost to a child only with the connection or its other end. -/
structure Sound (state : Exchange) : Prop where
  client : state.client.Sound .client state.down.taken state.up.all
  server : state.server.Sound .server state.up.taken state.down.all
  fromClient : state.client.outbound.isOver = true → state.client.child.isEnded = true ∨
    state.client.shut = true ∨ (state.reset = true ∨ state.server.handler = .returned)
  fromServer : state.server.outbound.isOver = true → state.server.child.isEnded = true ∨
    state.server.shut = true ∨ (state.reset = true ∨ state.client.handler = .returned)

/-- At first nothing is done. -/
theorem initial_sound (pushing receiving : Program) : (initial pushing receiving).Sound where
  client := Relay.start_sound .client pushing
  server := Relay.start_sound .server receiving
  fromClient stopped := by simp [initial, Relay.start, Pump.isOver, Pump.start] at stopped
  fromServer stopped := by simp [initial, Relay.start, Pump.isOver, Pump.start] at stopped

/-- Every step keeps that. -/
theorem Moves.sound (moved : Moves state event after) (sound : state.Sound) : after.Sound := by
  -- An end that moves takes nothing from its own way out, and puts nothing into the way in.
  cases moved with
  | client moved =>
    obtain ⟨arriving, departing, -⟩ := moved.frame
    refine ⟨moved.sound sound.client, ?_, moved.lost (fun broken => ?_) sound.fromClient, ?_⟩
    · simp only [arriving, departing]
      exact sound.server
    · rcases (Bool.or_eq_true ..).mp broken with reset | gone
      · exact .inl reset
      · exact .inr (of_decide_eq_true gone).1
    · intro stopped
      refine (sound.fromServer stopped).imp_right (Or.imp_right (Or.imp_right fun returned => ?_))
      exact absurd returned (moved.unreturned sound.client)
  | server moved =>
    obtain ⟨arriving, departing, -⟩ := moved.frame
    refine ⟨?_, moved.sound sound.server, ?_, moved.lost (fun broken => ?_) sound.fromServer⟩
    · simp only [arriving, departing]
      exact sound.client
    · intro stopped
      refine (sound.fromClient stopped).imp_right (Or.imp_right (Or.imp_right fun returned => ?_))
      exact absurd returned (moved.unreturned sound.server)
    · rcases (Bool.or_eq_true ..).mp broken with reset | gone
      · exact .inl reset
      · exact .inr (of_decide_eq_true gone).1
  | reset =>
    exact ⟨sound.client, sound.server, fun stopped => (sound.fromClient stopped).imp_right
      (Or.imp_right fun _ => .inl rfl), fun stopped => (sound.fromServer stopped).imp_right
      (Or.imp_right fun _ => .inl rfl)⟩

/-- After any steps both ends are sound. -/
theorem execute_sound (ran : execute buffer (initial pushing receiving) events = some state) :
    state.Sound :=
  Folds.foldlM_keeps (fun _ _ _ sound stepped => (step_moves stepped).sound sound)
    (initial_sound pushing receiving) ran

/-- Nothing was cut short at either end. -/
structure Whole (state : Exchange) : Prop where
  client : state.client.Whole (state.server.finished .server) state.down.all state.up.all
  server : state.server.Whole (state.client.finished .client) state.up.all state.down.all

/-- What an event does to an end, if anything. -/
def Event.action : Event → Option Relay.Action
  | client action => some action
  | server action => some action
  | reset => none

/-- A step that cuts nothing short keeps that. -/
theorem Moves.whole (moved : Moves state event after) (sound : state.Sound) (whole : state.Whole)
    (uncut : ∀ action, event.action = some action → action.cuts = false) : after.Whole := by
  -- The end that moves is told apart from the one that is told about it.
  cases moved with
  | @client action relay arriving departing moved =>
    have clientWhole := moved.whole sound.client whole.client (uncut _ rfl)
    have serverWhole := moved.peer whole.client whole.server
    have arrives : arriving.all = state.down.all := moved.frame.1
    exact ⟨clientWhole, arrives.symm ▸ serverWhole⟩
  | @server action relay arriving departing moved =>
    have serverWhole := moved.whole sound.server whole.server (uncut _ rfl)
    have clientWhole := moved.peer whole.server whole.client
    have arrives : arriving.all = state.up.all := moved.frame.1
    exact ⟨arrives.symm ▸ clientWhole, serverWhole⟩
  | reset => exact ⟨whole.client, whole.server⟩

/-- Each pump that is over has written all that it has read, at both ends. -/
structure Handed (state : Exchange) : Prop where
  client : state.client.Handed state.down.taken state.up.all
  server : state.server.Handed state.up.taken state.down.all

/-- A step that works keeps that. -/
theorem Moves.handed (moved : Moves state event after) (sound : state.Sound)
    (handed : state.Handed)
    (works : ∀ action, event.action = some action → action.works = true) : after.Handed := by
  -- The end that does not move has the same bytes on both sides.
  cases moved with
  | client moved =>
    obtain ⟨arriving, departing, -⟩ := moved.frame
    refine ⟨moved.handed sound.client handed.client (works _ rfl), ?_⟩
    simp only [arriving, departing]
    exact handed.server
  | server moved =>
    obtain ⟨arriving, departing, -⟩ := moved.frame
    refine ⟨?_, moved.handed sound.server handed.server (works _ rfl)⟩
    simp only [arriving, departing]
    exact handed.client
  | reset => exact ⟨handed.client, handed.server⟩

/-- After steps that cut nothing short, nothing is cut short at either end. -/
theorem execute_whole (ran : execute buffer (initial pushing receiving) events = some state)
    (uncut : ∀ event ∈ events, ∀ action, event.action = some action → action.cuts = false) :
    state.Whole := by
  -- Both facts are kept together.
  have each : ∀ (before : Exchange) (event : Event) (after : Exchange),
      before.Sound ∧ before.Whole →
      (∀ action, event.action = some action → action.cuts = false) →
      step buffer before event = some after → after.Sound ∧ after.Whole :=
    fun _ _ _ held allowed stepped => ⟨(step_moves stepped).sound held.1,
      (step_moves stepped).whole held.1 held.2 allowed⟩
  refine (Folds.foldlM_keeps_while each ⟨initial_sound pushing receiving, ?_⟩ ?_ ran).2
  · exact ⟨Relay.start_whole .client pushing, Relay.start_whole .server receiving⟩
  · exact fun _ event _ _ split _ => uncut event (by simp [split])

/-- After steps that work, each pump that is over has written all that it has read. -/
theorem execute_handed (ran : execute buffer (initial pushing receiving) events = some state)
    (works : ∀ event ∈ events, ∀ action, event.action = some action → action.works = true) :
    state.Handed := by
  -- Both facts are kept together.
  have each : ∀ (before : Exchange) (event : Event) (after : Exchange),
      before.Sound ∧ before.Handed →
      (∀ action, event.action = some action → action.works = true) →
      step buffer before event = some after → after.Sound ∧ after.Handed :=
    fun _ _ _ held allowed stepped => ⟨(step_moves stepped).sound held.1,
      (step_moves stepped).handed held.1 held.2 allowed⟩
  refine (Folds.foldlM_keeps_while each ⟨initial_sound pushing receiving, ?_⟩ ?_ ran).2
  · exact ⟨Relay.start_handed .client pushing, Relay.start_handed .server receiving⟩
  · exact fun _ event _ _ split _ => works event (by simp [split])

/-- Both ends count the same, when no call has failed and nothing is left in the connection. -/
theorem counts_agree (sound : state.Sound) (handed : state.Handed)
    (pushes : state.client.handler = .returned) (receives : state.server.handler = .returned)
    (up : state.up.left = []) (down : state.down.left = []) (preamble : Bytes)
    (acceptedRefs : Option Bytes) :
    ∃ pushed handled, state.client.pushed preamble state.clientLine = some pushed ∧
      state.server.handled preamble acceptedRefs state.serverLine = some handled ∧
      ∀ wire, pushed.result = .ok wire → ∃ record, handled.record = some record ∧
        record.inbound.Counts wire.sent ∧ record.outbound.Counts wire.received ∧
        wire.sent.total = state.up.all.length := by
  have client : state.client.Sound .client state.clientLine.arriving.taken
      state.clientLine.departing.all := sound.client
  have server : state.server.Sound .server state.serverLine.arriving.taken
      state.serverLine.departing.all := sound.server
  obtain ⟨sock, git, -, -, -, -, pushed⟩ := client.pushed pushes preamble
  obtain ⟨peer, child, -, -, -, -, -, handled⟩ := server.handled receives preamble acceptedRefs
  obtain ⟨opening, produced, sent, received, forwarded⟩ := Relay.pushed_traffic pushed
  obtain ⟨consumed, taken, passed, answer, answered⟩ := Relay.handled_traffic handled
  -- All four pumps are over, and each has handed on what it has read.
  have gone : ∀ {relay : Relay}, relay.handler = .returned → relay.handler.cost = 0 :=
    fun returned => by rw [returned, Relay.Stage.cost]
  have ready := gone pushes
  have done := gone receives
  have delivers : Delivered (exchange preamble sock git) (receive preamble peer (some child)) := by
    refine ⟨?_, ?_⟩
    · rw [consumed, taken, opening, sent]
      exact congrArg _ (Channel.taken_all up)
    · rw [received, answered]
      exact Channel.taken_all down
  have hands : HandedOn (exchange preamble sock git) (receive preamble peer (some child)) := by
    refine ⟨?_, ?_, ?_, ?_⟩
    · rw [sent, produced]
      exact handed.client.outbound (sound.client.joined (by omega)).1
    · rw [passed, taken]
      exact handed.server.inbound (sound.server.stopped (by omega))
    · rw [answered, answer]
      exact handed.server.outbound (sound.server.joined (by omega)).1
    · rw [forwarded, received]
      exact handed.client.inbound (sound.client.stopped (by omega))
  refine ⟨_, _, pushed, handled, fun wire ok => ?_⟩
  obtain ⟨record, made, inbound, outbound, total⟩ := exchange_agrees delivers hands ok
  refine ⟨record, made, inbound, outbound, total.trans ?_⟩
  rw [sent]
  rfl

/--
The end of a stream is the truth at both ends, and both ends count the same.

The steps of all threads and of both children come in any order.
As long as no time is up and no call on the connection fails, a child that comes to the end of its
input has read everything that the other one has ever written, and the other one has ended.
When both ends have returned, no call of a pump has failed and no byte is left in the connection,
then the record of the server counts in both directions what the client reports.
-/
theorem execute_agrees (ran : execute buffer (initial pushing receiving) events = some state) :
    ((∀ event ∈ events, ∀ action, event.action = some action → action.cuts = false) →
      (∀ next after, state.client.child = .running (.read next) →
        step buffer state (.client (.call 0)) = some after →
        state.server.child.isEnded = true ∧ state.client.input.taken = state.server.output.all) ∧
      ∀ next after, state.server.child = .running (.read next) →
        step buffer state (.server (.call 0)) = some after →
        state.client.child.isEnded = true ∧
          state.server.input.taken = state.client.output.all) ∧
    ((∀ event ∈ events, ∀ action, event.action = some action → action.works = true) →
      state.client.handler = .returned → state.server.handler = .returned →
      state.up.left = [] → state.down.left = [] → ∀ preamble acceptedRefs,
      ∃ pushed handled, state.client.pushed preamble state.clientLine = some pushed ∧
        state.server.handled preamble acceptedRefs state.serverLine = some handled ∧
        ∀ wire, pushed.result = .ok wire → ∃ record, handled.record = some record ∧
          record.inbound.Counts wire.sent ∧ record.outbound.Counts wire.received ∧
          wire.sent.total = state.up.all.length) := by
  -- The two parts rest on what is kept while nothing is cut short, and while everything works.
  have sound := execute_sound ran
  refine ⟨fun uncut => ?_, fun works pushes receives => ?_⟩
  · -- What the peer has told is what it has written.
    have whole := execute_whole ran uncut
    refine ⟨fun next after runs stepped => ?_, fun next after runs stepped => ?_⟩
    · obtain ⟨⟨relay, arriving, departing⟩, moved, -⟩ := Option.map_eq_some_iff.mp stepped
      obtain ⟨nothing, stopped⟩ := Relay.call_end runs moved
      obtain ⟨finished, taken⟩ := whole.client.read_all runs nothing stopped
      obtain ⟨ended, written⟩ := whole.server.finished finished
      exact ⟨ended, taken.trans written⟩
    · obtain ⟨⟨relay, arriving, departing⟩, moved, -⟩ := Option.map_eq_some_iff.mp stepped
      obtain ⟨nothing, stopped⟩ := Relay.call_end runs moved
      obtain ⟨finished, taken⟩ := whole.server.read_all runs nothing stopped
      obtain ⟨ended, written⟩ := whole.client.finished finished
      exact ⟨ended, taken.trans written⟩
  · exact counts_agree sound (execute_handed ran works) pushes receives

end Safety

/-- A child that sends a flush-pkt, and then reads twice. -/
def asking : Program :=
  .write 0x30 [0x30, 0x30, 0x30] (.read fun _ => .read fun _ => .exit (.code 0))
    (.exit (.signal 13))

/-- A child that reads once, and answers with a byte. -/
def answering : Program :=
  .read fun _ => .write 0x41 [] (.exit (.code 0)) (.exit (.signal 13))

/-- The flush-pkt goes up, the answer comes down, and both ends are closed in their order. -/
def conversed : List Event :=
  [.client (.call 4), .client (.outbound (.read 4)), .client (.outbound (.write 4)),
    .server (.inbound (.read 4)), .server (.inbound (.write 4)), .server (.call 4),
    .server (.call 1), .server (.call 0), .server (.outbound (.read 1)),
    .server (.outbound (.write 1)), .server (.outbound .endOfFile), .server .handle,
    .server .handle, .server .handle, .client (.inbound (.read 1)), .client (.inbound (.write 1)),
    .client (.call 1), .client (.inbound .endOfFile), .client (.call 0), .client (.call 0),
    .client (.outbound .endOfFile), .client .handle, .client .handle, .client .handle,
    .client .handle, .server (.inbound .endOfFile), .server .handle, .server .standDown,
    .server .handle]

/-- A whole conversation is counted alike. -/
theorem execute_agrees_conversed : ∃ state,
    execute Serving.small (initial asking answering) conversed = some state ∧
    ∃ pushed handled, state.client.pushed [] state.clientLine = some pushed ∧
      state.server.handled [] none state.serverLine = some handled ∧
      pushed.result = .ok ⟨⟨4, 4, 0, 0⟩, ⟨1, 1, 0, 0⟩⟩ ∧
      ∃ record, handled.record = some record ∧ record.inbound.Counts ⟨4, 4, 0, 0⟩ ∧
        record.outbound.Counts ⟨1, 1, 0, 0⟩ := by
  -- Both ends have returned, and nothing is left in the connection.
  obtain ⟨state, ran, pushes, receives, up, down, ok⟩ : ∃ state,
      execute Serving.small (initial asking answering) conversed = some state ∧
      state.client.handler = .returned ∧ state.server.handler = .returned ∧
      state.up.left = [] ∧ state.down.left = [] ∧
      (state.client.pushed [] state.clientLine).map Pushed.result =
        some (.ok ⟨⟨4, 4, 0, 0⟩, ⟨1, 1, 0, 0⟩⟩) := ⟨_, rfl, rfl, rfl, rfl, rfl, by decide⟩
  have works : ∀ event ∈ conversed, ∀ action, event.action = some action →
      action.works = true := by
    simp [conversed, Event.action, Relay.Action.works]
  obtain ⟨pushed, handled, made, kept, counts⟩ :=
    (execute_agrees ran).2 works pushes receives up down [] none
  rw [made] at ok
  have ok := Option.some.inj ok
  obtain ⟨record, recorded, inbound, outbound, -⟩ := counts _ ok
  exact ⟨state, ran, pushed, handled, made, kept, ok, record, recorded, inbound, outbound⟩

end Exchange

end GitFullSend

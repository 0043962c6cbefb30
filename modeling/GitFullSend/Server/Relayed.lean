import GitFullSend.Common.RelayRests
import GitFullSend.Lib.Folds
import GitFullSend.Lib.Runs
import GitFullSend.Server.Connection

/-! The handler of a connection among its threads, its child and a peer that does what it likes. -/

namespace GitFullSend

open Utf8 (Bytes)
open Arrivals (delivered)
open Channels (Channel)

/-- What the handler makes of a connection when it has returned. -/
def Relay.handled (consumed : Bytes) (acceptedRefs : Option Bytes) (line : Line) (relay : Relay) :
    Option Handled :=
  match relay.handler, relay.child with
  | .returned, .ended status =>
    let inbound := relay.inbound.split.counts
    let stderr := Text.trim ((Text.ofBytes relay.stderr.taken).getD "")
    let refsUpdated := (acceptedRefs.map readAcceptedRefs).getD []
    let outcome := Outcome.classify status inbound refsUpdated stderr
    some
      { spawned := true
        consumed := consumed
        received := line.arriving.taken
        forwarded := relay.input.all
        produced := relay.output.taken
        answered := line.departing.all
        record := some (.new outcome.asStr status inbound relay.outbound.split.counts
          refsUpdated) }
  | _, _ => none

/-- The traffic of a connection is what went through its channels. -/
theorem Relay.handled_traffic {consumed : Bytes} {acceptedRefs : Option Bytes} {line : Line}
    {relay : Relay} {handled : Handled}
    (made : relay.handled consumed acceptedRefs line = some handled) :
    handled.consumed = consumed ∧ handled.received = line.arriving.taken ∧
      handled.forwarded = relay.input.all ∧ handled.produced = relay.output.taken ∧
      handled.answered = line.departing.all := by
  -- It is made only when the handler has returned and the child has ended.
  unfold Relay.handled at made
  split at made
  · cases made
    exact ⟨rfl, rfl, rfl, rfl, rfl⟩
  · cases made

/-- A handler that has returned has made of the connection what the copies of both ways make. -/
theorem Relay.Sound.handled {relay : Relay} {line : Line}
    (sound : relay.Sound .server line.arriving.taken line.departing.all)
    (returned : relay.handler = .returned) (consumed : Bytes) (acceptedRefs : Option Bytes) :
    ∃ sock : Socket, ∃ child : Child, relay.child = .ended child.status ∧
      child.stderr = relay.stderr.all ∧ child.acceptedRefs = acceptedRefs ∧
      delivered sock.incoming = line.arriving.taken ∧
      delivered child.stdout = relay.output.taken ∧
      relay.handled consumed acceptedRefs line = some (receive consumed sock (some child)) := by
  -- Both pumps are over, and each of them has done what a copy does.
  have early : relay.handler.cost = 0 := by rw [returned, Relay.Stage.cost]
  obtain ⟨ended, nothing⟩ := sound.ended (by omega)
  have inbound := sound.inbound
  have outbound := sound.outbound
  rw [Pump.Sound, Pump.isOver_iff.mp (sound.stopped (by omega))] at inbound
  rw [Pump.Sound, Pump.isOver_iff.mp (sound.joined (by omega)).1] at outbound
  obtain ⟨arrived, stdin, forwards⟩ := inbound
  obtain ⟨produced, outgoing, answers⟩ := outbound
  cases child : relay.child with
  | running program => simp [child, Process.isEnded] at ended
  | ended status =>
    refine ⟨⟨relay.inbound.met, outgoing⟩,
      ⟨stdin, relay.outbound.met, relay.stderr.all, status, acceptedRefs⟩, rfl, rfl, rfl, arrived,
      produced, ?_⟩
    simp only [Relay.handled, returned, child, receive, forwards, answers,
      Channel.taken_all nothing]

/-- The end of the server, and the connection to a peer. -/
structure Serving where
  relay : Relay
  line : Line

namespace Serving

/-- What happens next. -/
inductive Event where
  | own (action : Relay.Action)
  /-- Some bytes of the peer arrive. -/
  | arrive (bytes : Bytes)
  /-- The peer sends no more. -/
  | hangUp
  /-- The peer takes so many bytes. -/
  | take (count : Nat)
  /-- The connection is reset. -/
  | reset

/-- A step at this end, and not an interrupted call. -/
def Event.isOwn : Event → Prop
  | own action => action.idle = false
  | _ => False

/-- The child is spawned, behind the gate. -/
def initial (program : Program) : Serving :=
  ⟨.start .server program, ⟨.empty, false, .empty, false⟩⟩

/-- One step, or `none` when it cannot come now. -/
def step (buffer : Buffer) (state : Serving) : Event → Option Serving
  | .own action =>
    (Relay.advance .server buffer state.line state.relay action).map
      fun (relay, arriving, departing) =>
        ⟨relay, { state.line with arriving := arriving, departing := departing }⟩
  | .arrive bytes =>
    -- Nothing arrives any more behind the end of the stream, or when the socket is shut down.
    if state.line.hungUp || state.relay.shut then none
    else some { state with
      line := { state.line with arriving := state.line.arriving.put bytes } }
  | .hangUp => some { state with line := { state.line with hungUp := true } }
  | .take count =>
    some { state with line := { state.line with departing := state.line.departing.take count } }
  | .reset => some { state with line := { state.line with broken := true } }

/-- Steps in their order. -/
def execute (buffer : Buffer) (state : Serving) (events : List Event) : Option Serving :=
  events.foldlM (step buffer) state

section Safety

variable {buffer : Buffer} {state after : Serving} {event : Event} {events : List Event}
  {program : Program}

/-- Both pumps have done what copies do. -/
def Sound (state : Serving) : Prop :=
  state.relay.Sound .server state.line.arriving.taken state.line.departing.all

/-- At first there is nothing to be done. -/
theorem initial_sound (program : Program) : (initial program).Sound :=
  Relay.start_sound .server program

/-- Every step keeps that. -/
theorem step_sound (sound : state.Sound) (stepped : step buffer state event = some after) :
    after.Sound := by
  -- The peer reads nothing of what arrives, and writes nothing of what departs.
  cases event with
  | own action =>
    obtain ⟨⟨relay, arriving, departing⟩, moved, same⟩ := Option.map_eq_some_iff.mp stepped
    cases same
    exact (Relay.advance_moves moved).sound sound
  | arrive bytes =>
    simp only [step] at stepped
    split at stepped
    · cases stepped
    · cases stepped
      exact sound
  | hangUp => cases stepped; exact sound
  | take count =>
    cases stepped
    rw [Sound, Channel.take_all]
    exact sound
  | reset => cases stepped; exact sound

/-- Nothing was cut short at this end. -/
def Whole (state : Serving) : Prop :=
  state.relay.Whole state.line.hungUp state.line.arriving.all state.line.departing.all

/-- A step that cuts nothing short keeps that. -/
theorem step_whole (sound : state.Sound) (whole : state.Whole)
    (uncut : ∀ action, event = .own action → action.cuts = false)
    (stepped : step buffer state event = some after) : after.Whole := by
  -- What arrives does so before the end of the stream.
  cases event with
  | own action =>
    obtain ⟨⟨relay, arriving, departing⟩, moved, same⟩ := Option.map_eq_some_iff.mp stepped
    cases same
    exact (Relay.advance_moves moved).whole sound whole (uncut action rfl)
  | arrive bytes =>
    simp only [step] at stepped
    split at stepped
    · cases stepped
    · rename_i open_
      cases stepped
      have early : state.line.hungUp = false := by simp_all
      rw [Whole, early] at whole
      rw [Whole, Channel.put_all]
      exact whole.arrives _
  | hangUp =>
    cases stepped
    cases early : state.line.hungUp with
    | true =>
      rw [Whole, early] at whole
      exact whole
    | false =>
      rw [Whole, early] at whole
      have later := @Relay.Whole.arrives _ _ [] _ whole true
      rw [List.append_nil] at later
      exact later
  | take count =>
    cases stepped
    rw [Whole, Channel.take_all]
    exact whole
  | reset => cases stepped; exact whole

/-- After any steps both pumps have done what copies do. -/
theorem execute_sound (ran : execute buffer (initial program) events = some state) :
    state.Sound :=
  Folds.foldlM_keeps (fun _ _ _ sound stepped => step_sound sound stepped)
    (initial_sound program) ran

/-- After steps that cut nothing short, nothing is cut short. -/
theorem execute_whole (ran : execute buffer (initial program) events = some state)
    (uncut : ∀ action, .own action ∈ events → action.cuts = false) : state.Whole := by
  -- Both facts are kept together.
  have each : ∀ (before : Serving) (event : Event) (after : Serving),
      before.Sound ∧ before.Whole → (∀ action, event = .own action → action.cuts = false) →
      step buffer before event = some after → after.Sound ∧ after.Whole :=
    fun _ _ _ held allowed stepped =>
      ⟨step_sound held.1 stepped, step_whole held.1 held.2 allowed stepped⟩
  refine (Folds.foldlM_keeps_while each ⟨initial_sound program, ?_⟩ ?_ ran).2
  · exact Relay.start_whole .server program
  · exact fun _ _ _ _ split _ action same => uncut action (by simp [split, same])

/--
Whatever the peer does, the handler makes of a connection what the copies of both ways make.

In any order of the steps of its threads, its child and the peer, the child has read the first of
the bytes that have arrived, and the peer was sent the first of those that the child has written.
A handler that has returned has the traffic and the record of the copies, with what was met on both
ways.
As long as no time is up and no call on the connection fails, all that the child has written is sent
before the socket is shut down, and the child comes to the end of its input only when the peer has
hung up and all that it sent was read.
-/
theorem execute_handled (ran : execute buffer (initial program) events = some state) :
    state.relay.input.taken <+: state.line.arriving.all ∧
    state.line.departing.all <+: state.relay.output.all ∧
    (state.relay.handler = .returned → ∀ consumed acceptedRefs, ∃ sock : Socket, ∃ child : Child,
      state.relay.child = .ended child.status ∧ child.stderr = state.relay.stderr.all ∧
      child.acceptedRefs = acceptedRefs ∧ delivered sock.incoming = state.line.arriving.taken ∧
      delivered child.stdout = state.relay.output.taken ∧
      state.relay.handled consumed acceptedRefs state.line =
        some (receive consumed sock (some child))) ∧
    ((∀ action, .own action ∈ events → action.cuts = false) →
      (state.relay.shut = true →
        state.relay.child.isEnded = true ∧ state.line.departing.all = state.relay.output.all) ∧
      ∀ next after, state.relay.child = .running (.read next) →
        step buffer state (.own (.call 0)) = some after →
        state.line.hungUp = true ∧ state.relay.input.taken = state.line.arriving.all) := by
  -- What was read and written is known of sound pumps, and their ends where nothing was cut short.
  have sound := execute_sound ran
  refine ⟨?_, ?_, fun returned => sound.handled returned, fun uncut => ?_⟩
  · exact (Channel.taken_prefix _).trans (sound.inbound.begins.trans (Channel.taken_prefix _))
  · exact sound.outbound.begins.trans (Channel.taken_prefix _)
  · have whole := execute_whole ran uncut
    refine ⟨fun shut => whole.outbound (whole.shut shut), fun next after runs stepped => ?_⟩
    obtain ⟨⟨relay, arriving, departing⟩, moved, -⟩ := Option.map_eq_some_iff.mp stepped
    obtain ⟨nothing, stopped⟩ := Relay.call_end runs moved
    exact whole.read_all runs nothing stopped

end Safety

section Liveness

variable {buffer : Buffer} {state after : Serving} {event : Event} {program : Program}

/-- The peer sends nothing that is waited for, or takes nothing of what is there for it. -/
def PeerStalls (buffer : Buffer) (state : Serving) : Prop :=
  state.line.broken = false ∧
    (state.line.hungUp = false ∧ state.line.arriving.left = [] ∧ state.relay.input.left = [] ∧
        (∃ next, state.relay.child = .running (.read next)) ∨
      buffer.fits state.line.departing.left.length 1 = false ∧
        ∀ next, state.relay.child ≠ .running (.read next))

/-- A step at this end that does not need the watchdog. -/
def Event.isPrompt (event : Event) : Prop := event.isOwn ∧ event ≠ .own .timeout

/-- A step of the relay is one of this end. -/
theorem step_own {action : Relay.Action} {relay : Relay} {arriving departing : Channel UInt8}
    (moved : Relay.advance .server buffer state.line state.relay action =
      some (relay, arriving, departing)) :
    step buffer state (.own action) =
      some ⟨relay, { state.line with arriving := arriving, departing := departing }⟩ := by
  rw [step, moved, Option.map_some]

/-- An end where nothing is possible at once is blocked. -/
theorem blocked_of_disabled (disabled : ¬ Runs.Enabled (step buffer) Event.isPrompt state) :
    state.relay.Blocked .server buffer state.line := by
  -- A step of the relay would be enabled.
  intro action progress prompt
  by_contra able
  obtain ⟨⟨relay, arriving, departing⟩, moved⟩ := Option.ne_none_iff_exists'.mp able
  exact disabled ⟨.own action, _, ⟨progress, fun same => prompt (Event.own.inj same)⟩,
    step_own moved⟩

/-- The handler has returned, or the peer stalls, or something is possible at once. -/
theorem returned_or_prompt (sound : state.Sound) : state.relay.handler = .returned ∨
    PeerStalls buffer state ∨ Runs.Enabled (step buffer) Event.isPrompt state := by
  -- A blocked end rests, and the server is not stranded.
  by_cases enabled : Runs.Enabled (step buffer) Event.isPrompt state
  · exact .inr (.inr enabled)
  · cases (blocked_of_disabled enabled).rests sound with
    | returned done => exact .inl done
    | reads runs nothing waits empty open_ whole =>
      exact .inr (.inl ⟨whole, .inl ⟨open_, empty, nothing, _, runs⟩⟩)
    | floods holds full whole unshut silent => exact .inr (.inl ⟨whole, .inr ⟨full, silent⟩⟩)
    | stranded client => cases client

/-- Where nothing at all is possible at this end, the handler has returned. -/
theorem returned_of_disabled (sound : state.Sound)
    (disabled : ¬ Runs.Enabled (step buffer) Event.isOwn state) :
    state.relay.handler = .returned := by
  -- Unless it has fired, the watchdog could fire.
  have shut : state.relay.shut = true := by
    refine sound.guarded rfl ?_
    by_contra watches
    have watches : state.relay.watching = true := by simpa using watches
    exact disabled ⟨.own .timeout, _, rfl, step_own (if_pos watches)⟩
  have blocked := blocked_of_disabled fun ⟨event, after, own, stepped⟩ =>
    disabled ⟨event, after, own.1, stepped⟩
  cases blocked.rests sound with
  | returned done => exact done
  | reads runs nothing waits empty open_ whole unshut => simp [shut] at unshut
  | floods holds full whole unshut => simp [shut] at unshut
  | stranded client => cases client

/-- Where the handler has returned, nothing at all is possible at this end. -/
theorem disabled_of_returned (sound : state.Sound) (returned : state.relay.handler = .returned) :
    ¬ Runs.Enabled (step buffer) Event.isOwn state := by
  -- A step of the relay would come behind its handler's return.
  rintro ⟨event, after, own, stepped⟩
  cases event with
  | own action =>
    obtain ⟨⟨relay, arriving, departing⟩, moved, -⟩ := Option.map_eq_some_iff.mp stepped
    exact (Relay.advance_moves moved).unreturned sound returned
  | _ => cases own

/-- What is before this end: the calls of the child, and the rest. -/
def rank (state : Serving) : Process × Nat :=
  (state.relay.child,
    state.relay.cost 0 state.line.departing + 3 * state.line.arriving.left.length)

/-- The calls of the child count first, and then the rest. -/
def Lower : Process × Nat → Process × Nat → Prop := Prod.Lex Relay.Succeeds (· < ·)

/-- There is no descent without an end. -/
theorem lower_founded : WellFounded Lower := Relay.succeeds_founded.prod_lex Nat.lt_wfRel.wf

/-- A step at this end leads down. -/
theorem step_rank (own : event.isOwn) (stepped : step buffer state event = some after) :
    Lower after.rank state.rank := by
  -- Either the child has made a call, or there is less of the rest.
  cases event with
  | own action =>
    obtain ⟨⟨relay, arriving, departing⟩, moved, same⟩ := Option.map_eq_some_iff.mp stepped
    cases same
    rcases (Relay.advance_moves moved).cost 0 own with ⟨calls, -, -⟩ | ⟨child, less⟩
    · exact .left _ _ calls
    · rw [rank, rank, child]
      exact .right _ less
  | _ => cases own

/-- Any other step leaves what is before this end, unless something arrives. -/
theorem step_idle (other : ¬ event.isOwn) (silent : ∀ bytes, event ≠ .arrive bytes)
    (stepped : step buffer state event = some after) : after.rank = state.rank := by
  -- The peer takes from a channel that does not count, and the rest are flags.
  cases event with
  | own action =>
    obtain ⟨⟨relay, arriving, departing⟩, moved, same⟩ := Option.map_eq_some_iff.mp stepped
    cases same
    have idle : action.idle = true := by simpa [Event.isOwn] using other
    obtain ⟨child, arrives, -, cost⟩ := (Relay.advance_moves moved).idle_cost 0 idle
    simp only [rank, child, cost, arrives]
  | arrive bytes => exact absurd rfl (silent bytes)
  | hangUp => cases stepped; rfl
  | take count =>
    cases stepped
    simp [rank, Relay.cost]
  | reset => cases stepped; rfl

/-- Nothing arrives any more when the socket is shut down. -/
theorem step_shut (shut : state.relay.shut = true)
    (stepped : step buffer state event = some after) :
    after.relay.shut = true ∧ ∀ bytes, event ≠ .arrive bytes := by
  -- No step of the relay opens the socket again.
  cases event with
  | own action =>
    obtain ⟨⟨relay, arriving, departing⟩, moved, same⟩ := Option.map_eq_some_iff.mp stepped
    cases same
    exact ⟨(Relay.advance_moves moved).frame.2.2.2.2 shut, by simp⟩
  | arrive bytes => simp [step, shut] at stepped
  | hangUp => cases stepped; exact ⟨shut, by simp⟩
  | take count => cases stepped; exact ⟨shut, by simp⟩
  | reset => cases stepped; exact ⟨shut, by simp⟩

/-- At every moment of a run both pumps have done what copies do. -/
theorem run_sound (run : Runs.Run (step buffer)) (starts : run.states 0 = initial program)
    (moment : Nat) : (run.states moment).Sound := by
  refine run.keeps (fun _ _ _ sound stepped => step_sound sound stepped) ?_ (Nat.zero_le moment)
  rw [starts]
  exact initial_sound program

/-- When the socket is shut down at a moment, nothing arrives from then on. -/
theorem run_silent (run : Runs.Run (step buffer)) {start : Nat}
    (shut : (run.states start).relay.shut = true) {moment : Nat} (later : start ≤ moment)
    (bytes : Bytes) : run.events moment ≠ some (.arrive bytes) := by
  -- The socket stays shut down.
  intro happens
  have each : ∀ (before : Serving) (event : Event) (after : Serving),
      before.relay.shut = true → step buffer before event = some after →
      after.relay.shut = true := fun _ _ _ shut stepped => (step_shut shut stepped).1
  exact (step_shut (run.keeps each shut later) (run.stepped happens)).2 bytes rfl

/--
The handler of a connection returns, whatever the peer does.

In any run of its threads, its child and a peer, something is possible at once until the handler has
returned, unless the peer stalls: the child reads and nothing arrives, or it does not read and the
peer takes nothing. When the handler has returned, no thread is left that could do anything.
In a fair run the handler returns, if the peer sends finitely much or the socket is shut down at
some moment, as the watchdog does it when the time is up.
-/
theorem run_returns (run : Runs.Run (step buffer)) (starts : run.states 0 = initial program) :
    (∀ moment, (run.states moment).relay.handler = .returned ∨
      PeerStalls buffer (run.states moment) ∨
      Runs.Enabled (step buffer) Event.isPrompt (run.states moment)) ∧
    (∀ moment, (run.states moment).relay.handler = .returned →
      ¬ Runs.Enabled (step buffer) Event.isOwn (run.states moment)) ∧
    (run.Fair Event.isOwn →
      (∃ start, (run.states start).relay.shut = true ∨
        ∀ moment, start ≤ moment → ∀ bytes, run.events moment ≠ some (.arrive bytes)) →
      ∃ moment, (run.states moment).relay.handler = .returned) := by
  refine ⟨fun moment => returned_or_prompt (run_sound run starts moment), ?_, ?_⟩
  · exact fun moment returned => disabled_of_returned (run_sound run starts moment) returned
  · rintro fair ⟨start, quiet⟩
    have silent : ∀ moment, start ≤ moment → ∀ bytes, run.events moment ≠ some (.arrive bytes) :=
      quiet.elim (fun shut _ later => run_silent run shut later) id
    -- Where the run comes to rest, not even the watchdog has anything to do.
    obtain ⟨moment, -, disabled⟩ := run.rests fair lower_founded
      (fun _ _ _ own stepped => step_rank own stepped)
      (fun moment event later happens other => step_idle other
        (fun bytes same => silent moment later bytes (same ▸ happens)) (run.stepped happens))
    exact ⟨moment, returned_of_disabled (run_sound run starts moment) disabled⟩

end Liveness

/-- Channels of four bytes each. -/
def small : Buffer where
  fits held count := decide (held + count ≤ 4)
  empty := by decide
  single held count some fits := by
    have room : held + count ≤ 4 := of_decide_eq_true fits
    exact decide_eq_true (by omega)

/-- A child that answers with what it reads at once, behind a byte of its own. -/
def echo : Program :=
  .read fun bytes => .write 0x41 bytes (.exit (.code 0)) (.exit (.signal 13))

/-- Two bytes come and are handed on one by one, and the answer is sent before the end. -/
def echoed : List Event :=
  [.arrive [0x30, 0x31], .own (.inbound (.read 2)), .own (.inbound (.write 1)),
    .own (.inbound (.write 1)), .own (.inbound .interrupted), .own (.call 2), .own (.call 3),
    .own (.call 0), .own (.outbound (.read 3)), .own .handle, .own .handle,
    .own (.outbound (.write 3)), .own (.outbound .endOfFile), .own .handle,
    .own (.inbound .endOfFile), .own .handle, .own .standDown, .own .handle]

/-- Nothing is cut short, so the whole answer is sent. -/
theorem execute_handled_echo : ∃ state, execute small (initial echo) echoed = some state ∧
    state.line.departing.all = [0x41, 0x30, 0x31] ∧
    state.line.departing.all = state.relay.output.all ∧
    ∃ sock : Socket, ∃ child : Child, child.status = .code 0 ∧
      delivered sock.incoming = [0x30, 0x31] ∧
      state.relay.handled [] none state.line = some (receive [] sock (some child)) := by
  -- The run can be read off its events, and the theorem tells the rest of what is left.
  obtain ⟨state, ran, sent, arrived, ended, shut, returned⟩ : ∃ state,
      execute small (initial echo) echoed = some state ∧
      state.line.departing.all = [0x41, 0x30, 0x31] ∧
      state.line.arriving.taken = [0x30, 0x31] ∧ state.relay.child = .ended (.code 0) ∧
      state.relay.shut = true ∧ state.relay.handler = .returned :=
    ⟨_, rfl, rfl, rfl, rfl, rfl, rfl⟩
  obtain ⟨-, -, handled, whole⟩ := execute_handled ran
  obtain ⟨sock, child, status, -, -, incoming, -, same⟩ := handled returned [] none
  have uncut : ∀ action, .own action ∈ echoed → action.cuts = false := by
    simp [echoed, Relay.Action.cuts]
  refine ⟨state, ran, sent, ((whole uncut).1 shut).2, sock, child, ?_, ?_, same⟩
  · exact (Process.ended.inj (ended.symm.trans status)).symm
  · rw [incoming, arrived]

/-- The peer says nothing, until the time is up. -/
def silent : List Event :=
  [.own .timeout, .own (.inbound .endOfFile), .own (.call 0), .own (.call 1), .own (.call 0),
    .own (.outbound (.read 1)), .own (.outbound .breakOff), .own .handle, .own .handle,
    .own .handle, .own .handle, .own .handle]

/-- A peer that says nothing for ever does not keep the handler. -/
theorem run_returns_silent : ∃ run : Runs.Run (step small), run.states 0 = initial echo ∧
    PeerStalls small (run.states 0) ∧ ∃ moment, (run.states moment).relay.handler = .returned := by
  obtain ⟨last, ran, shut, returned⟩ : ∃ last,
      silent.foldlM (step small) (initial echo) = some last ∧ last.relay.shut = true ∧
      last.relay.handler = .returned := ⟨_, rfl, rfl, rfl⟩
  -- Nothing happens any more when the handler has returned.
  have fair := Runs.Run.ofExecution_fair ran
    (disabled_of_returned (execute_sound ran) returned)
  have last := Runs.Run.ofExecution_last ran le_rfl
  have stalls : PeerStalls small (initial echo) := ⟨rfl, .inl ⟨rfl, rfl, rfl, _, rfl⟩⟩
  refine ⟨.ofExecution ran, rfl, stalls, ?_⟩
  exact (run_returns (.ofExecution ran) rfl).2.2 fair ⟨_, .inl (last ▸ shut)⟩

end Serving

end GitFullSend

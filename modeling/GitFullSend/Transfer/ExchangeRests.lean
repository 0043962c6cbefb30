import GitFullSend.Transfer.Exchange

/-! A push comes to its end, or it stays in the one way there is to be stranded. -/

namespace GitFullSend

open Utf8 (Bytes)
open Channels (Channel)

namespace Exchange

variable {buffer : Buffer} {state after : Exchange} {event : Event}
  {pushing receiving : Program}

/-- A step at one of the ends, and not an interrupted call. -/
def Event.isOwn (event : Event) : Prop := ∃ action, event.action = some action ∧ action.idle = false

/-- A step at one of the ends that does not need the watchdog. -/
def Event.isPrompt (event : Event) : Prop := event.isOwn ∧ event ≠ .server .timeout

/-- Both handlers have returned. -/
def Returned (state : Exchange) : Prop :=
  state.client.handler = .returned ∧ state.server.handler = .returned

/-- The server is gone, and git writes to a full pair of sockets that nobody reads. -/
structure Stranded (buffer : Buffer) (state : Exchange) : Prop where
  gone : state.server.handler = .returned
  stopped : state.client.outbound.isOver = true
  writes : ∃ first more next broken, state.client.child = .running (.write first more next broken)
  full : buffer.fits state.client.output.left.length 1 = false

/-- Both children read, and each of them was given all that the other one has written. -/
structure BothRead (state : Exchange) : Prop where
  client : ∃ next, state.client.child = .running (.read next)
  server : ∃ next, state.server.child = .running (.read next)
  down : state.client.input.taken = state.server.output.all
  up : state.server.input.taken = state.client.output.all

/-- No child reads, and both ways are full. -/
structure BothFlood (buffer : Buffer) (state : Exchange) : Prop where
  client : ∀ next, state.client.child ≠ .running (.read next)
  server : ∀ next, state.server.child ≠ .running (.read next)
  up : buffer.fits state.up.left.length 1 = false
  down : buffer.fits state.down.left.length 1 = false

section Resting

/-- An empty channel takes a byte. -/
theorem not_full {channel : Channel UInt8} (nothing : channel.left = [])
    (full : buffer.fits channel.left.length 1 = false) : False := by
  rw [nothing, List.length_nil, buffer.empty] at full
  cases full

/-- A child that runs is behind a handler that has not returned. -/
theorem running_unreturned {side : Side} {relay : Relay} {read written : Bytes}
    (sound : relay.Sound side read written) {program : Program}
    (runs : relay.child = .running program) : relay.handler ≠ .returned := by
  rw [sound.draining runs]
  simp

/-- What an end that rests while its child reads has sent is all that the child has written. -/
theorem sent_all {side : Side} {relay : Relay} {line : Line} {read written : Bytes}
    (sound : relay.Sound side read written)
    (waits : Pump.Waits buffer (relay.outboundBetween side line) relay.outbound)
    (going : relay.outbound.isOver = false) (taken : line.departing.left = [])
    (unshut : relay.shut = false) : written = relay.output.all := by
  -- The pump reads, as there is room for a byte to be written.
  cases waits with
  | stopped done => simp [Pump.isOver, done] at going
  | source reading nothing =>
    have handed := sound.outbound
    rw [Pump.Sound, reading] at handed
    exact handed.1.trans (Channel.taken_all nothing)
  | sink holds full =>
    rcases full with closed | full
    · simp [Relay.outboundBetween, unshut] at closed
    · exact (not_full taken full).elim

/-- What an end that rests while its child reads was sent is all that the child has read. -/
theorem read_all {side : Side} {relay : Relay} {written : Bytes} {arriving : Channel UInt8}
    (sound : relay.Sound side arriving.taken written) (waits : relay.inbound.stage = .reading)
    (nothing : relay.input.left = []) (empty : arriving.left = []) :
    relay.input.taken = arriving.all := by
  have handed := sound.inbound
  rw [Pump.Sound, waits] at handed
  rw [Channel.taken_all nothing, handed.1, Channel.taken_all empty]

/-- Where both ends are blocked, the push rests in one of these ways. -/
theorem rests_of_blocked (sound : state.Sound)
    (client : state.client.Blocked .client buffer state.clientLine)
    (server : state.server.Blocked .server buffer state.serverLine) :
    state.Returned ∨ state.Stranded buffer ∨
      state.BothRead ∧ state.server.shut = false ∨
      state.BothFlood buffer ∧ state.server.shut = false := by
  -- An end that reads rests only when the other one reads, too.
  cases client.rests sound.client with
  | returned gone =>
    have shut : state.client.shut = true :=
      (sound.client.joined (by simp [gone, Relay.Stage.cost])).2
    cases server.rests sound.server with
    | returned done => exact .inl ⟨gone, done⟩
    | reads runs nothing waits empty open_ => simp [serverLine, Relay.finished, shut] at open_
    | floods holds full whole =>
      have left : state.down.left = [] := by simp_all [serverLine]
      exact (not_full left full).elim
    | stranded other => cases other
  | reads runs nothing waits empty open_ whole unshut outbound =>
    cases server.rests sound.server with
    | returned gone =>
      have shut : state.server.shut = true :=
        (sound.server.joined (by simp [gone, Relay.Stage.cost])).2
      simp [clientLine, Relay.finished, shut] at open_
    | reads runs' nothing' waits' empty' open' whole' unshut' outbound' =>
      have reset : state.reset = false := ((Bool.or_eq_false_iff ..).mp whole).1
      have fromClient : state.client.outbound.isOver = false := by
        simpa [serverLine, Relay.finished, unshut] using open'
      have fromServer : state.server.outbound.isOver = false := by
        by_contra stopped
        rcases sound.fromServer (by simpa using stopped) with ended | shut | reset' | gone
        · simp [runs', Process.isEnded] at ended
        · simp [unshut'] at shut
        · simp [reset] at reset'
        · exact running_unreturned sound.client runs gone
      refine .inr (.inr (.inl ⟨⟨⟨_, runs⟩, ⟨_, runs'⟩, ?_, ?_⟩, unshut'⟩))
      · rw [read_all sound.client waits nothing empty]
        exact sent_all sound.server outbound' fromServer empty unshut'
      · rw [read_all sound.server waits' nothing' empty']
        exact sent_all sound.client outbound fromClient empty' unshut
    | floods holds full => exact (not_full empty full).elim
    | stranded other => cases other
  | floods holds full whole unshut silent =>
    cases server.rests sound.server with
    | returned gone =>
      have left : state.up.left = [] := by simp_all [clientLine]
      exact (not_full left full).elim
    | reads runs nothing waits empty => exact (not_full empty full).elim
    | floods holds' full' whole' unshut' silent' =>
      exact .inr (.inr (.inr ⟨⟨silent, silent', full, full'⟩, unshut'⟩))
    | stranded other => cases other
  | stranded other stopped runs full =>
    cases server.rests sound.server with
    | returned gone => exact .inr (.inl ⟨gone, stopped, ⟨_, _, _, _, runs⟩, full⟩)
    | reads runs' nothing waits empty open_ => simp [serverLine, Relay.finished, stopped] at open_
    | floods holds full' whole unshut =>
      -- The way up was lost, but the connection is whole and the server is there.
      rcases sound.fromClient stopped with ended | shut | reset | gone
      · simp [runs, Process.isEnded] at ended
      · have late := sound.client.unshut rfl shut
        simp [sound.client.draining runs, Relay.Stage.cost] at late
      · simp [serverLine, reset] at whole
      · have done := (sound.server.joined (by simp [gone, Relay.Stage.cost])).2
        simp [unshut] at done
    | stranded other => cases other

/-- A step of the client is one of the push. -/
theorem step_client {action : Relay.Action} {relay : Relay} {arriving departing : Channel UInt8}
    (moved : Relay.advance .client buffer state.clientLine state.client action =
      some (relay, arriving, departing)) :
    step buffer state (.client action) =
      some { state with client := relay, down := arriving, up := departing } := by
  rw [step, moved, Option.map_some]

/-- A step of the server is one of the push. -/
theorem step_server {action : Relay.Action} {relay : Relay} {arriving departing : Channel UInt8}
    (moved : Relay.advance .server buffer state.serverLine state.server action =
      some (relay, arriving, departing)) :
    step buffer state (.server action) =
      some { state with server := relay, up := arriving, down := departing } := by
  rw [step, moved, Option.map_some]

/-- Where nothing is possible at once, both ends are blocked, and the push rests. -/
theorem rests_of_disabled (sound : state.Sound)
    (disabled : ¬ Runs.Enabled (step buffer) Event.isPrompt state) :
    state.Returned ∨ state.Stranded buffer ∨
      state.BothRead ∧ state.server.shut = false ∨
      state.BothFlood buffer ∧ state.server.shut = false := by
  -- A step of an end would be one of the push.
  refine rests_of_blocked sound (fun action progress prompt => ?_) fun action progress prompt => ?_
  · by_contra able
    obtain ⟨⟨relay, arriving, departing⟩, moved⟩ := Option.ne_none_iff_exists'.mp able
    exact disabled ⟨.client action, _, ⟨⟨action, rfl, progress⟩, by simp⟩, step_client moved⟩
  · by_contra able
    obtain ⟨⟨relay, arriving, departing⟩, moved⟩ := Option.ne_none_iff_exists'.mp able
    exact disabled ⟨.server action, _,
      ⟨⟨action, rfl, progress⟩, fun same => prompt (Event.server.inj same)⟩, step_server moved⟩

/-- Where nothing at all is possible, both handlers have returned, or git is stranded. -/
theorem ended_of_disabled (sound : state.Sound)
    (disabled : ¬ Runs.Enabled (step buffer) Event.isOwn state) :
    state.Returned ∨ state.Stranded buffer := by
  -- Unless it has fired, the watchdog could fire.
  have shut : state.server.shut = true := by
    refine sound.server.guarded rfl ?_
    by_contra watches
    have watches : state.server.watching = true := by simpa using watches
    exact disabled ⟨.server .timeout, _, ⟨_, rfl, rfl⟩, step_server (if_pos watches)⟩
  have prompt : ¬ Runs.Enabled (step buffer) Event.isPrompt state :=
    fun ⟨event, after, own, stepped⟩ => disabled ⟨event, after, own.1, stepped⟩
  rcases rests_of_disabled sound prompt with returned | stranded | ⟨-, unshut⟩ | ⟨-, unshut⟩
  · exact .inl returned
  · exact .inr stranded
  · simp [shut] at unshut
  · simp [shut] at unshut

end Resting

section Descent

/-- What is before a push: the calls of both children, and the rest. -/
def rank (state : Exchange) : Process × Process × Nat :=
  (state.client.child, state.server.child,
    state.client.cost 3 state.up + state.server.cost 3 state.down)

/-- The calls of the children count first, and then the rest. -/
def Lower : Process × Process × Nat → Process × Process × Nat → Prop :=
  Prod.Lex Relay.Succeeds (Prod.Lex Relay.Succeeds (· < ·))

/-- There is no descent without an end. -/
theorem lower_founded : WellFounded Lower :=
  Relay.succeeds_founded.prod_lex (Relay.succeeds_founded.prod_lex Nat.lt_wfRel.wf)

/-- A step at one of the ends leads down. -/
theorem step_rank (own : event.isOwn) (stepped : step buffer state event = some after) :
    Lower after.rank state.rank := by
  -- What one end sends counts less there than it does where it comes from.
  obtain ⟨action, acts, progress⟩ := own
  cases step_moves stepped with
  | @client action' relay arriving departing moved =>
    obtain rfl : action' = action := Option.some.inj acts
    rcases moved.cost 3 progress with ⟨calls, -, -⟩ | ⟨child, less⟩
    · exact .left _ _ calls
    · simp only [rank, child]
      refine .right _ (.right _ ?_)
      simp only [clientLine, Relay.cost] at less ⊢
      omega
  | @server action' relay arriving departing moved =>
    obtain rfl : action' = action := Option.some.inj acts
    rcases moved.cost 3 progress with ⟨calls, -, -⟩ | ⟨child, less⟩
    · exact .right _ (.left _ _ calls)
    · simp only [rank, child]
      refine .right _ (.right _ ?_)
      simp only [serverLine, Relay.cost] at less ⊢
      omega
  | reset => cases acts

/-- Any other step leaves what is before a push. -/
theorem step_idle (other : ¬ event.isOwn) (stepped : step buffer state event = some after) :
    after.rank = state.rank := by
  -- The call is interrupted, or the connection is reset.
  cases step_moves stepped with
  | @client action relay arriving departing moved =>
    have idle : action.idle = true := by simpa [Event.isOwn, Event.action] using other
    obtain ⟨child, rfl, rfl, cost⟩ := moved.idle_cost 3 idle
    simp only [clientLine] at cost ⊢
    simp only [rank, child, cost]
  | @server action relay arriving departing moved =>
    have idle : action.idle = true := by simpa [Event.isOwn, Event.action] using other
    obtain ⟨child, rfl, rfl, cost⟩ := moved.idle_cost 3 idle
    simp only [serverLine] at cost ⊢
    simp only [rank, child, cost]
  | reset => rfl

end Descent

section Stranding

/-- A write for which there is no room is not made. -/
theorem call_full {relay : Relay} {count : Nat} {first : UInt8} {more : Bytes}
    {next broken : Program} (runs : relay.child = .running (.write first more next broken))
    (full : buffer.fits relay.output.left.length 1 = false) {side : Side} :
    relay.call side buffer count = none := by
  -- Room for some bytes would be room for one.
  rw [Relay.call, runs]
  refine if_neg fun able => ?_
  rw [buffer.single _ _ able.1 able.2.2.2] at full
  cases full

/-- Beside a child that cannot write, the client can only read to the end of what there is. -/
theorem stranded_moves {relay after : Relay} {line : Line} {action : Relay.Action}
    {arriving departing : Channel UInt8} {read written : Bytes} {first : UInt8} {more : Bytes}
    {next broken : Program} (sound : relay.Sound .client read written)
    (stopped : relay.outbound.isOver = true)
    (runs : relay.child = .running (.write first more next broken))
    (full : buffer.fits relay.output.left.length 1 = false)
    (moved : Relay.advance .client buffer line relay action = some (after, arriving, departing)) :
    after.outbound = relay.outbound ∧ after.child = relay.child ∧ after.output = relay.output := by
  -- The child cannot write, and the handler waits for its end.
  cases action with
  | call count => simp [Relay.advance, call_full runs full] at moved
  | refuse => simp [Relay.advance, runs, Relay.refuses] at moved
  | outbound action =>
    cases Relay.advance_moves moved with
    | outbound moved => simp [moved.going] at stopped
  | handle =>
    simp [Relay.advance, Relay.handle, sound.draining runs, runs, Process.isEnded] at moved
  | inbound action =>
    cases Relay.advance_moves moved with
    | inbound moved => exact ⟨rfl, rfl, rfl⟩
  | drain count =>
    cases Relay.advance_moves moved with
    | drains => exact ⟨rfl, rfl, rfl⟩
  | timeout =>
    cases Relay.advance_moves moved with
    | timeout => exact ⟨rfl, rfl, rfl⟩
  | standDown =>
    cases Relay.advance_moves moved with
    | standsDown => exact ⟨rfl, rfl, rfl⟩

/-- What is stranded stays so. -/
theorem step_stranded (sound : state.Sound) (stranded : state.Stranded buffer)
    (stepped : step buffer state event = some after) : after.Stranded buffer := by
  -- The server is gone, so only the client takes a step.
  obtain ⟨gone, stopped, ⟨first, more, next, broken, runs⟩, full⟩ := stranded
  cases event with
  | client action =>
    obtain ⟨⟨relay, arriving, departing⟩, moved, same⟩ := Option.map_eq_some_iff.mp stepped
    cases same
    obtain ⟨outbound, child, output⟩ := stranded_moves sound.client stopped runs full moved
    exact ⟨gone, outbound ▸ stopped, ⟨first, more, next, broken, child.trans runs⟩, output ▸ full⟩
  | server action =>
    obtain ⟨⟨relay, arriving, departing⟩, moved, -⟩ := Option.map_eq_some_iff.mp stepped
    exact absurd gone ((Relay.advance_moves moved).unreturned sound.server)
  | reset =>
    cases stepped
    exact ⟨gone, stopped, ⟨first, more, next, broken, runs⟩, full⟩

end Stranding

/-- At every moment of a run both ends are sound. -/
theorem run_sound (run : Runs.Run (step buffer))
    (starts : run.states 0 = initial pushing receiving) (moment : Nat) :
    (run.states moment).Sound := by
  -- They are in the beginning, and every step keeps that.
  refine run.keeps (fun _ _ _ sound stepped => (step_moves stepped).sound sound) ?_
    (Nat.zero_le moment)
  rw [starts]
  exact initial_sound pushing receiving

/--
A push comes to its end in every fair run, or git is stranded.

The run has the steps of both children, of all four pumps, of both handlers and of the watchdog in
any order. Something is possible at once until both handlers have returned, unless git is stranded,
both children read with nothing on the way, or neither of them reads and both ways are full; from
the last two the watchdog leads on.
Git is stranded when the server is gone while it writes: the pump that would read has ended, and
the client holds its socket of the pair. The client then never returns.
-/
theorem run_ends (run : Runs.Run (step buffer))
    (starts : run.states 0 = initial pushing receiving) :
    (run.Fair Event.isOwn → ∃ moment,
      (run.states moment).Returned ∨ (run.states moment).Stranded buffer) ∧
    (∀ moment, (run.states moment).Returned ∨ (run.states moment).Stranded buffer ∨
      (run.states moment).BothRead ∨ (run.states moment).BothFlood buffer ∨
      Runs.Enabled (step buffer) Event.isPrompt (run.states moment)) ∧
    ∀ moment later, moment ≤ later → (run.states moment).Stranded buffer →
      (run.states later).client.handler ≠ .returned := by
  -- The parts are the rest a fair run comes to, what else can rest, and that stranding is for ever.
  refine ⟨fun fair => ?_, fun moment => ?_, fun moment later order stranded => ?_⟩
  · obtain ⟨moment, -, disabled⟩ := run.rests fair lower_founded
      (fun _ _ _ own stepped => step_rank own stepped)
      (fun _ _ (_ : 0 ≤ _) happens other => step_idle other (run.stepped happens))
    exact ⟨moment, ended_of_disabled (run_sound run starts moment) disabled⟩
  · by_cases enabled : Runs.Enabled (step buffer) Event.isPrompt (run.states moment)
    · exact .inr (.inr (.inr (.inr enabled)))
    · rcases rests_of_disabled (run_sound run starts moment) enabled with
        returned | stranded | ⟨reads, -⟩ | ⟨flood, -⟩
      · exact .inl returned
      · exact .inr (.inl stranded)
      · exact .inr (.inr (.inl reads))
      · exact .inr (.inr (.inr (.inl flood)))
  · -- Both facts are kept together.
    have each : ∀ (before : Exchange) (event : Event) (after : Exchange),
        before.Sound ∧ before.Stranded buffer → step buffer before event = some after →
        after.Sound ∧ after.Stranded buffer := fun _ _ _ held stepped =>
      ⟨(step_moves stepped).sound held.1, step_stranded held.1 held.2 stepped⟩
    obtain ⟨sound, still⟩ := run.keeps each ⟨run_sound run starts moment, stranded⟩ order
    obtain ⟨first, more, next, broken, runs⟩ := still.writes
    exact running_unreturned sound.client runs

/-- Where both handlers have returned, nothing is possible any more. -/
theorem disabled_of_returned (sound : state.Sound) (returned : state.Returned) :
    ¬ Runs.Enabled (step buffer) Event.isOwn state := by
  -- A handler that has returned leaves no step to its end.
  rintro ⟨event, after, ⟨action, acts, -⟩, stepped⟩
  cases step_moves stepped with
  | client moved => exact moved.unreturned sound.client returned.1
  | server moved => exact moved.unreturned sound.server returned.2
  | reset => cases acts

/-- A child that writes twenty bytes. -/
def pouring : Program := .write 0x50 (List.replicate 19 0x41) (.exit (.code 0)) (.exit (.signal 13))

/-- The server ends at once, and the client finds that out within its third chunk. -/
def poured : List Event :=
  [.server (.call 0), .server (.outbound .endOfFile), .server .handle, .server .handle,
    .server .handle, .server (.inbound .endOfFile), .server .handle, .server .standDown,
    .server .handle, .client (.call 4), .client (.outbound (.read 4)),
    .client (.outbound (.write 4)), .client (.call 4), .client (.outbound (.read 4)),
    .client (.outbound .breakOff), .client (.call 4)]

/-- A conversation comes to its end, and a client whose server is gone does not. -/
theorem run_ends_conversed :
    (∃ run : Runs.Run (step Serving.small), run.states 0 = initial asking answering ∧
      ∃ moment, (run.states moment).Returned ∨ (run.states moment).Stranded Serving.small) ∧
    ∃ run : Runs.Run (step Serving.small),
      run.states 0 = initial pouring (.exit (.code 1)) ∧
      ∃ moment, (run.states moment).Stranded Serving.small ∧
        ∀ later, moment ≤ later → (run.states later).client.handler ≠ .returned := by
  -- Both runs have finitely many events, and stay where these lead.
  obtain ⟨talked, ran, returned⟩ : ∃ last,
      conversed.foldlM (step Serving.small) (initial asking answering) = some last ∧
      last.Returned := ⟨_, rfl, rfl, rfl⟩
  obtain ⟨left, broke, stranded⟩ : ∃ last,
      poured.foldlM (step Serving.small) (initial pouring (.exit (.code 1))) = some last ∧
      last.Stranded Serving.small := ⟨_, rfl, ⟨rfl, rfl, ⟨_, _, _, _, rfl⟩, rfl⟩⟩
  refine ⟨⟨.ofExecution ran, rfl, ?_⟩, .ofExecution broke, rfl, poured.length, ?_⟩
  · exact (run_ends (.ofExecution ran) rfl).1
      (Runs.Run.ofExecution_fair ran (disabled_of_returned (execute_sound ran) returned))
  · have there := Runs.Run.ofExecution_last broke le_rfl ▸ stranded
    exact ⟨there, fun later order => (run_ends (.ofExecution broke) rfl).2.2 _ later order there⟩

end Exchange

end GitFullSend

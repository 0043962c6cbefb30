import GitFullSend.Common.Relay

/-! What holds at an end of a connection at any moment. -/

namespace GitFullSend

open Utf8 (Bytes)
open Channels (Channel)

/-- A pump that takes a step is not over yet. -/
theorem Pump.Moves.going {between : Pump.Between} {pump after : Pump} {action : Pump.Action}
    {source sink : Channel UInt8} (moved : Pump.Moves between pump action after source sink) :
    pump.isOver = false := by
  cases moved <;> simp_all [Pump.isOver]

/-- A pump that is over has come to that stage. -/
theorem Pump.isOver_iff {pump : Pump} : pump.isOver = true ↔ pump.stage = .stopped := by
  cases stage : pump.stage <;> simp [Pump.isOver, stage]

namespace Relay

/-- The steps that a handler has before it. -/
def Stage.cost : Stage → Nat
  | draining => 5
  | waiting => 4
  | joiningOutbound => 3
  | joiningInbound => 2
  | joiningWatchdog => 1
  | returned => 0

/--
The pumps have done what copies do, and the handler is behind what it has waited for.

The bytes are those read from the connection and those written to it.
-/
structure Sound (side : Side) (relay : Relay) (read written : Bytes) : Prop where
  inbound : relay.inbound.Sound read relay.input.all
  outbound : relay.outbound.Sound relay.output.taken written
  ended : relay.handler.cost ≤ 4 → relay.child.isEnded = true ∧ relay.stderr.left = []
  joined : relay.handler.cost ≤ 2 → relay.outbound.isOver = true ∧ relay.shut = true
  stopped : relay.handler.cost ≤ 1 → relay.inbound.isOver = true
  alone : relay.handler = .returned → relay.watching = false
  unwatched : side = .client → relay.watching = false
  guarded : side = .server → relay.watching = false → relay.shut = true
  unshut : side = .client → relay.shut = true → relay.handler.cost ≤ 2

/-- A child that was just spawned. -/
theorem start_sound (side : Side) (program : Program) : (start side program).Sound side [] [] where
  inbound := Pump.start_sound
  outbound := Pump.start_sound
  ended early := by simp [start, Stage.cost] at early
  joined early := by simp [start, Stage.cost] at early
  stopped early := by simp [start, Stage.cost] at early
  alone returned := by simp [start] at returned
  unwatched client := by simp [start, client]
  guarded server := by simp [start, server]
  unshut _ shut := by simp [start] at shut

section Steps

variable {side : Side} {line : Line} {relay after : Relay} {action : Action}
  {arriving departing : Channel UInt8}

/-- While the child runs, the handler reads its standard error. -/
theorem Sound.draining {read written : Bytes} (sound : relay.Sound side read written)
    {program : Program} (runs : relay.child = .running program) : relay.handler = .draining := by
  -- At any other stage the child has ended.
  by_contra other
  have early : relay.handler.cost ≤ 4 := by
    cases stage : relay.handler <;> simp_all [Stage.cost]
  have ended := (sound.ended early).1
  simp [runs, Process.isEnded] at ended

/-- A step of the child leaves the handler where it is, and everything else to the pumps. -/
theorem Sound.called {read written : Bytes} (sound : relay.Sound side read written)
    {program : Program} (runs : relay.child = .running program)
    (stage : after.handler = relay.handler) (watching : after.watching = relay.watching)
    (inbound : after.inbound = relay.inbound) (outbound : after.outbound = relay.outbound)
    (shut : after.shut = relay.shut) (input : after.input.all = relay.input.all)
    (output : after.output.taken = relay.output.taken) : after.Sound side read written := by
  -- The handler is at its first stage, of which nothing is said.
  have early : after.handler.cost = 5 := by rw [stage, sound.draining runs, Stage.cost]
  refine ⟨?_, ?_, fun late => by omega, fun late => by omega, fun late => by omega, ?_, ?_, ?_, ?_⟩
  · rw [inbound, input]
    exact sound.inbound
  · rw [outbound, output]
    exact sound.outbound
  · intro returned
    rw [returned, Stage.cost] at early
    omega
  · rw [watching]
    exact sound.unwatched
  · rw [watching, shut]
    exact sound.guarded
  · rw [stage, shut]
    exact sound.unshut

/-- Every step keeps that. -/
theorem Moves.sound (moved : Moves side line relay action after arriving departing)
    (sound : relay.Sound side line.arriving.taken line.departing.all) :
    after.Sound side arriving.taken departing.all := by
  -- The cases are the steps; the pumps have a lemma of their own.
  cases moved with
  | inbound moved =>
    exact { sound with
      inbound := moved.sound sound.inbound
      stopped := fun late => absurd (sound.stopped late) (by simp [moved.going]) }
  | outbound moved =>
    exact { sound with
      outbound := moved.sound sound.outbound
      joined := fun late => absurd (sound.joined late).1 (by simp [moved.going]) }
  | exits runs => exact sound.called runs rfl rfl rfl rfl rfl rfl rfl
  | reads runs => exact sound.called runs rfl rfl rfl rfl rfl (Channel.take_all ..) rfl
  | writes runs => exact sound.called runs rfl rfl rfl rfl rfl rfl rfl
  | logs runs => exact sound.called runs rfl rfl rfl rfl rfl rfl rfl
  | refused runs => exact sound.called runs rfl rfl rfl rfl rfl rfl rfl
  | drains reading =>
    have early : relay.handler.cost = 5 := by rw [reading, Stage.cost]
    exact { sound with ended := fun late => absurd late (by simp [early]) }
  | drained reading nothing ended =>
    exact { sound with
      ended := fun _ => ⟨ended, nothing⟩
      joined := fun late => absurd late (by simp [Stage.cost])
      stopped := fun late => absurd late (by simp [Stage.cost])
      alone := fun returned => by cases returned
      unshut := fun client shut =>
        absurd (sound.unshut client shut) (by simp [reading, Stage.cost]) }
  | waited waits ended =>
    have late : relay.handler.cost ≤ 4 := by simp [waits, Stage.cost]
    exact { sound with
      ended := fun _ => sound.ended late
      joined := fun late => absurd late (by simp [Stage.cost])
      stopped := fun late => absurd late (by simp [Stage.cost])
      alone := fun returned => by cases returned
      unshut := fun client shut => absurd (sound.unshut client shut) (by simp [waits, Stage.cost]) }
  | joinsOutbound waits stopped =>
    have late : relay.handler.cost ≤ 4 := by simp [waits, Stage.cost]
    exact { sound with
      ended := fun _ => sound.ended late
      joined := fun _ => ⟨stopped, rfl⟩
      stopped := fun late => absurd late (by simp [Stage.cost])
      alone := fun returned => by cases returned
      guarded := fun _ _ => rfl
      unshut := fun _ _ => le_rfl }
  | joinsInbound waits stopped =>
    have late : relay.handler.cost ≤ 2 := by simp [waits, Stage.cost]
    exact { sound with
      ended := fun _ => sound.ended (by omega)
      joined := fun _ => sound.joined late
      stopped := fun _ => stopped
      alone := fun returned => by
        cases side with
        | client => exact sound.unwatched rfl
        | server => cases returned
      unshut := fun client _ => by simp [client, Stage.cost] }
  | returns waits alone =>
    have late : relay.handler.cost ≤ 1 := by simp [waits, Stage.cost]
    exact { sound with
      ended := fun _ => sound.ended (by omega)
      joined := fun _ => sound.joined (by omega)
      stopped := fun _ => sound.stopped late
      alone := fun _ => alone
      unshut := fun _ _ => Nat.zero_le _ }
  | timeout watches =>
    exact { sound with
      joined := fun late => ⟨(sound.joined late).1, rfl⟩
      alone := fun _ => rfl
      unwatched := fun _ => rfl
      guarded := fun _ _ => rfl
      unshut := fun client => absurd (sound.unwatched client) (by simp [watches]) }
  | standsDown watches waits =>
    exact { sound with
      alone := fun _ => rfl
      unwatched := fun _ => rfl
      guarded := fun _ _ => (sound.joined (by simp [waits, Stage.cost])).2 }

end Steps

/-- A handler that has returned leaves nothing behind that could take a step. -/
theorem Moves.unreturned {side : Side} {line : Line} {relay after : Relay} {action : Action}
    {arriving departing : Channel UInt8} {read written : Bytes}
    (moved : Moves side line relay action after arriving departing)
    (sound : relay.Sound side read written) : relay.handler ≠ .returned := by
  -- Its child has ended, both pumps are over, and so is the watchdog.
  intro returned
  have early : relay.handler.cost = 0 := by rw [returned, Stage.cost]
  obtain ⟨ended, -⟩ := sound.ended (by omega)
  have alone := sound.alone returned
  cases moved with
  | inbound moved => exact absurd (sound.stopped (by omega)) (by simp [moved.going])
  | outbound moved => exact absurd (sound.joined (by omega)).1 (by simp [moved.going])
  | exits runs => simp [runs, Process.isEnded] at ended
  | reads runs => simp [runs, Process.isEnded] at ended
  | writes runs => simp [runs, Process.isEnded] at ended
  | logs runs => simp [runs, Process.isEnded] at ended
  | refused runs => simp [runs, Process.isEnded] at ended
  | drains reading => simp [reading] at returned
  | drained reading => simp [reading] at returned
  | waited waits => simp [waits] at returned
  | joinsOutbound waits => simp [waits] at returned
  | joinsInbound waits => simp [waits] at returned
  | returns waits => simp [waits] at returned
  | timeout watches => simp [watches] at alone
  | standsDown watches => simp [watches] at alone

/--
What a step does to the connection.

It puts nothing into what arrives, and takes nothing from what departs, to which it adds nothing
once the outbound pump is over. What is told to the peer stays so.
-/
theorem Moves.frame {side : Side} {line : Line} {relay after : Relay} {action : Action}
    {arriving departing : Channel UInt8}
    (moved : Moves side line relay action after arriving departing) :
    arriving.all = line.arriving.all ∧ departing.taken = line.departing.taken ∧
      (∃ more, departing.all = line.departing.all ++ more) ∧
      (relay.outbound.isOver = true → departing = line.departing ∧ after.outbound.isOver = true) ∧
      (relay.shut = true → after.shut = true) := by
  -- The child and the handler leave the connection to the pumps.
  have same : ∃ more, line.departing.all = line.departing.all ++ more :=
    ⟨[], (List.append_nil _).symm⟩
  cases moved with
  | inbound moved =>
    exact ⟨moved.frame.1, rfl, same, fun stopped => ⟨rfl, stopped⟩, id⟩
  | outbound moved =>
    obtain ⟨-, taken, more⟩ := moved.frame
    exact ⟨rfl, taken, more, fun stopped => absurd stopped (by simp [moved.going]), id⟩
  | joinsOutbound => exact ⟨rfl, rfl, same, fun stopped => ⟨rfl, stopped⟩, fun _ => rfl⟩
  | timeout => exact ⟨rfl, rfl, same, fun stopped => ⟨rfl, stopped⟩, fun _ => rfl⟩
  | _ => exact ⟨rfl, rfl, same, fun stopped => ⟨rfl, stopped⟩, id⟩

/-- A step by which a connection is cut short at an end. -/
def Action.cuts : Action → Bool
  | .timeout => true
  | .inbound .fail => true
  | .outbound .breakOff => true
  | _ => false

/--
Nothing was cut short at an end yet.

All that the child has written is in the connection when the peer is told so, and the child comes to
the end of its input when it was given all that has arrived.
-/
structure Whole (relay : Relay) (hungUp : Bool) (arrived departed : Bytes) : Prop where
  shut : relay.shut = true → relay.outbound.isOver = true
  outbound : relay.outbound.isOver = true →
    relay.child.isEnded = true ∧ departed = relay.output.all
  inbound : relay.inbound.isOver = true →
    relay.child.isEnded = true ∨ hungUp = true ∧ relay.input.all = arrived

/-- Nothing is cut short in the beginning. -/
theorem start_whole (side : Side) (program : Program) :
    (start side program).Whole false [] [] where
  shut shut := by simp [start] at shut
  outbound stopped := by simp [start, Pump.isOver, Pump.start] at stopped
  inbound stopped := by simp [start, Pump.isOver, Pump.start] at stopped

section Steps

variable {side : Side} {line : Line} {relay after : Relay} {action : Action}
  {arriving departing : Channel UInt8}

/-- A child that runs has both pumps before it, but for the end of what arrives. -/
theorem Whole.called {hungUp : Bool} {arrived departed : Bytes}
    (whole : relay.Whole hungUp arrived departed) {program : Program}
    (runs : relay.child = .running program) (shut : after.shut = relay.shut)
    (inbound : after.inbound = relay.inbound) (outbound : after.outbound = relay.outbound)
    (input : after.input.all = relay.input.all) : after.Whole hungUp arrived departed := by
  -- The outbound pump is not over, because the child has not ended.
  have running : relay.child.isEnded = false := by rw [runs, Process.isEnded]
  have going : relay.outbound.isOver ≠ true := fun stopped =>
    absurd (whole.outbound stopped).1 (by simp [running])
  refine ⟨fun shut' => ?_, fun stopped => ?_, fun stopped => .inr ?_⟩
  · rw [shut] at shut'
    exact absurd (whole.shut shut') going
  · rw [outbound] at stopped
    exact absurd stopped going
  · rw [inbound] at stopped
    rw [input]
    exact (whole.inbound stopped).resolve_left (by simp [running])

/-- A step of the inbound pump ends it only where it has handed on all that arrives. -/
theorem Whole.inbound_moved {pumping : Pump.Action} {pump : Pump} {source sink : Channel UInt8}
    (whole : relay.Whole line.hungUp line.arriving.all line.departing.all)
    (sound : relay.Sound side line.arriving.taken line.departing.all)
    (moved : Pump.Moves (relay.inboundBetween line) relay.inbound pumping pump source sink)
    (uncut : pumping ≠ .fail) :
    ({ relay with inbound := pump, input := sink } : Relay).Whole line.hungUp source.all
      line.departing.all := by
  -- Any other step leaves the pump on its way.
  refine ⟨whole.shut, whole.outbound, fun stopped => ?_⟩
  cases moved with
  | reads => simp [Pump.isOver] at stopped
  | interrupted waits => simp [Pump.isOver, waits] at stopped
  | ends waits nothing ended =>
    rcases (Bool.or_eq_true ..).mp ended with hungUp | shut
    · refine .inr ⟨hungUp, ?_⟩
      have handed := sound.inbound
      rw [Pump.Sound, waits] at handed
      exact handed.1.trans (Channel.taken_all nothing)
    · exact .inl (whole.outbound (whole.shut shut)).1
  | fails => exact absurd rfl uncut
  | writesOn => simp [Pump.isOver] at stopped
  | writesOut => simp [Pump.isOver] at stopped
  | breaks holds broken => exact .inl broken

/-- A step of the outbound pump ends it only where it has handed on all of the child. -/
theorem Whole.outbound_moved {pumping : Pump.Action} {pump : Pump} {source sink : Channel UInt8}
    (whole : relay.Whole line.hungUp line.arriving.all line.departing.all)
    (sound : relay.Sound side line.arriving.taken line.departing.all)
    (moved : Pump.Moves (relay.outboundBetween side line) relay.outbound pumping pump source sink)
    (uncut : pumping ≠ .breakOff) :
    ({ relay with outbound := pump, output := source } : Relay).Whole line.hungUp
      line.arriving.all sink.all := by
  -- The socket is open before that, so all that is left is what the pump itself has to do.
  have open_ : relay.shut ≠ true := fun shut => absurd (whole.shut shut) (by simp [moved.going])
  refine ⟨fun shut => absurd shut open_, fun stopped => ?_, whole.inbound⟩
  have read : relay.outbound.stage = .reading → relay.output.left = [] →
      line.departing.all = relay.output.all := fun waits nothing => by
    have handed := sound.outbound
    rw [Pump.Sound, waits] at handed
    exact handed.1.trans (Channel.taken_all nothing)
  cases moved with
  | reads => simp [Pump.isOver] at stopped
  | interrupted waits => simp [Pump.isOver, waits] at stopped
  | ends waits nothing ended => exact ⟨ended, read waits nothing⟩
  | fails waits failing =>
    obtain ⟨-, ended, nothing⟩ := of_decide_eq_true failing
    exact ⟨ended, read waits nothing⟩
  | writesOn => simp [Pump.isOver] at stopped
  | writesOut => simp [Pump.isOver] at stopped
  | breaks => exact absurd rfl uncut

/-- A step that cuts nothing short keeps that. -/
theorem Moves.whole (moved : Moves side line relay action after arriving departing)
    (sound : relay.Sound side line.arriving.taken line.departing.all)
    (whole : relay.Whole line.hungUp line.arriving.all line.departing.all)
    (uncut : action.cuts = false) : after.Whole line.hungUp arriving.all departing.all := by
  -- The cases are the steps; the socket is shut down only when the outbound pump is over.
  cases moved with
  | inbound moved =>
    exact whole.inbound_moved sound moved fun failed => by simp [failed, Action.cuts] at uncut
  | outbound moved =>
    exact whole.outbound_moved sound moved fun broken => by simp [broken, Action.cuts] at uncut
  | exits runs =>
    refine ⟨whole.shut, fun stopped => ⟨rfl, ?_⟩, fun _ => .inl rfl⟩
    exact (whole.outbound stopped).2
  | reads runs => exact whole.called runs rfl rfl rfl (Channel.take_all ..)
  | writes runs => exact whole.called runs rfl rfl rfl rfl
  | logs runs => exact whole.called runs rfl rfl rfl rfl
  | refused runs => exact whole.called runs rfl rfl rfl rfl
  | drains => exact ⟨whole.shut, whole.outbound, whole.inbound⟩
  | drained => exact ⟨whole.shut, whole.outbound, whole.inbound⟩
  | waited => exact ⟨whole.shut, whole.outbound, whole.inbound⟩
  | joinsOutbound waits stopped => exact ⟨fun _ => stopped, whole.outbound, whole.inbound⟩
  | joinsInbound => exact ⟨whole.shut, whole.outbound, whole.inbound⟩
  | returns => exact ⟨whole.shut, whole.outbound, whole.inbound⟩
  | timeout => simp [Action.cuts] at uncut
  | standsDown => exact ⟨whole.shut, whole.outbound, whole.inbound⟩

end Steps

/-- What the peer sends before it hangs up changes nothing of that. -/
theorem Whole.arrives {relay : Relay} {arrived more departed : Bytes}
    (whole : relay.Whole false arrived departed) (hungUp : Bool) :
    relay.Whole hungUp (arrived ++ more) departed where
  shut := whole.shut
  outbound := whole.outbound
  inbound stopped := by
    -- The end of what arrives has not been there.
    rcases whole.inbound stopped with ended | ⟨early, -⟩
    · exact .inl ended
    · cases early

/-- The peer may take a step, which keeps that nothing was cut short at this end. -/
theorem Moves.peer {side : Side} {line : Line} {relay after other : Relay} {action : Action}
    {arriving departing : Channel UInt8} {hungUp : Bool} {arrived written sent : Bytes}
    (moved : Moves side line relay action after arriving departing)
    (whole : relay.Whole hungUp arrived written)
    (others : other.Whole (relay.finished side) line.departing.all sent) :
    other.Whole (after.finished side) departing.all sent := by
  -- Behind the end that is told to the other one, nothing is sent.
  obtain ⟨-, -, ⟨more, grows⟩, rests, stays⟩ := moved.frame
  cases finished : relay.finished side with
  | false =>
    rw [finished] at others
    rw [grows]
    exact others.arrives _
  | true =>
    rw [finished] at others
    have stopped : relay.outbound.isOver = true :=
      ((Bool.or_eq_true ..).mp finished).elim whole.shut fun closed => (of_decide_eq_true closed).2
    obtain ⟨rfl, still⟩ := rests stopped
    have finishes : after.finished side = true := by
      rcases (Bool.or_eq_true ..).mp finished with shut | closed
      · exact (Bool.or_eq_true ..).mpr (.inl (stays shut))
      · exact (Bool.or_eq_true ..).mpr (.inr (decide_eq_true ⟨(of_decide_eq_true closed).1, still⟩))
    rw [finishes]
    exact others

/-- The outbound pump is over because the child is, or because the way to the peer is lost. -/
theorem Moves.lost {side : Side} {line : Line} {relay after : Relay} {action : Action}
    {arriving departing : Channel UInt8} {lost : Prop}
    (moved : Moves side line relay action after arriving departing)
    (breaks : line.broken = true → lost)
    (held : relay.outbound.isOver = true →
      relay.child.isEnded = true ∨ relay.shut = true ∨ lost)
    (stopped : after.outbound.isOver = true) :
    after.child.isEnded = true ∨ after.shut = true ∨ lost := by
  -- A child that runs on leaves the other two reasons.
  have runs : ∀ {program}, relay.child = .running program → relay.outbound.isOver = true →
      relay.shut = true ∨ lost := fun running stopped =>
    (held stopped).resolve_left (by simp [running, Process.isEnded])
  cases moved with
  | outbound moved =>
    cases moved with
    | ends waits nothing ended => exact .inl ended
    | fails waits failing => exact .inl (of_decide_eq_true failing).2.1
    | breaks holds broken =>
      rcases (Bool.or_eq_true ..).mp broken with shut | broken
      · exact .inr (.inl shut)
      · exact .inr (.inr (breaks broken))
    | interrupted waits => simp [Pump.isOver, waits] at stopped
    | reads => simp [Pump.isOver] at stopped
    | writesOn => simp [Pump.isOver] at stopped
    | writesOut => simp [Pump.isOver] at stopped
  | exits => exact .inl rfl
  | reads running => exact .inr (runs running stopped)
  | writes running => exact .inr (runs running stopped)
  | logs running => exact .inr (runs running stopped)
  | refused running => exact .inr (runs running stopped)
  | joinsOutbound => exact .inr (.inl rfl)
  | timeout => exact .inr (.inl rfl)
  | _ => exact held stopped

/-- A step in which no call of a pump fails, and no time is up. -/
def Action.works : Action → Bool
  | .timeout => false
  | .inbound .fail => false
  | .inbound .breakOff => false
  | .outbound .fail => false
  | .outbound .breakOff => false
  | _ => true

/-- A step that works cuts nothing short. -/
theorem Action.uncut {action : Action} (working : action.works = true) : action.cuts = false := by
  unfold Action.cuts
  split <;> simp_all [Action.works]

/-- Each pump that is over has written all that it has read. -/
structure Handed (relay : Relay) (read written : Bytes) : Prop where
  inbound : relay.inbound.isOver = true → relay.input.all = read
  outbound : relay.outbound.isOver = true → written = relay.output.taken

/-- At first no pump is over. -/
theorem start_handed (side : Side) (program : Program) : (start side program).Handed [] [] where
  inbound stopped := by simp [start, Pump.isOver, Pump.start] at stopped
  outbound stopped := by simp [start, Pump.isOver, Pump.start] at stopped

/-- A step that works keeps that. -/
theorem Moves.handed {side : Side} {line : Line} {relay after : Relay} {action : Action}
    {arriving departing : Channel UInt8}
    (moved : Moves side line relay action after arriving departing)
    (sound : relay.Sound side line.arriving.taken line.departing.all)
    (handed : relay.Handed line.arriving.taken line.departing.all) (works : action.works = true) :
    after.Handed arriving.taken departing.all := by
  -- Only the two pumps write to their sinks.
  cases moved with
  | inbound moved =>
    refine ⟨fun stopped => moved.handed sound.inbound (fun broken => ?_) (Pump.isOver_iff.mp stopped),
      handed.outbound⟩
    simp [broken, Action.works] at works
  | outbound moved =>
    refine ⟨handed.inbound, fun stopped => moved.handed sound.outbound (fun broken => ?_)
      (Pump.isOver_iff.mp stopped)⟩
    simp [broken, Action.works] at works
  | reads => exact ⟨fun stopped => (Channel.take_all ..).trans (handed.inbound stopped), handed.outbound⟩
  | _ => exact ⟨handed.inbound, handed.outbound⟩

/-- When the peer is told the end, the child has ended and all that it wrote is on its way. -/
theorem Whole.finished {side : Side} {relay : Relay} {hungUp : Bool} {arrived departed : Bytes}
    (whole : relay.Whole hungUp arrived departed) (finished : relay.finished side = true) :
    relay.child.isEnded = true ∧ departed = relay.output.all := by
  rcases (Bool.or_eq_true ..).mp finished with shut | closed
  · exact whole.outbound (whole.shut shut)
  · exact whole.outbound (of_decide_eq_true closed).2

/-- A read that gives no byte is at the end of the input. -/
theorem call_end {side : Side} {buffer : Buffer} {line : Line} {relay after : Relay}
    {arriving departing : Channel UInt8} {next : Bytes → Program}
    (runs : relay.child = .running (.read next))
    (moved : advance side buffer line relay (.call 0) = some (after, arriving, departing)) :
    relay.input.left = [] ∧ relay.inbound.isOver = true := by
  -- Of the steps that are calls, only a read fits the program.
  cases advance_moves moved with
  | exits other => simp [runs] at other
  | reads _ able => exact able.resolve_left (lt_irrefl _)
  | writes other => simp [runs] at other
  | logs other => simp [runs] at other

/-- A child that comes to the end of its input has read all that the peer sent. -/
theorem Whole.read_all {relay : Relay} {hungUp : Bool} {arrived departed : Bytes}
    (whole : relay.Whole hungUp arrived departed) {program : Program}
    (runs : relay.child = .running program) (nothing : relay.input.left = [])
    (stopped : relay.inbound.isOver = true) : hungUp = true ∧ relay.input.taken = arrived := by
  -- The child runs, so the pump was over at the end of what arrives.
  have running : relay.child.isEnded ≠ true := by simp [runs, Process.isEnded]
  obtain ⟨hungUp, same⟩ := (whole.inbound stopped).resolve_left running
  exact ⟨hungUp, (Channel.taken_all nothing).trans same⟩

end Relay

end GitFullSend

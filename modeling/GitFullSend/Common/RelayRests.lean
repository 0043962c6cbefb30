import GitFullSend.Common.RelaySound
import Mathlib.Data.Prod.Lex
import Mathlib.Order.WellFounded

/-! Where an end of a connection can come to rest, and that it cannot go on for ever. -/

namespace GitFullSend

open Utf8 (Bytes)
open Channels (Channel)

namespace Relay

/-- Whether a step is a call that was interrupted, which leaves everything before it. -/
def Action.idle : Action → Bool
  | .inbound .interrupted => true
  | .outbound .interrupted => true
  | _ => false

/-- What comes directly behind a call of a child, which may be its end. -/
inductive Succeeds : Process → Process → Prop where
  | calls {after before : Program} (follows : Follows after before) :
      Succeeds (.running after) (.running before)
  | exits {program : Program} {status : ExitStatus} : Succeeds (.ended status) (.running program)

/-- A child makes finitely many calls, whatever they give. -/
theorem follows_founded : WellFounded Follows := by
  -- The induction is on the program, and within a call on the bytes that are left of it.
  refine ⟨fun program => ?_⟩
  induction program with
  | exit status => exact ⟨_, fun after follows => by cases follows⟩
  | read next ih =>
    refine ⟨_, fun after follows => ?_⟩
    cases follows with
    | read next bytes => exact ih bytes
  | write first more next broken ihNext ihBroken =>
    induction size : more.length using Nat.strong_induction_on generalizing first more with
    | h size shorter =>
      subst size
      refine ⟨_, fun after follows => ?_⟩
      cases follows with
      | wroteOn less => exact shorter _ less _ _ rfl
      | wrote => exact ihNext
      | refused => exact ihBroken
  | log first more next ih =>
    induction size : more.length using Nat.strong_induction_on generalizing first more with
    | h size shorter =>
      subst size
      refine ⟨_, fun after follows => ?_⟩
      cases follows with
      | loggedOn less => exact shorter _ less _ _ rfl
      | logged => exact ih

/-- A child comes to its end. -/
theorem succeeds_founded : WellFounded Succeeds := by
  -- Behind the end there is nothing, and before it there are calls.
  have ends : ∀ status, Acc Succeeds (.ended status) := fun status =>
    ⟨_, fun after succeeds => by cases succeeds⟩
  refine ⟨fun process => ?_⟩
  cases process with
  | ended status => exact ends status
  | running program =>
    induction program using follows_founded.induction with
    | h program ih =>
      refine ⟨_, fun after succeeds => ?_⟩
      cases succeeds with
      | calls follows => exact ih _ follows
      | exits => exact ends _

/-- What an end has before it beside the calls of its child and what arrives. -/
def cost (weight : Nat) (relay : Relay) (departing : Channel UInt8) : Nat :=
  relay.inbound.stage.cost 0 + relay.outbound.stage.cost weight +
    (weight + 3) * relay.output.left.length + weight * departing.left.length +
    relay.stderr.left.length + relay.handler.cost + relay.watching.toNat

section Steps

variable {side : Side} {buffer : Buffer} {line : Line} {relay after : Relay} {action : Action}
  {arriving departing : Channel UInt8}

/-- The child makes a call in a step, or what is left beside that gets less. -/
theorem Moves.cost (weight : Nat) (moved : Moves side line relay action after arriving departing)
    (progress : action.idle = false) :
    Succeeds after.child relay.child ∧ arriving = line.arriving ∧ departing = line.departing ∨
      after.child = relay.child ∧
        after.cost weight departing + 3 * arriving.left.length <
          relay.cost weight line.departing + 3 * line.arriving.left.length := by
  -- The cases are the steps, and each of them uses up something.
  cases moved with
  | inbound moved =>
    have less := moved.cost 0 fun interrupted => by simp [interrupted, Action.idle] at progress
    simp only [inboundBetween, Nat.zero_add, Nat.zero_mul, Nat.add_zero] at less
    exact .inr ⟨rfl, by simp only [Relay.cost]; omega⟩
  | outbound moved =>
    have less := moved.cost weight fun interrupted => by simp [interrupted, Action.idle] at progress
    simp only [outboundBetween] at less
    exact .inr ⟨rfl, by simp only [Relay.cost]; omega⟩
  | exits runs => exact .inl ⟨runs ▸ .exits, rfl, rfl⟩
  | reads runs => exact .inl ⟨runs ▸ .calls (.read ..), rfl, rfl⟩
  | writes runs follows => exact .inl ⟨runs ▸ .calls follows, rfl, rfl⟩
  | logs runs follows => exact .inl ⟨runs ▸ .calls follows, rfl, rfl⟩
  | refused runs => exact .inl ⟨runs ▸ .calls .refused, rfl, rfl⟩
  | drains reading some within =>
    refine .inr ⟨rfl, ?_⟩
    simp only [Relay.cost, Channel.take_left, List.length_drop]
    omega
  | drained reading =>
    refine .inr ⟨rfl, ?_⟩
    simp only [Relay.cost, reading, Stage.cost]
    omega
  | waited waits =>
    refine .inr ⟨rfl, ?_⟩
    simp only [Relay.cost, waits, Stage.cost]
    omega
  | joinsOutbound waits =>
    refine .inr ⟨rfl, ?_⟩
    simp only [Relay.cost, waits, Stage.cost]
    omega
  | joinsInbound waits =>
    have low : (if side = .server then Stage.joiningWatchdog else .returned).cost ≤ 1 := by
      cases side <;> simp [Stage.cost]
    have here : relay.handler.cost = 2 := by rw [waits, Stage.cost]
    refine .inr ⟨rfl, ?_⟩
    simp only [Relay.cost]
    omega
  | returns waits =>
    refine .inr ⟨rfl, ?_⟩
    simp only [Relay.cost, waits, Stage.cost]
    omega
  | timeout watches =>
    refine .inr ⟨rfl, ?_⟩
    simp only [Relay.cost, watches, Bool.toNat_true, Bool.toNat_false]
    omega
  | standsDown watches =>
    refine .inr ⟨rfl, ?_⟩
    simp only [Relay.cost, watches, Bool.toNat_true, Bool.toNat_false]
    omega

/-- An interrupted call leaves everything before an end. -/
theorem Moves.idle_cost (weight : Nat)
    (moved : Moves side line relay action after arriving departing) (idle : action.idle = true) :
    after.child = relay.child ∧ arriving = line.arriving ∧ departing = line.departing ∧
      after.cost weight departing = relay.cost weight line.departing := by
  -- Only the calls of the two readers are interrupted.
  cases moved with
  | @inbound action pump source sink moved =>
    cases action with
    | interrupted =>
      obtain ⟨stage, rfl, rfl⟩ := moved.interrupted_cost
      exact ⟨rfl, rfl, rfl, by simp only [Relay.cost, stage]⟩
    | _ => cases idle
  | @outbound action pump source sink moved =>
    cases action with
    | interrupted =>
      obtain ⟨stage, rfl, rfl⟩ := moved.interrupted_cost
      exact ⟨rfl, rfl, rfl, by simp only [Relay.cost, stage, outboundBetween]⟩
    | _ => cases idle
  | _ => cases idle

/-- Where an end rests when it can do nothing before the watchdog fires. -/
inductive Rests (side : Side) (buffer : Buffer) (line : Line) (relay : Relay) : Prop where
  /-- The handler has returned. -/
  | returned (done : relay.handler = .returned)
  /-- The child reads, and everything that has arrived was given to it. -/
  | reads {next : Bytes → Program} (runs : relay.child = .running (.read next))
      (nothing : relay.input.left = []) (waits : relay.inbound.stage = .reading)
      (empty : line.arriving.left = []) (open_ : line.hungUp = false) (sound : line.broken = false)
      (unshut : relay.shut = false)
      (outbound : Pump.Waits buffer (relay.outboundBetween side line) relay.outbound)
  /-- The peer takes nothing of what the child has written, and the child does not read. -/
  | floods {done left : Bytes} (holds : relay.outbound.stage = .writing done left)
      (full : buffer.fits line.departing.left.length 1 = false) (sound : line.broken = false)
      (unshut : relay.shut = false) (silent : ∀ next, relay.child ≠ .running (.read next))
  /-- The child writes to a pair of sockets that nobody reads any more. -/
  | stranded {first : UInt8} {more : Bytes} {next broken : Program} (client : side = .client)
      (stopped : relay.outbound.isOver = true)
      (runs : relay.child = .running (.write first more next broken))
      (full : buffer.fits relay.output.left.length 1 = false)

/-- An end can do nothing, before the watchdog fires. -/
def Blocked (side : Side) (buffer : Buffer) (line : Line) (relay : Relay) : Prop :=
  ∀ action, action.idle = false → action ≠ .timeout →
    advance side buffer line relay action = none

/-- A step of a pump that is no interrupted call is no such step of its end. -/
theorem pump_progress {action : Pump.Action} (progress : action ≠ .interrupted) :
    Action.idle (.inbound action) = false ∧ Action.idle (.outbound action) = false := by
  cases action with
  | interrupted => exact absurd rfl progress
  | _ => exact ⟨rfl, rfl⟩

namespace Blocked

/-- The inbound pump waits. -/
theorem inbound (blocked : Blocked side buffer line relay) {read written : Bytes}
    (sound : relay.Sound side read written) :
    Pump.Waits buffer (relay.inboundBetween line) relay.inbound := by
  -- Each step of the pump would be one of the end.
  refine Pump.waits_of_blocked (fun done left => sound.inbound.nonempty) fun action progress => ?_
  have none := blocked (.inbound action) (pump_progress progress).1 (by simp)
  simpa [advance] using none

/-- The outbound pump waits. -/
theorem outbound (blocked : Blocked side buffer line relay) {read written : Bytes}
    (sound : relay.Sound side read written) :
    Pump.Waits buffer (relay.outboundBetween side line) relay.outbound := by
  -- Each step of the pump would be one of the end.
  refine Pump.waits_of_blocked (fun done left => sound.outbound.nonempty) fun action progress => ?_
  have none := blocked (.outbound action) (pump_progress progress).2 (by simp)
  simpa [advance] using none

/-- No call of the child can be made. -/
theorem call (blocked : Blocked side buffer line relay) (count : Nat) :
    relay.call side buffer count = none := by
  simpa [advance] using blocked (.call count) rfl (by simp)

/-- The handler waits. -/
theorem handle (blocked : Blocked side buffer line relay) : relay.handle side = none := by
  simpa [advance] using blocked .handle rfl (by simp)

/-- A child that reads was given everything. -/
theorem reads (blocked : Blocked side buffer line relay) {read written : Bytes}
    (sound : relay.Sound side read written) {next : Bytes → Program}
    (runs : relay.child = .running (.read next)) : Rests side buffer line relay := by
  -- Neither a byte nor the end of the stream can be read.
  have running : relay.child.isEnded = false := by rw [runs, Process.isEnded]
  have nothing : relay.input.left = [] := by
    by_contra some
    have within := List.length_pos_iff.mpr some
    have single := blocked.call 1
    rw [Relay.call, runs] at single
    simp [Nat.succ_le_of_lt within] at single
  have ending := blocked.call 0
  rw [Relay.call, runs] at ending
  have going : relay.inbound.isOver = false := by simpa [nothing] using ending
  cases blocked.inbound sound with
  | stopped done => simp [Pump.isOver, done] at going
  | source waits empty unended whole =>
    obtain ⟨open_, unshut⟩ := (Bool.or_eq_false_iff ..).mp unended
    exact .reads runs nothing waits empty open_ whole unshut (blocked.outbound sound)
  | sink holds full whole =>
    simp only [inboundBetween, running, nothing] at full
    exact absurd buffer.empty (by simpa using full)

/-- A child that writes has nobody who reads. -/
theorem writes (blocked : Blocked side buffer line relay) {read written : Bytes}
    (sound : relay.Sound side read written) {first : UInt8} {more : Bytes} {next broken : Program}
    (runs : relay.child = .running (.write first more next broken)) :
    Rests side buffer line relay := by
  -- The write is not refused, and there is no room for a byte.
  have running : relay.child.isEnded = false := by rw [runs, Process.isEnded]
  have accepted : refuses side relay = false := by
    have refusing := blocked .refuse rfl (by simp)
    simpa [advance, runs] using refusing
  have full : buffer.fits relay.output.left.length 1 = false := by
    have single := blocked.call 1
    rw [Relay.call, runs] at single
    simpa [accepted] using single
  cases waits : blocked.outbound sound with
  | stopped done =>
    have stopped := Pump.isOver_iff.mpr done
    have client : side = .client := by
      cases side with
      | client => rfl
      | server => simp [refuses, stopped] at accepted
    exact .stranded client stopped runs full
  | source reading nothing =>
    have nothing : relay.output.left = [] := nothing
    rw [nothing, List.length_nil, buffer.empty] at full
    cases full
  | sink holds closed whole =>
    obtain ⟨unshut, sound⟩ := (Bool.or_eq_false_iff ..).mp whole
    refine .floods holds (closed.resolve_left ?_) sound unshut fun next reads => ?_
    · simp [outboundBetween, unshut]
    · rw [runs] at reads
      cases reads

/-- A child that prints is read by the handler. -/
theorem not_logs (blocked : Blocked side buffer line relay) {read written : Bytes}
    (sound : relay.Sound side read written) {first : UInt8} {more : Bytes} {next : Program} :
    relay.child ≠ .running (.log first more next) := by
  -- Either there is room for a byte, or there are bytes to read.
  intro runs
  have full : buffer.fits relay.stderr.left.length 1 = false := by
    have single := blocked.call 1
    rw [Relay.call, runs] at single
    simpa using single
  have draining := blocked (.drain 1) rfl (by simp)
  have nothing : relay.stderr.left = [] := by
    by_contra some
    have within := List.length_pos_iff.mpr some
    simp [advance, sound.draining runs, Nat.succ_le_of_lt within] at draining
  rw [nothing, List.length_nil, buffer.empty] at full
  cases full

/-- Behind the end of the child only the way to the peer can keep the handler. -/
theorem ended (blocked : Blocked side buffer line relay) {read written : Bytes}
    (sound : relay.Sound side read written) {status : ExitStatus}
    (ended : relay.child = .ended status) : Rests side buffer line relay := by
  -- The cases are the stages of the handler.
  have isEnded : relay.child.isEnded = true := by rw [ended, Process.isEnded]
  have handling := blocked.handle
  cases stage : relay.handler with
  | draining =>
    have draining := blocked (.drain 1) rfl (by simp)
    have nothing : relay.stderr.left = [] := by
      by_contra some
      have within := List.length_pos_iff.mpr some
      simp [advance, stage, Nat.succ_le_of_lt within] at draining
    simp [Relay.handle, stage, nothing, isEnded] at handling
  | waiting => simp [Relay.handle, stage, isEnded] at handling
  | joiningOutbound =>
    cases blocked.outbound sound with
    | stopped done => simp [Relay.handle, stage, Pump.isOver_iff.mpr done] at handling
    | source waits nothing unended =>
      exact absurd isEnded (by simpa [outboundBetween] using unended)
    | sink holds closed whole =>
      obtain ⟨unshut, sound⟩ := (Bool.or_eq_false_iff ..).mp whole
      refine .floods holds (closed.resolve_left ?_) sound unshut fun next reads => ?_
      · simp [outboundBetween, unshut]
      · rw [ended] at reads
        cases reads
  | joiningInbound =>
    obtain ⟨-, shut⟩ := sound.joined (by simp [stage, Stage.cost])
    cases blocked.inbound sound with
    | stopped done => simp [Relay.handle, stage, Pump.isOver_iff.mpr done] at handling
    | source waits nothing unended => simp [inboundBetween, shut] at unended
    | sink holds full whole => simp [inboundBetween, isEnded] at whole
  | joiningWatchdog =>
    have standing := blocked .standDown rfl (by simp)
    have alone : relay.watching = false := by simpa [advance, stage] using standing
    simp [Relay.handle, stage, alone] at handling
  | returned => exact .returned stage

/-- An end that can do nothing rests in one of these ways. -/
theorem rests (blocked : Blocked side buffer line relay) {read written : Bytes}
    (sound : relay.Sound side read written) : Rests side buffer line relay := by
  -- The cases are the next calls of the child.
  cases child : relay.child with
  | ended status => exact blocked.ended sound child
  | running program =>
    cases program with
    | exit status =>
      have ending := blocked.call 0
      simp [Relay.call, child] at ending
    | read next => exact blocked.reads sound child
    | write first more next broken => exact blocked.writes sound child
    | log first more next => exact absurd child (blocked.not_logs sound)

end Blocked

end Steps

end Relay

end GitFullSend

import Mathlib.Data.Nat.Find
import GitFullSend.Lib.Instants

/-! Waiting for the lock of a worktree on a clock of machine instants. -/

namespace GitFullSend

open Instants (Duration Instant)

/-- What a call that tries to lock a file comes to. -/
inductive TryLock where
  | locked
  /-- Another handle holds the lock. -/
  | wouldBlock
  | error
  deriving DecidableEq, Repr

/-- One turn of the polling loop: what the try comes to, and what the clock shows behind it. -/
structure Poll where
  tryLock : TryLock
  now : Instant

/-- What acquiring the lock comes to. -/
inductive Acquired where
  /-- The lock was taken at some poll. -/
  | locked (poll : Nat)
  /-- The deadline had passed at some poll. -/
  | timedOut (poll : Nat)
  /-- Locking failed at some poll for a reason other than contention. -/
  | failed (poll : Nat)
  /-- The loop goes on. -/
  | waiting
  /-- The deadline cannot be represented. -/
  | panicked
  deriving DecidableEq, Repr

/-- How a wait went. -/
structure Waited where
  acquired : Acquired
  /-- When each sleep began, and how long it was. -/
  sleeps : List (Instant × Duration)

/-- The time between two polls. -/
def pollInterval : Duration := .fromMillis 100 (by decide)

/-- Poll for the lock until the deadline, for so many turns at most. -/
def waitLoop (deadline : Instant) (polls : Nat → Poll) (poll : Nat) : Nat → Waited
  | 0 => ⟨.waiting, []⟩
  | turns + 1 =>
    match (polls poll).tryLock with
    | .locked => ⟨.locked poll, []⟩
    | .wouldBlock =>
      let now := (polls poll).now
      if now.reached deadline then ⟨.timedOut poll, []⟩
      else
        let later := waitLoop deadline polls (poll + 1) turns
        { later with sleeps := (now, pollInterval.min (deadline.durationSince now)) :: later.sleeps }
    | .error => ⟨.failed poll, []⟩

/-- Wait for the lock from some instant on, for so many seconds and turns at most. -/
def acquireWorktreeLock (start : Instant) (timeout : UInt64) (polls : Nat → Poll) (turns : Nat) :
    Waited :=
  -- Adding a span to an instant panics where the sum cannot be represented.
  match start.checkedAdd (.fromSecs timeout) with
  | none => ⟨.panicked, []⟩
  | some deadline => waitLoop deadline polls 0 turns

/-- When a wait has to end, in the nanoseconds of its clock. -/
def waitEnd (start : Instant) (timeout : UInt64) : Int :=
  start.toNanos + timeout.toNat * Instants.nanosPerSec

/-- A poll finds the lock held, before the wait has to end. -/
def Contended (bound : Int) (poll : Poll) : Prop :=
  poll.tryLock = .wouldBlock ∧ poll.now.toNanos < bound

instance (bound : Int) (poll : Poll) : Decidable (Contended bound poll) :=
  inferInstanceAs (Decidable (_ ∧ _))

/-- A wait of any number of turns is safe. -/
structure WaitsSafely (start : Instant) (timeout : UInt64) (polls : Nat → Poll) : Prop where
  /-- No turn panics. -/
  calm : ∀ turns, (acquireWorktreeLock start timeout polls turns).acquired ≠ .panicked
  /-- The lock is returned at the first poll that succeeds, with only held ones before. -/
  first : ∀ poll, (polls poll).tryLock = .locked →
    (∀ earlier, earlier < poll → Contended (waitEnd start timeout) (polls earlier)) →
      ∀ turns, poll < turns → (acquireWorktreeLock start timeout polls turns).acquired = .locked poll
  /-- What is returned as locked was locked, and no earlier poll had been. -/
  locked : ∀ turns poll, (acquireWorktreeLock start timeout polls turns).acquired = .locked poll →
    (polls poll).tryLock = .locked ∧ ∀ earlier, earlier < poll → (polls earlier).tryLock = .wouldBlock
  /-- The wait only times out at a poll at or after its end. -/
  timedOut : ∀ turns poll, (acquireWorktreeLock start timeout polls turns).acquired = .timedOut poll →
    (polls poll).tryLock = .wouldBlock ∧ waitEnd start timeout ≤ (polls poll).now.toNanos
  /-- No sleep goes on past the end. -/
  sleeps : ∀ turns, ∀ sleep ∈ (acquireWorktreeLock start timeout polls turns).sleeps,
    sleep.1.toNanos + sleep.2.toNanos ≤ waitEnd start timeout
  /-- Where the clock reaches the end, the wait is over after finitely many turns. -/
  ends : (∃ poll, waitEnd start timeout ≤ (polls poll).now.toNanos) →
    ∃ turns, (acquireWorktreeLock start timeout polls turns).acquired ≠ .waiting

variable {deadline : Instant} {polls : Nat → Poll}

/-- A turn that finds the lock held before the deadline sleeps and goes on to the next poll. -/
private theorem waitLoop_contended {poll : Nat} (held : Contended deadline.toNanos (polls poll))
    (turns : Nat) :
    (waitLoop deadline polls poll (turns + 1)).acquired =
        (waitLoop deadline polls (poll + 1) turns).acquired ∧
      (waitLoop deadline polls poll (turns + 1)).sleeps =
        ((polls poll).now, pollInterval.min (deadline.durationSince (polls poll).now)) ::
          (waitLoop deadline polls (poll + 1) turns).sleeps := by
  -- The turn goes through neither of the arms that return.
  have early : ¬ (polls poll).now.reached deadline = true := by
    rw [Instant.reached_iff]
    exact Int.not_le.mpr held.2
  rw [waitLoop, held.1]
  simp only
  rw [if_neg early]
  exact ⟨rfl, rfl⟩

/-- Every turn ends the wait, or finds the lock held before the deadline. -/
private theorem waitLoop_cases (deadline : Instant) (polls : Nat → Poll) (poll : Nat) :
    Contended deadline.toNanos (polls poll) ∨ ∀ turns,
      ((polls poll).tryLock = .locked ∧
        waitLoop deadline polls poll (turns + 1) = ⟨.locked poll, []⟩) ∨
      ((polls poll).tryLock = .wouldBlock ∧ deadline.toNanos ≤ (polls poll).now.toNanos ∧
        waitLoop deadline polls poll (turns + 1) = ⟨.timedOut poll, []⟩) ∨
      waitLoop deadline polls poll (turns + 1) = ⟨.failed poll, []⟩ := by
  -- The cases are those of the match, and the deadline in one of them.
  cases tried : (polls poll).tryLock with
  | locked => exact .inr fun turns => .inl ⟨rfl, by rw [waitLoop, tried]⟩
  | error => exact .inr fun turns => .inr (.inr (by rw [waitLoop, tried]))
  | wouldBlock =>
    by_cases past : (polls poll).now.reached deadline = true
    · refine .inr fun turns => .inr (.inl ⟨rfl, Instant.reached_iff.mp past, ?_⟩)
      rw [waitLoop, tried]
      simp only
      rw [if_pos past]
    · rw [Instant.reached_iff, Int.not_le] at past
      exact .inl ⟨tried, past⟩

/-- A run of the loop sleeps within the deadline, and ends only for a reason. -/
private theorem waitLoop_sound (poll turns : Nat) :
    let waited := waitLoop deadline polls poll turns
    waited.acquired ≠ .panicked ∧
      (∀ found, waited.acquired = .locked found → (polls found).tryLock = .locked ∧
        ∀ earlier, poll ≤ earlier → earlier < found → (polls earlier).tryLock = .wouldBlock) ∧
      (∀ found, waited.acquired = .timedOut found → (polls found).tryLock = .wouldBlock ∧
        deadline.toNanos ≤ (polls found).now.toNanos) ∧
      ∀ sleep ∈ waited.sleeps, sleep.1.toNanos + sleep.2.toNanos ≤ deadline.toNanos := by
  -- The induction is on the turns that are left, and the poll moves on with them.
  induction turns generalizing poll with
  | zero => simp [waitLoop]
  | succ turns ih =>
    rcases waitLoop_cases deadline polls poll with held | ended
    · obtain ⟨same, slept⟩ := waitLoop_contended held turns
      obtain ⟨calm, locked, timedOut, within⟩ := ih (poll + 1)
      simp only [same, slept]
      refine ⟨calm, ?_, timedOut, List.forall_mem_cons.mpr ⟨?_, within⟩⟩
      · intro found taken
        obtain ⟨tried, others⟩ := locked found taken
        refine ⟨tried, fun earlier least most => ?_⟩
        rcases Nat.eq_or_lt_of_le least with rfl | later
        · exact held.1
        · exact others earlier later most
      · -- The sleep is no longer than what is left until the deadline.
        have left : (pollInterval.min (deadline.durationSince (polls poll).now)).toNanos ≤
            (deadline.toNanos - (polls poll).now.toNanos).toNat := by
          unfold Duration.min
          split
          · rename_i shorter
            simpa [Instant.durationSince] using shorter
          · simp [Instant.durationSince]
        have before := held.2
        simp only
        omega
    · rcases ended turns with ⟨tried, same⟩ | ⟨tried, past, same⟩ | same <;> simp only [same]
      · refine ⟨by simp, ?_, by simp, by simp⟩
        intro found taken
        cases taken
        exact ⟨tried, fun earlier least most => absurd least (by omega)⟩
      · refine ⟨by simp, by simp, ?_, by simp⟩
        intro found late
        cases late
        exact ⟨tried, past⟩
      · simp

/-- Held polls before the deadline are passed over. -/
private theorem waitLoop_passes {poll : Nat} (held : ∀ earlier, earlier < poll →
    Contended deadline.toNanos (polls earlier)) {turns : Nat} :
    (waitLoop deadline polls 0 (poll + turns)).acquired =
      (waitLoop deadline polls poll turns).acquired := by
  -- The induction passes one held poll after the other.
  induction poll generalizing turns with
  | zero => rw [Nat.zero_add]
  | succ poll ih =>
    have here := (waitLoop_contended (held poll (Nat.lt_succ_self poll)) turns).1
    rw [← here, ← ih fun earlier before => held earlier (Nat.lt_succ_of_lt before),
      Nat.succ_add_eq_add_succ]

/-- The first poll that does not find the lock held before the deadline ends the wait. -/
private theorem waitLoop_ends {poll : Nat} (late : deadline.toNanos ≤ (polls poll).now.toNanos) :
    ∃ turns, (waitLoop deadline polls 0 turns).acquired ≠ .waiting := by
  -- There is such a poll, since the clock has reached the deadline at some poll.
  have other : ∃ poll, ¬ Contended deadline.toNanos (polls poll) :=
    ⟨poll, fun held => absurd held.2 (Int.not_lt.mpr late)⟩
  have before : ∀ earlier, earlier < Nat.find other →
      Contended deadline.toNanos (polls earlier) :=
    fun earlier less => not_not.mp (Nat.find_min other less)
  refine ⟨Nat.find other + 1, ?_⟩
  rw [waitLoop_passes before]
  rcases waitLoop_cases deadline polls (Nat.find other) with held | ended
  · exact absurd held (Nat.find_spec other)
  · rcases ended 0 with ⟨-, same⟩ | ⟨-, -, same⟩ | same <;> simp [same]

/-- A deadline that can be represented is when the wait has to end. -/
private theorem waitEnd_eq {start : Instant} {timeout : UInt64}
    (added : start.checkedAdd (.fromSecs timeout) = some deadline) :
    deadline.toNanos = waitEnd start timeout := by
  rw [Instant.toNanos_checkedAdd added, waitEnd]
  simp [Duration.toNanos, Duration.fromSecs]

/--
Waiting for the worktree lock is safe exactly when the end of the wait can be represented.

Nothing is asked of what the polls find, nor of what the clock shows at them.
-/
theorem acquireWorktreeLock_safe_iff (start : Instant) (timeout : UInt64) (polls : Nat → Poll) :
    WaitsSafely start timeout polls ↔ start.secs + timeout.toNat < 2 ^ 63 := by
  rw [← Instant.checkedAdd_fromSecs]
  constructor
  · -- Without a deadline, the wait panics before the first poll.
    intro safe
    rw [Option.isSome_iff_ne_none]
    intro overflows
    exact safe.calm 0 (by rw [acquireWorktreeLock, overflows])
  · intro fits
    obtain ⟨deadline, added⟩ := Option.isSome_iff_exists.mp fits
    have loop : ∀ turns, acquireWorktreeLock start timeout polls turns =
        waitLoop deadline polls 0 turns := by
      intro turns
      rw [acquireWorktreeLock, added]
    have ending := waitEnd_eq added
    refine ⟨?_, ?_, ?_, ?_, ?_, ?_⟩ <;> simp only [loop, ← ending]
    · exact fun turns => (waitLoop_sound 0 turns).1
    · intro poll tried before turns enough
      obtain ⟨more, rfl⟩ := Nat.exists_eq_add_of_lt enough
      rw [Nat.add_assoc, waitLoop_passes before, waitLoop, tried]
    · intro turns poll taken
      obtain ⟨tried, others⟩ := (waitLoop_sound 0 turns).2.1 poll taken
      exact ⟨tried, fun earlier => others earlier (Nat.zero_le earlier)⟩
    · exact fun turns => (waitLoop_sound 0 turns).2.2.1
    · exact fun turns => (waitLoop_sound 0 turns).2.2.2
    · exact fun reached => reached.elim fun poll late => waitLoop_ends late

/-- The longest timeout that can be asked for panics, also where the lock is free. -/
theorem longest_timeout_panics :
    ∃ start : Instant, start.secs = 1 ∧
      (acquireWorktreeLock start (UInt64.ofNat (2 ^ 64 - 1)) (fun _ => ⟨.locked, start⟩) 1).acquired =
        .panicked ∧
      ¬ WaitsSafely start (UInt64.ofNat (2 ^ 64 - 1)) fun _ => ⟨.locked, start⟩ := by
  let start : Instant := ⟨1, by decide, 0, by decide⟩
  have panics : ∀ polls turns,
      (acquireWorktreeLock start (UInt64.ofNat (2 ^ 64 - 1)) polls turns).acquired = .panicked := by
    intro polls turns
    have overflows : start.checkedAdd (.fromSecs (UInt64.ofNat (2 ^ 64 - 1))) = none := by
      rw [← Option.not_isSome_iff_eq_none, Instant.checkedAdd_fromSecs]
      decide
    rw [acquireWorktreeLock, overflows]
  exact ⟨start, rfl, panics _ 1, fun safe => safe.calm 1 (panics _ 1)⟩

end GitFullSend

import GitFullSend.Lib.Folds
import Mathlib.Data.Nat.Find
import Mathlib.Order.WellFounded

/-! Runs without an end, and when a fair one comes to rest. -/

namespace Runs

variable {State Event : Type} {Rank : Type*} {step : State → Event → Option State}

/-- A run that goes on for ever, though nothing may happen in it any more. -/
structure Run (step : State → Event → Option State) where
  states : Nat → State
  /-- What happens at each moment, if anything does. -/
  events : Nat → Option Event
  moves : ∀ moment, match events moment with
    | none => states (moment + 1) = states moment
    | some event => step (states moment) event = some (states (moment + 1))

/-- One of these events can happen. -/
def Enabled (step : State → Event → Option State) (own : Event → Prop) (state : State) : Prop :=
  ∃ event after, own event ∧ step state event = some after

namespace Run

/-- One of these events happens at a moment. -/
def Takes (run : Run step) (own : Event → Prop) (moment : Nat) : Prop :=
  ∃ event, run.events moment = some event ∧ own event

/-- Where one of these events can happen from some moment on, one of them does at last. -/
def Fair (run : Run step) (own : Event → Prop) : Prop :=
  ∀ moment, (∀ later, moment ≤ later → Enabled step own (run.states later)) →
    ∃ later, moment ≤ later ∧ run.Takes own later

/-- What happens at a moment leads from its state to the next one. -/
theorem stepped (run : Run step) {moment : Nat} {event : Event}
    (happens : run.events moment = some event) :
    step (run.states moment) event = some (run.states (moment + 1)) := by
  have moved := run.moves moment
  rw [happens] at moved
  exact moved

/-- Where nothing happens, the state stays. -/
theorem stays (run : Run step) {moment : Nat} (nothing : run.events moment = none) :
    run.states (moment + 1) = run.states moment := by
  have moved := run.moves moment
  rw [nothing] at moved
  exact moved

/-- What holds at the start and is kept by every step holds at every moment. -/
theorem keeps (run : Run step) {kept : State → Prop}
    (each : ∀ before event after, kept before → step before event = some after → kept after)
    {start : Nat} (held : kept (run.states start)) {moment : Nat} (later : start ≤ moment) :
    kept (run.states moment) := by
  -- The induction is on the moments; at each of them there is a step, or nothing happens.
  induction moment, later using Nat.le_induction with
  | base => exact held
  | succ moment _ ih =>
    cases happens : run.events moment with
    | none => exact run.stays happens ▸ ih
    | some event => exact each _ _ _ ih (run.stepped happens)

/-- A rank that only the own events change is the same until one of them happens. -/
theorem rank_idle (run : Run step) {own : Event → Prop} {rank : State → Rank} {start : Nat}
    (idle : ∀ moment event, start ≤ moment → run.events moment = some event → ¬ own event →
      rank (run.states (moment + 1)) = rank (run.states moment)) {moment later : Nat}
    (from_ : start ≤ moment) (order : moment ≤ later)
    (none : ∀ between, moment ≤ between → between < later → ¬ run.Takes own between) :
    rank (run.states later) = rank (run.states moment) := by
  -- The induction is on the moments between the two.
  induction later, order using Nat.le_induction with
  | base => rfl
  | succ later order ih =>
    have same := ih fun between above below => none between above (Nat.lt_succ_of_lt below)
    cases happens : run.events later with
    | none => rw [run.stays happens, same]
    | some event =>
      have other : ¬ own event := fun taken =>
        none later order (Nat.lt_succ_self _) ⟨event, happens, taken⟩
      rw [idle later event (from_.trans order) happens other, same]

/--
A fair run comes to rest, where none of its own events can happen any more.

Each own event leads down in an order without infinite descents, and from some moment on nothing
else changes the rank.
-/
theorem rests (run : Run step) {own : Event → Prop} (fair : run.Fair own)
    {below : Rank → Rank → Prop} (founded : WellFounded below) {rank : State → Rank}
    (drops : ∀ state event after, own event → step state event = some after →
      below (rank after) (rank state)) {start : Nat}
    (idle : ∀ moment event, start ≤ moment → run.events moment = some event → ¬ own event →
      rank (run.states (moment + 1)) = rank (run.states moment)) :
    ∃ moment, start ≤ moment ∧ ¬ Enabled step own (run.states moment) := by
  classical
  by_contra never
  push Not at never
  -- The next own event leads to a lower rank, from which the same is to be said.
  have descent : ∀ value moment, start ≤ moment → rank (run.states moment) = value → False := by
    intro value
    induction value using founded.induction with
    | h value ih =>
      rintro moment from_ rfl
      have taken := fair moment fun later order => never later (from_.trans order)
      obtain ⟨order, event, happens, own⟩ := Nat.find_spec taken
      have same := run.rank_idle idle from_ order fun between above earlier taken' =>
        Nat.find_min taken earlier ⟨above, taken'⟩
      refine ih _ ?_ (Nat.find taken + 1) (by omega) rfl
      rw [← same]
      exact drops _ event _ own (run.stepped happens)
  exact descent _ start le_rfl rfl

section Executions

variable {events : List Event} {first last : State}

/-- A run that executes some events, and in which nothing happens behind them. -/
def ofExecution (ran : events.foldlM step first = some last) : Run step where
  states moment := ((events.take moment).foldlM step first).getD last
  events moment := events[moment]?
  moves moment := by
    -- Each part of the execution has a state behind it.
    cases happens : events[moment]? with
    | none =>
      have short := List.getElem?_eq_none_iff.mp happens
      simp only [List.take_of_length_le short, List.take_of_length_le (Nat.le_succ_of_le short)]
    | some event =>
      obtain ⟨within, here⟩ := List.getElem?_eq_some_iff.mp happens
      have parts : events.take (moment + 1) = events.take moment ++ [event] := by
        rw [List.take_add_one, happens, Option.toList_some]
      have split := List.take_append_drop (moment + 1) events
      rw [← split] at ran
      obtain ⟨after, next, -⟩ := Folds.foldlM_before ran
      rw [parts] at next
      obtain ⟨before, earlier, stepped⟩ := Folds.foldlM_concat.mp next
      simp only [parts, earlier, next, Option.getD_some, stepped]

variable (ran : events.foldlM step first = some last)

/-- It begins with the first state. -/
@[simp] theorem ofExecution_first : (ofExecution ran).states 0 = first := rfl

/-- Behind the events it is in the last state. -/
theorem ofExecution_last {moment : Nat} (later : events.length ≤ moment) :
    (ofExecution ran).states moment = last := by
  simp only [ofExecution, List.take_of_length_le later, ran, Option.getD_some]

/-- It is fair when in the last state none of the events can happen. -/
theorem ofExecution_fair {own : Event → Prop} (disabled : ¬ Enabled step own last) :
    (ofExecution ran).Fair own := by
  -- Behind the events nothing has to happen.
  intro moment enabled
  have there := enabled (max moment events.length) (le_max_left ..)
  rw [ofExecution_last ran (le_max_right ..)] at there
  exact absurd there disabled

end Executions

end Run

end Runs

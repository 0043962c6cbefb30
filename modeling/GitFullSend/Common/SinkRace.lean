import Mathlib.Logic.Function.Basic
import GitFullSend.Common.MetricsTorn
import GitFullSend.Lib.Folds

/-! Any number of appends to one sink at once, under the lock of their process. -/

namespace GitFullSend

open Utf8 (Bytes ofText)
open ByteLines (lines)

namespace Appending

/-- How far an append has come. -/
inductive Stage where
  /-- Its line is serialised. -/
  | serialised
  /-- It holds the lock, and this much of its line is still to be written. -/
  | writing (left : Bytes)
  /-- It has returned, with `Ok` or not. -/
  | returned (whole : Bool)

/-- The next thing an append does. -/
inductive Action where
  | lock
  /-- A write takes so many bytes. -/
  | write (count : Nat)
  | finish
  /-- One of the calls fails. -/
  | fail

end Appending

/-- A sink to which appends write, with the one that holds the lock. -/
structure Appending where
  sink : Bytes
  owner : Option Nat
  stage : Nat → Appending.Stage

namespace Appending

/-- A sink that is empty yet, or not there. -/
def initial : Appending := ⟨[], none, fun _ => .serialised⟩

/-- One step of the append at a place, or `none` when it is not the one that comes now. -/
def step (text : Nat → Bytes) (state : Appending) (event : Nat × Action) : Option Appending :=
  let place := event.1
  match state.stage place, event.2 with
  -- The directory of the sink cannot be created.
  | .serialised, .fail =>
    some { state with stage := Function.update state.stage place (.returned false) }
  | .serialised, .lock =>
    if state.owner.isNone then
      some ⟨state.sink, some place, Function.update state.stage place (.writing (text place))⟩
    else none
  | .writing left, .write count =>
    if 0 < count ∧ count ≤ left.length then
      some ⟨state.sink ++ left.take count, state.owner,
        Function.update state.stage place (.writing (left.drop count))⟩
    else none
  | .writing [], .finish =>
    some ⟨state.sink, none, Function.update state.stage place (.returned true)⟩
  -- The file cannot be opened or written to; the lock is released in any case.
  | .writing (_ :: _), .fail =>
    some ⟨state.sink, none, Function.update state.stage place (.returned false)⟩
  | _, _ => none

/-- Steps in their order. -/
def execute (text : Nat → Bytes) (state : Appending) (events : List (Nat × Action)) :
    Option Appending :=
  events.foldlM (step text) state

/-- What a step can be. -/
inductive Moves (text : Nat → Bytes) (state : Appending) (place : Nat) :
    Action → Appending → Prop where
  | refused (waits : state.stage place = .serialised) : Moves text state place .fail
      { state with stage := Function.update state.stage place (.returned false) }
  | locks (waits : state.stage place = .serialised) (free : state.owner = none) :
      Moves text state place .lock
        ⟨state.sink, some place, Function.update state.stage place (.writing (text place))⟩
  | writes {left : Bytes} {count : Nat} (holds : state.stage place = .writing left) :
      Moves text state place (.write count) ⟨state.sink ++ left.take count, state.owner,
        Function.update state.stage place (.writing (left.drop count))⟩
  | finishes (holds : state.stage place = .writing []) : Moves text state place .finish
      ⟨state.sink, none, Function.update state.stage place (.returned true)⟩
  | fails {left : Bytes} (holds : state.stage place = .writing left) (more : left ≠ []) :
      Moves text state place .fail
        ⟨state.sink, none, Function.update state.stage place (.returned false)⟩

section Steps

variable {text : Nat → Bytes} {state after : Appending} {event : Nat × Action}

/-- Every step is one of these. -/
theorem step_moves (stepped : step text state event = some after) :
    Moves text state event.1 event.2 after := by
  -- The cases are those of the definition, by the place of the append.
  obtain ⟨place, action⟩ := event
  unfold step at stepped
  cases at_ : state.stage place with
  | serialised =>
    cases action with
    | fail => simp only [at_] at stepped; cases stepped; exact .refused at_
    | lock =>
      simp only [at_] at stepped
      split at stepped
      · rename_i free
        cases stepped
        exact .locks at_ (Option.isNone_iff_eq_none.mp free)
      · cases stepped
    | write count => simp [at_] at stepped
    | finish => simp [at_] at stepped
  | writing left =>
    cases action with
    | lock => simp [at_] at stepped
    | write count =>
      simp only [at_] at stepped
      split at stepped
      · cases stepped
        exact .writes at_
      · cases stepped
    | finish =>
      cases left with
      | nil => simp only [at_] at stepped; cases stepped; exact .finishes at_
      | cons first more => simp [at_] at stepped
    | fail =>
      cases left with
      | nil => simp [at_] at stepped
      | cons first more => simp only [at_] at stepped; cases stepped; exact .fails at_ (by simp)
  | returned whole => cases action <;> simp [at_] at stepped

end Steps

section Runs

variable {serde : Serde} {records : Nat → Record serde} {state after : Appending}
  {event : Nat × Action} {events : List (Nat × Action)} {turns : List (Nat × Option Nat)}
  {begun : Bytes}

/-- Appends in the order of their turns, each with the room there was for its line. -/
def attempts (records : Nat → Record serde) (turns : List (Nat × Option Nat)) :
    List (Attempt serde) :=
  turns.map fun turn => (records turn.1, turn.2)

/-- Whether a turn wrote its line as a whole. -/
def wrote (records : Nat → Record serde) (turn : Nat × Option Nat) : Bool :=
  (writeAll turn.2 (records turn.1).line).2

/--
The sink of some appends one after the other, and the beginning of one more line.

The turns are those of the appends that have returned, and the line is that of the one that holds
the lock.
-/
structure Ordered (records : Nat → Record serde) (state : Appending)
    (turns : List (Nat × Option Nat)) (begun : Bytes) : Prop where
  sink : state.sink = (appendAll (attempts records turns)).1 ++ begun
  distinct : (turns.map Prod.fst).Nodup
  returned : ∀ place whole, state.stage place = .returned whole ↔
    ∃ turn ∈ turns, turn.1 = place ∧ wrote records turn = whole
  idle : state.owner = none → begun = []
  held : ∀ place, state.owner = some place →
    ∃ left, state.stage place = .writing left ∧ begun ++ left = (records place).line
  alone : ∀ place left, state.stage place = .writing left → state.owner = some place

/-- At first nothing is written, and nobody has the lock. -/
theorem ordered_initial (records : Nat → Record serde) : Ordered records initial [] [] where
  sink := rfl
  distinct := .nil
  returned place whole := by simp [initial]
  idle _ := rfl
  held place held := by cases held
  alone place left writing := by cases writing

/-- An append that returns takes its turn behind the others. -/
theorem Ordered.turn (ordered : Ordered records state turns begun) {place : Nat}
    {room : Option Nat} {sink rest : Bytes} {owner : Option Nat}
    (unfinished : ∀ whole, state.stage place ≠ .returned whole)
    (written : sink = (appendAll (attempts records turns)).1 ++
      (writeAll room (records place).line).1 ++ rest)
    (idle : owner = none → rest = [])
    (held : ∀ other, owner = some other → other ≠ place ∧
      ∃ left, state.stage other = .writing left ∧ rest ++ left = (records other).line)
    (alone : ∀ other left, other ≠ place → state.stage other = .writing left →
      owner = some other) :
    Ordered records ⟨sink, owner, Function.update state.stage place
      (.returned (wrote records (place, room)))⟩ (turns ++ [(place, room)]) rest where
  -- Only the stage of the append that returns is new, so it is looked at apart from the others.
  sink := by
    have step : (appendAll (attempts records (turns ++ [(place, room)]))).1 =
        (appendAll (attempts records turns)).1 ++ (writeAll room (records place).line).1 := by
      rw [attempts, List.map_append, List.map_singleton, appendAll_concat]
      rfl
    rw [step]
    exact written
  distinct := by
    rw [List.map_append, List.map_singleton]
    refine ordered.distinct.append (List.nodup_singleton _) ?_
    rw [List.disjoint_singleton]
    intro listed
    obtain ⟨turn, member, same⟩ := List.mem_map.mp listed
    exact unfinished _ ((ordered.returned place _).mpr ⟨turn, member, same, rfl⟩)
  returned other whole := by
    by_cases same : other = place
    · subst same
      simp only [Function.update_self, Stage.returned.injEq]
      constructor
      · rintro rfl
        exact ⟨(other, room), by simp, rfl, rfl⟩
      · rintro ⟨turn, member, same, told⟩
        rcases List.mem_append.mp member with member | member
        · exact absurd ((ordered.returned other whole).mpr ⟨turn, member, same, told⟩)
            (unfinished whole)
        · rw [List.mem_singleton.mp member] at told
          exact told
    · simp only [Function.update_of_ne same, ordered.returned other whole]
      constructor
      · rintro ⟨turn, member, about⟩
        exact ⟨turn, List.mem_append_left _ member, about⟩
      · rintro ⟨turn, member, about, told⟩
        rcases List.mem_append.mp member with member | member
        · exact ⟨turn, member, about, told⟩
        · rw [List.mem_singleton.mp member] at about
          exact absurd about.symm same
  idle := idle
  held other owns := by
    obtain ⟨apart, left, writing, line⟩ := held other owns
    exact ⟨left, (Function.update_of_ne apart _ _).trans writing, line⟩
  alone other left writing := by
    by_cases same : other = place
    · subst same
      simp at writing
    · simp only [Function.update_of_ne same] at writing
      exact alone other left same writing

/-- A step keeps the order, and one that is no failure adds whole lines only. -/
theorem Moves.ordered {place : Nat} {action : Action} (ordered : Ordered records state turns begun)
    (moved : Moves (fun place => (records place).line) state place action after) :
    ∃ more begun, Ordered records after (turns ++ more) begun ∧
      (action ≠ .fail → ∀ turn ∈ more, turn.2 = none) := by
  cases moved with
  | refused waits =>
    -- Nothing is written, whoever holds the lock.
    have nothing : (writeAll (some 0) (records place).line).1 = [] := rfl
    have missed : wrote records (place, some 0) = false := by simp [wrote, writeAll, Record.line]
    refine ⟨[(place, some 0)], begun, ?_, fun other => absurd rfl other⟩
    rw [← missed]
    refine ordered.turn (by simp [waits]) ?_ ordered.idle (fun other owns => ?_) ?_
    · rw [nothing, List.append_nil]
      exact ordered.sink
    · obtain ⟨left, writing, line⟩ := ordered.held other owns
      refine ⟨fun same => ?_, left, writing, line⟩
      rw [same, waits] at writing
      cases writing
    · exact fun other left _ writing => ordered.alone other left writing
  | locks waits free =>
    -- Nobody holds the lock, so nothing of a line is there yet.
    obtain rfl := ordered.idle free
    refine ⟨[], [], ?_, by simp⟩
    rw [List.append_nil]
    refine ⟨ordered.sink, ordered.distinct, fun other whole => ?_,
      fun none => absurd none (by simp), fun other owns => ?_, fun other left writing => ?_⟩
    · rw [← ordered.returned]
      by_cases same : other = place
      · subst same
        simp [waits]
      · simp only [Function.update_of_ne same]
    · obtain rfl : place = other := Option.some.inj owns
      exact ⟨_, Function.update_self _ _ _, rfl⟩
    · by_cases same : other = place
      · rw [same]
      · simp only [Function.update_of_ne same] at writing
        exact absurd (ordered.alone other left writing) (by simp [free])
  | @writes left count holds =>
    have owns := ordered.alone place left holds
    obtain ⟨known, writing, line⟩ := ordered.held place owns
    obtain rfl : left = known := Stage.writing.inj (holds.symm.trans writing)
    refine ⟨[], begun ++ left.take count, ?_, by simp⟩
    rw [List.append_nil]
    refine ⟨?_, ordered.distinct, fun other whole => ?_, fun none => ?_, fun other owner => ?_,
      fun other more writing => ?_⟩
    · simp only [ordered.sink, List.append_assoc]
    · rw [← ordered.returned]
      by_cases same : other = place
      · subst same
        simp [holds]
      · simp only [Function.update_of_ne same]
    · rw [owns] at none
      cases none
    · obtain rfl : place = other := Option.some.inj (owns.symm.trans owner)
      refine ⟨left.drop count, Function.update_self _ _ _, ?_⟩
      rw [List.append_assoc, List.take_append_drop, line]
    · by_cases same : other = place
      · rw [same]
        exact owns
      · simp only [Function.update_of_ne same] at writing
        exact ordered.alone other more writing
  | finishes holds =>
    -- The line is there as a whole, and nothing behind it.
    have owns := ordered.alone place [] holds
    obtain ⟨left, writing, line⟩ := ordered.held place owns
    obtain rfl : [] = left := Stage.writing.inj (holds.symm.trans writing)
    rw [List.append_nil] at line
    have whole : wrote records (place, none) = true := rfl
    refine ⟨[(place, none)], [], ?_, by simp⟩
    rw [← whole]
    refine ordered.turn (fun whole returned => ?_) ?_ (fun _ => rfl) (fun other owner => ?_) ?_
    · rw [holds] at returned
      cases returned
    · rw [ordered.sink, line, List.append_nil]
      rfl
    · cases owner
    · intro other left apart writing
      exact absurd (owns.symm.trans (ordered.alone other left writing)) (by simp [Ne.symm apart])
  | @fails left holds more =>
    -- What was written of the line stays there.
    have owns := ordered.alone place left holds
    obtain ⟨known, writing, line⟩ := ordered.held place owns
    obtain rfl : left = known := Stage.writing.inj (holds.symm.trans writing)
    have taken : (writeAll (some begun.length) (records place).line).1 = begun := by
      rw [← line]
      exact List.take_left
    have missed : wrote records (place, some begun.length) = false := by
      have some := List.length_pos_iff.mpr more
      simp only [wrote, writeAll, ← line, List.length_append, decide_eq_false_iff_not]
      omega
    refine ⟨[(place, some begun.length)], [], ?_, fun other => absurd rfl other⟩
    rw [← missed]
    refine ordered.turn (fun whole returned => ?_) ?_ (fun _ => rfl) (fun other owner => ?_) ?_
    · rw [holds] at returned
      cases returned
    · rw [taken, List.append_nil]
      exact ordered.sink
    · cases owner
    · intro other left apart writing
      exact absurd (owns.symm.trans (ordered.alone other left writing)) (by simp [Ne.symm apart])

/-- After any steps the sink is ordered, with whole lines only while nothing has failed. -/
theorem execute_ordered
    (ran : execute (fun place => (records place).line) initial events = some state) :
    ∃ turns begun, Ordered records state turns begun ∧
      ((∀ place, (place, .fail) ∉ events) → ∀ turn ∈ turns, turn.2 = none) := by
  -- The induction is from the end, where one step is added.
  induction events using List.reverseRecOn generalizing state with
  | nil => exact ⟨[], [], Option.some.inj ran ▸ ordered_initial records, by simp⟩
  | append_singleton events event ih =>
    obtain ⟨middle, earlier, stepped⟩ := Folds.foldlM_concat.mp ran
    obtain ⟨turns, begun, ordered, clean⟩ := ih earlier
    obtain ⟨more, rest, after, added⟩ := (step_moves stepped).ordered ordered
    refine ⟨turns ++ more, rest, after, fun working turn member => ?_⟩
    rcases List.mem_append.mp member with member | member
    · exact clean (fun place failed => working place (List.mem_append_left _ failed)) turn member
    · refine added (fun failed => working event.1 ?_) turn member
      exact List.mem_append_right _ (List.mem_singleton.mpr (by rw [← failed]))

/--
Appends at once leave what they leave one after the other.

Any number of threads append, in any order of their steps, with writes of any sizes of which any may
fail. The appends that have returned have an order, and the sink has what they write in this order,
as much of each line as there was room for. Only the beginning of one more line may stand behind
that, which belongs to the append that holds the lock.
-/
theorem execute_appended
    (ran : execute (fun place => (records place).line) initial events = some state) :
    ∃ turns begun, (turns.map Prod.fst).Nodup ∧
      state.sink = (appendAll (attempts records turns)).1 ++ begun ∧
      (∀ place whole, state.stage place = .returned whole ↔
        ∃ turn ∈ turns, turn.1 = place ∧ wrote records turn = whole) ∧
      (state.owner = none → begun = []) ∧
      ∀ place left, state.stage place = .writing left →
        state.owner = some place ∧ begun ++ left = (records place).line := by
  -- Whoever holds a line has the lock, and what is begun is the part of that line that is written.
  obtain ⟨turns, begun, ordered, -⟩ := execute_ordered ran
  refine ⟨turns, begun, ordered.distinct, ordered.sink, ordered.returned, ordered.idle,
    fun place left writing => ?_⟩
  have owns := ordered.alone place left writing
  obtain ⟨known, holds, line⟩ := ordered.held place owns
  obtain rfl : left = known := Stage.writing.inj (writing.symm.trans holds)
  exact ⟨owns, line⟩

/-- Appends that all have room enough leave their lines. -/
theorem appendAll_whole (whole : ∀ turn ∈ turns, turn.2 = none) :
    (appendAll (attempts records turns)).1 =
      linesFor ((turns.map Prod.fst).map records) := by
  -- The induction is from the end, where one line is added.
  induction turns using List.reverseRecOn with
  | nil => rfl
  | append_singleton turns turn ih =>
    obtain ⟨earlier, last⟩ := List.forall_mem_append.mp whole
    have room : turn.2 = none := last turn (List.mem_singleton_self _)
    have enough : (writeAll turn.2 (records turn.1).line).2 = true := by rw [room]; rfl
    rw [attempts, List.map_append, List.map_singleton, appendAll_concat,
      @appendStep_whole _ (records turn.1, turn.2) enough, ← attempts, ih earlier]
    simp [linesFor]

/-- A record whose newline is missing yet is read like the others. -/
theorem aggregate_unended (before : List (Record serde)) (record : Record serde)
    (kind : Option Bytes) (last : Option Nat) :
    aggregate serde (some (linesFor before ++ record.text)) kind last =
      aggregate serde (some (linesFor (before ++ [record]))) kind last := by
  -- The lines are the same, as a reader does not ask for the newline of the last one.
  have some : record.text ≠ [] := by
    obtain ⟨body, spelled⟩ := record.braced
    rw [Record.text, spelled]
    simp
  have same : lines (linesFor before ++ record.text) = lines (linesFor (before ++ [record])) := by
    rw [ByteLines.lines_append (linesFor_complete before), ByteLines.lines_plain record.plain,
      if_neg some, lines_linesFor, lines_linesFor, List.map_append, List.map_singleton]
  have sound : Utf8.valid (linesFor before ++ record.text) = true :=
    Utf8.valid_append (linesFor_valid before) record.isText
  rw [aggregate, aggregate, if_pos sound, if_pos (linesFor_valid _), recordsByKind, recordsByKind,
    same]

/-- Of a line that lacks its newline at most, the record is there. -/
theorem begun_of_short {record : Record serde} {begun left : Bytes}
    (line : begun ++ left = record.line) (short : left.length ≤ 1) :
    begun = record.line ∨ begun = record.text := by
  -- The line is the text with a newline behind it, so the one byte left is the newline.
  cases left with
  | nil => exact .inl (List.append_nil begun ▸ line)
  | cons newline more =>
    obtain rfl : more = [] := List.length_eq_zero_iff.mp (by simpa using short)
    exact .inr (List.append_inj_left' line rfl)

/-- While the contents are text, the records that are there as a whole are read, and only those. -/
private theorem execute_text (strict : serde.Strict)
    (ran : execute (fun place => (records place).line) initial events = some state)
    (working : ∀ place, (place, .fail) ∉ events) :
    ∃ order : List Nat, order.Nodup ∧
      (∀ place, state.stage place = .returned true → place ∈ order) ∧
      (∀ place ∈ order, state.stage place = .returned true ∨
        ∃ left, state.stage place = .writing left ∧ left.length ≤ 1) ∧
      (Utf8.valid state.sink = true → ∀ kind last, aggregate serde (some state.sink) kind last =
        aggregate serde (some (linesFor (order.map records))) kind last) := by
  obtain ⟨turns, begun, ordered, clean⟩ := execute_ordered ran
  have whole := clean working
  have sink := ordered.sink
  rw [appendAll_whole whole] at sink
  have done : ∀ place, state.stage place = .returned true ↔ place ∈ turns.map Prod.fst := by
    intro place
    rw [ordered.returned, List.mem_map]
    refine exists_congr fun turn => and_congr_right fun member => and_iff_left_of_imp fun _ => ?_
    rw [wrote, whole turn member]
    rfl
  cases owner : state.owner with
  | none =>
    rw [ordered.idle owner, List.append_nil] at sink
    refine ⟨_, ordered.distinct, fun place => (done place).mp,
      fun place member => .inl ((done place).mpr member), fun _ kind last => ?_⟩
    rw [sink]
  | some place =>
    obtain ⟨left, writing, line⟩ := ordered.held place owner
    have fresh : place ∉ turns.map Prod.fst := by
      intro member
      have returned := (done place).mpr member
      rw [writing] at returned
      cases returned
    -- The record is read when its text is there, and nothing of it is read before that.
    by_cases short : left.length ≤ 1
    · refine ⟨turns.map Prod.fst ++ [place],
        ordered.distinct.append (List.nodup_singleton _) (List.disjoint_singleton.mpr fresh),
        fun other returned => List.mem_append_left _ ((done other).mp returned),
        fun other member => ?_, fun _ kind last => ?_⟩
      · rcases List.mem_append.mp member with member | member
        · exact .inl ((done other).mpr member)
        · rw [List.mem_singleton.mp member]
          exact .inr ⟨left, writing, short⟩
      · rw [sink, List.map_append, List.map_singleton]
        rcases begun_of_short line short with same | same
        · simp [linesFor, same]
        · rw [same]
          exact aggregate_unended _ _ kind last
    · refine ⟨_, ordered.distinct, fun other => (done other).mp,
        fun other member => .inl ((done other).mpr member), fun isText kind last => ?_⟩
      have shorter : begun.length < (records place).text.length := by
        have length := congrArg List.length line
        simp only [Record.line, List.length_append, List.length_singleton] at length
        omega
      have begins : begun <+: (records place).text :=
        List.prefix_of_prefix_length_le ⟨left, line⟩ (List.prefix_append ..) shorter.le
      have missing : begun ≠ (records place).text := fun same => by
        rw [same] at shorter
        exact lt_irrefl _ shorter
      have sound := linesFor_valid ((turns.map Prod.fst).map records)
      rw [sink] at isText ⊢
      exact aggregate_append (linesFor_complete _) sound
        (fun member => (records place).plain (begins.mem member))
        (fromStr_torn strict (records place) begins missing)
        ((Utf8.valid_append_eq sound begun).symm.trans isText) kind last

/-- Only an append that is in the middle of its line leaves contents that are no text. -/
private theorem execute_garbled
    (ran : execute (fun place => (records place).line) initial events = some state)
    (working : ∀ place, (place, .fail) ∉ events) (garbled : Utf8.valid state.sink = false) :
    ∃ place left, state.owner = some place ∧ state.stage place = .writing left ∧
      1 < left.length := by
  obtain ⟨turns, begun, ordered, clean⟩ := execute_ordered ran
  have sink := ordered.sink
  rw [appendAll_whole (clean working)] at sink
  have front := linesFor_valid ((turns.map Prod.fst).map records)
  rw [sink, Utf8.valid_append_eq front] at garbled
  cases owner : state.owner with
  | none =>
    rw [ordered.idle owner] at garbled
    cases garbled
  | some place =>
    obtain ⟨left, writing, line⟩ := ordered.held place owner
    refine ⟨place, left, rfl, writing, ?_⟩
    -- With no more missing than the newline, the record is there, and that is text.
    by_contra short
    have text : Utf8.valid begun = true := by
      rcases begun_of_short line (Nat.not_lt.mp short) with rfl | rfl
      · exact Utf8.valid_append (records place).isText (by decide)
      · exact (records place).isText
    rw [text] at garbled
    cases garbled

/--
Whoever reads the sink at any moment finds every record that is there as a whole, and only those.

No call fails. While the contents are text, the statistics are those of the records of all appends
that have returned, in the order of their turns, and maybe of one more, which lacks its newline at
most; no line is torn by another one. The contents are no text only while an append is in the middle
of its line, and then nothing is found at all.
-/
theorem execute_read (strict : serde.Strict)
    (ran : execute (fun place => (records place).line) initial events = some state)
    (working : ∀ place, (place, .fail) ∉ events) :
    ∃ order : List Nat, order.Nodup ∧
      (∀ place, state.stage place = .returned true → place ∈ order) ∧
      (∀ place ∈ order, state.stage place = .returned true ∨
        ∃ left, state.stage place = .writing left ∧ left.length ≤ 1) ∧
      (Utf8.valid state.sink = true → ∀ kind last, aggregate serde (some state.sink) kind last =
        aggregate serde (some (linesFor (order.map records))) kind last) ∧
      (Utf8.valid state.sink = false →
        (∀ kind last, aggregate serde (some state.sink) kind last = []) ∧
          ∃ place left, state.owner = some place ∧ state.stage place = .writing left ∧
            1 < left.length) := by
  obtain ⟨order, distinct, all, only, same⟩ := execute_text strict ran working
  refine ⟨order, distinct, all, only, same, fun garbled => ⟨fun kind last => ?_, ?_⟩⟩
  · simp [aggregate, garbled]
  · exact execute_garbled ran working garbled

/-- An append on its own does what the function does, also when that fails. -/
theorem execute_alone {place : Nat} (free : state.owner = none)
    (waits : state.stage place = .serialised) (room : Option Nat) :
    ∃ actions : List Action,
      execute (fun place => (records place).line) state (actions.map (place, ·)) =
        some ⟨(append serde room (records place).value state.sink).1, none,
          Function.update state.stage place
            (.returned (append serde room (records place).value state.sink).2)⟩ := by
  rw [append_eq]
  have some : 0 < (records place).line.length := by simp [Record.line]
  cases whole : (writeAll room (records place).line).2 with
  | true =>
    refine ⟨[.lock, .write (records place).line.length, .finish], ?_⟩
    rw [writeAll_whole whole]
    simp [execute, step, waits, free, some]
  | false =>
    -- What is written of the line is less than all of it.
    obtain ⟨begins, shorter⟩ := writeAll_refused whole
    generalize (writeAll room (records place).line).1 = begun at begins shorter
    obtain ⟨left, line⟩ := begins
    have more : left ≠ [] := by
      rintro rfl
      rw [List.append_nil] at line
      rw [line] at shorter
      exact lt_irrefl _ shorter
    obtain ⟨first, rest, rfl⟩ := List.exists_cons_of_ne_nil more
    cases begun with
    | nil =>
      refine ⟨[.lock, .fail], ?_⟩
      rw [List.nil_append] at line
      simp [execute, step, waits, free, ← line]
    | cons byte bytes =>
      refine ⟨[.lock, .write (byte :: bytes).length, .fail], ?_⟩
      simp [execute, step, waits, free, ← line]

end Runs

/-- A record of a path at the second place, and the other one elsewhere. -/
def twoRecords (place : Nat) : Record pathSerde := if place = 1 then pathWritten else syncWritten

/-- One append writes its line in two pieces, while another one fails at once. -/
def pieces : List (Nat × Action) :=
  [(0, .lock), (0, .write 5), (2, .fail), (0, .write 11), (0, .finish)]

/-- A line in pieces, and one that is broken off: the two have an order. -/
theorem execute_appended_pieces :
    ∃ state, execute (fun place => (twoRecords place).line) initial
      (pieces ++ [(1, .lock), (1, .write 3), (1, .fail)]) = some state ∧
    state.sink = syncWritten.line ++ pathWritten.line.take 3 ∧
    ∃ turns : List (Nat × Option Nat), (turns.map Prod.fst).Nodup ∧
      state.sink = (appendAll (attempts twoRecords turns)).1 ∧
      ∃ turn ∈ turns, turn.1 = 1 ∧ wrote twoRecords turn = false := by
  -- The second append has failed behind three bytes, so it has a turn that wrote no whole line.
  obtain ⟨state, ran, sink, owner, failed⟩ : ∃ state,
      execute (fun place => (twoRecords place).line) initial
        (pieces ++ [(1, .lock), (1, .write 3), (1, .fail)]) = some state ∧
      state.sink = syncWritten.line ++ pathWritten.line.take 3 ∧ state.owner = none ∧
      state.stage 1 = .returned false := ⟨_, rfl, by decide, rfl, rfl⟩
  obtain ⟨turns, begun, distinct, same, returned, idle, -⟩ := execute_appended ran
  rw [idle owner, List.append_nil] at same
  exact ⟨state, ran, sink, turns, distinct, same, (returned 1 false).mp failed⟩

/-- A reader comes while a line is there in part, and finds the one in front of it. -/
theorem execute_read_part :
    ∃ state, execute (fun place => (twoRecords place).line) initial
      [(0, .lock), (0, .write 16), (0, .finish), (1, .lock), (1, .write 9)] = some state ∧
    state.sink = syncWritten.line ++ pathWritten.line.take 9 ∧
    ∃ order : List Nat, 0 ∈ order ∧ 1 ∉ order ∧ ∀ kind last,
      aggregate pathSerde (some state.sink) kind last =
        aggregate pathSerde (some (linesFor (order.map twoRecords))) kind last := by
  obtain ⟨state, ran, sink, first, second⟩ : ∃ state,
      execute (fun place => (twoRecords place).line) initial
        [(0, .lock), (0, .write 16), (0, .finish), (1, .lock), (1, .write 9)] = some state ∧
      state.sink = syncWritten.line ++ pathWritten.line.take 9 ∧
      state.stage 0 = .returned true ∧ state.stage 1 = .writing (pathWritten.line.drop 9) :=
    ⟨_, rfl, by decide, rfl, rfl⟩
  have isText : Utf8.valid state.sink = true := by
    rw [sink]
    decide
  obtain ⟨order, -, all, only, same, -⟩ := execute_read pathSerde_strict ran (by simp)
  refine ⟨state, ran, sink, order, all 0 first, fun member => ?_, same isText⟩
  -- More than a newline is missing of the second line.
  rcases only 1 member with returned | ⟨left, writing, short⟩
  · rw [second] at returned
    cases returned
  · obtain rfl := Stage.writing.inj (second.symm.trans writing)
    exact absurd short (by decide)

end Appending

end GitFullSend

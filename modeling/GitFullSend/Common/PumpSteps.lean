import GitFullSend.Common.PumpSplitting
import GitFullSend.Lib.Channels

/-! The byte pump as a thread, which reads and writes while others do the same. -/

namespace GitFullSend

open Utf8 (Bytes)
open Arrivals (Arrival delivered)
open Channels (Channel)

/-- What a channel between two processes has room for. -/
structure Buffer where
  /-- Whether one that holds so many bytes takes so many more. -/
  fits : Nat → Nat → Bool
  /-- One that is empty takes a byte. -/
  empty : fits 0 1 = true
  /-- One that takes some bytes takes a single one. -/
  single : ∀ held count, 0 < count → fits held count = true → fits held 1 = true

namespace Pump

/-- How far a pump has come. -/
inductive Stage where
  | reading
  /-- It writes a chunk, of which this part is written and the other one is left. -/
  | writing (done left : Bytes)
  | stopped

/-- The next thing a pump does. -/
inductive Action where
  /-- A call of the reader gives so many bytes. -/
  | read (count : Nat)
  | interrupted
  | endOfFile
  /-- A call of the reader fails. -/
  | fail
  /-- A call of the writer takes so many bytes. -/
  | write (count : Nat)
  /-- A call of the writer fails. -/
  | breakOff
  deriving DecidableEq

/-- What a pump stands between. -/
structure Between where
  source : Channel UInt8
  /-- Nothing more comes into the source. -/
  ended : Bool
  /-- A call of the reader may fail. -/
  failing : Bool
  sink : Channel UInt8
  /-- The sink takes nothing any more. -/
  closed : Bool
  /-- A call of the writer may fail. -/
  broken : Bool

end Pump

/-- A pump on its way. -/
structure Pump where
  stage : Pump.Stage
  /-- What its calls of the reader met. -/
  met : List Arrival
  /-- The counter behind the last chunk that was handed on whole. -/
  split : FlushSplit

namespace Pump

/-- Before the first call of the reader. -/
def start : Pump := ⟨.reading, [], .new⟩

/-- One step of a pump with what it does to both channels, or `none` when it cannot come now. -/
def advance (buffer : Buffer) (between : Between) (pump : Pump) (action : Action) :
    Option (Pump × Channel UInt8 × Channel UInt8) :=
  match pump.stage, action with
  | .reading, .read count =>
    match between.source.left.take count with
    | [] => none
    | first :: more =>
      if count ≤ between.source.left.length ∧ count ≤ bufferSize then
        some (⟨.writing [] (first :: more), pump.met ++ [.data first more], pump.split⟩,
          between.source.take count, between.sink)
      else none
  | .reading, .interrupted =>
    some ({ pump with met := pump.met ++ [.interrupted] }, between.source, between.sink)
  | .reading, .endOfFile =>
    if between.source.left = [] ∧ between.ended then
      some ({ pump with stage := .stopped }, between.source, between.sink)
    else none
  | .reading, .fail =>
    if between.failing then
      some (⟨.stopped, pump.met ++ [.failed], pump.split⟩, between.source, between.sink)
    else none
  | .writing done left, .write count =>
    if 0 < count ∧ count ≤ left.length ∧ !between.closed ∧
        buffer.fits between.sink.left.length count then
      let sink := between.sink.put (left.take count)
      match left.drop count with
      | [] => some (⟨.reading, pump.met, pump.split.feed (done ++ left)⟩, between.source, sink)
      | first :: more =>
        some (⟨.writing (done ++ left.take count) (first :: more), pump.met, pump.split⟩,
          between.source, sink)
    else none
  | .writing _ _, .breakOff =>
    if between.broken then some ({ pump with stage := .stopped }, between.source, between.sink)
    else none
  | _, _ => none

/-- What a step of a pump can be. -/
inductive Moves (between : Between) (pump : Pump) :
    Action → Pump → Channel UInt8 → Channel UInt8 → Prop where
  | reads {count : Nat} {first : UInt8} {more : Bytes} (waits : pump.stage = .reading)
      (chunk : between.source.left.take count = first :: more) : Moves between pump (.read count)
        ⟨.writing [] (first :: more), pump.met ++ [.data first more], pump.split⟩
        (between.source.take count) between.sink
  | interrupted (waits : pump.stage = .reading) : Moves between pump .interrupted
      { pump with met := pump.met ++ [.interrupted] } between.source between.sink
  | ends (waits : pump.stage = .reading) (nothing : between.source.left = [])
      (ended : between.ended = true) : Moves between pump .endOfFile
        { pump with stage := .stopped } between.source between.sink
  | fails (waits : pump.stage = .reading) (failing : between.failing = true) :
      Moves between pump .fail ⟨.stopped, pump.met ++ [.failed], pump.split⟩
        between.source between.sink
  | writesOn {done left rest : Bytes} {count : Nat} (holds : pump.stage = .writing done left)
      (some : 0 < count) (unclosed : between.closed = false) (split : left.drop count = rest)
      (more : rest ≠ []) : Moves between pump (.write count)
        ⟨.writing (done ++ left.take count) rest, pump.met, pump.split⟩ between.source
        (between.sink.put (left.take count))
  | writesOut {done left : Bytes} {count : Nat} (holds : pump.stage = .writing done left)
      (unclosed : between.closed = false) : Moves between pump (.write count)
        ⟨.reading, pump.met, pump.split.feed (done ++ left)⟩ between.source
        (between.sink.put left)
  | breaks {done left : Bytes} (holds : pump.stage = .writing done left)
      (broken : between.broken = true) : Moves between pump .breakOff
        { pump with stage := .stopped } between.source between.sink

section Steps

variable {buffer : Buffer} {between : Between} {pump after : Pump} {action : Action}
  {source sink : Channel UInt8}

/-- Every step is one of these. -/
theorem advance_moves (moved : advance buffer between pump action = some (after, source, sink)) :
    Moves between pump action after source sink := by
  -- The cases are those of the definition, by the stage of the pump.
  unfold advance at moved
  cases stage : pump.stage with
  | reading =>
    cases action with
    | read count =>
      simp only [stage] at moved
      cases chunk : between.source.left.take count with
      | nil => simp [chunk] at moved
      | cons first more =>
        simp only [chunk] at moved
        split at moved
        · cases moved
          exact .reads stage chunk
        · cases moved
    | interrupted =>
      simp only [stage] at moved
      cases moved
      exact stage ▸ .interrupted stage
    | endOfFile =>
      simp only [stage] at moved
      split at moved
      · rename_i ends
        cases moved
        exact .ends stage ends.1 ends.2
      · cases moved
    | fail =>
      simp only [stage] at moved
      split at moved
      · rename_i failing
        cases moved
        exact .fails stage failing
      · cases moved
    | write count => simp [stage] at moved
    | breakOff => simp [stage] at moved
  | writing done left =>
    cases action with
    | write count =>
      simp only [stage] at moved
      split at moved
      · rename_i able
        obtain ⟨some, within, unclosed, -⟩ := able
        have unclosed : between.closed = false := by simpa using unclosed
        cases rest : left.drop count with
        | nil =>
          simp only [rest] at moved
          cases moved
          have whole : left.take count = left :=
            List.take_of_length_le (List.drop_eq_nil_iff.mp rest)
          rw [whole]
          exact .writesOut stage unclosed
        | cons first more =>
          simp only [rest] at moved
          cases moved
          exact .writesOn stage some unclosed rest (by simp)
      · cases moved
    | breakOff =>
      simp only [stage] at moved
      split at moved
      · rename_i broken
        cases moved
        exact .breaks stage broken
      · cases moved
    | read count => simp [stage] at moved
    | interrupted => simp [stage] at moved
    | endOfFile => simp [stage] at moved
    | fail => simp [stage] at moved
  | stopped => cases action <;> simp [stage] at moved

/-- What a pump waits for when it cannot do anything. -/
inductive Waits (buffer : Buffer) (between : Between) (pump : Pump) : Prop where
  /-- It is over. -/
  | stopped (done : pump.stage = .stopped)
  /-- Nothing is there to read, and more may come. -/
  | source (waits : pump.stage = .reading) (nothing : between.source.left = [])
      (unended : between.ended = false) (sound : between.failing = false)
  /-- There is no room to write to. -/
  | sink {done left : Bytes} (holds : pump.stage = .writing done left)
      (full : between.closed = true ∨ buffer.fits between.sink.left.length 1 = false)
      (whole : between.broken = false)

/-- A pump that cannot do anything waits for one of the two channels. -/
theorem waits_of_blocked (nonempty : ∀ done left, pump.stage = .writing done left → left ≠ [])
    (blocked : ∀ action, action ≠ .interrupted → advance buffer between pump action = none) :
    Waits buffer between pump := by
  -- A single byte is tried, in either direction.
  cases stage : pump.stage with
  | stopped => exact .stopped stage
  | reading =>
    have single := blocked (.read 1) (by simp)
    have ending := blocked .endOfFile (by simp)
    have failing := blocked .fail (by simp)
    cases bytes : between.source.left with
    | nil =>
      refine .source stage bytes ?_ ?_
      · simpa [advance, stage, bytes] using ending
      · simpa [advance, stage] using failing
    | cons first more =>
      simp only [advance, stage, bytes, List.take_succ_cons, List.take_zero] at single
      rw [if_pos ⟨by simp, by decide⟩] at single
      cases single
  | writing done left =>
    have single := blocked (.write 1) (by simp)
    have breaking := blocked .breakOff (by simp)
    refine .sink stage ?_ (by simpa [advance, stage] using breaking)
    by_contra room
    obtain ⟨unclosed, fits⟩ := not_or.mp room
    have within : 1 ≤ left.length := List.length_pos_iff.mpr (nonempty done left stage)
    simp only [advance, stage] at single
    rw [if_pos ⟨Nat.one_pos, within, by simpa using unclosed, by simpa using fits⟩] at single
    split at single <;> cases single

/--
What a pump has before it, where each byte of its sink counts as much as this weight.

A byte that it holds counts one more, and a byte of its source three more.
-/
def Stage.cost (weight : Nat) : Stage → Nat
  | reading => 1
  | writing _ left => (weight + 1) * left.length + 2
  | stopped => 0

/-- Every step but an interrupted call brings a pump closer to where it has to wait. -/
theorem Moves.cost (weight : Nat) (moved : Moves between pump action after source sink)
    (progress : action ≠ .interrupted) :
    after.stage.cost weight + (weight + 3) * source.left.length + weight * sink.left.length <
      pump.stage.cost weight + (weight + 3) * between.source.left.length +
        weight * between.sink.left.length := by
  -- A byte that moves on counts less there, which pays for the step also where there is only one.
  cases moved with
  | @reads count first more waits chunk =>
    have length := congrArg List.length (List.take_append_drop count between.source.left)
    rw [chunk, List.length_append] at length
    simp only [waits, Stage.cost, Channel.take_left, ← length, List.length_cons, Nat.mul_add,
      Nat.add_mul]
    omega
  | interrupted => exact absurd rfl progress
  | ends waits => simp [waits, Stage.cost]
  | fails waits => simp [waits, Stage.cost]
  | @writesOn done left rest count holds some unclosed split more =>
    have length := congrArg List.length (List.take_append_drop count left)
    have taken : 0 < (left.take count).length := by
      have within := List.length_pos_iff.mpr more
      have dropped := congrArg List.length split
      rw [List.length_drop] at dropped
      rw [List.length_take]
      omega
    rw [split, List.length_append] at length
    simp only [holds, Stage.cost, Channel.put_left, List.length_append, ← length, Nat.mul_add,
      Nat.add_mul]
    omega
  | writesOut holds =>
    simp only [holds, Stage.cost, Channel.put_left, List.length_append, Nat.mul_add, Nat.add_mul]
    omega
  | breaks holds =>
    simp only [holds, Stage.cost]
    omega

/-- An interrupted call changes nothing of what a pump has before it. -/
theorem Moves.interrupted_cost (moved : Moves between pump .interrupted after source sink) :
    after.stage = pump.stage ∧ source = between.source ∧ sink = between.sink := by
  cases moved
  exact ⟨rfl, rfl, rfl⟩

end Steps

section Copies

/-- The chunks among what a reader met. -/
def pieces : List Arrival → Nat
  | [] => 0
  | .data _ _ :: rest => pieces rest + 1
  | _ :: rest => pieces rest

/-- Behind pieces that are all handed on, a copy goes on with the others. -/
theorem pump_append {room : Nat → Option Nat} {call : Nat} {split : FlushSplit}
    {earlier : List Arrival} (working : .failed ∉ earlier)
    (whole : ∀ later < pieces earlier, room (call + later) = none) (rest : List Arrival) :
    pump room call split (earlier ++ rest) =
      let front := pump room call split earlier
      let back := pump room (call + pieces earlier) front.split rest
      ⟨back.split, front.written ++ back.written, front.read ++ back.read⟩ := by
  -- The induction is on what was met first, piece by piece.
  induction earlier generalizing call split with
  | nil => rfl
  | cons arrival earlier ih =>
    have others : .failed ∉ earlier := fun member => working (List.mem_cons_of_mem _ member)
    cases arrival with
    | interrupted => exact ih others whole
    | failed => exact absurd (List.mem_cons_self) working
    | data first more =>
      have here : room call = none := whole 0 (Nat.succ_pos _)
      have behind := @ih (call + 1) (split.feed (first :: more)) others fun later less => by
        rw [Nat.add_assoc, Nat.add_comm 1]
        exact whole (later + 1) (Nat.succ_lt_succ less)
      simp only [List.cons_append, pump, here, behind, pieces, List.append_assoc, Nat.add_assoc,
        Nat.add_comm 1]

/-- A copy depends on the room of its own writes only. -/
theorem pump_congr {room other : Nat → Option Nat} {call : Nat} {split : FlushSplit}
    {met : List Arrival}
    (same : ∀ later < pieces met, room (call + later) = other (call + later)) :
    pump room call split met = pump other call split met := by
  -- The induction is on what was met, and each chunk is one write.
  induction met generalizing call split with
  | nil => rfl
  | cons arrival met ih =>
    cases arrival with
    | interrupted => exact ih same
    | failed => rfl
    | data first more =>
      have here : room call = other call := same 0 (Nat.succ_pos _)
      have behind := @ih (call + 1) (split.feed (first :: more)) fun later less => by
        rw [Nat.add_assoc, Nat.add_comm 1]
        exact same (later + 1) (Nat.succ_lt_succ less)
      simp only [pump, here, behind]

/-- A copy none of whose writes fails reads what arrives before the first failure. -/
theorem pump_delivered (call : Nat) (split : FlushSplit) (met : List Arrival) :
    (pump (fun _ => none) call split met).read = delivered met := by
  -- The induction is on what was met.
  induction met generalizing call split with
  | nil => rfl
  | cons arrival met ih =>
    cases arrival with
    | interrupted => exact ih call split
    | failed => rfl
    | data first more => simp only [pump, delivered, ih]

/-- What a copy writes are the first ones of the bytes it reads. -/
theorem pump_written (room : Nat → Option Nat) (call : Nat) (split : FlushSplit)
    (met : List Arrival) :
    (pump room call split met).written <+: (pump room call split met).read := by
  -- The induction is on what was met; a write that fails is the last.
  induction met generalizing call split with
  | nil => exact List.prefix_rfl
  | cons arrival met ih =>
    cases arrival with
    | interrupted => exact ih call split
    | failed => exact List.prefix_rfl
    | data first more =>
      have onward := (List.prefix_append_right_inj (first :: more)).mpr
        (ih (call + 1) (split.feed (first :: more)))
      simp only [pump]
      split
      · exact onward
      · split
        · exact onward
        · exact List.take_prefix ..

end Copies

/-- All that was met was handed on, which are these bytes. -/
structure Passed (met : List Arrival) (split : FlushSplit) (bytes : Bytes) : Prop where
  working : .failed ∉ met
  same : pumpSplitting (fun _ => none) met = ⟨split, bytes, bytes⟩

namespace Passed

variable {met : List Arrival} {split : FlushSplit} {bytes done left : Bytes} {first : UInt8}
  {more : Bytes}

/-- What is met behind the others is copied behind them. -/
theorem append (passed : Passed met split bytes) (room : Nat → Option Nat)
    (whole : ∀ call < pieces met, room call = none) (rest : List Arrival) :
    pumpSplitting room (met ++ rest) =
      let back := pump room (pieces met) split rest
      ⟨back.split, bytes ++ back.written, bytes ++ back.read⟩ := by
  -- Before the others the copy has the same room as with no failure at all.
  have here : pump room 0 .new met = ⟨split, bytes, bytes⟩ := by
    rw [← passed.same, pumpSplitting]
    exact pump_congr fun later less => by simpa using whole later less
  rw [pumpSplitting, pump_append passed.working (by simpa using whole), here]
  simp

/-- What was met delivers these bytes. -/
theorem delivers (passed : Passed met split bytes) : delivered met = bytes := by
  rw [← pump_delivered 0 .new met]
  exact congrArg Pumped.read passed.same

/-- A chunk that is handed on as a whole is one more. -/
theorem data (passed : Passed met split bytes) (chunk : first :: more = done ++ left) :
    Passed (met ++ [.data first more]) (split.feed (done ++ left)) (bytes ++ done ++ left) where
  working := by simp [passed.working]
  same := by
    rw [passed.append _ fun _ _ => rfl, List.append_assoc, ← chunk]
    simp [pump]

/-- An interrupted call changes nothing. -/
theorem interrupted (passed : Passed met split bytes) :
    Passed (met ++ [.interrupted]) split bytes where
  working := by simp [passed.working]
  same := by
    rw [passed.append _ fun _ _ => rfl]
    simp [pump]

/-- A call of the reader that fails ends the copy. -/
theorem failed (passed : Passed met split bytes) :
    pumpSplitting (fun _ => none) (met ++ [.failed]) = ⟨split, bytes, bytes⟩ := by
  rw [passed.append _ fun _ _ => rfl]
  simp [pump]

/-- A chunk of which not all is written ends the copy. -/
theorem brokenOff (passed : Passed met split bytes) (chunk : first :: more = done ++ left)
    (nonempty : left ≠ []) :
    pumpSplitting (fun call => if call = pieces met then some done.length else none)
      (met ++ [.data first more]) = ⟨split, bytes ++ done, bytes ++ done ++ left⟩ := by
  -- The last write has room for the part that is written, and all others have enough.
  have short : ¬ (first :: more).length ≤ done.length := by
    have more := List.length_pos_iff.mpr nonempty
    rw [chunk, List.length_append]
    omega
  rw [passed.append _ fun call less => if_neg less.ne]
  simp only [pump, if_pos, if_neg short]
  rw [chunk, List.take_left, List.append_assoc]

end Passed

/-- A pump has done what the copy of what it met does up to here. -/
def Sound (pump : Pump) (read written : Bytes) : Prop :=
  match pump.stage with
  | .reading => written = read ∧ Passed pump.met pump.split read
  | .writing done left => left ≠ [] ∧ ∃ earlier first more before,
      first :: more = done ++ left ∧ pump.met = earlier ++ [.data first more] ∧
      Passed earlier pump.split before ∧ written = before ++ done ∧ read = written ++ left
  | .stopped => delivered pump.met = read ∧
      ∃ room, pumpSplitting room pump.met = ⟨pump.split, written, read⟩

/-- At first nothing is met, and nothing is done. -/
theorem start_sound : start.Sound [] [] := ⟨rfl, by simp [start], rfl⟩

section Sound

variable {buffer : Buffer} {between : Between} {pump after : Pump} {action : Action}
  {source sink : Channel UInt8}

/-- A chunk that is written in part has more left. -/
theorem Sound.nonempty {read written done left : Bytes} (sound : pump.Sound read written)
    (holds : pump.stage = .writing done left) : left ≠ [] := by
  rw [Sound, holds] at sound
  exact sound.1

/-- What a pump has written are the first ones of the bytes it has read. -/
theorem Sound.begins {read written : Bytes} (sound : pump.Sound read written) :
    written <+: read := by
  -- The cases are the stages, and only a chunk that is broken off makes a difference.
  cases stage : pump.stage with
  | reading =>
    rw [Sound, stage] at sound
    exact sound.1 ▸ List.prefix_rfl
  | writing done left =>
    rw [Sound, stage] at sound
    obtain ⟨-, -, -, -, -, -, -, -, -, rfl⟩ := sound
    exact List.prefix_append ..
  | stopped =>
    rw [Sound, stage] at sound
    obtain ⟨-, room, same⟩ := sound
    have begins := pump_written room 0 .new pump.met
    rw [← pumpSplitting, same] at begins
    exact begins

/-- Every step of a pump is one of the copy. -/
theorem Moves.sound (moved : Moves between pump action after source sink)
    (sound : pump.Sound between.source.taken between.sink.all) :
    after.Sound source.taken sink.all := by
  -- The cases are the steps; a chunk that is read joins what was met, and is written in parts.
  cases moved with
  | @reads count first more waits chunk =>
    rw [Sound, waits] at sound
    obtain ⟨same, passed⟩ := sound
    exact ⟨by simp, pump.met, first, more, _, rfl, rfl, passed, by rw [same, List.append_nil],
      by rw [Channel.take_taken, chunk, same]⟩
  | interrupted waits =>
    rw [Sound, waits] at sound
    rw [Sound, waits]
    exact ⟨sound.1, sound.2.interrupted⟩
  | ends waits =>
    rw [Sound, waits] at sound
    obtain ⟨same, passed⟩ := sound
    exact ⟨passed.delivers, _, by rw [passed.same, same]⟩
  | fails waits =>
    rw [Sound, waits] at sound
    obtain ⟨same, passed⟩ := sound
    have reads := pump_delivered 0 .new (pump.met ++ [.failed])
    rw [← pumpSplitting, passed.failed] at reads
    exact ⟨reads.symm, _, by rw [passed.failed, same]⟩
  | @writesOn done left rest count holds some unclosed split more =>
    rw [Sound, holds] at sound
    obtain ⟨-, earlier, first, others, before, chunk, met, passed, written, read⟩ := sound
    have parts : left.take count ++ rest = left := by rw [← split, List.take_append_drop]
    refine ⟨more, earlier, first, others, before, ?_, met, passed, ?_, ?_⟩
    · rw [chunk, List.append_assoc, parts]
    · rw [Channel.put_all, written, List.append_assoc]
    · rw [Channel.put_all, read, List.append_assoc, parts]
  | @writesOut done left count holds =>
    rw [Sound, holds] at sound
    obtain ⟨-, earlier, first, others, before, chunk, met, passed, written, read⟩ := sound
    have next := passed.data chunk
    rw [← met, ← written, ← read] at next
    exact ⟨by rw [Channel.put_all, read], next⟩
  | breaks holds =>
    rw [Sound, holds] at sound
    obtain ⟨nonempty, earlier, first, others, before, chunk, met, passed, written, read⟩ :=
      sound
    have copied := passed.brokenOff chunk nonempty
    rw [← met, ← written, ← read] at copied
    have next := (passed.data chunk).delivers
    rw [← met, ← written, ← read] at next
    exact ⟨next, _, copied⟩

/-- A pump that is over without a failure of the writer has written all that it has read. -/
theorem Moves.handed (moved : Moves between pump action after source sink)
    (sound : pump.Sound between.source.taken between.sink.all) (works : action ≠ .breakOff)
    (stopped : after.stage = .stopped) : sink.all = source.taken := by
  -- It ends behind a chunk that was handed on.
  cases moved with
  | ends waits =>
    rw [Sound, waits] at sound
    exact sound.1
  | fails waits =>
    rw [Sound, waits] at sound
    exact sound.1
  | breaks => exact absurd rfl works
  | reads => cases stopped
  | interrupted waits => simp [waits] at stopped
  | writesOn => cases stopped
  | writesOut => cases stopped

/-- A pump puts nothing into its source, and takes nothing from its sink. -/
theorem Moves.frame (moved : Moves between pump action after source sink) :
    source.all = between.source.all ∧ sink.taken = between.sink.taken ∧
      ∃ more, sink.all = between.sink.all ++ more := by
  -- A step reads or writes, or it does neither.
  cases moved with
  | reads => exact ⟨Channel.take_all .., rfl, [], (List.append_nil _).symm⟩
  | interrupted => exact ⟨rfl, rfl, [], (List.append_nil _).symm⟩
  | ends => exact ⟨rfl, rfl, [], (List.append_nil _).symm⟩
  | fails => exact ⟨rfl, rfl, [], (List.append_nil _).symm⟩
  | writesOn => exact ⟨rfl, rfl, _, Channel.put_all ..⟩
  | writesOut => exact ⟨rfl, rfl, _, Channel.put_all ..⟩
  | breaks => exact ⟨rfl, rfl, [], (List.append_nil _).symm⟩

end Sound

end Pump

end GitFullSend

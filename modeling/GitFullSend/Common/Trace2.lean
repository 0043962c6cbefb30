import GitFullSend.Lib.ByteLines
import GitFullSend.Lib.Ints
import GitFullSend.Lib.JsonText

/-! What is harvested from the events that a `git` child traces. -/

namespace GitFullSend

open Utf8 (Bytes ofText)
open ByteLines (lines)

/-- What is read of a JSON text by the library. -/
structure TraceReader (Value : Type) where
  /-- The value of a text, if it is one. -/
  fromStr : Bytes → Option Value
  /-- The member of an object under a key. -/
  get : Value → String → Option Value
  asStr : Value → Option Bytes
  asF64 : Value → Option Float
  asI64 : Value → Option Int

/-- The number of decimal digits. -/
def parseDigits (digits : Bytes) : Option Nat :=
  if digits ≠ [] ∧ digits.all fun digit => 0x30 ≤ digit && digit ≤ 0x39 then
    some (digits.foldl (fun number digit => 10 * number + (digit - 0x30).toNat) 0)
  else none

/-- The signed word that a text spells. -/
def parseI64 (text : Bytes) : Option Int :=
  let parsed : Option Int :=
    match text with
    | 0x2D :: digits => (parseDigits digits).map fun number => -number
    | 0x2B :: digits => (parseDigits digits).map fun number => number
    | digits => (parseDigits digits).map fun number => number
  parsed.filter fun number => Ints.Fits number

/-- A category, and a label or key within it. -/
abbrev TraceKey := Bytes × Bytes

/-- An event that something is harvested from. -/
inductive TraceEvent where
  /-- A region was left, so many seconds after it was entered. -/
  | regionLeave (region : TraceKey) (seconds : Float)
  /-- A counter was reported. -/
  | data (counter : TraceKey) (value : Int)

namespace TraceReader

variable {Value : Type} (reader : TraceReader Value)

/-- The text under a key. -/
def str (event : Value) (key : String) : Option Bytes := (reader.get event key).bind reader.asStr

/-- Coerce a value to an integer, in the numeric and in the stringified spelling. -/
def coerceI64 (value : Value) : Option Int :=
  (reader.asI64 value).or ((reader.asStr value).bind parseI64)

/-- The event of a line, where it is one that is recognised. -/
def event (line : Bytes) : Option TraceEvent := do
  -- A truncated or unrecognised line costs that line, and nothing more.
  let event ← reader.fromStr line
  let name ← reader.str event "event"
  if name = ofText "region_leave" then
    let category ← reader.str event "category"
    let label ← reader.str event "label"
    let seconds ← (reader.get event "t_rel").bind reader.asF64
    some (.regionLeave (category, label) seconds)
  else if name = ofText "data" then
    let category ← reader.str event "category"
    let key ← reader.str event "key"
    let value ← (reader.get event "value").bind reader.coerceI64
    some (.data (category, key) value)
  else none

/-- The library takes nothing but JSON texts. -/
def Strict : Prop := ∀ text value, reader.fromStr text = some value → JsonText.Document text

end TraceReader

section Entries

variable {κ α : Type} [DecidableEq κ]

/-- The value under a key of a map. -/
def valueAt (entries : List (κ × α)) (key : κ) : Option α :=
  (entries.find? fun entry => entry.1 = key).map Prod.snd

/-- Change the value under a key of a map, or put one there. -/
def changeEntry (change : Option α → α) (key : κ) : List (κ × α) → List (κ × α)
  | [] => [(key, change none)]
  | (other, value) :: rest =>
    if other = key then (key, change (some value)) :: rest
    else (other, value) :: changeEntry change key rest

/-- A change concerns its own key only. -/
@[simp] theorem valueAt_changeEntry (change : Option α → α) (key other : κ)
    (entries : List (κ × α)) : valueAt (changeEntry change key entries) other =
      if key = other then some (change (valueAt entries key)) else valueAt entries other := by
  -- The induction follows the search for the key.
  induction entries with
  | nil => by_cases same : key = other <;> simp [changeEntry, valueAt, same]
  | cons entry rest ih =>
    obtain ⟨first, value⟩ := entry
    rw [changeEntry]
    split
    · rename_i found
      subst found
      by_cases same : first = other <;> simp [valueAt, same]
    · rename_i apart
      by_cases same : first = other
      · subst same
        simp [valueAt, Ne.symm apart]
      · simp only [valueAt] at ih
        simp [valueAt, same, apart, ih]

end Entries

/-- The region timings and counters harvested from one `git` child. -/
structure Trace2 where
  /-- The total time inside each region, in milliseconds. -/
  regionsMs : List (TraceKey × Float)
  /-- The last integer reported for each counter. -/
  data : List (TraceKey × Int)

namespace Trace2

/-- Add what one event reports. -/
def record (trace : Trace2) : TraceEvent → Trace2
  | .regionLeave region seconds =>
    { trace with
      regionsMs := changeEntry (fun sum => sum.getD 0.0 + seconds * 1000.0) region trace.regionsMs }
  | .data counter value => { trace with data := changeEntry (fun _ => value) counter trace.data }

/-- Parse a trace2 event stream from a file, which is `none` where it cannot be read. -/
def fromFile {Value : Type} (reader : TraceReader Value) (file : Option Bytes) : Option Trace2 :=
  match file with
  | none => none
  | some contents =>
    if Utf8.valid contents then
      let trace := (lines contents).foldl
        (fun trace line => (reader.event line).elim trace trace.record) ⟨[], []⟩
      if trace.regionsMs.isEmpty && trace.data.isEmpty then none else some trace
    else none

/-- Total time spent inside a region, in milliseconds. -/
def regionMs (trace : Trace2) (region : TraceKey) : Option Float := valueAt trace.regionsMs region

/-- The integer reported for a counter. -/
def dataI64 (trace : Trace2) (counter : TraceKey) : Option Int := valueAt trace.data counter

/-- The seconds that events report for a region. -/
def secondsOf (events : List TraceEvent) (region : TraceKey) : List Float :=
  events.filterMap fun event =>
    match event with
    | .regionLeave other seconds => if other = region then some seconds else none
    | .data _ _ => none

/-- The values that events report for a counter. -/
def valuesOf (events : List TraceEvent) (counter : TraceKey) : List Int :=
  events.filterMap fun event =>
    match event with
    | .data other value => if other = counter then some value else none
    | .regionLeave _ _ => none

/-- Seconds added up in their order, in milliseconds, where there are any. -/
def totalMs (seconds : List Float) : Option Float :=
  seconds.foldl (fun sum second => some (sum.getD 0.0 + second * 1000.0)) none

/-- Every time in a region is added to what was there. -/
theorem regionMs_foldl (events : List TraceEvent) (trace : Trace2) (region : TraceKey) :
    (events.foldl record trace).regionMs region =
      (secondsOf events region).foldl (fun sum second => some (sum.getD 0.0 + second * 1000.0))
        (trace.regionMs region) := by
  -- The induction is on the events, each of which concerns one region at most.
  induction events generalizing trace with
  | nil => rfl
  | cons event rest ih =>
    rw [List.foldl_cons, ih]
    cases event with
    | data counter value => simp [secondsOf, record, regionMs]
    | regionLeave other seconds =>
      by_cases same : other = region <;> simp [secondsOf, record, regionMs, same]

/-- Every report of a counter replaces the one before it. -/
theorem dataI64_foldl (events : List TraceEvent) (trace : Trace2) (counter : TraceKey) :
    (events.foldl record trace).dataI64 counter =
      (valuesOf events counter).getLast?.or (trace.dataI64 counter) := by
  -- The induction is on the events, from the last one on.
  induction events using List.reverseRecOn with
  | nil => rfl
  | append_singleton events event ih =>
    rw [List.foldl_append, List.foldl_cons, List.foldl_nil, valuesOf, List.filterMap_append]
    cases event with
    | regionLeave region seconds => simpa [record, dataI64, valuesOf] using ih
    | data other value =>
      by_cases same : other = counter
      · simp [record, dataI64, same]
      · simpa [record, dataI64, valuesOf, same] using ih

/-- Nothing is harvested when there is no event, and then only. -/
theorem empty_foldl (events : List TraceEvent) :
    let trace := events.foldl record ⟨[], []⟩
    (trace.regionsMs.isEmpty && trace.data.isEmpty) = events.isEmpty := by
  -- A change of an entry leaves at least that entry.
  have changed : ∀ {α : Type} (change : Option α → α) (key : TraceKey) entries,
      (changeEntry change key entries).isEmpty = false := by
    intro α change key entries
    cases entries with
    | nil => rfl
    | cons entry rest => rw [changeEntry]; split <;> rfl
  induction events using List.reverseRecOn with
  | nil => rfl
  | append_singleton events event ih =>
    rw [List.foldl_append, List.foldl_cons, List.foldl_nil]
    cases event <;> simp [record, changed]

end Trace2

/-- A line of events as `git` writes it: one object, which reads back. -/
structure TraceLine {Value : Type} (reader : TraceReader Value) where
  text : Bytes
  value : Value
  reads : reader.fromStr text = some value
  braced : JsonText.Braced text
  oneLine : 0x0A ∉ text
  isText : Utf8.valid text = true

namespace TraceLine

variable {Value : Type} {reader : TraceReader Value}

/-- The line behind the others, each with its line feed. -/
def stream (lines : List (TraceLine reader)) : Bytes :=
  (lines.map text).flatMap (· ++ [0x0A])

/-- The events in lines. -/
def events (lines : List (TraceLine reader)) : List TraceEvent :=
  lines.filterMap fun line => reader.event line.text

/-- A line ends with its brace. -/
theorem ended (line : TraceLine reader) : line.text.getLast? ≠ some 0x0D := by
  obtain ⟨body, spelled⟩ := line.braced
  rw [spelled, ← List.cons_append, List.getLast?_concat]
  decide

/-- The lines of a stream. -/
theorem lines_stream (written : List (TraceLine reader)) :
    lines (stream written) = written.map text := by
  -- An object is on one line, and ends with its brace.
  apply ByteLines.lines_flatMap
  · intro text listed
    obtain ⟨line, -, rfl⟩ := List.mem_map.mp listed
    exact line.oneLine
  · intro text listed
    obtain ⟨line, -, rfl⟩ := List.mem_map.mp listed
    exact line.ended

/-- A stream is text. -/
theorem stream_valid (written : List (TraceLine reader)) : Utf8.valid (stream written) = true := by
  -- The induction puts one line in front of the others.
  induction written with
  | nil => rfl
  | cons line rest ih =>
    exact Utf8.valid_append (Utf8.valid_append line.isText (by decide)) ih

/-- The events in lines that end with a torn one, of which none is read where it is no text. -/
def tornEvents (lines : List (TraceLine reader)) (torn : Bytes) : List TraceEvent :=
  if Utf8.valid torn then events lines else []

/-- A line that was cut off is no event, whatever of it is missing. -/
theorem event_torn (strict : reader.Strict) (line : TraceLine reader) {torn : Bytes}
    (cut : torn <+: line.text) (missing : torn ≠ line.text) : reader.event torn = none := by
  -- The library takes JSON texts only, and a torn object is none.
  have unread : reader.fromStr torn = none := by
    cases read : reader.fromStr torn with
    | none => rfl
    | some value =>
      exact absurd (strict torn value read) (JsonText.not_document_of_torn line.braced
        (strict line.text line.value line.reads) cut missing)
  simp [TraceReader.event, unread]

end TraceLine

/--
What is harvested from a stream that a `git` child may not have finished.

Each line that is whole counts, and a last line that is cut off costs itself only, unless the cut is
inside a character, which costs the whole stream. The times of a region add up in their order, and
of a counter the last value is taken. Nothing is harvested exactly when no line that counts has a
recognised event.
-/
theorem fromFile_torn {Value : Type} {reader : TraceReader Value} (strict : reader.Strict)
    (written : List (TraceLine reader)) (last : TraceLine reader) {torn : Bytes}
    (cut : torn <+: last.text) (missing : torn ≠ last.text) :
    let harvest := Trace2.fromFile reader (some (TraceLine.stream written ++ torn))
    let events := TraceLine.tornEvents written torn
    (harvest = none ↔ events = []) ∧
      (∀ region, harvest.bind (·.regionMs region) =
        Trace2.totalMs (Trace2.secondsOf events region)) ∧
      ∀ counter, harvest.bind (·.dataI64 counter) = (Trace2.valuesOf events counter).getLast? := by
  intro harvest events
  have plain : 0x0A ∉ torn := fun member => last.oneLine (cut.subset member)
  have sound := Utf8.valid_append_eq (TraceLine.stream_valid written) torn
  -- The torn line is read as one line at most, and there is no event in it.
  have found : (lines (TraceLine.stream written ++ torn)).filterMap reader.event =
      TraceLine.events written := by
    have complete : ByteLines.Complete (TraceLine.stream written) := ByteLines.complete_flatMap _
    rw [ByteLines.lines_append complete, List.filterMap_append, TraceLine.lines_stream,
      List.filterMap_map, ByteLines.lines_plain plain]
    have none := TraceLine.event_torn strict last cut missing
    split
    · exact List.append_nil _
    · rw [List.filterMap_cons_none none, List.filterMap_nil, List.append_nil]
      rfl
  have read : harvest = if events.isEmpty then none
      else some (events.foldl Trace2.record ⟨[], []⟩) := by
    have folded : (lines (TraceLine.stream written ++ torn)).foldl
        (fun trace line => (reader.event line).elim trace trace.record) ⟨[], []⟩ =
          (TraceLine.events written).foldl Trace2.record ⟨[], []⟩ := by
      rw [← found, List.foldl_filterMap]
      congr 1
      funext trace line
      cases reader.event line <;> rfl
    simp only [harvest, events, Trace2.fromFile, TraceLine.tornEvents, sound, folded,
      Trace2.empty_foldl]
    split <;> rfl
  rw [read]
  clear_value events
  cases events with
  | nil => exact ⟨by simp, fun region => rfl, fun counter => rfl⟩
  | cons event rest =>
    refine ⟨by simp, fun region => ?_, fun counter => ?_⟩
    · exact Trace2.regionMs_foldl (event :: rest) ⟨[], []⟩ region
    · exact (Trace2.dataI64_foldl (event :: rest) ⟨[], []⟩ counter).trans (Option.or_none)

end GitFullSend

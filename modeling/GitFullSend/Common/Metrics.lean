import Mathlib.Data.Rat.Floor
import Mathlib.Data.List.Sort
import GitFullSend.Common.PumpSplitting
import GitFullSend.Lib.ByteLines
import GitFullSend.Lib.Groups
import GitFullSend.Lib.JsonText

/-! The metrics sink: how records are appended to it, and how they are aggregated. -/

namespace GitFullSend

open Utf8 (Bytes ofText)

/-- A JSON value; an object lists its members in the order of its map. -/
inductive Json where
  | null
  | bool (value : Bool)
  | number (value : ℚ)
  | string (text : Bytes)
  | array (items : List Json)
  | object (members : List (Bytes × Json))

/-- What is read and written by the JSON library. -/
structure Serde where
  /-- The text of a value. -/
  toString : Json → Bytes
  /-- The value of a text, if it is one. -/
  fromStr : Bytes → Option Json

namespace Json

/-- The member of an object under a key. -/
def get (key : Bytes) : Json → Option Json
  | object members => (members.find? fun member => member.1 = key).map Prod.snd
  | _ => none

/-- The text of a string. -/
def asStr : Json → Option Bytes
  | string text => some text
  | _ => none

end Json

/-- Append a record's line to the sink, and tell whether all of it was written. -/
def append (serde : Serde) (room : Option Nat) (record : Json) (sink : Bytes) : Bytes × Bool :=
  let line := serde.toString record ++ [0x0A]
  let (written, whole) := writeAll room line
  (sink ++ written, whole)

/-- The distribution of one numeric field across a set of records. -/
structure FieldStats where
  /-- The dotted path to the field. -/
  field : Bytes
  /-- How many values it has. -/
  count : Nat
  p50 : ℚ
  p95 : ℚ
  max : ℚ

/-- The statistics of one kind of record. -/
structure KindStats where
  kind : Bytes
  /-- How many records were aggregated. -/
  records : Nat
  /-- Every numeric field, by name. -/
  fields : List FieldStats

/-- The kind that a record names, or the one that stands for none. -/
def kindOf (record : Json) : Bytes :=
  ((record.get (ofText "kind")).bind Json.asStr).getD (ofText "unknown")

/-- Put the record of a line, if it has one of the wanted kind, behind those of its kind. -/
def pushRecord (serde : Serde) (kind : Option Bytes) (records : Groups Bytes Json)
    (line : Bytes) : Groups Bytes Json :=
  match serde.fromStr line with
  | none => records
  | some record =>
    let recordKind := kindOf record
    if kind.any (· ≠ recordKind) then records else records.push recordKind record

/-- The records of a sink, kind by kind and in the order of the file. -/
def recordsByKind (serde : Serde) (kind : Option Bytes) (contents : Bytes) : Groups Bytes Json :=
  (ByteLines.lines contents).foldl (pushRecord serde kind) .empty

/-- The most recent of the records. -/
def window {α : Type} (last : Option Nat) (records : List α) : List α :=
  match last with
  | some last => if records.length > last then records.drop (records.length - last) else records
  | none => records

/-- Whether a member is left out of the statistics. -/
def skipped (key : Bytes) : Bool := key = ofText "ts_unix_ms" ∨ key = ofText "schema"

/-- The path of a member. -/
def memberPath (above key : Bytes) : Bytes :=
  if above = [] then key else above ++ ofText "." ++ key

mutual

/-- Collect every numeric leaf of a value under its dotted path. -/
def flattenNumbers (above : Bytes) (value : Json) (out : Groups Bytes ℚ) : Groups Bytes ℚ :=
  match value with
  | .object members => flattenMembers above members out
  | .number value => out.push above value
  | .array items => out.push (above ++ ofText ".len") items.length
  | .null | .bool _ | .string _ => out

/-- Collect the numeric leaves of the members of an object. -/
def flattenMembers (above : Bytes) (members : List (Bytes × Json)) (out : Groups Bytes ℚ) :
    Groups Bytes ℚ :=
  match members with
  | [] => out
  | (key, child) :: rest =>
    if skipped key then flattenMembers above rest out
    else flattenMembers above rest (flattenNumbers (memberPath above key) child out)

end

/-- The whole number next to another one, and the one further from zero of two. -/
def roundAway (value : ℚ) : ℤ := if 0 ≤ value then ⌊value + 1 / 2⌋ else ⌈value - 1 / 2⌉

/-- The nearest rank of a quantile among so many values. -/
def rank (q : ℚ) (count : Nat) : Nat := (roundAway (q * (count - 1 : Nat))).toNat

/-- A quantile of values in ascending order, by nearest rank. -/
def percentile (sorted : List ℚ) (q : ℚ) : ℚ :=
  if sorted = [] then 0 else sorted.getD (min (rank q sorted.length) (sorted.length - 1)) 0

/-- The values in ascending order. -/
def ascending (values : List ℚ) : List ℚ := values.insertionSort (· ≤ ·)

/-- The distribution of the values of a field. -/
def fieldStats (field : Bytes) (values : List ℚ) : FieldStats where
  field
  count := (ascending values).length
  p50 := percentile (ascending values) (1 / 2)
  p95 := percentile (ascending values) (19 / 20)
  max := (ascending values).getLastD 0

/-- The numeric leaves of records, field by field and in the order of the records. -/
def fieldsOf (records : List Json) : Groups Bytes ℚ :=
  records.foldl (fun out record => flattenNumbers [] record out) .empty

/-- The statistics of the records of a kind. -/
def kindStats (kind : Bytes) (records : List Json) : KindStats where
  kind
  records := records.length
  fields := (fieldsOf records).entries.map fun entry => fieldStats entry.1 entry.2

/-- Aggregate a sink by kind, of each kind its most recent records only. -/
def aggregate (serde : Serde) (sink : Option Bytes) (kind : Option Bytes) (last : Option Nat) :
    List KindStats :=
  match sink with
  | none => []
  | some contents =>
    -- The file is read as one piece of text.
    if Utf8.valid contents then
      (recordsByKind serde kind contents).entries.map fun entry =>
        kindStats entry.1 (window last entry.2)
    else []

end GitFullSend

import GitFullSend.Common.Trace2

/-! What an update reports of the index it ran against, and of where its `read-tree` spent time. -/

namespace GitFullSend

open Utf8 (Bytes ofText)

/-- Whether an update found an index. -/
inductive Warmth where
  | warm
  /-- The index was built from scratch. -/
  | cold
  /-- The instrumentation of `git` did not say. -/
  | unknown
  deriving DecidableEq

/-- The stable string for the report. -/
def Warmth.asStr : Warmth → String
  | warm => "warm"
  | cold => "cold"
  | unknown => "unknown"

/-- The per-worktree index an update ran against. -/
structure IndexState where
  state : Warmth
  /-- Size of the index file before the checkout, in bytes. -/
  bytes : Option Nat
  /-- Entries in the index after the checkout. -/
  entries : Option Int

/-- The counter of the entries in the index that was read. -/
def readEntries : TraceKey := (ofText "index", ofText "read/cache_nr")

/-- The counter of the entries in the index that was written. -/
def writeEntries : TraceKey := (ofText "index", ofText "write/cache_nr")

/-- Describe the per-worktree index that a checkout ran against. -/
def indexState (bytes : Option Nat) (trace : Option Trace2) : IndexState :=
  let read := trace.bind (·.dataI64 readEntries)
  let wrote := trace.bind (·.dataI64 writeEntries)
  { state :=
      match trace, read with
      | none, _ => .unknown
      | some _, some _ => .warm
      | some _, none => .cold
    bytes := bytes
    entries := wrote.or read }

/-- The internal phases of `read-tree`, in milliseconds. -/
structure ReadTreeBreakdown where
  loadIndexMs : Option Float
  resolveTreeMs : Option Float
  applyMs : Option Float
  writeIndexMs : Option Float

/-- Loading the per-worktree index. -/
def loadIndex : TraceKey := (ofText "index", ofText "do_read_index")

/-- Resolving the tree. -/
def traverseTrees : TraceKey := (ofText "unpack_trees", ofText "traverse_trees")

/-- The whole apply, with the traversal in it. -/
def unpackTrees : TraceKey := (ofText "unpack_trees", ofText "unpack_trees")

/-- Writing the index back. -/
def writeIndex : TraceKey := (ofText "index", ofText "do_write_index")

/-- The part of the apply that is no traversal. -/
def applyMs (unpack traverse : Option Float) : Option Float :=
  match unpack, traverse with
  -- The two come from separate clock reads, so the difference is clamped.
  | some unpack, some traverse =>
    some (if 0.0 < unpack - traverse then unpack - traverse else 0.0)
  | some unpack, none => some unpack
  | none, _ => none

/-- Split the time of `read-tree` across its internal phases, or `none` when none is reported. -/
def readTreeBreakdown (trace : Trace2) : Option ReadTreeBreakdown :=
  let load := trace.regionMs loadIndex
  let resolve := trace.regionMs traverseTrees
  let apply := applyMs (trace.regionMs unpackTrees) resolve
  let write := trace.regionMs writeIndex
  if load.isNone ∧ resolve.isNone ∧ apply.isNone ∧ write.isNone then none
  else some ⟨load, resolve, apply, write⟩

/-- There is a time for the apply exactly when one was reported. -/
theorem isNone_applyMs (unpack traverse : Option Float) :
    (applyMs unpack traverse).isNone = unpack.isNone := by
  cases unpack <;> cases traverse <;> rfl

/-- Times add up to something exactly when there is one. -/
theorem isNone_totalMs (seconds : List Float) :
    (Trace2.totalMs seconds).isNone = seconds.isEmpty := by
  -- Whatever the last time is added to, there is a sum.
  induction seconds using List.reverseRecOn with
  | nil => rfl
  | append_singleton seconds second ih => simp [Trace2.totalMs]

/-- A member of an object, with a text. -/
def textMember (key text : String) : Bytes :=
  0x22 :: (ofText key ++ [0x22]) ++ 0x3A :: 0x22 :: (ofText text ++ [0x22])

/-- A member of an object whose key and text need no escape. -/
theorem members_textMember {key text : String} (name : JsonText.Inner (ofText key))
    (value : JsonText.Inner (ofText text)) : JsonText.Text .members (textMember key text) := by
  -- There is no white space around the value.
  have blank : JsonText.White [] := by simp [JsonText.White]
  have item : JsonText.Text .element ([] ++ 0x22 :: (ofText text ++ [0x22]) ++ []) :=
    .element blank (.string value) blank
  have fields := JsonText.Text.member blank name blank item
  simpa [textMember] using fields

/-- The line in which `git` says that it read an index of seven entries. -/
def cacheLine : Bytes :=
  0x7B :: ((textMember "event" "data" ++ 0x2C :: (textMember "category" "index" ++ 0x2C ::
    (textMember "key" "read/cache_nr" ++ 0x2C :: textMember "value" "7"))) ++ [0x7D])

/-- A reader of that line, in which every value but the whole is a text. -/
def cacheReader : TraceReader (Option Bytes) where
  fromStr text := if text = cacheLine then some none else none
  get value key :=
    match value, key with
    | none, "event" => some (some (ofText "data"))
    | none, "category" => some (some (ofText "index"))
    | none, "key" => some (some (ofText "read/cache_nr"))
    | none, "value" => some (some (ofText "7"))
    | _, _ => none
  asStr value := value
  asF64 _ := none
  asI64 _ := none

/-- The line is a JSON text. -/
theorem cacheReader_strict : cacheReader.Strict := by
  intro text value read
  have same : text = cacheLine := by
    simp only [cacheReader, Option.ite_none_right_eq_some] at read
    exact read.1
  -- It has four members, none of which needs an escape.
  have plain : ∀ word ∈ ["event", "data", "category", "index", "key", "read/cache_nr", "value",
      "7"], ∀ byte ∈ ofText word, 0x20 ≤ byte ∧ byte ≠ 0x22 ∧ byte ≠ 0x5C := by
    decide +kernel
  have member : ∀ key ∈ ["event", "category", "key", "value"],
      ∀ word ∈ ["data", "index", "read/cache_nr", "7"],
        JsonText.Text .members (textMember key word) := by
    intro key known word listed
    refine members_textMember (JsonText.Inner.of_plain (plain key ?_))
      (JsonText.Inner.of_plain (plain word ?_))
    · revert key
      decide
    · revert word
      decide
  have blank : JsonText.White [] := by simp [JsonText.White]
  have fields := (member "event" (by simp) "data" (by simp)).members
    ((member "category" (by simp) "index" (by simp)).members
      ((member "key" (by simp) "read/cache_nr" (by simp)).members
        (member "value" (by simp) "7" (by simp))))
  have whole := JsonText.Text.element blank (.object fields) blank
  simpa [same, cacheLine] using whole

/-- The event of the line. -/
theorem cacheReader_event : cacheReader.event cacheLine = some (.data readEntries 7) := by
  -- The line has everything that the event of a counter needs.
  have read : cacheReader.fromStr cacheLine = some none := by simp [cacheReader]
  have event : cacheReader.str none "event" = some (ofText "data") := rfl
  have category : cacheReader.str none "category" = some (ofText "index") := rfl
  have key : cacheReader.str none "key" = some (ofText "read/cache_nr") := rfl
  have value : (cacheReader.get none "value").bind cacheReader.coerceI64 = some 7 := by
    decide +kernel
  have other : ofText "data" ≠ ofText "region_leave" := by decide
  simp [TraceReader.event, read, event, category, key, value, other, readEntries]

/-- The line as it is written. -/
def cacheEvent : TraceLine cacheReader where
  text := cacheLine
  value := none
  reads := by simp [cacheReader]
  braced := ⟨_, rfl⟩
  oneLine := by decide
  isText := by decide

end GitFullSend

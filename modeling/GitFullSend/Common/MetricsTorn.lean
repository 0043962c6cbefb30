import GitFullSend.Common.MetricsStats

/-! What a torn last line and a failed append cost the records around them. -/

namespace GitFullSend

open Utf8 (Bytes ofText)
open ByteLines (lines pending Complete)

/-- The library takes nothing but JSON texts. -/
def Serde.Strict (serde : Serde) : Prop :=
  ∀ text value, serde.fromStr text = some value → JsonText.Document text

/-- A record as the library writes it: one line that holds an object, and reads back. -/
structure Record (serde : Serde) where
  value : Json
  reads : serde.fromStr (serde.toString value) = some value
  braced : JsonText.Braced (serde.toString value)
  oneLine : 0x0A ∉ serde.toString value
  isText : Utf8.valid (serde.toString value) = true

namespace Record

variable {serde : Serde}

/-- The text of a record. -/
def text (record : Record serde) : Bytes := serde.toString record.value

/-- The line of a record. -/
def line (record : Record serde) : Bytes := record.text ++ [0x0A]

/-- The kind of a record. -/
def kind (record : Record serde) : Bytes := kindOf record.value

/-- The text of a record has no line feed. -/
theorem plain (record : Record serde) : 0x0A ∉ record.text := record.oneLine

end Record

/-- The lines of records, one behind the other. -/
def linesFor {serde : Serde} (records : List (Record serde)) : Bytes := records.flatMap Record.line

variable {serde : Serde}

/-- An append writes as much of a record's line as there is room for. -/
theorem append_eq (room : Option Nat) (record : Record serde) (sink : Bytes) :
    append serde room record.value sink =
      (sink ++ (writeAll room record.line).1, (writeAll room record.line).2) := rfl

/-- The lines of records are complete. -/
theorem linesFor_complete (records : List (Record serde)) : Complete (linesFor records) := by
  -- The last line ends with its newline.
  rcases List.eq_nil_or_concat' records with rfl | ⟨front, last, rfl⟩
  · exact .inl rfl
  · rw [linesFor, List.flatMap_append, List.flatMap_singleton]
    exact ByteLines.Complete.append last.text

/-- The lines of records are text. -/
theorem linesFor_valid (records : List (Record serde)) : Utf8.valid (linesFor records) = true := by
  -- The induction puts the line of one record in front of the others.
  induction records with
  | nil => rfl
  | cons record rest ih =>
    have whole : Utf8.valid record.line = true := Utf8.valid_append record.isText (by decide)
    exact Utf8.valid_append whole ih

/-- The line of a record has no carriage return in front of its line feed. -/
private theorem stripReturn_text (begun : Bytes) (record : Record serde) :
    ByteLines.stripReturn (begun ++ record.text) = begun ++ record.text := by
  -- The last byte is the closing brace.
  obtain ⟨body, spelled⟩ := record.braced
  have last : (begun ++ record.text).getLast? = some 0x7D := by
    rw [Record.text, spelled, ← List.cons_append, ← List.append_assoc]
    exact List.getLast?_concat
  rw [ByteLines.stripReturn, last]
  exact if_neg (by decide)

/-- The lines of records are their texts. -/
theorem lines_linesFor (records : List (Record serde)) :
    lines (linesFor records) = records.map Record.text := by
  -- The induction takes off the first line.
  induction records with
  | nil => rfl
  | cons record rest ih =>
    rw [linesFor, List.flatMap_cons, Record.line, List.append_assoc, List.singleton_append,
      ByteLines.lines_cons record.plain]
    exact congrArg₂ List.cons (stripReturn_text [] record) ih

/-- The text of a record is a line of its kind. -/
theorem recordOf_text (record : Record serde) (kind : Bytes) :
    recordOf serde kind record.text =
      if record.kind = kind then some record.value else none := by
  rw [recordOf, Record.text, record.reads]
  by_cases same : record.kind = kind <;> simp [Option.filter, Record.kind] at same ⊢ <;> simp [same]

/-- The records of a kind are read back from the lines of records. -/
theorem recordsOf_linesFor (records : List (Record serde)) (kind : Bytes) :
    recordsOf serde kind (lines (linesFor records)) =
      (records.filter fun record => record.kind = kind).map Record.value := by
  -- The induction is on the records, each of which is read back under its own kind.
  rw [lines_linesFor]
  induction records with
  | nil => rfl
  | cons record rest ih =>
    rw [List.map_cons, recordsOf, List.filterMap_cons, recordOf_text, List.filter_cons]
    by_cases same : record.kind = kind
    · simp only [same, if_true, decide_true, List.map_cons]
      exact congrArg (record.value :: ·) ih
    · simp only [same, if_false, decide_false, Bool.false_eq_true]
      exact ih

/-- Behind complete lines, what is no JSON leaves all statistics alone while it is text. -/
theorem aggregate_append {contents rest : Bytes} (complete : Complete contents)
    (sound : Utf8.valid contents = true) (plain : 0x0A ∉ rest)
    (unread : serde.fromStr rest = none) (text : Utf8.valid rest = true) (kind : Option Bytes)
    (last : Option Nat) :
    aggregate serde (some (contents ++ rest)) kind last =
      aggregate serde (some contents) kind last := by
  -- The bytes behind the lines are one line at most, which is skipped.
  have same : recordsByKind serde kind (contents ++ rest) =
      recordsByKind serde kind contents := by
    rw [recordsByKind, recordsByKind, ByteLines.lines_append complete, List.foldl_append,
      ByteLines.lines_plain plain]
    split
    · rfl
    · rw [List.foldl_cons, List.foldl_nil, pushRecord, unread]
  rw [aggregate, aggregate, if_pos (Utf8.valid_append sound text), if_pos sound, same]

/-- What is cut off a record's text is no JSON, unless nothing is cut off. -/
theorem fromStr_torn (strict : serde.Strict) (record : Record serde) {torn : Bytes}
    (cut : torn <+: record.text) (missing : torn ≠ record.text) : serde.fromStr torn = none := by
  -- The library takes JSON texts only, and a torn object is none.
  cases read : serde.fromStr torn with
  | none => rfl
  | some value =>
    have document := strict record.text record.value record.reads
    exact absurd (strict torn value read)
      (JsonText.not_document_of_torn record.braced document cut missing)

/-- A record behind the beginning of others is no JSON. -/
theorem fromStr_append (strict : serde.Strict) (record : Record serde) {begun : Bytes}
    (opens : begun.head? = some 0x7B) : serde.fromStr (begun ++ record.text) = none := by
  -- The library takes JSON texts only, and an object behind another bracket is none.
  cases read : serde.fromStr (begun ++ record.text) with
  | none => rfl
  | some value =>
    obtain ⟨rest, rfl⟩ := List.head?_eq_some_iff.mp opens
    have document := strict record.text record.value record.reads
    exact absurd (strict _ value read) (JsonText.not_document_append record.braced document)

/-- What is read behind the lines of records is one more record of its kind. -/
theorem recordsOf_append (strict : serde.Strict) (records : List (Record serde)) {rest : Bytes}
    (plain : 0x0A ∉ rest) {value : Json} (read : serde.fromStr rest = some value) :
    recordsOf serde (kindOf value) (lines (linesFor records ++ rest)) =
      recordsOf serde (kindOf value) (lines (linesFor records)) ++ [value] := by
  -- The bytes behind the lines are one line, and it is read.
  have some : rest ≠ [] := fun none => JsonText.not_document_nil (none ▸ strict rest value read)
  have found : recordOf serde (kindOf value) rest = .some value := by
    rw [recordOf, read]
    simp [Option.filter]
  rw [ByteLines.lines_append (linesFor_complete records), ByteLines.lines_plain plain,
    if_neg some, recordsOf, recordsOf, List.filterMap_append, List.filterMap_cons_some found]
  rfl

/-- Sinks with the same statistics have as many records of every kind. -/
theorem length_of_aggregate {left right : Bytes} (first : Utf8.valid left = true)
    (second : Utf8.valid right = true)
    (same : aggregate serde (some left) none none = aggregate serde (some right) none none)
    (kind : Bytes) :
    (recordsOf serde kind (lines left)).length = (recordsOf serde kind (lines right)).length := by
  -- The entry of the kind counts its records, and there is none where there are no records.
  have entries : entry (aggregate serde (some left) none none) kind =
      entry (aggregate serde (some right) none none) kind := by rw [same]
  rw [entry_aggregate serde first, entry_aggregate serde second] at entries
  rw [← recordsOf_linesOf, ← recordsOf_linesOf, length_recordsOf (linesOf_read serde kind left),
    length_recordsOf (linesOf_read serde kind right)]
  split at entries
  · rename_i none
    split at entries
    · rename_i nothing
      rw [none, nothing]
    · cases entries
  · split at entries
    · cases entries
    · have counted := congrArg KindStats.records (Option.some.inj entries)
      simpa only [kindStats, window, length_recordsOf (linesOf_read serde kind left),
        length_recordsOf (linesOf_read serde kind right)] using counted

/-- A kind with a record has an entry, so there are statistics. -/
private theorem aggregate_some_record {records : List (Record serde)} (some : records ≠ []) :
    aggregate serde (.some (linesFor records)) none none ≠ [] := by
  -- An empty sink has no statistics either, and no record.
  intro nothing
  obtain ⟨record, rest, rfl⟩ := List.exists_cons_of_ne_nil some
  have empty : Utf8.valid [] = true := rfl
  have counted := length_of_aggregate (linesFor_valid (record :: rest)) empty
    (nothing.trans rfl) record.kind
  rw [recordsOf_linesFor] at counted
  simp [recordsOf] at counted

/--
A torn last line costs nothing but itself exactly when its text is cut between two characters.

With nothing in front of it there is nothing to lose, and a text that lacks its newline only is a
record like others.
-/
theorem torn_tail_iff (strict : serde.Strict) (records : List (Record serde))
    (record : Record serde) {cut : Nat} (torn : cut < record.line.length) :
    (∀ kind last, aggregate serde (some (linesFor records ++ record.line.take cut)) kind last =
        aggregate serde (some (linesFor records)) kind last) ↔
      cut ≠ record.text.length ∧
        (Utf8.valid (record.line.take cut) = true ∨ records = []) := by
  -- Short of its newline, what is kept of the line is the beginning of its text.
  have short : cut ≤ record.text.length := by
    simpa [Record.line, Nat.lt_succ_iff] using torn
  have taken : record.line.take cut = record.text.take cut := List.take_append_of_le_length short
  rw [taken]
  have begins : record.text.take cut <+: record.text := List.take_prefix cut record.text
  have plain : 0x0A ∉ record.text.take cut := fun within => record.plain (begins.mem within)
  have complete := linesFor_complete records
  have sound := linesFor_valid records
  constructor
  · intro same
    refine ⟨fun whole => ?_, by_contra fun neither => ?_⟩
    · -- The text is read back, so there is one more record of its kind.
      rw [whole, List.take_length] at same
      have text : Utf8.valid (linesFor records ++ record.text) = true :=
        Utf8.valid_append sound record.isText
      have counted := length_of_aggregate text sound (same none none) record.kind
      rw [Record.kind, recordsOf_append strict records record.plain record.reads] at counted
      simp at counted
    · obtain ⟨broken, some⟩ := not_or.mp neither
      have lost : ¬Utf8.valid (linesFor records ++ record.text.take cut) = true := by
        rwa [Utf8.valid_append_eq sound]
      have nothing := (same none none).symm
      rw [aggregate_invalid serde lost] at nothing
      exact aggregate_some_record some nothing
  · intro condition kind last
    obtain ⟨missing, either⟩ := condition
    have differs : record.text.take cut ≠ record.text := by
      intro equal
      have length := congrArg List.length equal
      rw [List.length_take] at length
      omega
    by_cases text : Utf8.valid (record.text.take cut) = true
    · exact aggregate_append complete sound plain (fromStr_torn strict record begins differs) text
        kind last
    · obtain rfl := either.resolve_left text
      exact aggregate_invalid serde text kind last

/-- The text of a record whose path has a letter of two bytes. -/
def pathText : Bytes := JsonText.memberText (ofText "path") [0xC3, 0xA9]

/-- The record of the text. -/
def pathRecord : Json := .object [(ofText "path", .string [0xC3, 0xA9])]

/-- A library that is only asked for two records. -/
def pathSerde : Serde where
  toString record := if kindOf record = ofText "sync" then syncText else pathText
  fromStr text :=
    if text = syncText then some syncRecord
    else if text = pathText then some pathRecord
    else none

/-- The library takes two JSON texts only. -/
theorem pathSerde_strict : pathSerde.Strict := by
  -- Both texts are objects with one string in them.
  have plain : ∀ word ∈ [ofText "kind", ofText "sync", ofText "path", [0xC3, 0xA9]],
      JsonText.Inner word := by
    have all : [ofText "kind", ofText "sync", ofText "path", [0xC3, 0xA9]].all (fun word =>
        word.all fun byte => decide (0x20 ≤ byte ∧ byte ≠ 0x22 ∧ byte ≠ 0x5C)) = true := by
      decide
    exact fun word member => .of_plain fun byte within =>
      of_decide_eq_true (List.all_eq_true.mp (List.all_eq_true.mp all word member) byte within)
  intro text value read
  unfold pathSerde at read
  simp only at read
  split at read
  · rename_i same
    have spelled : syncText = JsonText.memberText (ofText "kind") (ofText "sync") := by decide
    rw [same, spelled]
    exact JsonText.document_memberText (plain _ (by simp)) (plain _ (by simp))
  · split at read
    · rename_i same
      rw [same]
      exact JsonText.document_memberText (plain _ (by simp)) (plain _ (by simp))
    · cases read

/-- A record that has nothing but a kind. -/
def syncWritten : Record pathSerde where
  value := syncRecord
  reads := rfl
  braced := ⟨ofText "\"kind\":\"sync\"", by decide⟩
  oneLine := by decide
  isText := by decide

/-- A record of a path. -/
def pathWritten : Record pathSerde where
  value := pathRecord
  reads := rfl
  braced := ⟨0x22 :: (ofText "path" ++ [0x22]) ++ 0x3A :: 0x22 :: ([0xC3, 0xA9] ++ [0x22]), rfl⟩
  oneLine := by decide
  isText := by decide

/-- A line that is cut in front of its letter of two bytes costs nothing else. -/
theorem torn_tail_between :
    aggregate pathSerde (some (linesFor [syncWritten] ++ pathWritten.line.take 9)) none none =
      aggregate pathSerde (some (linesFor [syncWritten])) none none :=
  (torn_tail_iff pathSerde_strict [syncWritten] pathWritten (by decide)).mpr
    ⟨by decide, .inl (by decide)⟩ none none

/-- A line that is cut within the letter costs the record in front of it. -/
theorem torn_letter_loses_all : 10 < pathWritten.line.length ∧
    ¬∀ kind last,
      aggregate pathSerde (some (linesFor [syncWritten] ++ pathWritten.line.take 10)) kind last =
        aggregate pathSerde (some (linesFor [syncWritten])) kind last := by
  refine ⟨by decide, fun same => ?_⟩
  exact absurd (congrArg List.length (same none none)) (by decide)

/-- An attempt to append a record, and the room there is for its line where it is not enough. -/
abbrev Attempt (serde : Serde) := Record serde × Option Nat

/-- Append a record, and keep the ones whose append returned `Ok`. -/
def appendStep (state : Bytes × List (Record serde)) (attempt : Attempt serde) :
    Bytes × List (Record serde) :=
  let (sink, whole) := append serde attempt.2 attempt.1.value state.1
  (sink, if whole then state.2 ++ [attempt.1] else state.2)

/-- Append one record after the other to an empty sink. -/
def appendAll (history : List (Attempt serde)) : Bytes × List (Record serde) :=
  history.foldl appendStep ([], [])

/-- A sink gives the statistics of the records whose append returned `Ok`, read in their order. -/
structure CountsOk (state : Bytes × List (Record serde)) : Prop where
  records : ∀ kind, recordsOf serde kind (lines state.1) =
    (state.2.filter fun record => record.kind = kind).map Record.value
  statistics : ∀ kind last, aggregate serde (some state.1) kind last =
    aggregate serde (some (linesFor state.2)) kind last

/--
An append that succeeds finds nothing behind the last newline of the sink.

One that fails leaves nothing there that is JSON.
-/
def Harmless (sink : Bytes) (attempt : Attempt serde) : Prop :=
  if (writeAll attempt.2 attempt.1.line).2 then pending sink = []
  else serde.fromStr (pending sink ++ (writeAll attempt.2 attempt.1.line).1) = none

/-- The sink has the lines of the records that were written, and a beginning of another line. -/
structure Kept (state : Bytes × List (Record serde)) (rest : Bytes) : Prop where
  split : state.1 = linesFor state.2 ++ rest
  plain : 0x0A ∉ rest
  opens : rest = [] ∨ rest.head? = some 0x7B
  ascii : ∀ byte ∈ rest, byte ≤ 0x7F
  unread : serde.fromStr rest = none

/-- What a sink was left with is what is pending in it. -/
theorem Kept.pending_eq {state : Bytes × List (Record serde)} {rest : Bytes}
    (kept : Kept state rest) : pending state.1 = rest := by
  rw [kept.split]
  exact ByteLines.pending_append (linesFor_complete state.2) kept.plain

/-- Such a sink gives the statistics of the records that were written. -/
theorem Kept.counts {state : Bytes × List (Record serde)} {rest : Bytes}
    (kept : Kept state rest) : CountsOk state := by
  -- What is pending is one line, which is not read and no part of another.
  have complete := linesFor_complete state.2
  refine ⟨fun kind => ?_, fun kind last => ?_⟩
  · have skipped : recordsOf serde kind (lines rest) = [] := by
      have unread : recordOf serde kind rest = none := by
        rw [recordOf, kept.unread]
        rfl
      rw [ByteLines.lines_plain kept.plain]
      split
      · rfl
      · exact List.filterMap_cons_none unread
    rw [kept.split, ByteLines.lines_append complete, recordsOf, List.filterMap_append]
    change recordsOf serde kind _ ++ recordsOf serde kind _ = _
    rw [skipped, List.append_nil, recordsOf_linesFor]
  · rw [kept.split]
    exact aggregate_append complete (linesFor_valid state.2) kept.plain kept.unread
      (Utf8.valid_of_ascii kept.ascii) kind last

/-- A step of the history, where the line was written as a whole. -/
theorem appendStep_whole {attempt : Attempt serde}
    (whole : (writeAll attempt.2 attempt.1.line).2 = true) (state : Bytes × List (Record serde)) :
    appendStep state attempt = (state.1 ++ attempt.1.line, state.2 ++ [attempt.1]) := by
  rw [appendStep, append_eq, whole, writeAll_whole whole]
  rfl

/-- A step of the history, where the line was not written as a whole. -/
theorem appendStep_partly {attempt : Attempt serde}
    (refused : (writeAll attempt.2 attempt.1.line).2 = false)
    (state : Bytes × List (Record serde)) :
    appendStep state attempt =
      (state.1 ++ (writeAll attempt.2 attempt.1.line).1, state.2) := by
  rw [appendStep, append_eq, refused]
  rfl

/-- What is written of a line without its newline is the beginning of its text. -/
private theorem writeAll_text {attempt : Attempt serde}
    (refused : (writeAll attempt.2 attempt.1.line).2 = false) :
    (writeAll attempt.2 attempt.1.line).1 <+: attempt.1.text := by
  -- The newline is the last byte of the line, and was not written.
  obtain ⟨begins, shorter⟩ := writeAll_refused refused
  rcases List.prefix_concat_iff.mp begins with equal | begins
  · rw [equal] at shorter
    exact absurd shorter (lt_irrefl _)
  · exact begins

/-- The beginning of a record's text is nothing, or opens a brace. -/
private theorem opens_of_prefix (record : Record serde) {begun : Bytes}
    (begins : begun <+: record.text) : begun = [] ∨ begun.head? = some 0x7B := by
  -- The first byte of the text is its brace.
  cases begun with
  | nil => exact .inl rfl
  | cons first more =>
    obtain ⟨body, spelled⟩ := record.braced
    rw [Record.text, spelled] at begins
    exact .inr (congrArg some (List.cons_prefix_cons.mp begins).1)

/-- An append that succeeds is harmless behind complete lines. -/
private theorem harmless_whole {attempt : Attempt serde}
    (whole : (writeAll attempt.2 attempt.1.line).2 = true) {sink : Bytes} :
    Harmless sink attempt ↔ pending sink = [] :=
  .of_eq (if_pos whole)

/-- An append that fails is harmless when what it leaves is no JSON. -/
private theorem harmless_partly {attempt : Attempt serde}
    (refused : (writeAll attempt.2 attempt.1.line).2 = false) {sink : Bytes} :
    Harmless sink attempt ↔
      serde.fromStr (pending sink ++ (writeAll attempt.2 attempt.1.line).1) = none :=
  .of_eq (if_neg (Bool.eq_false_iff.mp refused))

/-- A harmless append keeps what was written before it. -/
theorem Kept.step {state : Bytes × List (Record serde)} {rest : Bytes} (kept : Kept state rest)
    {attempt : Attempt serde} (ascii : ∀ byte ∈ attempt.1.text, byte ≤ 0x7F)
    (harmless : Harmless state.1 attempt) : ∃ rest, Kept (appendStep state attempt) rest := by
  cases whole : (writeAll attempt.2 attempt.1.line).2 with
  | true =>
    -- The line stands behind those of the others, with nothing in between.
    rw [harmless_whole whole, kept.pending_eq] at harmless
    subst harmless
    refine ⟨[], ?_, by simp, .inl rfl, by simp, kept.unread⟩
    rw [appendStep_whole whole, kept.split]
    simp [linesFor]
  | false =>
    rw [harmless_partly whole, kept.pending_eq] at harmless
    have begins := writeAll_text whole
    generalize written : (writeAll attempt.2 attempt.1.line).1 = begun at begins harmless
    refine ⟨rest ++ begun, ?_, ?_, ?_, ?_, harmless⟩
    · rw [appendStep_partly whole, written, kept.split, List.append_assoc]
    · exact fun within => (List.mem_append.mp within).elim kept.plain
        fun member => attempt.1.plain (begins.mem member)
    · rcases kept.opens with rfl | opens
      · exact opens_of_prefix attempt.1 begins
      · exact .inr (by rw [List.head?_append, opens]; rfl)
    · exact fun byte within => (List.mem_append.mp within).elim (kept.ascii byte)
        fun member => ascii byte (begins.mem member)

/-- A record whose line is joined to what is pending is not read. -/
private theorem recordsOf_joined (strict : serde.Strict) (records : List (Record serde))
    (record : Record serde) {rest : Bytes} (plain : 0x0A ∉ rest)
    (opens : rest.head? = some 0x7B) (kind : Bytes) :
    recordsOf serde kind (lines (linesFor records ++ rest ++ record.line)) =
      recordsOf serde kind (lines (linesFor records)) := by
  -- The text and what is in front of it are one line, which is no JSON.
  have whole : 0x0A ∉ rest ++ record.text := fun within =>
    (List.mem_append.mp within).elim plain record.plain
  have unread : recordOf serde kind (rest ++ record.text) = none := by
    rw [recordOf, fromStr_append strict record opens]
    rfl
  have joined : linesFor records ++ rest ++ record.line =
      linesFor records ++ (rest ++ record.text ++ 0x0A :: []) := by
    simp [Record.line]
  rw [joined, ByteLines.lines_append (linesFor_complete records), ByteLines.lines_cons whole,
    stripReturn_text, ByteLines.lines_nil, recordsOf, List.filterMap_append,
    List.filterMap_cons_none unread, List.filterMap_nil, List.append_nil]
  rfl

/-- An append that breaks the rule is counted though it failed, or is not though it succeeded. -/
theorem Kept.harmless_of_counts {state : Bytes × List (Record serde)} {rest : Bytes}
    (kept : Kept state rest) (strict : serde.Strict) {attempt : Attempt serde}
    (counts : CountsOk (appendStep state attempt)) : Harmless state.1 attempt := by
  cases whole : (writeAll attempt.2 attempt.1.line).2 with
  | true =>
    rw [harmless_whole whole, kept.pending_eq]
    rw [appendStep_whole whole, kept.split] at counts
    rcases kept.opens with none | opens
    · exact none
    · -- The record is among those that were written, and is not read.
      have counted := counts.records attempt.1.kind
      rw [recordsOf_joined strict state.2 attempt.1 kept.plain opens, recordsOf_linesFor]
        at counted
      simpa using congrArg List.length counted
  | false =>
    rw [harmless_partly whole, kept.pending_eq]
    rw [appendStep_partly whole, kept.split, List.append_assoc] at counts
    have begins := writeAll_text whole
    generalize (writeAll attempt.2 attempt.1.line).1 = begun at begins counts ⊢
    cases read : serde.fromStr (rest ++ begun) with
    | none => rfl
    | some value =>
      -- What is read is a record of some kind, and none that was written.
      have plain : 0x0A ∉ rest ++ begun := fun within => (List.mem_append.mp within).elim
        kept.plain fun member => attempt.1.plain (begins.mem member)
      have counted := counts.records (kindOf value)
      rw [recordsOf_append strict state.2 plain read, recordsOf_linesFor] at counted
      simpa using congrArg List.length counted

/-- Every append of a history is harmless where it is made. -/
def HarmlessAll (history : List (Attempt serde)) : Prop :=
  ∀ before attempt, before ++ [attempt] <+: history → Harmless (appendAll before).1 attempt

/-- A run goes on behind an attempt. -/
theorem appendAll_concat (before : List (Attempt serde)) (attempt : Attempt serde) :
    appendAll (before ++ [attempt]) = appendStep (appendAll before) attempt :=
  List.foldl_concat ..

/-- Harmless appends keep what was written before them, all along a history. -/
theorem kept_of_harmlessAll (strict : serde.Strict) {history : List (Attempt serde)}
    (ascii : ∀ attempt ∈ history, ∀ byte ∈ attempt.1.text, byte ≤ 0x7F)
    (harmless : HarmlessAll history) : ∃ rest, Kept (appendAll history) rest := by
  -- The induction takes off the last attempt.
  induction history using List.reverseRecOn with
  | nil =>
    refine ⟨[], rfl, by simp, .inl rfl, by simp, ?_⟩
    cases read : serde.fromStr [] with
    | none => rfl
    | some value => exact absurd (strict [] value read) JsonText.not_document_nil
  | append_singleton before attempt ih =>
    obtain ⟨earlier, last⟩ := List.forall_mem_append.mp ascii
    obtain ⟨rest, kept⟩ := ih earlier fun front step opens =>
      harmless front step (opens.trans (List.prefix_append ..))
    rw [appendAll_concat]
    exact kept.step (last attempt (List.mem_singleton_self _))
      (harmless before attempt List.prefix_rfl)

/--
A failed append costs its own record only, exactly while no other one succeeds behind what it
left and what it left is no JSON.
-/
theorem failed_append_iff (strict : serde.Strict) {history : List (Attempt serde)}
    (ascii : ∀ attempt ∈ history, ∀ byte ∈ attempt.1.text, byte ≤ 0x7F) :
    (∀ before, before <+: history → CountsOk (appendAll before)) ↔ HarmlessAll history := by
  constructor
  · intro counts
    -- The induction takes off the last attempt, and those before it keep what was written.
    induction history using List.reverseRecOn with
    | nil =>
      intro before attempt opens
      simp at opens
    | append_singleton front last ih =>
      obtain ⟨earlier, -⟩ := List.forall_mem_append.mp ascii
      have harmless := ih earlier fun before opens =>
        counts before (opens.trans (List.prefix_append ..))
      obtain ⟨rest, kept⟩ := kept_of_harmlessAll strict earlier harmless
      intro before attempt opens
      rcases List.prefix_concat_iff.mp opens with equal | opens
      · obtain ⟨rfl, same⟩ := List.append_inj' equal rfl
        obtain rfl := List.singleton_inj.mp same
        have after := counts (before ++ [attempt]) List.prefix_rfl
        rw [appendAll_concat] at after
        exact kept.harmless_of_counts strict after
      · exact harmless before attempt opens
  · intro harmless before opens
    obtain ⟨rest, kept⟩ := kept_of_harmlessAll strict
      (fun attempt member => ascii attempt (opens.mem member))
      fun front step within => harmless front step (within.trans opens)
    exact kept.counts

/-- A record in front of a failed append is counted, and the other one is not. -/
theorem failed_append_last :
    CountsOk (appendAll [(syncWritten, none), (syncWritten, some 3)]) := by
  -- The first append finds an empty sink, and the second one leaves three bytes.
  refine (failed_append_iff pathSerde_strict ?_).mpr ?_ _ List.prefix_rfl
  · have all : syncWritten.text.all (fun byte => decide (byte ≤ 0x7F)) = true := by decide
    have ascii : ∀ byte ∈ syncWritten.text, byte ≤ 0x7F := fun byte within =>
      of_decide_eq_true (List.all_eq_true.mp all byte within)
    simpa using ascii
  · intro before attempt opens
    cases before with
    | nil =>
      obtain ⟨rfl, -⟩ := List.cons_prefix_cons.mp opens
      exact (harmless_whole rfl).mpr rfl
    | cons first rest =>
      obtain ⟨rfl, behind⟩ := List.cons_prefix_cons.mp opens
      cases rest with
      | nil =>
        have same : attempt = (syncWritten, some 3) := (List.cons_prefix_cons.mp behind).1
        rw [same]
        exact (harmless_partly rfl).mpr rfl
      | cons second rest => simp at opens

/-- A record behind a failed append is lost with it. -/
theorem failed_append_loses_next :
    (appendAll [(syncWritten, some 3), (syncWritten, none)]).2 = [syncWritten] ∧
      ¬CountsOk (appendAll [(syncWritten, some 3), (syncWritten, none)]) := by
  refine ⟨rfl, fun counts => ?_⟩
  exact absurd (congrArg List.length (counts.statistics none none)) (by decide)

end GitFullSend

import Mathlib.Data.List.DropRight
import Mathlib.Data.List.Infix
import Mathlib.Logic.Function.Basic
import GitFullSend.Lib.Utf8

/-! A small shell language: commands with an exit status, and a loop over the lines of the input. -/

namespace Shell

open Utf8 (Bytes)

/-- One part of a word in double quotes. -/
inductive Piece where
  | literal (text : Bytes)
  | value (name : String)

/-- One part of a pattern. -/
inductive Glob where
  | byte (byte : UInt8)
  /-- Any bytes, also none. -/
  | star

/-- What commands read and change. -/
structure State where
  /-- What the variables hold, which is nothing where they are not set. -/
  values : String → Bytes
  /-- What is in the files that can be written, by their paths. -/
  files : Bytes → Option Bytes
  /-- What was printed as errors. -/
  errors : Bytes

/-- The commands, without loops. -/
inductive Command where
  /-- The empty command, which succeeds. -/
  | succeed
  /-- `[ -n word ]` -/
  | nonempty (word : List Piece)
  /-- `printf '%s\n' word >> file` -/
  | printLine (word file : List Piece)
  /-- `echo word >&2` -/
  | complain (word : List Piece)
  /-- `exit status` -/
  | exit (status : Nat)
  /-- `first && second` -/
  | andThen (first second : Command)
  /-- `first; second` -/
  | sequence (first second : Command)
  /-- `case word in pattern) first ;; …`, with the other clauses behind. -/
  | caseOf (word : List Piece) (pattern : List Glob) (first others : Command)

/-- A script that is one loop: `while read -r names; do body; done`. -/
structure Script where
  names : List String
  body : Command

/-- How a command ends. -/
structure Result where
  state : State
  status : Nat
  /-- Whether it has ended the script too. -/
  exited : Bool

/-- Give a file other contents. -/
def State.write (state : State) (path contents : Bytes) : State :=
  { state with files := Function.update state.files path (some contents) }

/-- The text of a word. -/
def expand (state : State) (word : List Piece) : Bytes :=
  word.flatMap fun piece =>
    match piece with
    | .literal text => text
    | .value name => state.values name

/-- Whether a pattern matches the whole of a text. -/
def fits : List Glob → Bytes → Bool
  | [], text => text = []
  | .byte byte :: pattern, first :: text => first = byte && fits pattern text
  | .byte _ :: _, [] => false
  | .star :: pattern, text => text.tails.any (fits pattern)

/-- Run a command. -/
def run : Command → State → Result
  | .succeed, state => ⟨state, 0, false⟩
  | .nonempty word, state => ⟨state, if expand state word = [] then 1 else 0, false⟩
  | .printLine word file, state =>
    let path := expand state file
    match state.files path with
    -- The redirection fails, and the command with it.
    | none => ⟨state, 1, false⟩
    | some contents =>
      ⟨state.write path (contents ++ expand state word ++ [0x0A]), 0, false⟩
  | .complain word, state =>
    ⟨{ state with errors := state.errors ++ expand state word ++ [0x0A] }, 0, false⟩
  | .exit status, state => ⟨state, status, true⟩
  | .andThen first second, state =>
    let result := run first state
    if result.exited ∨ result.status ≠ 0 then result else run second result.state
  | .sequence first second, state =>
    let result := run first state
    if result.exited then result else run second result.state
  | .caseOf word pattern first others, state =>
    if fits pattern (expand state word) then run first state else run others state

/-- The bytes that separate fields. -/
def blank (byte : UInt8) : Bool := byte = 0x20 || byte = 0x09

/-- The fields of a line by the names that take them; the last name takes all that is left. -/
def fields : List String → Bytes → List (String × Bytes)
  | [], _ => []
  | [name], line => [(name, (line.dropWhile blank).rdropWhile blank)]
  | name :: names, line =>
    let line := line.dropWhile blank
    (name, line.takeWhile (!blank ·)) :: fields names (line.dropWhile (!blank ·))

/-- The variables behind reading a line. -/
def assign (names : List String) (line : Bytes) (state : State) : State :=
  let values := (fields names line).foldl
    (fun values field => Function.update values field.1 field.2) state.values
  { state with values := values }

/-- The lines of an input, without a last one that is not ended. -/
def lines (input : Bytes) : List Bytes :=
  linesFrom [] input
where
  linesFrom (line : Bytes) : Bytes → List Bytes
    | [] => []
    | byte :: rest =>
      if byte = 0x0A then line :: linesFrom [] rest else linesFrom (line ++ [byte]) rest

/-- Run the body of a script on one line. -/
def Script.turn (script : Script) (line : Bytes) (state : State) : Result :=
  run script.body (assign script.names line state)

/-- Go through lines, with the status of the body that ran last. -/
def loop (script : Script) : List Bytes → Nat → State → Result
  | [], status, state => ⟨state, status, false⟩
  | line :: rest, _, state =>
    let result := script.turn line state
    if result.exited then result else loop script rest result.status result.state

/-- Run a script on an input, which succeeds where its body never runs. -/
def Script.run (script : Script) (input : Bytes) (state : State) : Result :=
  loop script (lines input) 0 state

/-- A pattern that ends in a star matches whatever has the rest in front. -/
theorem fits_opening (opening text : Bytes) :
    fits (opening.map Glob.byte ++ [.star]) text = true ↔ opening <+: text := by
  -- Each byte of the pattern is taken off the text.
  induction opening generalizing text with
  | nil =>
    simp only [List.map_nil, List.nil_append, List.nil_prefix, iff_true, fits, List.any_eq_true]
    exact ⟨[], (List.mem_tails _ _).mpr List.nil_suffix, decide_eq_true rfl⟩
  | cons byte opening ih =>
    cases text with
    | nil => simp [fits]
    | cons first text =>
      simp only [List.map_cons, List.cons_append, fits, Bool.and_eq_true, decide_eq_true_eq, ih,
        List.cons_prefix_cons]
      exact and_congr_left' eq_comm

/-- A pattern that is a star matches everything. -/
theorem fits_star (text : Bytes) : fits [.star] text = true :=
  (fits_opening [] text).mpr (List.nil_prefix)

private theorem linesFrom_append {line : Bytes} (whole : 0x0A ∉ line) (start rest : Bytes) :
    lines.linesFrom start (line ++ 0x0A :: rest) = (start ++ line) :: lines.linesFrom [] rest := by
  -- Every byte before the line feed is added to the line.
  induction line generalizing start with
  | nil => simp [lines.linesFrom]
  | cons byte line ih =>
    obtain ⟨other, whole⟩ := not_or.mp (mt List.mem_cons.mpr whole)
    rw [List.cons_append, lines.linesFrom, if_neg (Ne.symm other), ih whole]
    simp

/-- A line in front of others is the first one. -/
theorem lines_append {line : Bytes} (whole : 0x0A ∉ line) (rest : Bytes) :
    lines (line ++ 0x0A :: rest) = line :: lines rest :=
  linesFrom_append whole [] rest

/-- The lines of some lines put together. -/
theorem lines_flatMap {each : List Bytes} (whole : ∀ line ∈ each, 0x0A ∉ line) :
    lines (each.flatMap (· ++ [0x0A])) = each := by
  -- The induction is on the lines, and the first one is cut off whole.
  induction each with
  | nil => rfl
  | cons line rest ih =>
    obtain ⟨here, others⟩ := List.forall_mem_cons.mp whole
    rw [List.flatMap_cons, List.append_assoc, List.singleton_append, lines_append here, ih others]

/-- A word has no blanks, but at least one byte. -/
def Dense (word : Bytes) : Prop :=
  word ≠ [] ∧ ∀ byte ∈ word, blank byte = false

/-- A word that opens a line is not skipped as blank. -/
theorem Dense.dropWhile {word : Bytes} (dense : Dense word) (rest : Bytes) :
    (word ++ rest).dropWhile blank = word ++ rest := by
  -- Its first byte is no blank.
  cases word with
  | nil => exact absurd rfl dense.1
  | cons first more =>
    have kept := dense.2 first List.mem_cons_self
    simp [kept]

/-- A word in front of a blank is a field. -/
theorem fields_word {name other : String} {names : List String} {word : Bytes}
    (dense : Dense word) (rest : Bytes) :
    fields (name :: other :: names) (word ++ 0x20 :: rest) =
      (name, word) :: fields (other :: names) (0x20 :: rest) := by
  -- The word is taken up to the blank, and the blank is left.
  have taken : (word ++ 0x20 :: rest).takeWhile (!blank ·) = word := by
    rw [List.takeWhile_append_of_pos (by simpa using dense.2)]
    simp [blank]
  have left : (word ++ 0x20 :: rest).dropWhile (!blank ·) = 0x20 :: rest := by
    rw [List.dropWhile_append_of_pos (by simpa using dense.2)]
    simp [blank]
  rw [fields, dense.dropWhile, taken, left]
  exact nofun

/-- A blank in front of the fields is skipped. -/
theorem fields_blank (names : List String) (line : Bytes) :
    fields names (0x20 :: line) = fields names line := by
  -- Both forms of a field skip the blanks in front of it.
  have skipped : (0x20 :: line).dropWhile blank = line.dropWhile blank := rfl
  cases names with
  | nil => rfl
  | cons name names =>
    cases names with
    | nil => rw [fields, fields, skipped]
    | cons other names => simp only [fields, skipped]

/-- A word alone is the last field. -/
theorem fields_last {name : String} {word : Bytes} (dense : Dense word) :
    fields [name] word = [(name, word)] := by
  -- Neither end of the word has a blank to take off.
  have opening : word.dropWhile blank = word := by
    simpa using dense.dropWhile []
  have ending : word.rdropWhile blank = word := by
    rw [List.rdropWhile_eq_self_iff]
    intro some
    simpa using dense.2 _ (List.getLast_mem some)
  rw [fields, opening, ending]

/-- A turn that does not exit is followed by the others. -/
theorem loop_on {script : Script} {line : Bytes} {state : State}
    (goes : (script.turn line state).exited = false) (rest : List Bytes) (status : Nat) :
    loop script (line :: rest) status state =
      loop script rest (script.turn line state).status (script.turn line state).state := by
  rw [loop, if_neg (by simp [goes])]

/-- A turn that exits is the last one. -/
theorem loop_exit {script : Script} {line : Bytes} {state : State}
    (exits : (script.turn line state).exited = true) (rest : List Bytes) (status : Nat) :
    loop script (line :: rest) status state = script.turn line state := by
  rw [loop, if_pos exits]

/-- A loop whose body never exits has the status that its body always ends with. -/
theorem loop_through {script : Script} {holds : State → Prop} {ending : Nat} {rest : List Bytes}
    (turns : ∀ line ∈ rest, ∀ state, holds state →
      (script.turn line state).exited = false ∧ (script.turn line state).status = ending ∧
        holds (script.turn line state).state)
    {state : State} (start : holds state) (status : Nat) :
    (loop script rest status state).status = if rest = [] then status else ending := by
  -- The induction is on the lines that are left.
  induction rest generalizing state status with
  | nil => rfl
  | cons line rest ih =>
    obtain ⟨here, others⟩ := List.forall_mem_cons.mp turns
    obtain ⟨goes, ended, kept⟩ := here state start
    rw [loop_on goes, ih others kept, ended, if_neg (List.cons_ne_nil line rest), ite_self]

/--
A loop exits with a status when one of its lines makes its body exit with it, and no other line
makes it exit with another.
-/
theorem loop_exits {script : Script} {holds : State → Prop} {ending : Nat} {rest : List Bytes}
    (turns : ∀ line ∈ rest, ∀ state, holds state →
      (script.turn line state).exited = true ∧ (script.turn line state).status = ending ∨
        (script.turn line state).exited = false ∧ holds (script.turn line state).state)
    {last : Bytes} (member : last ∈ rest)
    (exits : ∀ state, holds state → (script.turn last state).exited = true)
    {state : State} (start : holds state) (status : Nat) :
    (loop script rest status state).status = ending := by
  -- The induction is on the lines that are left, and the exit is among them.
  induction rest generalizing state status with
  | nil => cases member
  | cons line rest ih =>
    obtain ⟨here, others⟩ := List.forall_mem_cons.mp turns
    rcases here state start with ⟨exited, ended⟩ | ⟨goes, kept⟩
    · rw [loop_exit exited, ended]
    · rw [loop_on goes]
      rcases List.mem_cons.mp member with rfl | member
      · have exited := exits state start
        rw [goes] at exited
        cases exited
      · exact ih others member kept _

end Shell

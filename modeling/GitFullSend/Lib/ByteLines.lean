import Mathlib.Data.List.DropRight
import GitFullSend.Lib.Utf8

/-! The lines of a byte string, and what is behind its last line feed. -/

namespace ByteLines

open Utf8 (Bytes)

/-- A line without the carriage return that may stand in front of its line feed. -/
def stripReturn (line : Bytes) : Bytes :=
  if line.getLast? = some 0x0D then line.dropLast else line

/-- The lines of a byte string, behind a piece of the first one. -/
def linesFrom (line : Bytes) : Bytes → List Bytes
  -- A carriage return at the end of the bytes is no part of a line's end.
  | [] => if line = [] then [] else [line]
  | byte :: rest =>
    if byte = 0x0A then stripReturn line :: linesFrom [] rest
    else linesFrom (line ++ [byte]) rest

/-- The lines of a byte string without their ends. -/
def lines (contents : Bytes) : List Bytes := linesFrom [] contents

/-- There is nothing behind the last line feed. -/
def Complete (contents : Bytes) : Prop := contents = [] ∨ ∃ front, contents = front ++ [0x0A]

/-- What is behind the last line feed. -/
def pending (contents : Bytes) : Bytes := contents.rtakeWhile (· ≠ 0x0A)

/-- There is no line at all. -/
@[simp] theorem lines_nil : lines [] = [] := rfl

private theorem linesFrom_plain {piece : Bytes} (plain : 0x0A ∉ piece) (line rest : Bytes) :
    linesFrom line (piece ++ rest) = linesFrom (line ++ piece) rest := by
  -- The induction is on the bytes, none of which ends the line.
  induction piece generalizing line with
  | nil => simp
  | cons byte piece ih =>
    obtain ⟨other, plain⟩ := not_or.mp (mt List.mem_cons.mpr plain)
    rw [List.cons_append, linesFrom, if_neg fun same => other same.symm, ih plain,
      List.append_assoc]
    rfl

/-- A line in front of others is the first one. -/
theorem lines_cons {line : Bytes} (plain : 0x0A ∉ line) (rest : Bytes) :
    lines (line ++ 0x0A :: rest) = stripReturn line :: lines rest := by
  rw [lines, linesFrom_plain plain, linesFrom, if_pos rfl]
  rfl

/-- What is behind the last line feed is a line as well, if it is anything. -/
theorem lines_plain {line : Bytes} (plain : 0x0A ∉ line) :
    lines line = if line = [] then [] else [line] := by
  -- All bytes are read into the one open line.
  have read := linesFrom_plain plain [] []
  rw [List.append_nil] at read
  rw [lines, read, linesFrom]
  rfl

private theorem linesFrom_append (line front rest : Bytes) :
    linesFrom line (front ++ 0x0A :: rest) = linesFrom line (front ++ [0x0A]) ++ lines rest := by
  -- The induction is on the bytes in front of the line feed.
  induction front generalizing line with
  | nil =>
    rw [List.nil_append, List.nil_append, linesFrom, linesFrom, if_pos rfl, if_pos rfl]
    rfl
  | cons byte front ih =>
    rw [List.cons_append, List.cons_append, linesFrom, linesFrom]
    split
    · exact congrArg (_ :: ·) (ih [])
    · exact ih (line ++ [byte])

/-- Complete lines stay the same with others behind them. -/
theorem lines_append {contents : Bytes} (complete : Complete contents) (rest : Bytes) :
    lines (contents ++ rest) = lines contents ++ lines rest := by
  -- Complete bytes are empty, or end with a line feed.
  rcases complete with rfl | ⟨front, rfl⟩
  · rfl
  · rw [List.append_assoc, List.singleton_append]
    exact linesFrom_append [] front rest

/-- Complete lines with another one behind them are complete. -/
theorem Complete.append {contents : Bytes} (line : Bytes) :
    Complete (contents ++ (line ++ [0x0A])) :=
  .inr ⟨contents ++ line, (List.append_assoc ..).symm⟩

/-- Texts with a line feed behind each are complete lines. -/
theorem complete_flatMap (texts : List Bytes) : Complete (texts.flatMap (· ++ [0x0A])) := by
  -- The last line ends with its line feed.
  rcases List.eq_nil_or_concat' texts with rfl | ⟨front, last, rfl⟩
  · exact .inl rfl
  · rw [List.flatMap_append, List.flatMap_singleton]
    exact Complete.append last

/-- Texts that have no line end within or at their end are the lines they are written as. -/
theorem lines_flatMap {texts : List Bytes} (plain : ∀ text ∈ texts, 0x0A ∉ text)
    (ended : ∀ text ∈ texts, text.getLast? ≠ some 0x0D) :
    lines (texts.flatMap (· ++ [0x0A])) = texts := by
  -- The induction takes off the first line.
  induction texts with
  | nil => rfl
  | cons text rest ih =>
    obtain ⟨here, others⟩ := List.forall_mem_cons.mp plain
    obtain ⟨last, ended⟩ := List.forall_mem_cons.mp ended
    rw [List.flatMap_cons, List.append_assoc, List.singleton_append, lines_cons here,
      ih others ended, stripReturn, if_neg last]

/-- Behind complete lines only what has no line feed is pending. -/
theorem pending_append {contents : Bytes} (complete : Complete contents) {rest : Bytes}
    (plain : 0x0A ∉ rest) : pending (contents ++ rest) = rest := by
  -- The induction takes off the last byte.
  induction rest using List.reverseRecOn with
  | nil =>
    rw [List.append_nil]
    rcases complete with rfl | ⟨front, rfl⟩
    · rfl
    · exact List.rtakeWhile_concat_neg _ _ _ (by decide)
  | append_singleton rest byte ih =>
    obtain ⟨plain, other⟩ := not_or.mp (mt List.mem_append.mpr plain)
    have differs : byte ≠ 0x0A := fun same => other (same ▸ List.mem_singleton_self _)
    rw [← List.append_assoc, pending, List.rtakeWhile_concat_pos _ _ _ (by simpa using differs)]
    exact congrArg (· ++ [byte]) (ih plain)

end ByteLines

import Mathlib.Data.List.DropRight
import Mathlib.Data.List.Infix
import GitFullSend.Lib.Utf8

/-! Text and its bytes, white space, and trimming. -/

namespace Text

open Utf8 (Bytes ofText)

/-- The characters with Unicode's White_Space property. -/
def whitespace (character : Char) : Bool :=
  let code := character.toNat
  (0x09 ≤ code && code ≤ 0x0D) || code == 0x20 || code == 0x85 || code == 0xA0 ||
    code == 0x1680 || (0x2000 ≤ code && code ≤ 0x200A) || code == 0x2028 || code == 0x2029 ||
    code == 0x202F || code == 0x205F || code == 0x3000

/-- The characters of Unicode's general category Cc. -/
def control (character : Char) : Bool :=
  let code := character.toNat
  code ≤ 0x1F || (0x7F ≤ code && code ≤ 0x9F)

/-- A text without the white space at its two ends. -/
def trim (text : String) : String :=
  .ofList ((text.toList.dropWhile whitespace).rdropWhile whitespace)

/-- The longest pieces of a text without white space. -/
def splitWhitespace (text : String) : List String :=
  ((text.toList.splitOnP whitespace).filter (· ≠ [])).map .ofList

/-- The text that bytes encode, when they encode one. -/
def ofBytes (bytes : Bytes) : Option String :=
  String.fromUTF8? ⟨bytes.toArray⟩

/-- The lines of a text, the one that is being read last character first. -/
def linesFrom (line : List Char) : List Char → List (List Char)
  | [] => if line = [] then [] else [line.reverse]
  | '\n' :: rest =>
    let line := match line with
      | '\r' :: line => line
      | line => line
    line.reverse :: linesFrom [] rest
  | character :: rest => linesFrom (character :: line) rest

/-- The lines of a text without their ends, which may have a carriage return in front. -/
def lines (text : String) : List String :=
  (linesFrom [] text.toList).map .ofList

/-- A word of visible ASCII characters. -/
def Graphic (word : String) : Prop :=
  word ≠ "" ∧ ∀ character ∈ word.toList, 0x21 ≤ character.toNat ∧ character.toNat ≤ 0x7E

instance : DecidablePred Graphic := fun word =>
  @instDecidableAnd _ _ inferInstance (List.decidableBAll _ word.toList)

/-- Whether a text has another somewhere within it. -/
def contains (text pattern : String) : Bool :=
  decide (pattern.toList <:+: text.toList)

/-- Two texts with the same bytes are the same text. -/
theorem ofText_injective {left right : String} (same : ofText left = ofText right) :
    left = right := by
  -- A text is its array of bytes.
  have data : left.toByteArray.data = right.toByteArray.data := Array.toList_inj.mp same
  exact String.toByteArray_inj.mp (ByteArray.ext data)

/-- The bytes of two texts, one behind the other, are those of both together. -/
@[simp] theorem ofText_append (left right : String) :
    ofText (left ++ right) = ofText left ++ ofText right := by
  simp [ofText]

/-- The bytes of a text are those of its characters. -/
theorem ofText_eq (text : String) :
    ofText text = text.toList.flatMap String.utf8EncodeChar := by
  -- The array is the encoding of the characters.
  have encoded : text.toList.utf8Encode = text.toByteArray := String.utf8Encode_toList
  rw [ofText, String.toUTF8_eq_toByteArray, ← encoded]
  simp [List.utf8Encode]

/-- A value that fits a byte is the value of that byte. -/
private theorem toNat_byte {value : Nat} (fits : value < 0x100) : (UInt8.ofNat value).toNat = value :=
  UInt8.toNat_ofNat_of_lt' fits

/-- An ASCII byte in the encoding of a character is that character. -/
theorem ascii_of_mem {character : Char} {byte : UInt8}
    (member : byte ∈ String.utf8EncodeChar character) (ascii : byte.toNat < 0x80) :
    character.toNat = byte.toNat := by
  -- Every byte of a longer encoding has its high bit set.
  unfold String.utf8EncodeChar at member
  simp only [Char.toNat]
  generalize character.val.toNat = code at member ⊢
  simp only at member
  split at member
  · rename_i small
    obtain rfl := List.mem_singleton.mp member
    exact (toNat_byte (by omega)).symm
  · exfalso
    split at member
    · simp only [List.mem_cons, List.not_mem_nil, or_false] at member
      rcases member with rfl | rfl <;> rw [toNat_byte (by omega)] at ascii <;> omega
    · split at member
      · simp only [List.mem_cons, List.not_mem_nil, or_false] at member
        rcases member with rfl | rfl | rfl <;> rw [toNat_byte (by omega)] at ascii <;> omega
      · simp only [List.mem_cons, List.not_mem_nil, or_false] at member
        rcases member with rfl | rfl | rfl | rfl <;> rw [toNat_byte (by omega)] at ascii <;> omega

/-- The byte of a line feed only comes from a line feed. -/
theorem lineFeed_of_mem {text : String} (member : 0x0A ∈ ofText text) : '\n' ∈ text.toList := by
  -- It is ASCII, so it is a character of its own.
  rw [ofText_eq] at member
  obtain ⟨character, listed, within⟩ := List.mem_flatMap.mp member
  have same : character.toNat = '\n'.toNat := ascii_of_mem within (by decide)
  rwa [Char.toNat_inj.mp same] at listed

/-- An ASCII character is encoded as one byte. -/
theorem encode_ascii {character : Char} (ascii : character.toNat < 0x80) :
    String.utf8EncodeChar character = [UInt8.ofNat character.toNat] := by
  -- The first of the four ranges of the encoding has all of ASCII.
  have small : character.val.toNat ≤ 0x7F := Nat.le_of_lt_succ ascii
  unfold String.utf8EncodeChar
  simp only
  rw [if_pos small]
  rfl

/-- An ASCII character is a byte of the encoding. -/
theorem mem_of_ascii {text : String} {character : Char} (member : character ∈ text.toList)
    (ascii : character.toNat < 0x80) : UInt8.ofNat character.toNat ∈ ofText text := by
  rw [ofText_eq]
  exact List.mem_flatMap.mpr ⟨character, member, by simp [encode_ascii ascii]⟩

/-- Every character of a text of ASCII bytes is one of these bytes. -/
theorem byte_of_mem {text : String} (plain : ∀ byte ∈ ofText text, byte.toNat < 0x80)
    {character : Char} (member : character ∈ text.toList) :
    ∃ byte ∈ ofText text, character.toNat = byte.toNat := by
  -- The first byte of its encoding is one of the text, and is all of it.
  obtain ⟨byte, following, spelled⟩ := List.exists_cons_of_ne_nil
    (List.ne_nil_of_length_pos (by
      rw [String.length_utf8EncodeChar]; exact Char.utf8Size_pos character))
  have within : byte ∈ String.utf8EncodeChar character := spelled ▸ List.mem_cons_self
  have listed : byte ∈ ofText text := by
    rw [ofText_eq]
    exact List.mem_flatMap.mpr ⟨character, member, within⟩
  exact ⟨byte, listed, ascii_of_mem within (plain byte listed)⟩

/-- Trimming the line of a word without white space gives the word. -/
theorem trim_line {word : String} (dense : ∀ character ∈ word.toList, whitespace character = false) :
    trim (word ++ "\n") = word := by
  -- Nothing is dropped in front of a word, and behind it the line feed is.
  have feed : ("\n" : String).toList = ['\n'] := by decide
  have blank : whitespace '\n' = true := by decide
  rw [trim, String.toList_append, feed]
  have spelled := String.ofList_toList (s := word)
  generalize word.toList = letters at dense spelled
  cases letters with
  | nil =>
    rw [← spelled]
    decide
  | cons first rest =>
    have here := dense first List.mem_cons_self
    rw [List.cons_append, List.dropWhile_cons_of_neg (by simp [here]), ← List.cons_append,
      List.rdropWhile_concat_pos _ _ _ blank, List.rdropWhile_eq_self_iff.mpr, spelled]
    intro present
    simpa using dense _ (List.getLast_mem present)

/-- The bytes of a text begin with those of an ASCII text exactly when the text begins with it. -/
theorem prefix_ofText_iff {opening text : String}
    (ascii : ∀ character ∈ opening.toList, character.toNat < 0x80) :
    ofText opening <+: ofText text ↔ opening.toList <+: text.toList := by
  -- The induction is on the opening, whose characters are single bytes and no part of others.
  rw [ofText_eq, ofText_eq]
  generalize text.toList = characters
  generalize opening.toList = wanted at ascii ⊢
  induction wanted generalizing characters with
  | nil => simp
  | cons first more ih =>
    obtain ⟨here, others⟩ := List.forall_mem_cons.mp ascii
    rw [List.flatMap_cons, encode_ascii here, List.singleton_append]
    cases characters with
    | nil => simp
    | cons character rest =>
      by_cases same : character = first
      · subst same
        rw [List.flatMap_cons, encode_ascii here, List.singleton_append, List.cons_prefix_cons,
          List.cons_prefix_cons, ih rest others]
        simp
      · -- The first byte of another character is another byte.
        refine ⟨fun begins => ?_, fun begins => absurd (List.cons_prefix_cons.mp begins).1.symm same⟩
        obtain ⟨byte, following, spelled⟩ := List.exists_cons_of_ne_nil
          (List.ne_nil_of_length_pos (by
            rw [String.length_utf8EncodeChar]; exact Char.utf8Size_pos character))
        rw [List.flatMap_cons, spelled, List.cons_append] at begins
        have equal := (List.cons_prefix_cons.mp begins).1
        have small : byte.toNat = first.toNat := by
          rw [← equal, toNat_byte (by omega)]
        have within : byte ∈ String.utf8EncodeChar character := spelled ▸ List.mem_cons_self
        exact absurd (Char.toNat_inj.mp ((ascii_of_mem within (by omega)).trans small)) same

/-- The bytes of a text are read back as the text. -/
@[simp] theorem ofBytes_ofText (text : String) : ofBytes (ofText text) = some text := by
  -- The bytes are those of the text, which are valid by construction.
  have same : (⟨(ofText text).toArray⟩ : ByteArray) = text.toByteArray := by
    simp [ofText]
  rw [ofBytes, same, String.fromUTF8?, dif_pos text.isValidUTF8]
  rfl

private theorem linesFrom_append {line : List Char} (whole : '\n' ∉ line) (start rest : List Char) :
    linesFrom start (line ++ '\n' :: rest) = linesFrom (line.reverse ++ start) ('\n' :: rest) := by
  -- Every character before the line feed is put in front of those read before.
  induction line generalizing start with
  | nil => rfl
  | cons character line ih =>
    obtain ⟨other, whole⟩ := not_or.mp (mt List.mem_cons.mpr whole)
    have read : linesFrom start (character :: line ++ '\n' :: rest) =
        linesFrom (character :: start) (line ++ '\n' :: rest) := by
      rw [List.cons_append, linesFrom]
      exact fun same => other same.symm
    rw [read, ih whole]
    simp

/-- A line in front of others is the first one. -/
theorem lines_append {line : String} (whole : '\n' ∉ line.toList) (plain : '\r' ∉ line.toList)
    (rest : String) : lines (line ++ "\n" ++ rest) = line :: lines rest := by
  -- The line is read backwards, and has no carriage return to be taken off.
  have feed : "\n".toList = ['\n'] := by decide
  have characters : (line ++ "\n" ++ rest).toList = line.toList ++ '\n' :: rest.toList := by
    simp [feed]
  have kept : linesFrom line.toList.reverse ('\n' :: rest.toList) =
      line.toList :: linesFrom [] rest.toList := by
    rw [linesFrom, List.reverse_reverse]
    intro returned same
    have within : '\r' ∈ line.toList.reverse := same ▸ List.mem_cons_self
    exact plain (List.mem_reverse.mp within)
  rw [lines, characters, linesFrom_append whole, List.append_nil, kept, List.map_cons,
    String.ofList_toList, lines]

namespace Graphic

variable {word : String}

/-- A visible word has a first character. -/
theorem exists_cons (graphic : Graphic word) : ∃ first rest, word.toList = first :: rest :=
  List.exists_cons_of_ne_nil (mt String.toList_eq_nil_iff.mp graphic.1)

/-- A visible word has no white space in it. -/
theorem whole (graphic : Graphic word) {character : Char} (member : character ∈ word.toList) :
    whitespace character = false := by
  -- All white space is below the bounds or above them.
  obtain ⟨low, high⟩ := graphic.2 character member
  simp only [whitespace, Bool.or_eq_false_iff, Bool.and_eq_false_iff, decide_eq_false_iff_not,
    beq_eq_false_iff_ne]
  omega

/-- The characters of a visible word are ASCII. -/
theorem ascii (graphic : Graphic word) : ∀ character ∈ word.toList, character.toNat < 0x80 := by
  intro character member
  have high := (graphic.2 character member).2
  omega

/-- Every byte of a visible word is a visible ASCII character. -/
theorem bytes (graphic : Graphic word) {byte : UInt8} (member : byte ∈ ofText word) :
    0x21 ≤ byte.toNat ∧ byte.toNat ≤ 0x7E := by
  -- The characters are ASCII, and so each is one byte.
  rw [ofText_eq] at member
  obtain ⟨character, listed, within⟩ := List.mem_flatMap.mp member
  obtain ⟨low, high⟩ := graphic.2 character listed
  rw [encode_ascii (by omega), List.mem_singleton] at within
  rw [within, toNat_byte (by omega)]
  exact ⟨low, high⟩

end Graphic

/-- A word with white space behind it is the first piece of a text. -/
theorem splitWhitespace_word {word : List Char} (some : word ≠ [])
    (whole : ∀ character ∈ word, whitespace character = false) {gap : Char}
    (white : whitespace gap = true) (rest : List Char) :
    splitWhitespace (.ofList (word ++ gap :: rest)) =
      .ofList word :: splitWhitespace (.ofList rest) := by
  -- The text is cut at the gap first, and the word is no empty piece.
  have cut : (word ++ gap :: rest).splitOnP whitespace = word :: rest.splitOnP whitespace := by
    exact List.splitOnP_append_cons_of_forall_mem whole gap white rest
  simp [splitWhitespace, cut, some]

/-- A text that begins with a word has it, up to the first white space, as its first piece. -/
theorem splitWhitespace_first {first : Char} (plain : whitespace first = false)
    (rest : List Char) :
    (splitWhitespace (.ofList (first :: rest)))[0]? =
      some (.ofList ((first :: rest).takeWhile fun character => !whitespace character)) := by
  -- What is not taken is empty, or begins with the white space behind the word.
  have split := List.takeWhile_append_dropWhile (p := fun character => !whitespace character)
    (l := first :: rest)
  generalize taken : (first :: rest).takeWhile (fun character => !whitespace character) = word
    at split
  have some : word ≠ [] := by
    rw [← taken, List.takeWhile_cons_of_pos (by simp [plain])]
    simp
  have whole : ∀ character ∈ word, whitespace character = false := by
    intro character member
    rw [← taken] at member
    simpa only [Bool.not_eq_true'] using List.mem_takeWhile_imp member
  cases left : (first :: rest).dropWhile (fun character => !whitespace character) with
  | nil =>
    have single : word.splitOnP whitespace = [word] :=
      List.splitOnP_eq_singleton whole
    rw [left, List.append_nil] at split
    simp [← split, splitWhitespace, single, some]
  | cons gap behind =>
    have white : whitespace gap = true := by
      have stops := List.head?_dropWhile_not (fun character => !whitespace character)
        (first :: rest)
      rw [left] at stops
      simpa using stops
    rw [← split, left, splitWhitespace_word some whole white]
    rfl

end Text

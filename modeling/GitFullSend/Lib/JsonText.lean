import GitFullSend.Lib.Utf8

/-! The grammar of JSON texts, and a reader of brackets and quotes that tells torn texts apart. -/

namespace JsonText

open Utf8 (Bytes ofText)

/-- The white space that may stand around a token. -/
def white : Bytes := ofText " \t\n\r"

/-- The bytes that numbers are written with. -/
def numeral : Bytes := ofText "+-.0123456789Ee"

/-- The bytes that may stand behind the backslash of an escape. -/
def escapes : Bytes := ofText "\"\\/bfnrtu"

/-- The literal names. -/
def literals : List Bytes := [ofText "null", ofText "true", ofText "false"]

/-- All bytes are white space. -/
def White (gap : Bytes) : Prop := ∀ byte ∈ gap, byte ∈ white

/-- What may stand between the quotes of a string. -/
inductive Inner : Bytes → Prop where
  | nil : Inner []
  | plain {byte : UInt8} {rest : Bytes} (printed : 0x20 ≤ byte) (quote : byte ≠ 0x22)
      (backslash : byte ≠ 0x5C) (more : Inner rest) : Inner (byte :: rest)
  | escape {byte : UInt8} {rest : Bytes} (known : byte ∈ escapes) (more : Inner rest) :
      Inner (0x5C :: byte :: rest)

/-- The parts that the grammar is written with. -/
inductive Part where
  | value
  /-- A value with the white space around it, which is also what a whole text is. -/
  | element
  /-- The values of an array. -/
  | elements
  /-- The members of an object. -/
  | members

/--
The bytes of a part of a JSON text.

Numbers are known by their bytes only, and an escape is left to its first letter.
-/
inductive Text : Part → Bytes → Prop where
  | literal {word : Bytes} (known : word ∈ literals) : Text .value word
  | number {digits : Bytes} (some : digits ≠ []) (known : ∀ byte ∈ digits, byte ∈ numeral) :
      Text .value digits
  | string {inner : Bytes} (sound : Inner inner) : Text .value (0x22 :: (inner ++ [0x22]))
  | emptyArray {gap : Bytes} (blank : White gap) : Text .value (0x5B :: (gap ++ [0x5D]))
  | array {text : Bytes} (items : Text .elements text) : Text .value (0x5B :: (text ++ [0x5D]))
  | emptyObject {gap : Bytes} (blank : White gap) : Text .value (0x7B :: (gap ++ [0x7D]))
  | object {text : Bytes} (fields : Text .members text) : Text .value (0x7B :: (text ++ [0x7D]))
  | element {before text after : Bytes} (front : White before) (item : Text .value text)
      (back : White after) : Text .element (before ++ text ++ after)
  | single {text : Bytes} (item : Text .element text) : Text .elements text
  | elements {left right : Bytes} (first : Text .elements left) (others : Text .elements right) :
      Text .elements (left ++ 0x2C :: right)
  | member {before key between text : Bytes} (front : White before) (name : Inner key)
      (gap : White between) (item : Text .element text) :
      Text .members (before ++ 0x22 :: (key ++ [0x22]) ++ (between ++ 0x3A :: text))
  | members {left right : Bytes} (first : Text .members left) (others : Text .members right) :
      Text .members (left ++ 0x2C :: right)

/-- A whole JSON text. -/
abbrev Document (text : Bytes) : Prop := Text .element text

/-- What has been read of a text whose first bracket is open. -/
inductive Scan where
  /-- Outside strings, in so many more brackets than the first one. -/
  | outside (depth : Nat)
  /-- Inside a string in so many more brackets. -/
  | inside (depth : Nat)
  /-- Behind a backslash in a string. -/
  | escaped (depth : Nat)
  /-- Behind the bracket that closes the first one. -/
  | closed
  | failed

/-- Read a byte, and see brackets and quotes only. -/
def step : Scan → UInt8 → Scan
  | .outside depth, byte =>
    if byte = 0x22 then .inside depth
    else if byte = 0x5C then .failed
    else if byte = 0x5B ∨ byte = 0x7B then .outside (depth + 1)
    else if byte = 0x5D ∨ byte = 0x7D then
      match depth with
      | 0 => .closed
      | depth + 1 => .outside depth
    else .outside depth
  | .inside depth, byte =>
    if byte = 0x22 then .outside depth
    else if byte = 0x5C then .escaped depth
    else .inside depth
  | .escaped depth, byte => if byte ∈ escapes then .inside depth else .failed
  | .closed, byte => if byte ∈ white then .closed else .failed
  | .failed, _ => .failed

/-- Read bytes one after the other. -/
def run (scan : Scan) (bytes : Bytes) : Scan := bytes.foldl step scan

/-- A byte that is neither bracket, quote nor backslash. -/
def Plain (byte : UInt8) : Prop := byte ∉ ([0x22, 0x5C, 0x5B, 0x5D, 0x7B, 0x7D] : Bytes)

instance : DecidablePred Plain := fun _ => inferInstanceAs (Decidable (_ ∉ _))

/-- A reader that stood in a string is still in one, if it has not failed. -/
def Amid (scan : Scan) : Prop := scan = .failed ∨ ∃ depth, scan = .inside depth

/-- A reader stands outside strings, or behind the last bracket, or has failed. -/
def Apart (scan : Scan) : Prop := scan = .failed ∨ scan = .closed ∨ ∃ depth, scan = .outside depth

/--
A piece of text with all its brackets and strings closed.

Read from within a string, what was inside its own strings and what was outside change places.
-/
structure Balanced (text : Bytes) : Prop where
  outside : ∀ depth, run (.outside depth) text = .outside depth
  inside : ∀ depth, Amid (run (.inside depth) text)

/-- Reading two pieces is reading one, and the other from where it ended. -/
theorem run_append (scan : Scan) (left right : Bytes) :
    run scan (left ++ right) = run (run scan left) right :=
  List.foldl_append

/-- Reading goes on behind the first byte. -/
@[simp] theorem run_cons (scan : Scan) (byte : UInt8) (rest : Bytes) :
    run scan (byte :: rest) = run (step scan byte) rest := rfl

/-- There is nothing to read. -/
@[simp] theorem run_nil (scan : Scan) : run scan [] = scan := rfl

/-- A reader that failed has failed for good. -/
@[simp] theorem run_failed (text : Bytes) : run .failed text = .failed := by
  induction text with
  | nil => rfl
  | cons byte rest ih => exact ih

/-- Balanced pieces make a balanced text. -/
theorem Balanced.append {left right : Bytes} (first : Balanced left) (second : Balanced right) :
    Balanced (left ++ right) := by
  -- The reader leaves the first piece where it came in, or in a string, or for good.
  refine ⟨fun depth => ?_, fun depth => ?_⟩
  · rw [run_append, first.outside, second.outside]
  · rw [run_append]
    rcases first.inside depth with failed | ⟨other, amid⟩
    · exact .inl (by rw [failed, run_failed])
    · exact amid ▸ second.inside other

/-- A byte without a meaning to the reader is a balanced piece. -/
theorem Plain.balanced {byte : UInt8} (plain : Plain byte) : Balanced [byte] := by
  -- No test of the reader is for such a byte.
  have others : byte ≠ 0x22 ∧ byte ≠ 0x5C ∧ byte ≠ 0x5B ∧ byte ≠ 0x5D ∧ byte ≠ 0x7B ∧
      byte ≠ 0x7D := by
    simpa [Plain] using plain
  obtain ⟨quote, backslash, square, bracket, curly, brace⟩ := others
  refine ⟨fun depth => ?_, fun depth => .inr ⟨depth, ?_⟩⟩
  · simp [step, quote, backslash, square, bracket, curly, brace]
  · simp [step, quote, backslash]

/-- Bytes without a meaning to the reader are a balanced piece. -/
theorem balanced_plain {text : Bytes} (plain : ∀ byte ∈ text, Plain byte) : Balanced text := by
  -- The induction adds one byte after the other.
  induction text with
  | nil => exact ⟨fun depth => rfl, fun depth => .inr ⟨depth, rfl⟩⟩
  | cons byte rest ih =>
    obtain ⟨here, others⟩ := List.forall_mem_cons.mp plain
    exact here.balanced.append (ih others)

/-- White space is a balanced piece. -/
theorem White.balanced {gap : Bytes} (blank : White gap) : Balanced gap := by
  have all : white.all (fun byte => decide (Plain byte)) = true := by decide
  exact balanced_plain fun byte member =>
    of_decide_eq_true (List.all_eq_true.mp all byte (blank byte member))

/-- A number is a balanced piece. -/
theorem balanced_number {digits : Bytes} (known : ∀ byte ∈ digits, byte ∈ numeral) :
    Balanced digits := by
  have all : numeral.all (fun byte => decide (Plain byte)) = true := by decide
  exact balanced_plain fun byte member =>
    of_decide_eq_true (List.all_eq_true.mp all byte (known byte member))

/-- A literal name is a balanced piece. -/
theorem balanced_literal {word : Bytes} (known : word ∈ literals) : Balanced word := by
  -- The names are spelled with letters.
  have all : literals.all (fun word => word.all fun byte => decide (Plain byte)) = true := by
    decide
  exact balanced_plain fun byte member =>
    of_decide_eq_true (List.all_eq_true.mp (List.all_eq_true.mp all word known) byte member)

/-- Brackets around a balanced piece make another one. -/
theorem Balanced.bracketed {text : Bytes} (sound : Balanced text) {opening closing : UInt8}
    (opens : opening = 0x5B ∨ opening = 0x7B) (closes : closing = 0x5D ∨ closing = 0x7D) :
    Balanced (opening :: (text ++ [closing])) := by
  refine ⟨fun depth => ?_, fun depth => ?_⟩
  · -- The opening bracket is one more to be closed, and the closing one closes it.
    have opened : step (.outside depth) opening = .outside (depth + 1) := by
      rcases opens with rfl | rfl <;> rfl
    have shut : step (.outside (depth + 1)) closing = .outside depth := by
      rcases closes with rfl | rfl <;> rfl
    rw [run_cons, opened, run_append, sound.outside, run_cons, shut, run_nil]
  · -- Within a string a bracket is a letter like others.
    have opened : step (.inside depth) opening = .inside depth := by
      rcases opens with rfl | rfl <;> rfl
    have shut : ∀ other, step (.inside other) closing = .inside other := by
      intro other
      rcases closes with rfl | rfl <;> rfl
    rw [run_cons, opened, run_append]
    rcases sound.inside depth with failed | ⟨other, amid⟩
    · exact .inl (by rw [failed, run_failed])
    · exact .inr ⟨other, by rw [amid, run_cons, shut, run_nil]⟩

/-- The inside of a string is read to its end. -/
private theorem Inner.inside {inner : Bytes} (sound : Inner inner) (depth : Nat) :
    run (.inside depth) inner = .inside depth := by
  -- The induction is on the letters and escapes of the string.
  induction sound with
  | nil => rfl
  | plain printed quote backslash more ih =>
    rw [run_cons]
    simpa [step, quote, backslash] using ih
  | escape known more ih =>
    have back : step (.inside depth) 0x5C = .escaped depth := rfl
    rw [run_cons, run_cons, back]
    simpa [step, known] using ih

/-- A letter other than a quote leaves a reader outside strings. -/
private theorem Apart.step {scan : Scan} (apart : Apart scan) {byte : UInt8}
    (quote : byte ≠ 0x22) : Apart (step scan byte) := by
  -- Brackets move the depth, and the last one closes the text.
  rcases apart with rfl | rfl | ⟨depth, rfl⟩
  · exact .inl rfl
  · by_cases blank : byte ∈ white
    · exact .inr (.inl (if_pos blank))
    · exact .inl (if_neg blank)
  · simp only [JsonText.step, if_neg quote]
    split
    · exact .inl rfl
    · split
      · exact .inr (.inr ⟨depth + 1, rfl⟩)
      · split
        · cases depth with
          | zero => exact .inr (.inl rfl)
          | succ depth => exact .inr (.inr ⟨depth, rfl⟩)
        · exact .inr (.inr ⟨depth, rfl⟩)

/-- A backslash outside strings is an error. -/
private theorem Apart.backslash {scan : Scan} (apart : Apart scan) :
    JsonText.step scan 0x5C = .failed := by
  rcases apart with rfl | rfl | ⟨depth, rfl⟩ <;> rfl

/-- A quote leads a reader outside strings into one, if it has not come to its end. -/
private theorem Apart.quote {scan : Scan} (apart : Apart scan) :
    Amid (JsonText.step scan 0x22) := by
  -- Behind the last bracket a quote is an error.
  rcases apart with rfl | rfl | ⟨depth, rfl⟩
  · exact .inl rfl
  · exact .inl rfl
  · exact .inr ⟨depth, rfl⟩

/-- Read from outside strings, the inside of a string has no quote that opens one. -/
private theorem Inner.apart {inner : Bytes} (sound : Inner inner) {scan : Scan}
    (apart : Apart scan) : Apart (run scan inner) := by
  -- The induction is on the letters of the string, and a first escape is an error.
  induction sound generalizing scan with
  | nil => exact apart
  | plain printed quote backslash more ih => exact ih (apart.step quote)
  | escape known more ih =>
    rw [run_cons, apart.backslash, run_failed]
    exact .inl rfl

/-- A string is a balanced piece. -/
theorem Inner.balanced {inner : Bytes} (sound : Inner inner) :
    Balanced (0x22 :: (inner ++ [0x22])) := by
  refine ⟨fun depth => ?_, fun depth => ?_⟩
  · have opened : step (.outside depth) 0x22 = .inside depth := rfl
    rw [run_cons, opened, run_append, sound.inside]
    rfl
  · -- The first quote ends the string that was being read, and the last one begins another.
    have opened : step (.inside depth) 0x22 = .outside depth := rfl
    rw [run_cons, opened, run_append]
    exact (sound.apart (.inr (.inr ⟨depth, rfl⟩))).quote

/-- All parts of a text are balanced. -/
theorem Text.balanced {part : Part} {text : Bytes} (sound : Text part text) : Balanced text := by
  have comma : Balanced [0x2C] := Plain.balanced (by decide)
  have colon : Balanced [0x3A] := Plain.balanced (by decide)
  -- The induction is on the grammar, which puts balanced pieces together.
  induction sound with
  | literal known => exact balanced_literal known
  | number some known => exact balanced_number known
  | string sound => exact sound.balanced
  | emptyArray blank => exact blank.balanced.bracketed (.inl rfl) (.inl rfl)
  | array items ih => exact ih.bracketed (.inl rfl) (.inl rfl)
  | emptyObject blank => exact blank.balanced.bracketed (.inr rfl) (.inr rfl)
  | object fields ih => exact ih.bracketed (.inr rfl) (.inr rfl)
  | element front item back ih => exact (front.balanced.append ih).append back.balanced
  | single item ih => exact ih
  | elements first others ihFirst ihOthers => exact ihFirst.append (comma.append ihOthers)
  | member front name gap item ih =>
    exact (front.balanced.append name.balanced).append (gap.balanced.append (colon.append ih))
  | members first others ihFirst ihOthers => exact ihFirst.append (comma.append ihOthers)

/-- Visible letters other than quotes and backslashes may stand in a string. -/
theorem Inner.of_plain {inner : Bytes}
    (plain : ∀ byte ∈ inner, 0x20 ≤ byte ∧ byte ≠ 0x22 ∧ byte ≠ 0x5C) : Inner inner := by
  -- The induction is on the letters, none of which begins an escape.
  induction inner with
  | nil => exact .nil
  | cons byte rest ih =>
    obtain ⟨⟨printed, quote, backslash⟩, others⟩ := List.forall_mem_cons.mp plain
    exact .plain printed quote backslash (ih others)

/-- The text of an object that has one string in it. -/
def memberText (key inner : Bytes) : Bytes :=
  0x7B :: (0x22 :: (key ++ [0x22]) ++ 0x3A :: 0x22 :: (inner ++ [0x22]) ++ [0x7D])

/-- The text of an object with one string is a text. -/
theorem document_memberText {key inner : Bytes} (name : Inner key) (value : Inner inner) :
    Document (memberText key inner) := by
  -- The text is an object of one member without white space.
  have blank : White [] := by simp [White]
  have item : Text .element ([] ++ 0x22 :: (inner ++ [0x22]) ++ []) :=
    .element blank (.string value) blank
  have fields : Text .members ([] ++ 0x22 :: (key ++ [0x22]) ++ ([] ++ 0x3A :: _)) :=
    .member blank name blank item
  have whole : Document ([] ++ 0x7B :: (_ ++ [0x7D]) ++ []) :=
    .element blank (.object fields) blank
  simpa [memberText] using whole

/-- A text between braces. -/
def Braced (text : Bytes) : Prop := ∃ body, text = 0x7B :: (body ++ [0x7D])

/-- A value has at least one byte. -/
private theorem Text.some {text : Bytes} (sound : Text .value text) : text ≠ [] := by
  -- Every form of a value has a first byte.
  intro empty
  cases sound with
  | literal known => exact absurd (empty ▸ known) (by decide)
  | number some known => exact some empty
  | string sound => cases empty
  | emptyArray blank => cases empty
  | array items => cases empty
  | emptyObject blank => cases empty
  | object fields => cases empty

/-- A value that begins with a brace is an object. -/
private theorem Text.object_body {inner : Bytes} (sound : Text .value (0x7B :: inner)) :
    ∃ body, Balanced body ∧ inner = body ++ [0x7D] := by
  -- All other values begin with other bytes.
  generalize whole : 0x7B :: inner = text at sound
  cases sound with
  | literal known =>
    have others : literals.all (fun word => word.head? ≠ .some 0x7B) = true := by decide
    have other := List.all_eq_true.mp others text known
    rw [← whole] at other
    simp at other
  | number some known =>
    have opens := known 0x7B (whole ▸ List.mem_cons_self)
    exact absurd opens (by decide)
  | string sound => cases whole
  | emptyArray blank => cases whole
  | array items => cases whole
  | emptyObject blank =>
    cases whole
    exact ⟨_, blank.balanced, rfl⟩
  | object fields =>
    cases whole
    exact ⟨_, fields.balanced, rfl⟩

/-- A text that begins with a brace has no white space in front of its value. -/
private theorem Document.value {rest : Bytes} (document : Document (0x7B :: rest)) :
    ∃ inner after, rest = inner ++ after ∧ Text .value (0x7B :: inner) ∧ White after := by
  -- White space in front of the value would begin the text.
  generalize whole : 0x7B :: rest = text at document
  cases document with
  | @element before value after front item back =>
    cases before with
    | nil =>
      obtain ⟨first, inner, rfl⟩ := List.exists_cons_of_ne_nil item.some
      simp only [List.nil_append, List.cons_append, List.cons.injEq] at whole
      obtain ⟨rfl, rfl⟩ := whole
      exact ⟨inner, after, rfl, item, back⟩
    | cons first before =>
      simp only [List.cons_append, List.cons.injEq] at whole
      have blank := front first List.mem_cons_self
      exact absurd (whole.1 ▸ blank) (by decide)

/-- A text that begins with a brace is read to its end. -/
private theorem Document.closed {rest : Bytes} (document : Document (0x7B :: rest)) :
    run (.outside 0) rest = .closed := by
  obtain ⟨inner, after, rfl, value, blank⟩ := Document.value document
  obtain ⟨body, balanced, rfl⟩ := value.object_body
  have shut : step (.outside 0) 0x7D = .closed := rfl
  rw [run_append, run_append, balanced.outside, run_cons, shut, run_nil]
  -- Only white space is left to be read.
  clear value document
  induction after with
  | nil => rfl
  | cons byte after ih =>
    obtain ⟨here, others⟩ := List.forall_mem_cons.mp blank
    have stays : step .closed byte = .closed := if_pos here
    rw [run_cons, stays]
    exact ih others

/-- Nothing but white space is read behind the last bracket. -/
private theorem white_of_closed {text : Bytes} (read : run .closed text = .closed) :
    White text := by
  -- The induction is on the text, and any other byte is an error.
  induction text with
  | nil => simp [White]
  | cons byte rest ih =>
    by_cases blank : byte ∈ white
    · have stays : step .closed byte = .closed := if_pos blank
      rw [run_cons, stays] at read
      exact List.forall_mem_cons.mpr ⟨blank, ih read⟩
    · have fails : step .closed byte = .failed := if_neg blank
      rw [run_cons, fails, run_failed] at read
      cases read

/-- A text between braces is a balanced piece. -/
private theorem Braced.balanced {text : Bytes} (braced : Braced text)
    (document : Document text) : Balanced text := by
  obtain ⟨body, rfl⟩ := braced
  obtain ⟨inner, after, split, value, blank⟩ := Document.value document
  -- The last byte is a brace, so there is no white space behind the value.
  rcases List.eq_nil_or_concat' after with rfl | ⟨front, last, rfl⟩
  · rw [split, List.append_nil]
    exact value.balanced
  · rw [← List.append_assoc] at split
    have brace : last = 0x7D := by simpa using (List.append_inj_right' split rfl).symm
    exact absurd (brace ▸ blank last (by simp)) (by decide)

/-- Nothing at all is no text. -/
theorem not_document_nil : ¬Document [] := by
  -- There would be a value in it.
  intro whole
  generalize none : ([] : Bytes) = text at whole
  cases whole with
  | element front item back =>
    have nothing := List.append_eq_nil_iff.mp none.symm
    exact item.some (List.append_eq_nil_iff.mp nothing.1).2

/-- What is left of an object when its end is missing is no text. -/
theorem not_document_of_torn {text torn : Bytes} (braced : Braced text)
    (document : Document text) (begins : torn <+: text) (missing : torn ≠ text) :
    ¬Document torn := by
  intro whole
  obtain ⟨rest, rfl⟩ := begins
  obtain ⟨body, spelled⟩ := braced
  cases torn with
  | nil => exact not_document_nil whole
  | cons first torn =>
    obtain rfl : first = 0x7B := (List.cons.inj spelled).1
    -- What was torn off is read behind the last bracket, and ends with a brace.
    have read : run (.outside 0) (torn ++ rest) = .closed := Document.closed document
    rw [run_append, Document.closed whole] at read
    have blank := white_of_closed read
    rcases List.eq_nil_or_concat' rest with rfl | ⟨front, last, rfl⟩
    · exact missing (by simp)
    · have spelled : torn ++ (front ++ [last]) = body ++ [0x7D] := (List.cons.inj spelled).2
      rw [← List.append_assoc] at spelled
      have brace : last = 0x7D := by simpa using List.append_inj_right' spelled rfl
      exact absurd (brace ▸ blank last (by simp)) (by decide)

/-- An object behind the beginning of another is no text. -/
theorem not_document_append {text pending : Bytes} (braced : Braced text)
    (document : Document text) :
    ¬Document (0x7B :: (pending ++ text)) := by
  intro whole
  have balanced := braced.balanced document
  have read := Document.closed whole
  rw [run_append] at read
  obtain ⟨body, rfl⟩ := braced
  -- The cases are where the beginning leaves the reader.
  generalize run (.outside 0) pending = scan at read
  cases scan with
  | outside depth =>
    rw [balanced.outside] at read
    cases read
  | inside depth =>
    rcases balanced.inside depth with failed | ⟨other, amid⟩
    · cases failed.symm.trans read
    · cases amid.symm.trans read
  | escaped depth =>
    have fails : step (.escaped depth) 0x7B = .failed := rfl
    rw [run_cons, fails, run_failed] at read
    cases read
  | closed =>
    have fails : step .closed 0x7B = .failed := rfl
    rw [run_cons, fails, run_failed] at read
    cases read
  | failed =>
    rw [run_failed] at read
    cases read

end JsonText

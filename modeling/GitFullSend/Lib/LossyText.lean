import GitFullSend.Lib.Text

/-! Every byte string is read as some text, and ASCII in front of it as itself. -/

namespace Text

open Utf8 (Bytes ofText lead next valid validFrom valid_owed)

/-- A value that a byte has spells that byte. -/
private theorem ofNat_eq {value : Nat} {byte : UInt8} (same : value = byte.toNat) :
    UInt8.ofNat value = byte := by
  subst same
  exact UInt8.ofNat_toNat

/-- What every character of a value is encoded as is the encoding of one. -/
private theorem encoded {code : Nat} (sound : code.isValidChar) {bytes : Bytes}
    (spelled : ∀ character : Char, character.val.toNat = code →
      String.utf8EncodeChar character = bytes) :
    ∃ character, String.utf8EncodeChar character = bytes := by
  have value : (Char.ofNatAux code sound).val.toNat = code := rfl
  exact ⟨_, spelled _ value⟩

private theorem encoded_one {a : UInt8} (first : a.toNat ≤ 0x7F) :
    ∃ character, String.utf8EncodeChar character = [a] := by
  -- One byte carries all the bits.
  apply @encoded a.toNat (.inl (by omega))
  intro character same
  simp only [String.utf8EncodeChar, same]
  rw [if_pos first, ofNat_eq rfl]

private theorem encoded_two {a b : UInt8} (first : 0xC2 ≤ a.toNat ∧ a.toNat ≤ 0xDF)
    (second : 0x80 ≤ b.toNat ∧ b.toNat ≤ 0xBF) :
    ∃ character, String.utf8EncodeChar character = [a, b] := by
  -- The first byte carries the bits above the last six.
  apply @encoded ((a.toNat - 0xC0) * 64 + (b.toNat - 0x80)) (.inl (by omega))
  intro character same
  simp only [String.utf8EncodeChar, same]
  rw [if_neg (by omega), if_pos (by omega), @ofNat_eq _ a (by omega), @ofNat_eq _ b (by omega)]

private theorem encoded_three {a b c : UInt8} (first : 0xE0 ≤ a.toNat ∧ a.toNat ≤ 0xEF)
    (second : 0x80 ≤ b.toNat ∧ b.toNat ≤ 0xBF) (third : 0x80 ≤ c.toNat ∧ c.toNat ≤ 0xBF)
    (long : a.toNat = 0xE0 → 0xA0 ≤ b.toNat) (surrogate : a.toNat = 0xED → b.toNat ≤ 0x9F) :
    ∃ character, String.utf8EncodeChar character = [a, b, c] := by
  -- The two exceptions keep out what is shorter in two bytes, and the surrogates.
  have sound :
      ((a.toNat - 0xE0) * 4096 + (b.toNat - 0x80) * 64 + (c.toNat - 0x80)).isValidChar := by
    unfold Nat.isValidChar
    omega
  apply encoded sound
  intro character same
  simp only [String.utf8EncodeChar, same]
  rw [if_neg (by omega), if_neg (by omega), if_pos (by omega), @ofNat_eq _ a (by omega),
    @ofNat_eq _ b (by omega), @ofNat_eq _ c (by omega)]

private theorem encoded_four {a b c d : UInt8} (first : 0xF0 ≤ a.toNat ∧ a.toNat ≤ 0xF4)
    (second : 0x80 ≤ b.toNat ∧ b.toNat ≤ 0xBF) (third : 0x80 ≤ c.toNat ∧ c.toNat ≤ 0xBF)
    (fourth : 0x80 ≤ d.toNat ∧ d.toNat ≤ 0xBF) (long : a.toNat = 0xF0 → 0x90 ≤ b.toNat)
    (last : a.toNat = 0xF4 → b.toNat ≤ 0x8F) :
    ∃ character, String.utf8EncodeChar character = [a, b, c, d] := by
  -- The two exceptions keep out what is shorter in three bytes, and what is no code point.
  have sound : ((a.toNat - 0xF0) * 262144 + (b.toNat - 0x80) * 4096 + (c.toNat - 0x80) * 64 +
      (d.toNat - 0x80)).isValidChar := by
    unfold Nat.isValidChar
    omega
  apply encoded sound
  intro character same
  simp only [String.utf8EncodeChar, same]
  rw [if_neg (by omega), if_neg (by omega), if_neg (by omega), @ofNat_eq _ a (by omega),
    @ofNat_eq _ b (by omega), @ofNat_eq _ c (by omega), @ofNat_eq _ d (by omega)]

/-- What the first byte of a character announces, by how many bytes follow it. -/
private theorem lead_cases {byte : UInt8} {after : Utf8.State} (opened : lead byte = some after) :
    (byte.toNat ≤ 0x7F ∧ after = .ground) ∨
    ((0xC2 ≤ byte.toNat ∧ byte.toNat ≤ 0xDF) ∧ after = ⟨1, 0x80, 0xBF⟩) ∨
    ∃ low high : UInt8, 0x80 ≤ low.toNat ∧ high.toNat ≤ 0xBF ∧
      (((0xE0 ≤ byte.toNat ∧ byte.toNat ≤ 0xEF) ∧ after = ⟨2, low, high⟩ ∧
        (byte.toNat = 0xE0 → 0xA0 ≤ low.toNat) ∧ (byte.toNat = 0xED → high.toNat ≤ 0x9F)) ∨
      ((0xF0 ≤ byte.toNat ∧ byte.toNat ≤ 0xF4) ∧ after = ⟨3, low, high⟩ ∧
        (byte.toNat = 0xF0 → 0x90 ≤ low.toNat) ∧ (byte.toNat = 0xF4 → high.toNat ≤ 0x8F))) := by
  -- The ranges are tested in this order, and the exceptions before the range they are in.
  unfold lead at opened
  simp only [UInt8.le_iff_toNat_le, ← UInt8.toNat_inj] at opened
  split_ifs at opened with one two e0 ed three f0 four f4
  all_goals obtain rfl := Option.some.inj opened
  · exact .inl ⟨one, rfl⟩
  · exact .inr (.inl ⟨two, rfl⟩)
  · refine .inr (.inr ⟨0xA0, 0xBF, by decide, by decide, .inl ⟨?_, rfl, ?_, ?_⟩⟩) <;> simp [e0]
  · refine .inr (.inr ⟨0x80, 0x9F, by decide, by decide, .inl ⟨?_, rfl, ?_, ?_⟩⟩) <;> simp [ed]
  · have inside : 0xE1 ≤ byte.toNat ∧ byte.toNat ≤ 0xEF := three
    refine .inr (.inr ⟨0x80, 0xBF, by decide, by decide, .inl ⟨by omega, rfl, ?_, ?_⟩⟩)
    · exact fun same => absurd same e0
    · exact fun same => absurd same ed
  · refine .inr (.inr ⟨0x90, 0xBF, by decide, by decide, .inr ⟨?_, rfl, ?_, ?_⟩⟩) <;> simp [f0]
  · have inside : 0xF1 ≤ byte.toNat ∧ byte.toNat ≤ 0xF3 := four
    refine .inr (.inr ⟨0x80, 0xBF, by decide, by decide, .inr ⟨by omega, rfl, ?_, by omega⟩⟩)
    exact fun same => absurd same f0
  · refine .inr (.inr ⟨0x80, 0x8F, by decide, by decide, .inr ⟨?_, rfl, ?_, ?_⟩⟩) <;> simp [f4]

/-- Valid bytes begin with those of a character. -/
private theorem first_of_valid {byte : UInt8} {bytes : Bytes}
    (sound : valid (byte :: bytes) = true) :
    ∃ character rest, byte :: bytes = String.utf8EncodeChar character ++ rest ∧
      valid rest = true := by
  -- The first byte announces how many follow it, and in which range the next one lies.
  obtain ⟨after, opened, sound⟩ : ∃ after, lead byte = some after ∧
      validFrom after bytes = true := by
    have start : next .ground byte = lead byte := rfl
    rw [valid, validFrom, start] at sound
    cases opened : lead byte with
    | none => simp [opened] at sound
    | some after => exact ⟨after, rfl, by simpa [opened] using sound⟩
  rcases lead_cases opened with ⟨one, rfl⟩ | ⟨two, rfl⟩ |
    ⟨low, high, least, most, ⟨three, rfl, long, surrogate⟩ | ⟨four, rfl, long, last⟩⟩
  · obtain ⟨character, spelled⟩ := encoded_one one
    exact ⟨character, bytes, by rw [spelled]; rfl, sound⟩
  · obtain ⟨b, rest, rfl, second, sound⟩ := valid_owed sound
    obtain ⟨character, spelled⟩ := encoded_two two second
    exact ⟨character, rest, by rw [spelled]; rfl, sound⟩
  · obtain ⟨b, bytes, rfl, second, sound⟩ := valid_owed sound
    obtain ⟨c, rest, rfl, third, sound⟩ := valid_owed sound
    obtain ⟨character, spelled⟩ := encoded_three three (by omega) third
      (fun same => (long same).trans second.1) (fun same => second.2.trans (surrogate same))
    exact ⟨character, rest, by rw [spelled]; rfl, sound⟩
  · obtain ⟨b, bytes, rfl, second, sound⟩ := valid_owed sound
    obtain ⟨c, bytes, rfl, third, sound⟩ := valid_owed sound
    obtain ⟨d, rest, rfl, fourth, sound⟩ := valid_owed sound
    obtain ⟨character, spelled⟩ := encoded_four four (by omega) third fourth
      (fun same => (long same).trans second.1) (fun same => second.2.trans (last same))
    exact ⟨character, rest, by rw [spelled]; rfl, sound⟩

/-- Valid bytes are those of some text. -/
theorem exists_ofText {bytes : Bytes} (sound : valid bytes = true) :
    ∃ text, ofText text = bytes := by
  -- The induction is on the length, and takes a whole character off the front.
  suffices spelled : ∃ characters : List Char,
      characters.flatMap String.utf8EncodeChar = bytes by
    obtain ⟨characters, spelled⟩ := spelled
    exact ⟨.ofList characters, by rw [ofText_eq, String.toList_ofList, spelled]⟩
  generalize size : bytes.length = count
  induction count using Nat.strong_induction_on generalizing bytes with
  | _ count ih =>
    cases bytes with
    | nil => exact ⟨[], rfl⟩
    | cons byte bytes =>
      obtain ⟨character, rest, split, sound⟩ := first_of_valid sound
      have some : 0 < (String.utf8EncodeChar character).length := by
        rw [String.length_utf8EncodeChar]
        exact Char.utf8Size_pos character
      have shorter : rest.length < count := by
        rw [← size, split, List.length_append]
        omega
      obtain ⟨characters, spelled⟩ := ih _ shorter sound rfl
      exact ⟨character :: characters, by rw [List.flatMap_cons, spelled, split]⟩

/-- The text that bytes are read as, with replacements for what is no character. -/
def lossy (bytes : Bytes) : String := (ofBytes (Utf8.lossy bytes)).getD ""

/-- The text that bytes are read as has the bytes that are printed for them. -/
@[simp] theorem ofText_lossy (bytes : Bytes) : ofText (lossy bytes) = Utf8.lossy bytes := by
  -- What is printed is valid, so there is such a text, and it is the one that is read.
  obtain ⟨text, printed⟩ := exists_ofText (Utf8.valid_lossy bytes)
  rw [lossy, ← printed, ofBytes_ofText, Option.getD_some]

/-- ASCII in front of other bytes is read as itself. -/
theorem lossy_append {text : String} (plain : ∀ byte ∈ ofText text, byte ≤ 0x7F)
    (following : Bytes) : lossy (ofText text ++ following) = text ++ lossy following := by
  apply ofText_injective
  rw [ofText_append, ofText_lossy, ofText_lossy,
    Utf8.lossy_append (Utf8.valid_of_ascii plain)]

/-- A byte string is read with ASCII in front exactly when it has it there. -/
theorem prefix_lossy_iff {text : String} (plain : ∀ byte ∈ ofText text, byte ≤ 0x7F)
    {bytes : Bytes} : text.toList <+: (lossy bytes).toList ↔ ofText text <+: bytes := by
  -- ASCII is printed as it stands, so the printed bytes and the given ones begin alike.
  constructor
  · intro read
    obtain ⟨rest, split⟩ := read
    apply Utf8.prefix_of_lossy plain
    rw [← ofText_lossy, ofText_eq, ofText_eq, ← split, List.flatMap_append]
    exact List.prefix_append _ _
  · intro begins
    obtain ⟨rest, rfl⟩ := begins
    rw [lossy_append plain, String.toList_append]
    exact List.prefix_append _ _

/-- A line is read as the text of its bytes, and the bytes behind it are read on their own. -/
theorem lossy_line (line rest : Bytes) :
    lossy (line ++ 0x0A :: rest) = lossy line ++ "\n" ++ lossy rest := by
  -- A line feed is ASCII, so it ends whatever character is begun.
  apply ofText_injective
  have feed : ofText "\n" = [0x0A] := by decide
  rw [ofText_lossy, Utf8.lossy_ascii (by decide), ofText_append, ofText_append, feed, ofText_lossy,
    ofText_lossy, List.append_assoc, List.singleton_append]

/-- An ASCII character of the text that bytes are read as is one of the bytes. -/
theorem byte_of_lossy {bytes : Bytes} {character : Char} (member : character ∈ (lossy bytes).toList)
    (ascii : character.toNat < 0x80) : UInt8.ofNat character.toNat ∈ bytes := by
  -- What replaces broken bytes is no ASCII character.
  have listed := mem_of_ascii member ascii
  rw [ofText_lossy] at listed
  refine Utf8.mem_of_lossy ?_ listed
  rw [UInt8.le_iff_toNat_le, UInt8.toNat_ofNat_of_lt' (Nat.lt_trans ascii (by decide))]
  exact Nat.le_of_lt_succ ascii

/-- A NUL is a byte of its own, and part of no other character. -/
private theorem zero_of_mem {character : Char} (within : 0 ∈ String.utf8EncodeChar character) :
    character = '\x00' :=
  Char.toNat_inj.mp (ascii_of_mem within (by decide))

/-- The bytes before the first NUL are those of the text before it. -/
private theorem takeWhile_encoded (characters : List Char) :
    (characters.takeWhile (· ≠ '\x00')).flatMap String.utf8EncodeChar =
      (characters.flatMap String.utf8EncodeChar).takeWhile (· ≠ 0) := by
  -- The induction is on the characters, and each other one is encoded without a zero.
  induction characters with
  | nil => rfl
  | cons character rest ih =>
    by_cases null : character = '\x00'
    · subst null
      rfl
    · have whole : ∀ byte ∈ String.utf8EncodeChar character, decide (byte ≠ 0) = true := by
        intro byte within
        apply decide_eq_true
        rintro rfl
        exact null (zero_of_mem within)
      rw [List.takeWhile_cons_of_pos (by simpa using null), List.flatMap_cons, ih,
        List.flatMap_cons, List.takeWhile_append_of_pos whole]

/-- The text before the first NUL is what the bytes before it are read as. -/
theorem lossy_takeWhile (bytes : Bytes) :
    lossy (bytes.takeWhile (· ≠ 0)) = .ofList ((lossy bytes).toList.takeWhile (· ≠ '\x00')) := by
  apply ofText_injective
  rw [ofText_lossy, Utf8.lossy_takeWhile, ← ofText_lossy, ofText_eq, ofText_eq,
    String.toList_ofList, takeWhile_encoded]

end Text

import Mathlib.Data.List.Basic

/-! Byte strings, the automaton that recognises UTF-8, and the lossy reading of other bytes. -/

namespace Utf8

/-- A string of bytes, in the order they are written. -/
abbrev Bytes := List UInt8

/-- The bytes of a piece of text, for the constants a program is written with. -/
def ofText (text : String) : Bytes :=
  -- The stored array is already UTF-8, and listing it computes inside the kernel.
  text.toUTF8.data.toList

/-- Where a reader stands inside a character: the bytes still owed, and the range of the next. -/
structure State where
  /-- Continuation bytes still to come. -/
  owed : Nat
  /-- The least value the next byte may take. -/
  low : UInt8
  /-- The greatest value the next byte may take. -/
  high : UInt8
  deriving DecidableEq, Repr

/-- Between two characters. -/
def State.ground : State := ⟨0, 0x80, 0xBF⟩

/-- What the first byte of a character announces, or `none` when no character starts with it. -/
def lead (byte : UInt8) : Option State :=
  -- The ranges exclude overlong forms, surrogates, and values past the last code point.
  if byte ≤ 0x7F then some .ground
  else if 0xC2 ≤ byte ∧ byte ≤ 0xDF then some ⟨1, 0x80, 0xBF⟩
  else if byte = 0xE0 then some ⟨2, 0xA0, 0xBF⟩
  else if byte = 0xED then some ⟨2, 0x80, 0x9F⟩
  else if 0xE1 ≤ byte ∧ byte ≤ 0xEF then some ⟨2, 0x80, 0xBF⟩
  else if byte = 0xF0 then some ⟨3, 0x90, 0xBF⟩
  else if 0xF1 ≤ byte ∧ byte ≤ 0xF3 then some ⟨3, 0x80, 0xBF⟩
  else if byte = 0xF4 then some ⟨3, 0x80, 0x8F⟩
  else none

/-- The state after one more byte, or `none` when the text is broken there. -/
def next (state : State) (byte : UInt8) : Option State :=
  if state.owed = 0 then lead byte
  else if state.low ≤ byte ∧ byte ≤ state.high then some ⟨state.owed - 1, 0x80, 0xBF⟩
  else none

/-- The bytes continue a character to its end and then spell whole characters only. -/
def validFrom (state : State) : Bytes → Bool
  | [] => state.owed == 0
  | byte :: rest =>
    match next state byte with
    | some following => validFrom following rest
    | none => false

/-- The bytes are UTF-8. -/
def valid (bytes : Bytes) : Bool :=
  validFrom .ground bytes

/-- U+FFFD, what a lossy reader writes for bytes that are no character. -/
def replacement : Bytes := [0xEF, 0xBF, 0xBD]

/--
Reading bytes as text, with one replacement for each longest run that begins a character it breaks.

The pending bytes are those of the character being read.
A byte that breaks a character is read again as the start of another one.
-/
def lossyFrom (pending : Bytes) (state : State) : Bytes → Bytes
  | [] => if pending.isEmpty then [] else replacement
  | byte :: rest =>
    match next state byte with
    | some following =>
      if following.owed = 0 then pending ++ byte :: lossyFrom [] .ground rest
      else lossyFrom (pending ++ [byte]) following rest
    | none =>
      if pending.isEmpty then replacement ++ lossyFrom [] .ground rest
      else replacement ++
        match lead byte with
        | some following =>
          if following.owed = 0 then byte :: lossyFrom [] .ground rest
          else lossyFrom [byte] following rest
        | none => replacement ++ lossyFrom [] .ground rest

/-- The text a byte string is printed as, given by its own bytes. -/
def lossy (bytes : Bytes) : Bytes :=
  lossyFrom [] .ground bytes

private theorem next_ground {state after : State} {byte : UInt8}
    (moved : next state byte = some after) (done : after.owed = 0) : after = .ground := by
  -- A leading byte that owes nothing is ASCII, and a last continuation resets the byte range.
  unfold next lead at moved
  grind [State.ground]

private theorem lossyFrom_append {state : State} {bytes : Bytes}
    (sound : validFrom state bytes = true) {pending : Bytes}
    (carried : state.owed = 0 → pending = [] ∧ state = .ground) (following : Bytes) :
    lossyFrom pending state (bytes ++ following) =
      pending ++ bytes ++ lossyFrom [] .ground following := by
  -- The induction follows the bytes, and the pending bytes are empty between characters.
  induction bytes generalizing state pending with
  | nil =>
    obtain ⟨empty, ground⟩ := carried (by simpa [validFrom] using sound)
    simp [empty, ground]
  | cons byte rest ih =>
    simp only [validFrom] at sound
    cases moved : next state byte with
    | none => simp [moved] at sound
    | some after =>
      simp only [moved] at sound
      simp only [List.cons_append, lossyFrom, moved]
      by_cases done : after.owed = 0
      · -- The byte ends a character, so the rest is read from between characters.
        obtain rfl := next_ground moved done
        rw [if_pos done, ih sound (fun _ => ⟨rfl, rfl⟩)]
        simp
      · rw [if_neg done, ih sound (fun none => absurd none done)]
        simp

/-- UTF-8 in front of other bytes is printed as it is. -/
theorem lossy_append {bytes : Bytes} (sound : valid bytes = true) (following : Bytes) :
    lossy (bytes ++ following) = bytes ++ lossy following := by
  -- Reading starts between characters with nothing pending.
  have carried : State.ground.owed = 0 → ([] : Bytes) = [] ∧ State.ground = .ground :=
    fun _ => ⟨rfl, rfl⟩
  simpa [lossy] using lossyFrom_append sound carried following

/-- Text is printed as it is. -/
theorem lossy_valid {bytes : Bytes} (sound : valid bytes = true) : lossy bytes = bytes := by
  simpa [lossy, lossyFrom] using lossy_append sound []

private theorem validFrom_append {state : State} {bytes : Bytes}
    (sound : validFrom state bytes = true) (ground : state.owed = 0 → state = .ground)
    (following : Bytes) : validFrom state (bytes ++ following) = valid following := by
  -- Each byte moves the automaton as before, and the first text ends between characters.
  induction bytes generalizing state with
  | nil =>
    rw [ground (by simpa [validFrom] using sound)]
    rfl
  | cons byte rest ih =>
    simp only [List.cons_append, validFrom] at sound ⊢
    cases moved : next state byte with
    | none => simp [moved] at sound
    | some after =>
      simp only [moved] at sound ⊢
      exact ih sound fun done => next_ground moved done

/-- Behind UTF-8, bytes are UTF-8 exactly when they are it on their own. -/
theorem valid_append_eq {bytes : Bytes} (sound : valid bytes = true) (following : Bytes) :
    valid (bytes ++ following) = valid following :=
  validFrom_append sound (fun _ => rfl) following

/-- Concatenation keeps UTF-8. -/
theorem valid_append {bytes following : Bytes} (sound : valid bytes = true)
    (more : valid following = true) : valid (bytes ++ following) = true :=
  (valid_append_eq sound following).trans more

/-- ASCII is UTF-8. -/
theorem valid_of_ascii {bytes : Bytes} (ascii : ∀ byte ∈ bytes, byte ≤ 0x7F) :
    valid bytes = true := by
  -- Every byte is a whole character, so the reader is between characters behind each of them.
  induction bytes with
  | nil => rfl
  | cons byte rest ih =>
    obtain ⟨first, others⟩ := List.forall_mem_cons.mp ascii
    have whole : next .ground byte = some .ground := if_pos first
    rw [valid, validFrom, whole]
    exact ih others

/-- What is printed for bytes is text. -/
private theorem valid_lossyFrom {pending : Bytes} {state : State}
    (begun : ∀ more, valid (pending ++ more) = validFrom state more)
    (carried : state.owed = 0 → pending = [] ∧ state = .ground) (bytes : Bytes) :
    valid (lossyFrom pending state bytes) = true := by
  -- The pending bytes lead the automaton into its state, so the end of the character ends text.
  have marked : valid replacement = true := by decide
  have restart (bytes : Bytes) : valid ([] ++ bytes) = validFrom .ground bytes := rfl
  have ground : State.ground.owed = 0 → ([] : Bytes) = [] ∧ State.ground = .ground :=
    fun _ => ⟨rfl, rfl⟩
  have single {byte : UInt8} {after : State} (moved : lead byte = some after) (more : Bytes) :
      valid ([byte] ++ more) = validFrom after more := by
    have first : next .ground byte = some after := moved
    simp [valid, validFrom, first]
  induction bytes generalizing pending state with
  | nil =>
    unfold lossyFrom
    split
    · rfl
    · exact marked
  | cons byte rest ih =>
    unfold lossyFrom
    cases moved : next state byte with
    | some after =>
      have onward (more : Bytes) : valid (pending ++ byte :: more) = validFrom after more := by
        rw [begun, validFrom, moved]
      simp only
      split
      · rename_i done
        obtain rfl := next_ground moved done
        have whole : valid (pending ++ [byte]) = true := onward []
        rw [List.append_cons]
        exact valid_append whole (ih restart ground)
      · rename_i more
        apply ih
        · intro bytes
          rw [List.append_assoc]
          exact onward bytes
        · exact fun done => absurd done more
    | none =>
      simp only
      split
      · exact valid_append marked (ih restart ground)
      · apply valid_append marked
        cases opened : lead byte with
        | none => exact valid_append marked (ih restart ground)
        | some after =>
          simp only
          split
          · rename_i done
            have first : next .ground byte = some after := opened
            obtain rfl := next_ground first done
            have whole : valid [byte] = true := single opened []
            exact @valid_append [byte] _ whole (ih restart ground)
          · rename_i more
            exact ih (single opened) fun done => absurd done more

/-- What is printed for bytes is text. -/
theorem valid_lossy (bytes : Bytes) : valid (lossy bytes) = true :=
  valid_lossyFrom (fun _ => rfl) (fun _ => ⟨rfl, rfl⟩) bytes

/-- What is printed for a character that was begun starts with its first byte, or is replaced. -/
private theorem lossyFrom_pending (first : UInt8) (more : Bytes) (state : State) (bytes : Bytes) :
    ∃ rest, lossyFrom (first :: more) state bytes = first :: rest ∨
      lossyFrom (first :: more) state bytes = 0xEF :: rest := by
  -- The pending bytes are printed when the character ends, and replaced when it breaks.
  induction bytes generalizing more state with
  | nil => exact ⟨[0xBF, 0xBD], .inr rfl⟩
  | cons byte rest ih =>
    unfold lossyFrom
    cases moved : next state byte with
    | some after =>
      simp only
      split
      · exact ⟨more ++ byte :: lossyFrom [] .ground rest, .inl rfl⟩
      · exact ih (more ++ [byte]) after
    | none => exact ⟨_, .inr rfl⟩

private theorem takeWhile_append_zero {bytes rest : Bytes} (whole : ∀ byte ∈ bytes, byte ≠ 0) :
    (bytes ++ rest).takeWhile (· ≠ 0) = bytes ++ rest.takeWhile (· ≠ 0) :=
  List.takeWhile_append_of_pos fun byte within => decide_eq_true (whole byte within)

/-- A zero ends a character that was begun, and is one of its own otherwise. -/
private theorem lossyFrom_zero {pending : Bytes} {state : State}
    (carried : state.owed = 0 → pending = [] ∧ state = .ground)
    (inside : state.owed ≠ 0 → pending ≠ [] ∧ 0x80 ≤ state.low) (rest : Bytes) :
    lossyFrom pending state [] =
      (lossyFrom pending state (0 :: rest)).takeWhile (· ≠ 0) := by
  by_cases idle : state.owed = 0
  · -- Between characters it is printed as it is.
    have single : next .ground 0 = some .ground := by decide
    obtain ⟨rfl, rfl⟩ := carried idle
    rw [lossyFrom, lossyFrom, single]
    rfl
  · -- It continues no character, so the one that was begun is replaced in front of it.
    obtain ⟨begun, low⟩ := inside idle
    have below : ¬ (state.low ≤ 0 ∧ 0 ≤ state.high) :=
      fun within => absurd (UInt8.le_trans low within.1) (by decide)
    have broken : next state 0 = .none := by rw [next, if_neg idle, if_neg below]
    have some : pending.isEmpty = false := by simpa using begun
    have single : lead 0 = .some .ground := by decide
    rw [lossyFrom, lossyFrom, broken, single]
    simp only [some]
    rfl

/-- Reading stops at a zero in the bytes or in what is printed for them, which is the same. -/
private theorem lossyFrom_takeWhile {pending : Bytes} {state : State}
    (whole : ∀ byte ∈ pending, byte ≠ 0)
    (carried : state.owed = 0 → pending = [] ∧ state = .ground)
    (inside : state.owed ≠ 0 → pending ≠ [] ∧ 0x80 ≤ state.low) (bytes : Bytes) :
    lossyFrom pending state (bytes.takeWhile (· ≠ 0)) =
      (lossyFrom pending state bytes).takeWhile (· ≠ 0) := by
  -- The induction is on the bytes, and no other byte is printed with a zero in it.
  have marked : ∀ byte ∈ replacement, byte ≠ 0 := by simp [replacement]
  have ground : State.ground.owed = 0 → ([] : Bytes) = [] ∧ State.ground = .ground :=
    fun _ => ⟨rfl, rfl⟩
  have opened {byte : UInt8} {state after : State} (moved : next state byte = some after)
      (owes : after.owed ≠ 0) : 0x80 ≤ after.low := by
    unfold next lead at moved
    grind [State.ground]
  induction bytes generalizing pending state with
  | nil =>
    rw [List.takeWhile_nil, lossyFrom]
    split
    · rfl
    · rfl
  | cons byte rest ih =>
    have again := @ih [] .ground (by simp) ground (by simp [State.ground])
    by_cases zero : byte = 0
    · subst zero
      have none : (0 :: rest : Bytes).takeWhile (· ≠ 0) = [] := rfl
      rw [none]
      exact lossyFrom_zero carried inside rest
    · have kept : (byte :: rest).takeWhile (· ≠ 0) = byte :: rest.takeWhile (· ≠ 0) :=
        List.takeWhile_cons_of_pos (by simpa using zero)
      rw [kept, lossyFrom, lossyFrom]
      cases moved : next state byte with
      | some after =>
        simp only
        split
        · rw [again, takeWhile_append_zero whole, List.takeWhile_cons_of_pos (by simpa using zero)]
        · rename_i more
          apply ih
          · simpa [or_imp, forall_and] using ⟨whole, zero⟩
          · exact fun done => absurd done more
          · exact fun owes => ⟨by simp, opened moved owes⟩
      | none =>
        simp only
        split
        · rw [again, takeWhile_append_zero marked]
        · rw [takeWhile_append_zero marked]
          congr 1
          cases first : lead byte with
          | none =>
            simp only
            rw [again, takeWhile_append_zero marked]
          | some after =>
            simp only
            have moved : next .ground byte = some after := first
            split
            · rw [again, List.takeWhile_cons_of_pos (by simpa using zero)]
            · rename_i more
              apply ih
              · simpa using zero
              · exact fun done => absurd done more
              · exact fun owes => ⟨by simp, opened moved owes⟩

/-- What is printed before the first zero is what is printed for the bytes before it. -/
theorem lossy_takeWhile (bytes : Bytes) :
    lossy (bytes.takeWhile (· ≠ 0)) = (lossy bytes).takeWhile (· ≠ 0) :=
  lossyFrom_takeWhile (by simp) (fun _ => ⟨rfl, rfl⟩) (by simp [State.ground]) bytes

/-- Every state within a character asks for bytes with a high bit. -/
private theorem next_low {byte : UInt8} {state after : State} (moved : next state byte = some after)
    (owes : after.owed ≠ 0) : 0x80 ≤ after.low := by
  unfold next lead at moved
  grind [State.ground]

/-- Bytes are printed up to an ASCII byte, then this, and then those behind it. -/
private theorem lossyFrom_ascii {byte : UInt8} (plain : byte ≤ 0x7F) {pending : Bytes}
    {state : State} (carried : state.owed = 0 → pending = [] ∧ state = .ground)
    (inside : state.owed ≠ 0 → pending ≠ [] ∧ 0x80 ≤ state.low) (bytes rest : Bytes) :
    lossyFrom pending state (bytes ++ byte :: rest) =
      lossyFrom pending state bytes ++ byte :: lossy rest := by
  -- The induction is on the bytes, and what is begun before the ASCII byte is replaced.
  have single : lead byte = some .ground := if_pos plain
  have ground : State.ground.owed = 0 → ([] : Bytes) = [] ∧ State.ground = .ground :=
    fun _ => ⟨rfl, rfl⟩
  induction bytes generalizing pending state with
  | nil =>
    by_cases idle : state.owed = 0
    · obtain ⟨rfl, rfl⟩ := carried idle
      have moved : next .ground byte = some .ground := single
      rw [List.nil_append, lossyFrom, lossyFrom, moved]
      rfl
    · obtain ⟨begun, low⟩ := inside idle
      have below : ¬ (state.low ≤ byte ∧ byte ≤ state.high) :=
        fun within => absurd (UInt8.le_trans low (UInt8.le_trans within.1 plain)) (by decide)
      have broken : next state byte = none := by rw [next, if_neg idle, if_neg below]
      have some : pending.isEmpty = false := by simpa using begun
      rw [List.nil_append, lossyFrom, lossyFrom, broken, single]
      simp [some, State.ground, lossy]
  | cons first bytes ih =>
    have again := @ih [] .ground ground (by simp [State.ground])
    rw [List.cons_append, lossyFrom, lossyFrom]
    cases moved : next state first with
    | some after =>
      simp only
      split
      · rw [again, List.append_assoc, List.cons_append]
      · rename_i more
        exact ih (fun done => absurd done more) fun owes => ⟨by simp, next_low moved owes⟩
    | none =>
      simp only
      split
      · rw [again, List.append_assoc]
      · rw [List.append_assoc]
        congr 1
        cases begun : lead first with
        | none =>
          simp only
          rw [again, List.append_assoc]
        | some after =>
          have moved : next .ground first = some after := begun
          simp only
          split
          · rw [again, List.cons_append]
          · rename_i more
            exact ih (fun done => absurd done more) fun owes => ⟨by simp, next_low moved owes⟩

/-- Bytes are printed up to an ASCII byte, then this, and then those behind it. -/
theorem lossy_ascii {byte : UInt8} (plain : byte ≤ 0x7F) (bytes rest : Bytes) :
    lossy (bytes ++ byte :: rest) = lossy bytes ++ byte :: lossy rest :=
  lossyFrom_ascii plain (fun _ => ⟨rfl, rfl⟩) (by simp [State.ground]) bytes rest

/-- An ASCII byte that is printed is one of the bytes, or was pending. -/
private theorem mem_lossyFrom {byte : UInt8} (plain : byte ≤ 0x7F) {pending bytes : Bytes}
    {state : State} (printed : byte ∈ lossyFrom pending state bytes) :
    byte ∈ pending ∨ byte ∈ bytes := by
  -- The induction is on the bytes; a replacement has only bytes with a high bit.
  have marked : byte ∉ replacement := by
    intro member
    simp only [replacement, List.mem_cons, List.not_mem_nil, or_false] at member
    rcases member with rfl | rfl | rfl <;> exact absurd plain (by decide)
  induction bytes generalizing pending state with
  | nil =>
    unfold lossyFrom at printed
    split at printed
    · cases printed
    · exact absurd printed marked
  | cons first rest ih =>
    have later {pending : Bytes} {state : State} (printed : byte ∈ lossyFrom pending state rest)
        (known : byte ∈ pending → byte ∈ first :: rest) : byte ∈ first :: rest :=
      (ih printed).elim known (List.mem_cons_of_mem first)
    unfold lossyFrom at printed
    cases moved : next state first with
    | some after =>
      simp only [moved] at printed
      split at printed
      · rcases List.mem_append.mp printed with known | new
        · exact .inl known
        · rcases List.mem_cons.mp new with rfl | new
          · exact .inr List.mem_cons_self
          · exact .inr (later new (by simp))
      · rcases ih printed with known | new
        · rcases List.mem_append.mp known with known | known
          · exact .inl known
          · exact .inr (List.mem_cons.mpr (.inl (List.mem_singleton.mp known)))
        · exact .inr (List.mem_cons_of_mem first new)
    | none =>
      simp only [moved] at printed
      split at printed
      · rcases List.mem_append.mp printed with replaced | new
        · exact absurd replaced marked
        · exact .inr (later new (by simp))
      · rcases List.mem_append.mp printed with replaced | new
        · exact absurd replaced marked
        · right
          cases begun : lead first with
          | none =>
            simp only [begun] at new
            rcases List.mem_append.mp new with replaced | new
            · exact absurd replaced marked
            · exact later new (by simp)
          | some after =>
            simp only [begun] at new
            split at new
            · rcases List.mem_cons.mp new with rfl | new
              · exact List.mem_cons_self
              · exact later new (by simp)
            · refine later new fun known => ?_
              exact List.mem_cons.mpr (.inl (List.mem_singleton.mp known))

/-- An ASCII byte that is printed is one of the bytes. -/
theorem mem_of_lossy {byte : UInt8} (plain : byte ≤ 0x7F) {bytes : Bytes}
    (printed : byte ∈ lossy bytes) : byte ∈ bytes := by
  simpa using mem_lossyFrom plain printed

/-- ASCII that something printed starts with is what it was printed for. -/
theorem prefix_of_lossy {ascii bytes : Bytes} (plain : ∀ byte ∈ ascii, byte ≤ 0x7F)
    (printed : ascii <+: lossy bytes) : ascii <+: bytes := by
  -- The induction is on the ASCII bytes; any other byte is printed with a high bit in front.
  induction ascii generalizing bytes with
  | nil => exact List.nil_prefix
  | cons wanted more ih =>
    obtain ⟨here, others⟩ := List.forall_mem_cons.mp plain
    cases bytes with
    | nil => simp [lossy, lossyFrom] at printed
    | cons byte rest =>
      by_cases single : byte ≤ 0x7F
      · have same : lossy (byte :: rest) = byte :: lossy rest :=
          @lossy_append [byte] (valid_of_ascii (by simpa using single)) rest
        rw [same] at printed
        obtain ⟨equal, further⟩ := List.cons_prefix_cons.mp printed
        exact List.cons_prefix_cons.mpr ⟨equal, ih others further⟩
      · -- The byte begins a longer character, or none.
        obtain ⟨rest', first⟩ : ∃ rest', lossy (byte :: rest) = byte :: rest' ∨
            lossy (byte :: rest) = 0xEF :: rest' := by
          have start : next .ground byte = lead byte := rfl
          unfold lossy lossyFrom
          rw [start]
          cases opened : lead byte with
          | none => exact ⟨_, .inr rfl⟩
          | some after =>
            have owes : after.owed ≠ 0 := by
              intro done
              unfold lead at opened
              grind
            simp only
            rw [if_neg owes]
            exact lossyFrom_pending byte [] after rest
        rcases first with first | first
        · rw [first] at printed
          obtain ⟨rfl, -⟩ := List.cons_prefix_cons.mp printed
          exact absurd here single
        · rw [first] at printed
          obtain ⟨rfl, -⟩ := List.cons_prefix_cons.mp printed
          exact absurd here (by decide)

/-- Inside a character the next byte lies in a range, and one byte fewer is owed behind it. -/
theorem valid_owed {owed : Nat} {low high : UInt8} {bytes : Bytes}
    (sound : validFrom ⟨owed + 1, low, high⟩ bytes = true) :
    ∃ byte rest, bytes = byte :: rest ∧
      (low.toNat ≤ byte.toNat ∧ byte.toNat ≤ high.toNat) ∧
      validFrom ⟨owed, 0x80, 0xBF⟩ rest = true := by
  -- There is a next byte, because one is owed, and outside the range it breaks the text.
  cases bytes with
  | nil => simp [validFrom] at sound
  | cons byte rest =>
    by_cases inside : low ≤ byte ∧ byte ≤ high
    · have moved : next ⟨owed + 1, low, high⟩ byte = some ⟨owed, 0x80, 0xBF⟩ := by
        simp [next, inside]
      rw [validFrom, moved] at sound
      rw [UInt8.le_iff_toNat_le, UInt8.le_iff_toNat_le] at inside
      exact ⟨byte, rest, rfl, inside, sound⟩
    · have broken : next ⟨owed + 1, low, high⟩ byte = none := by
        simp only [next]
        rw [if_neg (Nat.succ_ne_zero owed), if_neg inside]
      rw [validFrom, broken] at sound
      cases sound

end Utf8

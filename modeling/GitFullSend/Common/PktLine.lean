import GitFullSend.Lib.Arrivals
import GitFullSend.Lib.Hex

/-! Splitting a receive-pack stream at its first flush, while it is copied in pieces. -/

namespace GitFullSend

open Utf8 (Bytes)
open Arrivals (Arrival)

/-- The split of one direction of a receive-pack exchange. -/
structure WireCounts where
  /-- Every byte that passed, whether framing was understood or not. -/
  total : Nat
  /-- Bytes up to and including the first flush-pkt. -/
  preFlush : Nat
  /-- pkt-lines seen before that flush. -/
  preFlushPkts : Nat
  /-- Bytes after the first flush-pkt. -/
  postFlush : Nat
  deriving DecidableEq, Repr

/-- Where the counter is in the stream. -/
inductive FlushSplit.State where
  /-- Reading a 4-byte pkt-line length header. -/
  | header
  /-- Skipping the payload of the pkt-line whose header was just read. -/
  | payload
  /-- Past the first flush-pkt. -/
  | afterFlush
  /-- The framing stopped making sense, and the remainder goes to `postFlush`. -/
  | unframed
  deriving DecidableEq, Repr

/-- Counts one direction of a receive-pack stream, splitting it at the first flush-pkt. -/
structure FlushSplit where
  state : FlushSplit.State
  counts : WireCounts
  /-- The four bytes a length header is gathered in. -/
  header : Bytes
  /-- How many of them are gathered so far. -/
  headerLen : Nat
  /-- Payload bytes still to skip in the current pkt-line. -/
  remaining : Nat
  deriving DecidableEq, Repr

/-- A number in at least one digit of base sixteen that fits a word. -/
def word (digits : Bytes) : Option Nat :=
  if digits = [] then none else (Hex.value digits).filter (· < 2 ^ 64)

/-- A number of base sixteen, as the standard library reads one from text. -/
def fromStrRadix : Bytes → Option Nat
  -- A plus sign in front is skipped, a minus sign is no digit.
  | 0x2B :: digits => word digits
  | digits => word digits

/-- Parse a 4-byte hex pkt-line length header. -/
def parseLength (header : Bytes) : Option Nat :=
  if Utf8.valid header then fromStrRadix header else none

/-- A plus sign is no digit. -/
theorem value_of_sign (digits : Bytes) : Hex.value (0x2B :: digits) = none := by
  -- Every byte of a number that is read is a digit.
  cases read : Hex.value (0x2B :: digits) with
  | none => rfl
  | some number =>
    obtain ⟨each, sign⟩ := Hex.digits_of_value read 0x2B List.mem_cons_self
    cases sign

private theorem word_eq {digits : Bytes} (some : digits ≠ []) (short : digits.length ≤ 4) :
    word digits = Hex.value digits := by
  -- Four digits at most spell less than two to the sixteen.
  rw [word, if_neg some]
  cases read : Hex.value digits with
  | none => rfl
  | some number =>
    have small : number < 2 ^ 64 :=
      calc number < 16 ^ digits.length := Hex.value_lt read
        _ ≤ 16 ^ 4 := Nat.pow_le_pow_right (by omega) short
        _ ≤ 2 ^ 64 := by decide
    rw [Option.filter_some, decide_eq_true small, if_pos rfl]

private theorem ascii_of_value {digits : Bytes} {number : Nat}
    (read : Hex.value digits = some number) : ∀ byte ∈ digits, byte ≤ 0x7F := by
  intro byte member
  obtain ⟨each, digit⟩ := Hex.digits_of_value read byte member
  exact Hex.digit_ascii digit

/-- A number is spelled by the four bytes, or by three digits behind a plus sign. -/
theorem fromStrRadix_iff {header : Bytes} (four : header.length = 4) {number : Nat} :
    fromStrRadix header = some number ↔
      Hex.value header = some number ∨
        ∃ digits, header = 0x2B :: digits ∧ Hex.value digits = some number := by
  -- The sign is skipped when there is one.
  unfold fromStrRadix
  split
  · rename_i digits
    have three : digits.length = 3 := by simpa using four
    rw [word_eq (List.length_pos_iff.mp (by omega)) (by omega), value_of_sign]
    simp
  · rename_i unsigned
    rw [word_eq (List.length_pos_iff.mp (by omega)) (by omega)]
    constructor
    · exact .inl
    · intro read
      rcases read with plain | ⟨digits, signed, -⟩
      · exact plain
      · exact absurd signed (unsigned digits)

/-- A length is spelled by the four bytes, or by three digits behind a plus sign. -/
theorem parseLength_iff {header : Bytes} (four : header.length = 4) {number : Nat} :
    parseLength header = some number ↔
      Hex.value header = some number ∨
        ∃ digits, header = 0x2B :: digits ∧ Hex.value digits = some number := by
  -- Digits and the sign are ASCII, so what spells a number is valid text.
  rw [← fromStrRadix_iff four, parseLength]
  constructor
  · intro read
    split at read
    · exact read
    · cases read
  · intro read
    have ascii : ∀ byte ∈ header, byte ≤ 0x7F := by
      rcases (fromStrRadix_iff four).mp read with plain | ⟨digits, rfl, signed⟩
      · exact ascii_of_value plain
      · exact List.forall_mem_cons.mpr ⟨by decide, ascii_of_value signed⟩
    rw [if_pos (Utf8.valid_of_ascii ascii), read]

namespace FlushSplit

/-- A counter positioned at the start of a stream. -/
def new : FlushSplit := ⟨.header, ⟨0, 0, 0, 0⟩, [0, 0, 0, 0], 0, 0⟩

/-- So many more bytes that are counted among those before the flush. -/
def before (split : FlushSplit) (count : Nat) : FlushSplit :=
  { split with counts := { split.counts with preFlush := split.counts.preFlush + count } }

/-- So many more bytes that are counted among those after the flush. -/
def behind (split : FlushSplit) (count : Nat) : FlushSplit :=
  { split with counts := { split.counts with postFlush := split.counts.postFlush + count } }

/-- So many more bytes that are counted at all. -/
def passing (split : FlushSplit) (count : Nat) : FlushSplit :=
  { split with counts := { split.counts with total := split.counts.total + count } }

/-- One more pkt-line whose header is complete. -/
def packet (split : FlushSplit) (state : State) (remaining : Nat) : FlushSplit :=
  { split with
    state := state
    counts := { split.counts with preFlushPkts := split.counts.preFlushPkts + 1 }
    remaining := remaining }

/-- Bytes of a length header, copied behind those that are gathered. -/
def gather (split : FlushSplit) (bytes : Bytes) : FlushSplit :=
  { split with
    header := split.header.take split.headerLen ++ bytes ++
      split.header.drop (split.headerLen + bytes.length)
    headerLen := split.headerLen + bytes.length }

/-- What a complete length header says about the stream behind it. -/
def settle (split : FlushSplit) : FlushSplit :=
  match parseLength split.header with
  -- A flush-pkt ends the section.
  | some 0 => { split with state := .afterFlush }
  -- Delim and response-end carry no payload.
  | some 1 | some 2 => split.packet .header split.remaining
  -- A length of four is the header's own.
  | some 4 => split.packet .header 0
  | some (remaining + 5) => split.packet .payload (remaining + 1)
  -- Length 3 is impossible, and without a number this was no pkt-line.
  | some 3 | none => { split with state := .unframed }

/-- One pass of the loop over bytes that are left, with those left after it. -/
def pass (split : FlushSplit) (rest : Bytes) : FlushSplit × Bytes :=
  match split.state with
  | .afterFlush | .unframed => (split.behind rest.length, [])
  | .header =>
    let take := min (4 - split.headerLen) rest.length
    let gathered := (split.gather (rest.take take)).before take
    if gathered.headerLen < 4 then (gathered, [])
    else (settle { gathered with headerLen := 0 }, rest.drop take)
  | .payload =>
    let take := min split.remaining rest.length
    let skipped : FlushSplit := { split.before take with remaining := split.remaining - take }
    (if skipped.remaining = 0 then { skipped with state := .header } else skipped, rest.drop take)

/-- So many passes of the loop at most, until no bytes are left. -/
def passes : Nat → FlushSplit → Bytes → FlushSplit × Bytes
  | _, split, [] => (split, [])
  | 0, split, rest => (split, rest)
  | fuel + 1, split, rest => passes fuel (split.pass rest).1 (split.pass rest).2

/-- Account for the next bytes of the stream, each of which needs one pass at most. -/
def feed (split : FlushSplit) (bytes : Bytes) : FlushSplit :=
  (passes bytes.length (split.passing bytes.length) bytes).1

/-- What holds of a counter between two passes. -/
structure Sound (split : FlushSplit) : Prop where
  /-- A header is gathered in four bytes. -/
  four : split.header.length = 4
  /-- Fewer than four of them are pending. -/
  pending : split.headerLen < 4
  /-- They are pending only while a header is read. -/
  reading : split.headerLen ≠ 0 → split.state = .header
  /-- Bytes are left to skip exactly within a payload. -/
  skipping : split.remaining ≠ 0 ↔ split.state = .payload

end FlushSplit

/-- What a copy in pieces comes to. -/
structure Pumped where
  /-- The counter behind the last piece that was handed on whole. -/
  split : FlushSplit
  /-- Every byte written, those of a write that failed later included. -/
  written : Bytes
  /-- Every byte read, those of a piece that was not handed on included. -/
  read : Bytes

/--
Copy what arrives, counting it, until the stream ends or a call fails.

A write takes as many bytes as there is room for, and fails when that is not the whole piece.
-/
def pump (room : Nat → Option Nat) : Nat → FlushSplit → List Arrival → Pumped
  | _, split, [] => ⟨split, [], []⟩
  | call, split, .interrupted :: rest => pump room call split rest
  | _, split, .failed :: _ => ⟨split, [], []⟩
  | call, split, .data first more :: rest =>
    let piece := first :: more
    let whole := pump room (call + 1) (split.feed piece) rest
    match room call with
    | none => ⟨whole.split, piece ++ whole.written, piece ++ whole.read⟩
    | some room =>
      if piece.length ≤ room then ⟨whole.split, piece ++ whole.written, piece ++ whole.read⟩
      else ⟨split, piece.take room, piece⟩

/-- Copy what arrives to its end, with the split of what passed. -/
def pumpSplitting (room : Nat → Option Nat) (arrivals : List Arrival) : Pumped :=
  pump room 0 .new arrivals

end GitFullSend

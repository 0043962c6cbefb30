import GitFullSend.Lib.Hex

/-! The packets of a pkt-line stream up to the flush that ends its first section. -/

namespace PktLines

open Utf8 (Bytes)

/-- How the first section of a stream ends. -/
inductive Ending where
  /-- The stream is over before the section is. -/
  | over
  /-- A flush-pkt. -/
  | flush
  /-- Four bytes that are no length of a packet. -/
  | malformed (header : Bytes)
  deriving DecidableEq

/-- A stream that is split at the end of its first section. -/
structure Parsed where
  /-- The packets whose header is complete. -/
  packets : Nat
  /-- The bytes of the section, those of its ending included. -/
  framed : Nat
  /-- The bytes behind the section. -/
  rest : Nat
  ending : Ending
  deriving DecidableEq

/-- One more packet in front. -/
def Parsed.behind (parsed : Parsed) (packet : Nat) : Parsed :=
  { parsed with packets := parsed.packets + 1, framed := packet + parsed.framed }

/-- Split a stream at the end of its first section. -/
def parse : Bytes → Parsed
  | a :: b :: c :: d :: rest =>
    match Hex.value [a, b, c, d] with
    | some 0 => ⟨0, 4, rest.length, .flush⟩
    | some 1 | some 2 => (parse rest).behind 4
    -- The length is that of the header too.
    | some (payload + 4) => (parse (rest.drop payload)).behind (4 + min payload rest.length)
    | some 3 | none => ⟨0, 4, rest.length, .malformed [a, b, c, d]⟩
  | short => ⟨0, short.length, 0, .over⟩
termination_by stream => stream.length

/-- A payload behind a header with the length of both. -/
def frame (payload : Bytes) : Bytes :=
  Hex.padded 4 (payload.length + 4) ++ payload

/-- The header that ends a section. -/
def flush : Bytes := Hex.padded 4 0

/-- The packets whose header is complete in so many bytes of their stream. -/
def headersWithin (payloads : List Bytes) (cut : Nat) : Nat :=
  (List.range payloads.length).countP fun index =>
    decide (((payloads.take index).flatMap frame).length + 4 ≤ cut)

/-- A header that spells a length is followed by as much of its payload as there is. -/
theorem parse_packet {header : Bytes} (four : header.length = 4) {payload : Nat}
    (spelled : Hex.value header = some (payload + 4)) (rest : Bytes) :
    parse (header ++ rest) =
      (parse (rest.drop payload)).behind (4 + min payload rest.length) := by
  match header, four with
  | [a, b, c, d], _ => simp [parse, spelled]

/-- A flush-pkt is a header alone. -/
theorem length_flush : flush.length = 4 := Hex.length_padded (by decide)

/-- A header of zero ends the section. -/
theorem parse_flush (tail : Bytes) : parse (flush ++ tail) = ⟨0, 4, tail.length, .flush⟩ := by
  -- The header is four bytes that spell zero.
  have spelled : Hex.value flush = some 0 := Hex.value_padded 4 0
  have four := length_flush
  generalize flush = header at spelled four
  match header, four with
  | [a, b, c, d], _ => simp [parse, spelled]

/-- Less than a header is no packet. -/
theorem parse_short {short : Bytes} (few : short.length < 4) :
    parse short = ⟨0, short.length, 0, .over⟩ := by
  match short, few with
  | [], _ | [_], _ | [_, _], _ | [_, _, _], _ => simp [parse]

/-- A framed payload is as long as its header says. -/
theorem length_frame {payload : Bytes} (fits : payload.length + 4 ≤ 0xFFFF) :
    (frame payload).length = 4 + payload.length := by
  rw [frame, List.length_append, Hex.length_padded (by omega)]

/-- Framed payloads are as long as their headers say together. -/
theorem length_frames {payloads : List Bytes}
    (fits : ∀ payload ∈ payloads, payload.length + 4 ≤ 0xFFFF) :
    (payloads.flatMap frame).length = (payloads.map fun payload => 4 + payload.length).sum := by
  -- Each frame adds its own length.
  have lengths : payloads.map (fun payload => (frame payload).length) =
      payloads.map fun payload => 4 + payload.length := by
    apply List.map_congr_left
    intro payload member
    exact length_frame (fits payload member)
  rw [List.length_flatMap, lengths]

/-- A framed payload in front of others is one packet. -/
theorem parse_frame {payload : Bytes} (fits : payload.length + 4 ≤ 0xFFFF) (rest : Bytes) :
    parse (frame payload ++ rest) = (parse rest).behind (4 + payload.length) := by
  -- The header counts itself, and what is left of its length is the payload.
  have four : (Hex.padded 4 (payload.length + 4)).length = 4 := Hex.length_padded (by omega)
  have all : min payload.length (payload ++ rest).length = payload.length := by simp
  rw [frame, List.append_assoc, parse_packet four (Hex.value_padded ..), List.drop_left, all]

/-- Framed payloads with a flush behind them are split off the rest of a stream. -/
theorem parse_frames {payloads : List Bytes}
    (fits : ∀ payload ∈ payloads, payload.length + 4 ≤ 0xFFFF) (tail : Bytes) :
    parse (payloads.flatMap frame ++ flush ++ tail) =
      ⟨payloads.length, (payloads.map fun payload => 4 + payload.length).sum + 4, tail.length,
        .flush⟩ := by
  -- The induction is on the payloads, and each of them is one packet in front.
  induction payloads with
  | nil => exact parse_flush tail
  | cons payload rest ih =>
    obtain ⟨here, others⟩ := List.forall_mem_cons.mp fits
    have following := ih others
    rw [List.append_assoc] at following
    rw [List.flatMap_cons, List.append_assoc, List.append_assoc, parse_frame here, following]
    simp [Parsed.behind, Nat.add_assoc]

/-- With a packet in front the others start behind it. -/
theorem headersWithin_cons {payload : Bytes} (fits : payload.length + 4 ≤ 0xFFFF)
    (rest : List Bytes) (cut : Nat) :
    headersWithin (payload :: rest) cut =
      if 4 ≤ cut then headersWithin rest (cut - (4 + payload.length)) + 1 else 0 := by
  -- Every other header starts later by the length of the first packet.
  have moved (index : Nat) :
      (((payload :: rest).take (index + 1)).flatMap frame).length + 4 ≤ cut ↔
        ((rest.take index).flatMap frame).length + 4 ≤ cut - (4 + payload.length) := by
    rw [List.take_succ_cons, List.flatMap_cons, List.length_append, length_frame fits]
    omega
  have others : (List.range rest.length).countP ((fun index =>
      decide ((((payload :: rest).take index).flatMap frame).length + 4 ≤ cut)) ∘ Nat.succ) =
        headersWithin rest (cut - (4 + payload.length)) := by
    apply List.countP_congr
    intro index _
    exact decide_eq_true_iff.trans ((moved index).trans decide_eq_true_iff.symm)
  rw [headersWithin, List.length_cons, List.range_succ_eq_map, List.countP_cons, List.countP_map,
    others]
  by_cases enough : 4 ≤ cut
  · simp [enough]
  · have none : headersWithin rest (cut - (4 + payload.length)) = 0 := by
      apply List.countP_eq_zero.mpr
      intro index _
      simp only [decide_eq_true_eq]
      omega
    simp [enough, none]

/-- The beginning of framed payloads with a flush behind them leaves nothing outside. -/
theorem parse_cut {payloads : List Bytes}
    (fits : ∀ payload ∈ payloads, payload.length + 4 ≤ 0xFFFF) {cut : Nat}
    (inside : cut ≤ (payloads.flatMap frame ++ flush).length) :
    let parsed := parse ((payloads.flatMap frame ++ flush).take cut)
    parsed.rest = 0 ∧ parsed.packets = headersWithin payloads cut ∧
      (parsed.ending = .over ∨ parsed.ending = .flush) := by
  -- The induction is on the payloads, and the cut falls into the first packet or behind it.
  have last := length_flush
  induction payloads generalizing cut with
  | nil =>
    have none : headersWithin [] cut = 0 := rfl
    rw [List.flatMap_nil, List.nil_append] at inside ⊢
    by_cases whole : cut = 4
    · have flushed := parse_flush []
      rw [List.append_nil] at flushed
      rw [List.take_of_length_le (by omega), flushed, none]
      exact ⟨rfl, rfl, .inr rfl⟩
    · rw [parse_short (by rw [List.length_take]; omega), none]
      exact ⟨rfl, rfl, .inl rfl⟩
  | cons payload rest ih =>
    obtain ⟨here, others⟩ := List.forall_mem_cons.mp fits
    have four : (Hex.padded 4 (payload.length + 4)).length = 4 := Hex.length_padded (by omega)
    rw [headersWithin_cons here]
    by_cases enough : 4 ≤ cut
    · -- The cut header is read, and the rest of the stream is cut that much earlier.
      have split : ((payload :: rest).flatMap frame ++ flush).take cut =
          Hex.padded 4 (payload.length + 4) ++
            (payload ++ (rest.flatMap frame ++ flush)).take (cut - 4) := by
        rw [List.flatMap_cons, frame, List.append_assoc, List.append_assoc, List.take_append,
          List.take_of_length_le (by omega), four]
      have behind : ((payload ++ (rest.flatMap frame ++ flush)).take (cut - 4)).drop
          payload.length = (rest.flatMap frame ++ flush).take (cut - (4 + payload.length)) := by
        rw [List.drop_take, List.drop_left, Nat.sub_sub]
      have later : cut - (4 + payload.length) ≤ (rest.flatMap frame ++ flush).length := by
        rw [List.flatMap_cons, List.append_assoc, List.length_append, length_frame here] at inside
        omega
      obtain ⟨outside, packets, ending⟩ := ih others later
      rw [split, parse_packet four (Hex.value_padded ..), behind, if_pos enough]
      exact ⟨outside, congrArg (· + 1) packets, ending⟩
    · rw [parse_short (by rw [List.length_take]; omega), if_neg enough]
      exact ⟨rfl, rfl, .inl rfl⟩

end PktLines

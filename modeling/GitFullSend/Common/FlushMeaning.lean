import GitFullSend.Common.FlushSplit
import GitFullSend.Lib.PktLines

/-! What the counter reports, against the packets of the stream. -/

namespace GitFullSend

open Utf8 (Bytes)
open PktLines (Parsed parse)

/-- What a counter comes to over a stream that is split like this. -/
def WireCounts.onto (counts : WireCounts) (parsed : Parsed) : WireCounts :=
  ⟨counts.total, counts.preFlush + parsed.framed, counts.preFlushPkts + parsed.packets,
    counts.postFlush + parsed.rest⟩

/-- The framing does not break at a plus sign in front of the length of a packet. -/
def Unsigned (parsed : Parsed) : Prop :=
  ∀ digits length, parsed.ending = .malformed (0x2B :: digits) →
    Hex.value digits = some length → length = 0 ∨ length = 3

namespace FlushSplit

/-- The counter behind a complete header, before it is read. -/
def headed (split : FlushSplit) (header : Bytes) : FlushSplit :=
  { split.before 4 with header := header, headerLen := 0 }

/-- Between two packets the next four bytes are a header. -/
theorem scan_header {split : FlushSplit} (sound : split.Sound) (state : split.state = .header)
    (empty : split.headerLen = 0) (header : Bytes) (four : header.length = 4) (rest : Bytes) :
    (header ++ rest).foldl step split = rest.foldl step (split.headed header).settle := by
  -- The four bytes are gathered and settled in one pass.
  have complete : split.headerLen + header.length = 4 := by omega
  have some : header ++ rest ≠ [] := List.length_pos_iff.mp (by rw [List.length_append]; omega)
  have here := (pass_scan sound some).1
  have gathered : { (split.gather header).before header.length with headerLen := 0 } =
      split.headed header := by
    have none := List.drop_eq_nil_of_le sound.four.le
    simp [gather, headed, before, four, empty, none]
  rw [pass_complete state complete, gathered] at here
  exact here.symm

/-- Behind the flush, or a broken header, every byte is counted and none is framed. -/
theorem scan_idle {split : FlushSplit} (sound : split.Sound)
    (state : split.state = .afterFlush ∨ split.state = .unframed) (rest : Bytes) :
    rest.foldl step split = split.behind rest.length := by
  -- One pass takes them all.
  cases rest with
  | nil => rfl
  | cons byte rest =>
    have here := (pass_scan sound (List.cons_ne_nil byte rest)).1
    rw [pass_idle state] at here
    exact here.symm

/-- Too few bytes for a header are counted nonetheless. -/
theorem scan_short {split : FlushSplit} (sound : split.Sound) (state : split.state = .header)
    (empty : split.headerLen = 0) {short : Bytes} (few : short.length < 4) :
    short.foldl step split = (split.gather short).before short.length := by
  -- One pass gathers them, and none passes over no bytes.
  cases short with
  | nil =>
    have same : split.header.take split.headerLen ++ split.header.drop split.headerLen =
      split.header := List.take_append_drop _ _
    simp [gather, before, same]
  | cons byte rest =>
    have here := (pass_scan sound (List.cons_ne_nil byte rest)).1
    rw [pass_gathering state (by omega)] at here
    exact here.symm

/-- The payload of a packet is skipped, as far as it is there. -/
theorem scan_payload {split : FlushSplit} (sound : split.Sound) (state : split.state = .payload)
    (rest : Bytes) :
    (rest.foldl step split).counts =
      ((rest.drop split.remaining).foldl step
        { split.before (min split.remaining rest.length) with
          remaining := 0, state := .header }).counts := by
  -- The rest is cut behind the payload, or lies within it.
  cases rest with
  | nil => simp [before]
  | cons byte more =>
    have here := (pass_scan sound (List.cons_ne_nil byte more)).1
    generalize byte :: more = rest at here ⊢
    by_cases short : rest.length < split.remaining
    · rw [pass_within state short] at here
      rw [← here, List.drop_eq_nil_of_le short.le, Nat.min_eq_right short.le]
      rfl
    · have enough : split.remaining ≤ rest.length := by omega
      have cut : rest.take split.remaining ++ rest.drop split.remaining = rest :=
        List.take_append_drop _ _
      have whole : (rest.take split.remaining).length = split.remaining := by
        rw [List.length_take, Nat.min_eq_left enough]
      have skipped := pass_skipped state whole (rest.drop split.remaining)
      rw [cut, whole] at skipped
      rw [skipped] at here
      rw [← here, Nat.min_eq_left enough]

/-- A byte takes no packet back. -/
theorem step_packets {split : FlushSplit} (sound : split.Sound) (byte : UInt8) :
    split.counts.preFlushPkts ≤ (split.step byte).counts.preFlushPkts := by
  -- Only a complete header moves the number of packets, by one.
  have settled (split : FlushSplit) :
      split.counts.preFlushPkts ≤ split.settle.counts.preFlushPkts := by
    unfold settle
    split <;> simp [packet]
  rcases step_cases sound byte with ⟨-, done⟩ | ⟨-, -, done⟩ | ⟨-, -, done⟩ | ⟨-, -, done⟩ |
    ⟨-, -, done⟩
  · exact done ▸ le_rfl
  · exact done ▸ le_rfl
  · exact done ▸ settled { (split.gather [byte]).before 1 with headerLen := 0 }
  · exact done ▸ le_rfl
  · exact done ▸ le_rfl

/-- The packets that are counted never become fewer. -/
theorem scan_packets {split : FlushSplit} (sound : split.Sound) (bytes : Bytes) :
    split.counts.preFlushPkts ≤ (bytes.foldl step split).counts.preFlushPkts := by
  -- The induction is on the bytes, and no byte takes a packet back.
  induction bytes generalizing split with
  | nil => exact le_rfl
  | cons byte rest ih =>
    have after : (split.step byte).Sound := pass_sound sound [byte]
    exact (step_packets sound byte).trans (ih after)

/-- Behind the header of a packet its payload is skipped and the next header is read. -/
theorem scan_packet {split : FlushSplit} (four : split.header.length = 4)
    (empty : split.headerLen = 0) {payload : Nat}
    (read : parseLength split.header = some (payload + 4)) (rest : Bytes) :
    ∃ next : FlushSplit, next.Sound ∧ next.state = .header ∧ next.headerLen = 0 ∧
      next.counts = { split.counts with
        preFlush := split.counts.preFlush + min payload rest.length
        preFlushPkts := split.counts.preFlushPkts + 1 } ∧
      (rest.foldl step split.settle).counts =
        ((rest.drop payload).foldl step next).counts := by
  -- A packet without payload is over at once; any other is skipped first.
  cases payload with
  | zero =>
    have settled : split.settle = split.packet .header 0 := by simp [settle, read]
    refine ⟨split.packet .header 0, ?_, rfl, empty, ?_, ?_⟩
    · exact ⟨four, by simp [packet, empty], fun _ => rfl, by simp [packet]⟩
    · simp [packet]
    · rw [settled, List.drop_zero]
  | succ payload =>
    have settled : split.settle = split.packet .payload (payload + 1) := by simp [settle, read]
    have sound : (split.packet .payload (payload + 1)).Sound :=
      ⟨four, by simp [packet, empty], by simp [packet, empty], by simp [packet]⟩
    have skipped := scan_payload sound rfl rest
    rw [settled]
    refine ⟨_, ?_, ?_, ?_, ?_, skipped⟩
    · exact ⟨four, by simp [before, packet, empty], fun _ => rfl, by simp⟩
    · rfl
    · exact empty
    · rfl

/-- What a counter between two packets makes of the rest of a stream. -/
structure Agrees (split : FlushSplit) (stream : Bytes) : Prop where
  /-- It counts the packets of the rest, while no sign is taken for a digit. -/
  counts : Unsigned (parse stream) →
    (stream.foldl step split).counts = split.counts.onto (parse stream)
  /-- Behind such a sign it has counted a packet too many. -/
  beyond : ¬ Unsigned (parse stream) →
    split.counts.preFlushPkts + (parse stream).packets <
      (stream.foldl step split).counts.preFlushPkts

/-- A packet in front is counted as one, and the rest like before. -/
theorem agrees_behind {split next : FlushSplit} {stream rest : Bytes} {packet : Nat}
    (agrees : next.Agrees rest) (parsed : parse stream = (parse rest).behind packet)
    (counts : next.counts = { split.counts with
      preFlush := split.counts.preFlush + packet
      preFlushPkts := split.counts.preFlushPkts + 1 })
    (same : (stream.foldl step split).counts = (rest.foldl step next).counts) :
    split.Agrees stream := by
  -- Both sides count the packet, so what they make of the rest decides.
  have ending : (parse stream).ending = (parse rest).ending := parsed ▸ rfl
  have unsigned : Unsigned (parse stream) ↔ Unsigned (parse rest) := by
    rw [Unsigned, Unsigned, ending]
  constructor
  · intro plain
    rw [same, agrees.counts (unsigned.mp plain), counts, parsed]
    simp [WireCounts.onto, Parsed.behind, Nat.add_assoc, Nat.add_comm 1]
  · intro signed
    have more := agrees.beyond (mt unsigned.mpr signed)
    rw [counts] at more
    rw [same, parsed]
    simp only [Parsed.behind] at more ⊢
    omega

section Headers

variable {split : FlushSplit} (sound : split.Sound) (state : split.state = .header)
  (empty : split.headerLen = 0) {header : Bytes} (four : header.length = 4) {rest : Bytes}

include sound state empty four

/-- A packet without payload is followed by the next header. -/
theorem agrees_bare (read : parseLength header = some 1 ∨ parseLength header = some 2)
    (parsed : parse (header ++ rest) = (parse rest).behind 4)
    (following : ∀ {next : FlushSplit}, next.Sound → next.state = .header → next.headerLen = 0 →
      next.Agrees rest) : split.Agrees (header ++ rest) := by
  -- The header counts a packet, and leaves the counter between two of them.
  have whole := sound.whole state
  have settled : (split.headed header).settle =
      (split.headed header).packet .header split.remaining := by
    rcases read with read | read <;> simp [settle, headed, before, read]
  have between : ((split.headed header).packet .header split.remaining).Sound :=
    ⟨four, by simp [packet, headed], fun _ => rfl, by simp [packet, whole]⟩
  apply agrees_behind (following between rfl rfl) parsed rfl
  rw [scan_header sound state empty header four, settled]

/-- A packet with payload is followed by the next header behind it. -/
theorem agrees_packet {payload : Nat} (read : parseLength header = some (payload + 4))
    (parsed : parse (header ++ rest) =
      (parse (rest.drop payload)).behind (4 + min payload rest.length))
    (following : ∀ {next : FlushSplit}, next.Sound → next.state = .header → next.headerLen = 0 →
      next.Agrees (rest.drop payload)) : split.Agrees (header ++ rest) := by
  -- The header settles to a payload, and behind that the next header agrees.
  have read : parseLength (split.headed header).header = some (payload + 4) := read
  obtain ⟨next, sound', state', empty', counts, same⟩ := scan_packet four rfl read rest
  apply agrees_behind (following sound' state' empty') parsed
  · rw [counts]
    simp [headed, before, Nat.add_assoc]
  · rw [scan_header sound state empty header four, same]

/-- A header that ends the section leaves what is behind it outside. -/
theorem agrees_ended {ending : PktLines.Ending}
    (read : parseLength header = some 0 ∨ parseLength header = some 3 ∨ parseLength header = none)
    (parsed : parse (header ++ rest) = ⟨0, 4, rest.length, ending⟩)
    (unsigned : Unsigned ⟨0, 4, rest.length, ending⟩) : split.Agrees (header ++ rest) := by
  -- The counter is behind the section from here on.
  have outside : ((split.headed header).settle.state = .afterFlush ∨
      (split.headed header).settle.state = .unframed) ∧
      (split.headed header).settle.counts = (split.headed header).counts := by
    rcases read with read | read | read <;> simp [settle, headed, read]
  have sound' : (split.headed header).settle.Sound := settle_sound four rfl (sound.whole state)
  constructor
  · intro _
    rw [scan_header sound state empty header four, scan_idle sound' outside.1, behind, outside.2,
      parsed]
    rfl
  · intro signed
    rw [parsed] at signed
    exact absurd unsigned signed

/-- A length behind a sign is counted as a packet, which the format does not have. -/
theorem agrees_signed {length : Nat} (read : parseLength header = some length)
    (packet : length ≠ 0 ∧ length ≠ 3)
    (parsed : parse (header ++ rest) = ⟨0, 4, rest.length, .malformed header⟩)
    (signed : ¬ Unsigned ⟨0, 4, rest.length, .malformed header⟩) :
    split.Agrees (header ++ rest) := by
  -- The counter has one packet more than the format, and never loses it.
  have sound' : (split.headed header).settle.Sound := settle_sound four rfl (sound.whole state)
  have counted : (split.headed header).settle.counts.preFlushPkts =
      split.counts.preFlushPkts + 1 := by
    unfold settle
    have read : parseLength (split.headed header).header = some length := read
    rw [read]
    match length with
    | 0 => exact absurd rfl packet.1
    | 3 => exact absurd rfl packet.2
    | 1 | 2 | 4 | _ + 5 => rfl
  constructor
  · intro unsigned
    rw [parsed] at unsigned
    exact absurd unsigned signed
  · intro _
    have still := scan_packets sound' rest
    rw [scan_header sound state empty header four, parsed]
    simp only
    omega

end Headers

/-- Between two packets the counter reads the rest as the format does, signs apart. -/
theorem scan_agrees {split : FlushSplit} (sound : split.Sound) (state : split.state = .header)
    (empty : split.headerLen = 0) (stream : Bytes) : split.Agrees stream := by
  -- The induction follows the packets of the stream.
  fun_induction parse stream generalizing split with
  | case1 a b c d rest value =>
    have parsed : parse (a :: b :: c :: d :: rest) = ⟨0, 4, rest.length, .flush⟩ := by
      rw [parse, value]
    have read := (parseLength_iff rfl).mpr (.inl value)
    apply agrees_ended sound state empty rfl (.inl read) parsed
    intro digits length malformed
    cases malformed
  | case2 a b c d rest value ih =>
    have parsed : parse (a :: b :: c :: d :: rest) = (parse rest).behind 4 := by
      rw [parse, value]
    have read := (parseLength_iff rfl).mpr (.inl value)
    exact agrees_bare sound state empty rfl (.inl read) parsed ih
  | case3 a b c d rest value ih =>
    have parsed : parse (a :: b :: c :: d :: rest) = (parse rest).behind 4 := by
      rw [parse, value]
    have read := (parseLength_iff rfl).mpr (.inl value)
    exact agrees_bare sound state empty rfl (.inr read) parsed ih
  | case4 a b c d rest payload value ih =>
    have parsed : parse (a :: b :: c :: d :: rest) =
        (parse (rest.drop payload)).behind (4 + min payload rest.length) := by
      rw [parse, value]
    have read := (parseLength_iff rfl).mpr (.inl value)
    exact agrees_packet sound state empty rfl read parsed ih
  | case5 a b c d rest value =>
    have parsed : parse (a :: b :: c :: d :: rest) =
        ⟨0, 4, rest.length, .malformed [a, b, c, d]⟩ := by
      rw [parse, value]
    have read := (parseLength_iff rfl).mpr (.inl value)
    apply agrees_ended sound state empty rfl (.inr (.inl read)) parsed
    intro digits length malformed
    injection malformed with signed
    rw [signed, value_of_sign] at value
    cases value
  | case6 a b c d rest value =>
    have parsed : parse (a :: b :: c :: d :: rest) =
        ⟨0, 4, rest.length, .malformed [a, b, c, d]⟩ := by
      rw [parse, value]
    -- Only a sign in front makes a number of what is none.
    cases read : parseLength [a, b, c, d] with
    | none =>
      apply agrees_ended sound state empty rfl (.inr (.inr read)) parsed
      intro digits length malformed spelled
      injection malformed with signed
      rw [(parseLength_iff rfl).mpr (.inr ⟨digits, signed, spelled⟩)] at read
      cases read
    | some length =>
      obtain ⟨digits, signed, spelled⟩ : ∃ digits, [a, b, c, d] = 0x2B :: digits ∧
          Hex.value digits = some length := by
        have spelled := (parseLength_iff rfl).mp read
        rwa [value, or_iff_right (by simp)] at spelled
      have only : Unsigned ⟨0, 4, rest.length, .malformed [a, b, c, d]⟩ ↔
          length = 0 ∨ length = 3 := by
        constructor
        · intro unsigned
          exact unsigned digits length (by rw [signed]) spelled
        · intro harmless others number malformed other
          injection malformed with same
          rw [signed] at same
          injection same with _ same
          rw [← same, spelled] at other
          injection other with same
          rwa [← same]
      by_cases harmless : length = 0 ∨ length = 3
      · have unsigned := only.mpr harmless
        rcases harmless with rfl | rfl
        · exact agrees_ended sound state empty rfl (.inl read) parsed unsigned
        · exact agrees_ended sound state empty rfl (.inr (.inl read)) parsed unsigned
      · exact agrees_signed sound state empty rfl read (not_or.mp harmless) parsed
          (mt only.mp harmless)
  | case7 short few =>
    have brief : short.length < 4 := by
      rcases short with _ | ⟨a, _ | ⟨b, _ | ⟨c, _ | ⟨d, rest⟩⟩⟩⟩
      · simp
      · simp
      · simp
      · simp
      · exact absurd rfl (few a b c d rest)
    have parsed : parse short = ⟨0, short.length, 0, .over⟩ := by
      rw [parse]
      exact few
    constructor
    · intro _
      rw [scan_short sound state empty brief, parsed]
      rfl
    · intro signed
      refine absurd ?_ signed
      rw [parsed]
      intro digits length malformed
      cases malformed

/--
The counter reports the split that the format gives a stream exactly when its framing does not
break at a plus sign in front of a length.
-/
theorem counts_eq_parse (stream : Bytes) :
    (new.feed stream).counts =
        ⟨stream.length, (parse stream).framed, (parse stream).packets, (parse stream).rest⟩ ↔
      Unsigned (parse stream) := by
  -- Every byte is counted; the rest is what the counter makes of the packets.
  have start : new.Agrees stream := scan_agrees new_sound rfl rfl stream
  have none : new.counts = ⟨0, 0, 0, 0⟩ := rfl
  rw [feed_eq new_sound]
  constructor
  · intro same
    by_contra signed
    have more := start.beyond signed
    have equal := congrArg WireCounts.preFlushPkts same
    simp only [passing] at equal
    rw [equal, none] at more
    omega
  · intro unsigned
    simp only [passing]
    rw [start.counts unsigned, none]
    simp [WireCounts.onto]

/-- A length of five that is spelled with a plus sign is counted as a packet. -/
theorem counts_signed :
    (new.feed (Utf8.ofText "+005a0000")).counts ≠
      ⟨(Utf8.ofText "+005a0000").length, (parse (Utf8.ofText "+005a0000")).framed,
        (parse (Utf8.ofText "+005a0000")).packets, (parse (Utf8.ofText "+005a0000")).rest⟩ := by
  -- The counter sees one packet before the flush, the format a broken header.
  have parsed : parse (Utf8.ofText "+005a0000") =
      ⟨0, 4, 5, .malformed [0x2B, 0x30, 0x30, 0x35]⟩ := by
    have bytes : Utf8.ofText "+005a0000" =
        [0x2B, 0x30, 0x30, 0x35, 0x61, 0x30, 0x30, 0x30, 0x30] := by decide
    have broken : Hex.value [0x2B, 0x30, 0x30, 0x35] = none := by decide
    rw [bytes, parse, broken]
    rfl
  have counted : (new.feed (Utf8.ofText "+005a0000")).counts = ⟨9, 9, 1, 0⟩ := by decide
  rw [parsed, counted]
  decide

end FlushSplit

end GitFullSend

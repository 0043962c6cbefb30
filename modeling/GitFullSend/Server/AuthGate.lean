import GitFullSend.Common.Preamble
import GitFullSend.Server.Connection

/-! What a connection must open with to get past the gate. -/

namespace GitFullSend

open Utf8 (Bytes ofText)
open Arrivals (Arrival delivered)

/-- A stream that opens with a pkt-line of its own length that carries the secret. -/
def WellFramed (expected : Token) (stream : Bytes) : Prop :=
  ∃ header payload rest, stream = header ++ payload ++ rest ∧ header.length = 4 ∧
    Hex.value header = some (4 + payload.length) ∧
    (payload = ofText authPktPrefix ++ ofText expected.text ∨
      payload = ofText authPktPrefix ++ ofText expected.text ++ [0x0A])

/-- How many bytes of payload a header of four digits declares, none where it is not one. -/
def declared (stream : Bytes) : Nat :=
  (Hex.value (stream.take 4)).getD 0 - 4

/-- A stream that opens with a length behind a plus sign, and has something to be read by it. -/
def SignedOpening (stream : Bytes) : Prop :=
  ∃ digits len, stream.take 4 = 0x2B :: digits ∧ digits.length = 3 ∧
    Hex.value digits = some len ∧ 5 ≤ len ∧ 4 < stream.length

/-- The gate admits a well framed secret, and refuses anything else with as little as it needs. -/
structure Gated (expected : Token) (stream : Bytes) (handled : Handled) : Prop where
  admits : handled.spawned = true ↔ WellFramed expected stream
  refuses : ¬ WellFramed expected stream →
    handled.spawned = false ∧ handled.forwarded = [] ∧
    handled.record.map (·.outcome) = some Outcome.unauthenticated.asStr ∧
    handled.consumed.length ≤ 4 + declared stream

/-- Whatever becomes of the child, the bytes behind the preamble are for it. -/
theorem receive_spawned (consumed : Bytes) (sock : Socket) (child : Option Child) :
    (receive consumed sock child).spawned = true ∧
      (receive consumed sock child).consumed = consumed := by
  cases child <;> exact ⟨rfl, rfl⟩

section Gate

variable {expected : Token} {sock : Socket} (child : Option Child)

/-- An accepted preamble hands what follows it to the child. -/
theorem handleConnection_accepted (accepted : (readAuthPkt sock.incoming expected).outcome = .ok) :
    handleConnection (.token expected) sock child =
      receive (readAuthPkt sock.incoming expected).taken
        { sock with incoming := (readAuthPkt sock.incoming expected).left } child := by
  simp [handleConnection, authenticate, accepted, AuthOutcome.refusal]

/-- Behind a refused preamble there is no child. -/
theorem handleConnection_refused (refused : (readAuthPkt sock.incoming expected).outcome ≠ .ok) :
    let handled := handleConnection (.token expected) sock child
    let read := readAuthPkt sock.incoming expected
    handled.spawned = false ∧ handled.forwarded = [] ∧ handled.received = [] ∧
      handled.consumed = read.taken ∧ handled.record =
        some (.unauthenticated Outcome.unauthenticated.asStr read.outcome.asStr) := by
  -- Every other outcome has a message to refuse it with.
  intro handled read
  have unfolded : handled = handleConnection (.token expected) sock child := rfl
  unfold handleConnection authenticate at unfolded
  cases outcome : (readAuthPkt sock.incoming expected).outcome with
  | ok => exact absurd outcome refused
  | mismatch | malformed | absent =>
    simp only [outcome, AuthOutcome.refusal, Option.map_some] at unfolded
    rw [unfolded]
    exact ⟨rfl, rfl, rfl, rfl, rfl⟩

/-- The child is spawned exactly behind an accepted preamble, and the preamble is what is read. -/
theorem handleConnection_gate :
    let read := readAuthPkt sock.incoming expected
    let handled := handleConnection (.token expected) sock child
    (handled.spawned = true ↔ read.outcome = .ok) ∧ handled.consumed = read.taken := by
  -- One side receives, and the other one refuses.
  intro read handled
  by_cases accepted : (readAuthPkt sock.incoming expected).outcome = .ok
  · have same : handled = _ := handleConnection_accepted child accepted
    have spawned := receive_spawned read.taken { sock with incoming := read.left } child
    rw [same]
    exact ⟨⟨fun _ => accepted, fun _ => spawned.1⟩, spawned.2⟩
  · obtain ⟨none, -, -, consumed, -⟩ := handleConnection_refused child accepted
    refine ⟨⟨?_, fun yes => absurd yes accepted⟩, consumed⟩
    intro spawned
    cases spawned.symm.trans none

end Gate

/-- A connection that gets to the child is one that receives, with or without a secret. -/
theorem handleConnection_spawned {auth : Auth} {sock : Socket} {child : Option Child}
    (spawned : (handleConnection auth sock child).spawned = true) :
    ∃ consumed rest, handleConnection auth sock child =
      receive consumed { sock with incoming := rest } child := by
  -- With a secret the gate must have let it through.
  cases auth with
  | anonymous => exact ⟨[], sock.incoming, rfl⟩
  | token expected =>
    have accepted := (handleConnection_gate child).1.mp spawned
    exact ⟨_, _, handleConnection_accepted child accepted⟩

/-- A well framed secret is accepted. -/
theorem parsed_of_wellFramed {expected : Token} {stream : Bytes}
    (framed : WellFramed expected stream) :
    ∃ len, parseLength (stream.take 4) = some len ∧ Fitting len ∧ len ≤ stream.length ∧
      Hex.value (stream.take 4) = some len ∧
      checkPayload ((stream.drop 4).take (len - 4)) expected = .ok := by
  -- The longest secret with its line feed is within the bound.
  obtain ⟨header, payload, rest, rfl, four, spelled, secret⟩ := framed
  have short := expected.short
  have magic := length_authPktPrefix
  unfold maxTokenLen at short
  have opening : (header ++ payload ++ rest).take 4 = header := by
    rw [List.append_assoc, List.take_left' four]
  have behind : ((header ++ payload ++ rest).drop 4).take (4 + payload.length - 4) = payload := by
    rw [List.append_assoc, List.drop_left' four, Nat.add_sub_cancel_left, List.take_left]
  have size : payload.length = 22 + (ofText expected.text).length ∨
      payload.length = 22 + (ofText expected.text).length + 1 := by
    rcases secret with rfl | rfl
    · left
      rw [List.length_append, magic]
    · right
      rw [List.length_append, List.length_append, magic, List.length_singleton]
  refine ⟨4 + payload.length, ?_, ?_, ?_, ?_, ?_⟩
  · rw [opening]
    exact (parseLength_iff four).mpr (.inl spelled)
  · rw [Fitting, magic, maxTokenLen]
    omega
  · rw [List.length_append, List.length_append]
    omega
  · rw [opening, spelled]
  · rw [behind]
    exact checkPayload_ok.mpr secret

/-- Without a sign an accepted stream is well framed. -/
theorem wellFramed_of_accepted {expected : Token} {stream : Bytes} {len : Nat}
    (spelled : Hex.value (stream.take 4) = some len) (fits : Fitting len)
    (enough : len ≤ stream.length)
    (accepted : checkPayload ((stream.drop 4).take (len - 4)) expected = .ok) :
    WellFramed expected stream := by
  -- The stream is cut behind its header and behind its payload.
  unfold Fitting at fits
  have size : ((stream.drop 4).take (len - 4)).length = len - 4 := by
    rw [List.length_take, List.length_drop]
    omega
  have four : (stream.take 4).length = 4 := by
    rw [List.length_take]
    omega
  have joined : stream.take 4 ++ (stream.drop 4).take (len - 4) = stream.take len :=
    Lists.take_append_take_drop (Nat.le_of_succ_le fits.1)
  refine ⟨stream.take 4, (stream.drop 4).take (len - 4), stream.drop len, ?_, four, ?_, ?_⟩
  · rw [joined, List.take_append_drop]
  · rw [size, spelled]
    congr 1
    omega
  · exact checkPayload_ok.mp accepted

/-- A sign in front makes no stream well framed, and declares nothing. -/
theorem signed_malformed {expected : Token} {stream digits : Bytes}
    (sign : stream.take 4 = 0x2B :: digits) :
    ¬ WellFramed expected stream ∧ declared stream = 0 := by
  -- The four bytes are no number, and a well framed stream has one there.
  have none : Hex.value (stream.take 4) = none := by rw [sign, value_of_sign]
  constructor
  · intro framed
    obtain ⟨len, -, -, -, spelled, -⟩ := parsed_of_wellFramed framed
    rw [none] at spelled
    cases spelled
  · rw [declared, none]
    rfl

/-- Without a signed opening, the length that is read is the one that four digits declare. -/
theorem spelled_of_plain {stream : Bytes} (plain : ¬ SignedOpening stream) {len : Nat}
    (parsed : parseLength (stream.take 4) = some len) (fits : Fitting len)
    (more : 4 < stream.length) : Hex.value (stream.take 4) = some len := by
  -- The length is spelled by digits, or the opening is a signed one.
  have four : (stream.take 4).length = 4 := by
    rw [List.length_take]
    omega
  rcases (parseLength_iff four).mp parsed with spelled | ⟨digits, sign, signed⟩
  · exact spelled
  · have three : digits.length = 3 := by
      rw [sign] at four
      simpa using four
    exact absurd ⟨digits, len, sign, three, signed, fits.1, more⟩ plain

section Reading

variable {expected : Token} {sock : Socket} (plain : ¬ SignedOpening (delivered sock.incoming))

include plain

/-- Without a signed opening exactly the well framed secrets are accepted. -/
theorem accepted_iff : (readAuthPkt sock.incoming expected).outcome = .ok ↔
    WellFramed expected (delivered sock.incoming) := by
  -- Of the four ways a preamble is read, one accepts, and it has read the length of the stream.
  constructor
  · intro accepted
    rcases readAuthPkt_cases sock.incoming expected with ⟨-, outcome, -⟩ | ⟨-, -, outcome, -⟩ |
      ⟨len, -, -, -, outcome, -⟩ | ⟨len, parsed, fits, enough, outcome, -, -⟩
    · cases accepted.symm.trans outcome
    · cases accepted.symm.trans outcome
    · cases accepted.symm.trans outcome
    · have more : 4 < (delivered sock.incoming).length := by
        have five := fits.1
        omega
      have spelled := spelled_of_plain plain parsed fits more
      exact wellFramed_of_accepted spelled fits enough (outcome.symm.trans accepted)
  · intro framed
    obtain ⟨len, parsed, fits, enough, spelled, secret⟩ := parsed_of_wellFramed framed
    have five := fits.1
    rcases readAuthPkt_cases sock.incoming expected with ⟨short, -⟩ | ⟨-, refused, -⟩ |
      ⟨other, same, -, short, -⟩ | ⟨other, same, -, -, outcome, -⟩
    · omega
    · exact absurd fits (refused len parsed)
    · rw [parsed, Option.some.injEq] at same
      omega
    · rw [parsed, Option.some.injEq] at same
      subst same
      exact outcome.trans secret

/-- Without a signed opening no more is read than the header and what it declares. -/
theorem taken_le : (readAuthPkt sock.incoming expected).taken.length ≤
    4 + declared (delivered sock.incoming) := by
  -- Each of the four ways takes the header, and at most the payload that this declares.
  rcases readAuthPkt_cases sock.incoming expected with ⟨short, -, taken⟩ | ⟨-, -, -, taken⟩ |
    ⟨len, parsed, fits, short, -, taken⟩ | ⟨len, parsed, fits, enough, -, taken, -⟩
  · rw [taken]
    omega
  · rw [taken, List.length_take]
    omega
  · rw [taken]
    by_cases more : 4 < (delivered sock.incoming).length
    · have spelled := spelled_of_plain plain parsed fits more
      rw [declared, spelled, Option.getD_some]
      omega
    · omega
  · have five := fits.1
    have spelled := spelled_of_plain plain parsed fits (by omega)
    rw [taken, declared, spelled, Option.getD_some, List.length_take]
    omega

end Reading

/-- By a signed length more is read than the header. -/
theorem taken_signed {expected : Token} {sock : Socket}
    (signed : SignedOpening (delivered sock.incoming)) :
    4 < (readAuthPkt sock.incoming expected).taken.length := by
  -- Three digits spell no length that is refused as too long.
  obtain ⟨digits, len, sign, three, spelled, long, more⟩ := signed
  have four : ((delivered sock.incoming).take 4).length = 4 := by
    rw [List.length_take]
    omega
  have parsed := (parseLength_iff four).mpr (.inr ⟨digits, sign, spelled⟩)
  have small := Hex.value_lt spelled
  rw [three] at small
  rcases readAuthPkt_cases sock.incoming expected with ⟨short, -⟩ | ⟨-, refused, -⟩ |
    ⟨other, -, -, -, -, taken⟩ | ⟨other, same, -, enough, -, taken, -⟩
  · omega
  · have fits : Fitting len := by
      rw [Fitting, length_authPktPrefix, maxTokenLen]
      omega
    exact absurd fits (refused len parsed)
  · rw [taken]
    exact more
  · rw [parsed, Option.some.injEq] at same
    rw [taken, List.length_take]
    omega

/--
The gate admits exactly the well framed secrets, and reads no more of anything else than its header
and the payload that declares, on exactly the streams that do not open with a signed length.
-/
theorem handleConnection_gated (expected : Token) (sock : Socket) (child : Option Child) :
    Gated expected (delivered sock.incoming) (handleConnection (.token expected) sock child) ↔
      ¬ SignedOpening (delivered sock.incoming) := by
  -- A signed opening declares nothing, and more than the header is read of it.
  obtain ⟨spawned, consumed⟩ := @handleConnection_gate expected sock child
  constructor
  · intro gated signed
    obtain ⟨digits, _, sign, -⟩ := id signed
    obtain ⟨malformed, nothing⟩ := @signed_malformed expected _ _ sign
    obtain ⟨-, -, -, bounded⟩ := gated.refuses malformed
    have more := @taken_signed expected sock signed
    rw [consumed, nothing] at bounded
    omega
  · intro plain
    constructor
    · exact spawned.trans (accepted_iff plain)
    · intro malformed
      have refused := mt (accepted_iff plain).mp malformed
      obtain ⟨none, nothing, -, -, record⟩ := handleConnection_refused child refused
      exact ⟨none, nothing, record ▸ rfl, consumed ▸ taken_le plain⟩

/-- A secret whose line is thirty-three bytes long is admitted behind a signed length. -/
theorem handleConnection_signed :
    let expected : Token := ⟨"s3cret", by decide, by decide, by decide⟩
    let stream := ofText "021git-full-send-auth-v1 s3cret\n"
    let sock : Socket := ⟨[.data 0x2B stream], fun _ => none⟩
    (handleConnection (.token expected) sock none).spawned = true ∧
      ¬ Gated expected (delivered sock.incoming)
        (handleConnection (.token expected) sock none) := by
  -- The sign is no digit, so the stream is not well framed.
  intro expected stream sock
  have spawned : (handleConnection (.token expected) sock none).spawned = true := by decide
  have sign : (delivered sock.incoming).take 4 = 0x2B :: [0x30, 0x32, 0x31] := by decide
  refine ⟨spawned, ?_⟩
  intro gated
  exact (signed_malformed sign).1 (gated.admits.mp spawned)

end GitFullSend

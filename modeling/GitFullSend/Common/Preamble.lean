import GitFullSend.Common.Auth
import GitFullSend.Lib.Lists

/-! The preamble that is written is the one that is read, and nothing behind it is read. -/

namespace GitFullSend

open Utf8 (Bytes ofText)
open Text (trim)
open Arrivals (Arrival delivered readExact readExact_taken readExact_left)

/-- The bytes of the magic are its characters. -/
theorem length_authPktPrefix : (ofText authPktPrefix).length = 22 := by decide

namespace Token

private theorem diff_eq_zero (pairs : List (UInt8 × UInt8)) (start : UInt8) :
    pairs.foldl (fun diff pair => diff ||| (pair.1 ^^^ pair.2)) start = 0 ↔
      start = 0 ∧ ∀ pair ∈ pairs, pair.1 = pair.2 := by
  -- A bit that is set stays set.
  induction pairs generalizing start with
  | nil => simp
  | cons pair rest ih =>
    rw [List.foldl_cons, ih, UInt8.or_eq_zero_iff, UInt8.xor_eq_zero_iff, and_assoc,
      List.forall_mem_cons]

/-- Only the bytes of the secret itself match it. -/
theorem matches_iff (token : Token) (presented : Bytes) :
    token.matches presented = true ↔ presented = ofText token.text := by
  -- No difference is left when the lengths agree and the bytes do, pair by pair.
  rw [«matches», beq_iff_eq, diff_eq_zero]
  constructor
  · intro same
    obtain ⟨lengths, pairs⟩ := same
    have lengths : (ofText token.text).length = presented.length := by
      by_contra differ
      rw [if_pos differ] at lengths
      cases lengths
    have equal : List.Forall₂ Eq (ofText token.text) presented :=
      List.forall₂_iff_zip.mpr ⟨lengths, fun {first second} member => pairs (first, second) member⟩
    exact (List.forall₂_eq_eq_eq ▸ equal).symm
  · intro same
    subst same
    refine ⟨if_neg (not_not_intro rfl), ?_⟩
    intro pair member
    have equal : List.Forall₂ Eq (ofText token.text) (ofText token.text) :=
      List.forall₂_same.mpr fun _ _ => rfl
    exact (List.forall₂_iff_zip.mp equal).2 member

/-- What an accepted value became. -/
theorem text_of_new {value sourceDesc : String} {token : Token}
    (accepted : new value sourceDesc = .ok token) : token.text = trim value := by
  -- Three checks stand in front of the one branch that accepts.
  unfold new at accepted
  simp only at accepted
  split at accepted
  · cases accepted
  · split at accepted
    · cases accepted
    · split at accepted
      · cases accepted
      · cases accepted
        rfl

/-- No line feed is part of a secret. -/
theorem lineFeed_notMem (token : Token) : 0x0A ∉ ofText token.text := by
  -- A line feed is white space.
  intro member
  have feed := token.printable _ (Text.lineFeed_of_mem member)
  cases feed

end Token

/-- A line feed behind the presented secret is taken off. -/
theorem dropSuffix_feed (presented : Bytes) :
    (presented ++ [0x0A]).dropSuffix? [0x0A] = some presented :=
  List.dropSuffix?_eq_some_iff.mpr ⟨[0x0A], rfl, rfl⟩

/-- Without a line feed nothing is taken off. -/
theorem dropSuffix_secret {presented : Bytes} (dense : 0x0A ∉ presented) :
    presented.dropSuffix? [0x0A] = none := by
  -- A suffix that could be taken off would be a line feed within.
  cases stripped : presented.dropSuffix? [0x0A] with
  | none => rfl
  | some before =>
    obtain ⟨feed, split, same⟩ := List.dropSuffix?_eq_some_iff.mp stripped
    obtain rfl := eq_of_beq same
    rw [split] at dense
    exact absurd (by simp) dense

/-- The magic is taken off the payload behind it. -/
theorem dropPrefix_magic (presented : Bytes) :
    (ofText authPktPrefix ++ presented).dropPrefix? (ofText authPktPrefix) = some presented :=
  List.dropPrefix?_eq_some_iff.mpr ⟨_, rfl, beq_self_eq_true _⟩

/-- A payload with the magic is accepted or not, but it is one. -/
theorem checkPayload_sent (sent expected : Token) :
    checkPayload (ofText authPktPrefix ++ (ofText sent.text ++ [0x0A])) expected =
      if sent.text = expected.text then .ok else .mismatch := by
  -- The magic and the line feed come off, and the secrets are compared.
  have same : expected.matches (ofText sent.text) = true ↔ sent.text = expected.text := by
    rw [Token.matches_iff]
    exact ⟨Text.ofText_injective, fun same => same ▸ rfl⟩
  simp only [checkPayload, dropPrefix_magic, dropSuffix_feed, Option.getD_some, same]

/-- Exactly the magic with the secret and at most one line feed is accepted. -/
theorem checkPayload_ok {payload : Bytes} {expected : Token} :
    checkPayload payload expected = .ok ↔
      payload = ofText authPktPrefix ++ ofText expected.text ∨
        payload = ofText authPktPrefix ++ ofText expected.text ++ [0x0A] := by
  -- The secret itself has no line feed that could be taken off.
  constructor
  · intro accepted
    unfold checkPayload at accepted
    split at accepted
    · cases accepted
    · rename_i presented magic
      obtain ⟨opening, split, same⟩ := List.dropPrefix?_eq_some_iff.mp magic
      obtain rfl := eq_of_beq same
      have secret : (presented.dropSuffix? [0x0A]).getD presented = ofText expected.text := by
        simp only at accepted
        split at accepted
        · rename_i matched
          exact (Token.matches_iff _ _).mp matched
        · cases accepted
      rw [split, List.append_assoc]
      cases stripped : presented.dropSuffix? [0x0A] with
      | none =>
        rw [stripped] at secret
        exact .inl (congrArg _ secret)
      | some before =>
        obtain ⟨feed, cut, same⟩ := List.dropSuffix?_eq_some_iff.mp stripped
        obtain rfl := eq_of_beq same
        rw [stripped, Option.getD_some] at secret
        exact .inr (by rw [cut, secret])
  · intro payload
    have dense := dropSuffix_secret expected.lineFeed_notMem
    have same : expected.matches (ofText expected.text) = true :=
      (Token.matches_iff _ _).mpr rfl
    rcases payload with rfl | rfl
    · simp [checkPayload, dropPrefix_magic, dense, same]
    · rw [List.append_assoc]
      simp [checkPayload, dropPrefix_magic, dropSuffix_feed, same]

/-- The lengths that a preamble may have. -/
def Fitting (len : Nat) : Prop :=
  5 ≤ len ∧ len ≤ (ofText authPktPrefix).length + maxTokenLen + 6

/-- What the bytes that arrive make of the reading of a preamble, however they arrive. -/
theorem readAuthPkt_cases (reader : List Arrival) (expected : Token) :
    let stream := delivered reader
    let read := readAuthPkt reader expected
    (stream.length < 4 ∧ read.outcome = .absent ∧ read.taken = stream) ∨
    (4 ≤ stream.length ∧ (∀ len, parseLength (stream.take 4) = some len → ¬ Fitting len) ∧
      read.outcome = .malformed ∧ read.taken = stream.take 4) ∨
    (∃ len, parseLength (stream.take 4) = some len ∧ Fitting len ∧ stream.length < len ∧
      read.outcome = .malformed ∧ read.taken = stream) ∨
    (∃ len, parseLength (stream.take 4) = some len ∧ Fitting len ∧ len ≤ stream.length ∧
      read.outcome = checkPayload ((stream.drop 4).take (len - 4)) expected ∧
      read.taken = stream.take len ∧ delivered read.left = stream.drop len) := by
  -- The header is taken first, and the payload from what is left behind it.
  intro stream read
  have header : (readExact 4 reader).1 = stream.take 4 := readExact_taken 4 reader
  have unfolded : read = readAuthPkt reader expected := rfl
  unfold readAuthPkt at unfolded
  simp only [header] at unfolded
  by_cases short : stream.length < 4
  · have all : stream.take 4 = stream := List.take_of_length_le (by omega)
    rw [all, if_pos short] at unfolded
    left
    rw [unfolded]
    exact ⟨short, rfl, rfl⟩
  · right
    have four : (stream.take 4).length = 4 := by
      rw [List.length_take]
      omega
    have enough : 4 ≤ (delivered reader).length := Nat.le_of_not_lt short
    have behind : delivered (readExact 4 reader).2 = stream.drop 4 := readExact_left enough
    rw [if_neg (by omega)] at unfolded
    cases parsed : parseLength (stream.take 4) with
    | none =>
      rw [parsed] at unfolded
      left
      rw [unfolded]
      exact ⟨enough, nofun, rfl, rfl⟩
    | some len =>
      rw [parsed] at unfolded
      simp only at unfolded
      by_cases fits : 5 ≤ len ∧ len ≤ (ofText authPktPrefix).length + maxTokenLen + 6
      · right
        have payload : (readExact (len - 4) (readExact 4 reader).2).1 =
            (stream.drop 4).take (len - 4) := by
          rw [readExact_taken, behind]
        have joined : stream.take 4 ++ (stream.drop 4).take (len - 4) = stream.take len :=
          Lists.take_append_take_drop (Nat.le_of_succ_le fits.1)
        have size : ((stream.drop 4).take (len - 4)).length =
            min (len - 4) (stream.length - 4) := by
          rw [List.length_take, List.length_drop]
        rw [if_neg (not_not_intro fits), payload, joined] at unfolded
        by_cases cut : stream.length < len
        · rw [if_pos (by omega), List.take_of_length_le cut.le] at unfolded
          left
          rw [unfolded]
          exact ⟨len, rfl, fits, cut, rfl, rfl⟩
        · have enough : len - 4 ≤ (delivered (readExact 4 reader).2).length := by
            rw [behind, List.length_drop]
            omega
          have rest : delivered (readExact (len - 4) (readExact 4 reader).2).2 =
              stream.drop len := by
            rw [readExact_left enough, behind, List.drop_drop]
            congr 1
            omega
          rw [if_neg (by omega)] at unfolded
          right
          rw [unfolded]
          exact ⟨len, rfl, fits, Nat.le_of_not_lt cut, rfl, rfl, rest⟩
      · rw [if_pos fits] at unfolded
        left
        rw [unfolded]
        refine ⟨enough, ?_, rfl, rfl⟩
        intro other same
        cases same
        exact fits

/-- The magic, the secret and the line feed, as they travel. -/
def preamble (token : Token) : Bytes :=
  ofText authPktPrefix ++ (ofText token.text ++ [0x0A])

/-- A preamble is longer than its secret by the magic and the line feed. -/
theorem length_preamble (token : Token) :
    (preamble token).length = (ofText token.text).length + 23 := by
  simp only [preamble, List.length_append, length_authPktPrefix, List.length_singleton]
  omega

/-- The preamble travels behind its length in four digits. -/
theorem authPkt_eq (token : Token) :
    authPkt token = Hex.padded 4 ((preamble token).length + 4) ++ preamble token := by
  -- The text of the payload has the bytes of its three parts.
  have feed : ofText "\n" = [0x0A] := by decide
  have payload : ofText (authPktPrefix ++ token.text ++ "\n") = preamble token := by
    rw [Text.ofText_append, Text.ofText_append, feed, List.append_assoc, preamble]
  rw [authPkt, pktLine, payload]

/-- The length of a preamble, of the longest secret too, takes four digits and is not refused. -/
theorem preamble_fits (token : Token) :
    (preamble token).length + 4 < 16 ^ 4 ∧ Fitting ((preamble token).length + 4) := by
  -- Even the longest secret leaves the length below four digits.
  have short := token.short
  have magic := length_authPktPrefix
  unfold maxTokenLen at short
  rw [length_preamble, Fitting, magic, maxTokenLen]
  omega

/-- A preamble is read to its end and no further, and compared by its secret. -/
theorem readAuthPkt_sent (expected : Token) {sent : Token} {rest : Bytes}
    {reader : List Arrival} (arrives : delivered reader = authPkt sent ++ rest) :
    let read := readAuthPkt reader expected
    read.outcome = (if sent.text = expected.text then .ok else .mismatch) ∧
      read.taken = authPkt sent ∧ delivered read.left = rest := by
  -- The header is four digits for the length of the line, and the line is all there.
  intro read
  obtain ⟨digits, fits⟩ := preamble_fits sent
  have four := Hex.length_padded digits
  have framed := authPkt_eq sent
  generalize header : Hex.padded 4 ((preamble sent).length + 4) = padded at four framed
  have spelled : Hex.value padded = some ((preamble sent).length + 4) := by
    rw [← header, Hex.value_padded]
  have parsed : parseLength padded = some ((preamble sent).length + 4) :=
    (parseLength_iff four).mpr (.inl spelled)
  have size : (authPkt sent).length = (preamble sent).length + 4 := by
    rw [framed, List.length_append, four]
    omega
  have opening : (delivered reader).take 4 = padded := by
    rw [arrives, framed, List.append_assoc, List.take_left' four]
  have long : (delivered reader).length = (preamble sent).length + 4 + rest.length := by
    rw [arrives, List.length_append, size]
  rcases readAuthPkt_cases reader expected with ⟨short, -⟩ | ⟨-, refused, -⟩ |
    ⟨len, same, -, short, -⟩ | ⟨len, same, -, -, outcome, taken, left⟩
  · omega
  · exact absurd fits (refused _ (opening ▸ parsed))
  · rw [opening, parsed, Option.some.injEq] at same
    omega
  · rw [opening, parsed, Option.some.injEq] at same
    subst same
    have payload : ((delivered reader).drop 4).take ((preamble sent).length + 4 - 4) =
        preamble sent := by
      rw [arrives, framed, List.append_assoc, List.drop_left' four, Nat.add_sub_cancel,
        List.take_left]
    rw [payload, preamble, checkPayload_sent] at outcome
    rw [arrives, List.take_left' size] at taken
    rw [arrives, List.drop_left' size] at left
    exact ⟨outcome, taken, left⟩

/-- Whatever is made of a preamble, what was taken is the beginning of the stream. -/
theorem readAuthPkt_prefix (reader : List Arrival) (expected : Token) :
    (readAuthPkt reader expected).taken <+: delivered reader := by
  -- Each of the four ways takes nothing but a beginning.
  rcases readAuthPkt_cases reader expected with ⟨-, -, taken⟩ | ⟨-, -, -, taken⟩ |
    ⟨len, -, -, -, -, taken⟩ | ⟨len, -, -, -, -, taken, -⟩
  · exact taken ▸ List.prefix_rfl
  · exact taken ▸ List.take_prefix _ _
  · exact taken ▸ List.prefix_rfl
  · exact taken ▸ List.take_prefix _ _

/-- Behind an accepted preamble the rest of the stream is left. -/
theorem readAuthPkt_left {reader : List Arrival} {expected : Token}
    (accepted : (readAuthPkt reader expected).outcome = .ok) :
    (readAuthPkt reader expected).taken ++ delivered (readAuthPkt reader expected).left =
      delivered reader := by
  -- Only the last of the four ways accepts.
  rcases readAuthPkt_cases reader expected with ⟨-, outcome, -⟩ | ⟨-, -, outcome, -⟩ |
    ⟨len, -, -, -, outcome, -⟩ | ⟨len, -, -, -, -, taken, left⟩
  · cases accepted.symm.trans outcome
  · cases accepted.symm.trans outcome
  · cases accepted.symm.trans outcome
  · rw [taken, left, List.take_append_drop]

/--
A preamble reads back as accepted exactly when both values were the same but for the white space
around them, and as a mismatch otherwise; what follows it is left to be read.
-/
theorem readAuthPkt_authPkt {value value' sourceDesc sourceDesc' : String}
    {expected sent : Token} (known : Token.new value sourceDesc = .ok expected)
    (presented : Token.new value' sourceDesc' = .ok sent) (rest : Bytes) (reader : List Arrival)
    (arrives : delivered reader = authPkt sent ++ rest) :
    let read := readAuthPkt reader expected
    (read.outcome = .ok ↔ trim value = trim value') ∧
    (trim value ≠ trim value' → read.outcome = .mismatch) ∧
    read.taken = authPkt sent ∧
    delivered read.left = rest := by
  -- The secrets are the values without the white space around them.
  intro read
  obtain ⟨outcome, taken, left⟩ := readAuthPkt_sent expected arrives
  rw [Token.text_of_new known, Token.text_of_new presented] at outcome
  refine ⟨?_, ?_, taken, left⟩
  · constructor
    · intro accepted
      by_contra differ
      have refused := outcome.trans (if_neg (Ne.symm differ))
      cases accepted.symm.trans refused
    · intro same
      exact outcome.trans (if_pos same.symm)
  · intro differ
    exact outcome.trans (if_neg differ.symm)

/-- A secret with a line feed behind it is accepted where it was sent without, in two pieces. -/
theorem readAuthPkt_authPkt_trimmed :
    let token : Token := ⟨"clé", by decide, by decide, by decide⟩
    let reader : List Arrival :=
      [.data 0x30 [0x30, 0x31], .interrupted, .data 0x66 ((authPkt token).drop 4 ++ [0x30])]
    (readAuthPkt reader token).outcome = .ok ∧
      delivered (readAuthPkt reader token).left = [0x30] := by
  intro token reader
  have known : Token.new "clé\n" "the test" = .ok token := rfl
  have presented : Token.new "clé" "the test" = .ok token := rfl
  have arrives : delivered reader = authPkt token ++ [0x30] := by decide
  obtain ⟨accepted, -, -, left⟩ := readAuthPkt_authPkt known presented [0x30] reader arrives
  exact ⟨accepted.mpr (by decide), left⟩

end GitFullSend

import Mathlib.Data.List.Basic
import Mathlib.Data.List.Forall2
import GitFullSend.Common.PktLine
import GitFullSend.Lib.Text

/-! The shared secret that authenticates a push, and the preamble that carries it. -/

namespace GitFullSend

open Utf8 (Bytes ofText)
open Text (trim whitespace control)
open Arrivals (Arrival delivered readExact readExact_taken readExact_left)

/-- The magic that opens the authentication pkt-line. -/
def authPktPrefix : String := "git-full-send-auth-v1 "

/-- Longest secret that is carried. -/
def maxTokenLen : Nat := 4096

/-- The reason a value is no shared secret, with where the value came from. -/
inductive AuthError where
  | empty (sourceDesc : String)
  | notPrintable (sourceDesc : String)
  | tooLong (sourceDesc : String) (len : Nat)

/-- A text that travels as one line, with no white space in it. -/
def Printable (text : String) : Prop :=
  ∀ character ∈ text.toList, (whitespace character || control character) = false

instance (text : String) : Decidable (Printable text) := List.decidableBAll _ _

/-- A validated shared secret. -/
structure Token where
  text : String
  nonempty : text ≠ ""
  short : (ofText text).length ≤ maxTokenLen
  printable : Printable text

namespace Token

/-- Validate a value as a shared secret, without the white space around it. -/
def new (value sourceDesc : String) : Except AuthError Token :=
  let value := trim value
  if empty : value = "" then .error (.empty sourceDesc)
  else if long : (ofText value).length > maxTokenLen then
    .error (.tooLong sourceDesc (ofText value).length)
  else if odd : value.toList.any (fun character => whitespace character || control character) then
    .error (.notPrintable sourceDesc)
  else .ok ⟨value, empty, Nat.le_of_not_lt long, by simpa [Printable] using odd⟩

/-- Whether the presented bytes are this secret, in time independent of where they differ. -/
def «matches» (token : Token) (presented : Bytes) : Bool :=
  let expected := ofText token.text
  let diff : UInt8 := if expected.length ≠ presented.length then 1 else 0
  (expected.zip presented).foldl (fun diff pair => diff ||| (pair.1 ^^^ pair.2)) diff == 0

end Token

/-- Frame a payload as a pkt-line, with its length in front. -/
def pktLine (payload : String) : Bytes :=
  Hex.padded 4 ((ofText payload).length + 4) ++ ofText payload

/-- The authentication preamble for a token, framed as one pkt-line. -/
def authPkt (token : Token) : Bytes :=
  pktLine (authPktPrefix ++ token.text ++ "\n")

/-- A pkt-line that tells the peer an error. -/
def errPkt (message : String) : Bytes :=
  pktLine ("ERR " ++ message ++ "\n")

/-- What the server made of a client's preamble. -/
inductive AuthOutcome where
  /-- The presented secret matched. -/
  | ok
  /-- A well-formed preamble carrying the wrong secret. -/
  | mismatch
  /-- Something arrived, but it was not an authentication preamble. -/
  | malformed
  /-- Nothing arrived before the deadline. -/
  | absent
  deriving DecidableEq

namespace AuthOutcome

/-- The message sent back to a refused client, or `none` when there is nothing to refuse. -/
def refusal : AuthOutcome → Option String
  | ok => none
  | _ => some "git-full-send: authentication required (see `listen --token-file`)"

/-- The stable string for the metrics record. -/
def asStr : AuthOutcome → String
  | ok => "ok"
  | mismatch => "mismatch"
  | malformed => "malformed"
  | absent => "absent"

end AuthOutcome

/-- What a payload says, which is the magic, the secret and at most one line feed. -/
def checkPayload (payload : Bytes) (expected : Token) : AuthOutcome :=
  match payload.dropPrefix? (ofText authPktPrefix) with
  | none => .malformed
  | some presented =>
    let presented := (presented.dropSuffix? [0x0A]).getD presented
    if expected.matches presented then .ok else .mismatch

/-- What reading a preamble comes to. -/
structure AuthRead where
  outcome : AuthOutcome
  /-- The bytes taken off the reader. -/
  taken : Bytes
  /-- What is left to arrive behind them. -/
  left : List Arrival

/-- Read one authentication preamble and check it against a token. -/
def readAuthPkt (reader : List Arrival) (expected : Token) : AuthRead :=
  let (header, left) := readExact 4 reader
  if header.length < 4 then ⟨.absent, header, left⟩
  else
    match parseLength header with
    | none => ⟨.malformed, header, left⟩
    | some len =>
      -- A flush-pkt or a line too long is no preamble.
      if ¬ (5 ≤ len ∧ len ≤ (ofText authPktPrefix).length + maxTokenLen + 6) then
        ⟨.malformed, header, left⟩
      else
        let (payload, left) := readExact (len - 4) left
        if payload.length < len - 4 then ⟨.malformed, header ++ payload, left⟩
        else ⟨checkPayload payload expected, header ++ payload, left⟩

end GitFullSend

import GitFullSend.Common.Auth
import GitFullSend.Common.Process

/-! One push connection: the gate, receive-pack behind it, and the record of both. -/

namespace GitFullSend

open Utf8 (Bytes)
open Arrivals (Arrival)

/-- Who a listener accepts a push from. -/
inductive Auth where
  /-- Every push must present this shared secret. -/
  | token (expected : Token)
  /-- Anything that can reach the port may push. -/
  | anonymous

/-- What a connection turned out to be. -/
inductive Outcome where
  /-- Refs were pushed and accepted. -/
  | updated
  /-- A complete, well-formed exchange that updated nothing. -/
  | noOp
  /-- No ref updates arrived and the exchange ended badly. -/
  | probe
  /-- The namespace hook declined a ref. -/
  | rejected
  /-- A genuine failure. -/
  | failed
  /-- The peer could not authenticate, so no `receive-pack` was ever spawned. -/
  | unauthenticated
  deriving DecidableEq

/-- The stable string used in the record and the log. -/
def Outcome.asStr : Outcome → String
  | updated => "updated"
  | noOp => "no_op"
  | probe => "probe"
  | rejected => "rejected"
  | failed => "failed"
  | unauthenticated => "unauthenticated"

/-- The text the hook prints when it declines a ref. -/
def hookRefusalMarker : String := "git-full-send: refusing ref outside"

/-- Classify a finished connection. -/
def Outcome.classify (status : ExitStatus) (inbound : WireCounts) (refsUpdated : List String)
    (stderr : String) : Outcome :=
  if Text.contains stderr hookRefusalMarker then .rejected
  else if status.success then
    match refsUpdated, inbound.preFlushPkts with
    | _ :: _, _ => .updated
    -- Ref updates were asked for and none were accepted.
    | [], _ + 1 => .rejected
    -- Nothing was asked for.
    | [], 0 => .noOp
  -- Nothing was being pushed, so nothing was broken by failing to push it.
  else if inbound.preFlushPkts = 0 then .probe
  else .failed

/-- The ref names of the hook's file, one for each line, without repetitions. -/
def readAcceptedRefs (file : Bytes) : List String :=
  match Text.ofBytes file with
  | none => []
  | some contents =>
    (Text.lines contents).foldl (fun refs line =>
      let line := Text.trim line
      if line = "" ∨ line ∈ refs then refs else refs ++ [line]) []

/-- The inbound half of a connection: what the client sent. -/
structure Inbound where
  total : Nat
  commands : Nat
  commandPkts : Nat
  pack : Nat
  deriving DecidableEq

/-- The outbound half of a connection: what the server sent. -/
structure Outbound where
  total : Nat
  advertisement : Nat
  refsAdvertised : Nat
  report : Nat
  deriving DecidableEq

/-- The record of one connection. -/
structure ReceiveRecord where
  outcome : String
  authFailure : Option String
  success : Bool
  exitCode : Option Int
  signal : Option Nat
  inbound : Inbound
  outbound : Outbound
  refsUpdated : List String
  deriving DecidableEq

namespace ReceiveRecord

/-- The record from how the child ended and what crossed the wire. -/
def new (outcome : String) (status : ExitStatus) (inbound outbound : WireCounts)
    (refsUpdated : List String) : ReceiveRecord where
  outcome := outcome
  authFailure := none
  success := status.success
  exitCode := status.code?
  signal := status.signal?
  inbound := ⟨inbound.total, inbound.preFlush, inbound.preFlushPkts, inbound.postFlush⟩
  outbound := ⟨outbound.total, outbound.preFlush, outbound.preFlushPkts, outbound.postFlush⟩
  refsUpdated := refsUpdated

/-- The record for a connection refused before `receive-pack` was spawned. -/
def unauthenticated (outcome authFailure : String) : ReceiveRecord where
  outcome := outcome
  authFailure := some authFailure
  success := false
  exitCode := none
  signal := none
  inbound := ⟨0, 0, 0, 0⟩
  outbound := ⟨0, 0, 0, 0⟩
  refsUpdated := []

end ReceiveRecord

/-- A run of `receive-pack`, as the connection sees it. -/
structure Child where
  /-- How much of each write to its standard input it takes, where it does not take all. -/
  stdin : Nat → Option Nat
  /-- What its standard output gives, call by call. -/
  stdout : List Arrival
  stderr : Bytes
  status : ExitStatus
  /-- The hook's file after the run, unless there is none or it cannot be read. -/
  acceptedRefs : Option Bytes

/-- What handling a connection comes to. -/
structure Handled where
  /-- Whether the handler went on to spawn `receive-pack`. -/
  spawned : Bool
  /-- The bytes read for the preamble. -/
  consumed : Bytes
  /-- The bytes read behind them. -/
  received : Bytes
  /-- The bytes written to the standard input of the child. -/
  forwarded : Bytes
  /-- The bytes read from the standard output of the child. -/
  produced : Bytes
  /-- The bytes written to the peer. -/
  answered : Bytes
  /-- The record, unless the child could not be started. -/
  record : Option ReceiveRecord

/-- Read and verify the client's preamble, and answer a refusal with an error. -/
def authenticate (sock : Socket) (expected : Token) : AuthRead × Option Handled :=
  let read := readAuthPkt sock.incoming expected
  (read, read.outcome.refusal.map fun refusal =>
    let error := errPkt refusal
    { spawned := false
      consumed := read.taken
      received := []
      forwarded := []
      produced := []
      -- Writing the answer is best-effort.
      answered := error.take ((sock.outgoing 0).getD error.length)
      record := some
        (.unauthenticated Outcome.unauthenticated.asStr read.outcome.asStr) })

/-- Run `receive-pack` on what is left to arrive, with both directions counted. -/
def receive (consumed : Bytes) (sock : Socket) (child : Option Child) : Handled :=
  match child with
  -- The attempt to start the child failed.
  | none => ⟨true, consumed, [], [], [], [], none⟩
  | some child =>
    let inbound := pumpSplitting child.stdin sock.incoming
    let outbound := pumpSplitting sock.outgoing child.stdout
    -- What is no text is read as nothing.
    let stderr := Text.trim ((Text.ofBytes child.stderr).getD "")
    let refsUpdated := (child.acceptedRefs.map readAcceptedRefs).getD []
    let outcome := Outcome.classify child.status inbound.split.counts refsUpdated stderr
    { spawned := true
      consumed := consumed
      received := inbound.read
      forwarded := inbound.written
      produced := outbound.read
      answered := outbound.written
      record := some (.new outcome.asStr child.status inbound.split.counts
        outbound.split.counts refsUpdated) }

/-- Handle one connection, which must authenticate first where a secret is configured. -/
def handleConnection (auth : Auth) (sock : Socket) (child : Option Child) : Handled :=
  match auth with
  | .anonymous => receive [] sock child
  | .token expected =>
    match authenticate sock expected with
    | (_, some refused) => refused
    | (read, none) => receive read.taken { sock with incoming := read.left } child

end GitFullSend

import GitFullSend.Common.Auth
import GitFullSend.Common.Process

/-! One push of the client: the preamble, and git's exchange with both directions counted. -/

namespace GitFullSend

open Utf8 (Bytes)
open Arrivals (Arrival)

/-- What one push exchange actually cost on the wire. -/
structure PushWire where
  /-- Client to server: ref-update commands, then the pack. -/
  sent : WireCounts
  /-- Server to client: the ref advertisement, then the report-status. -/
  received : WireCounts
  deriving DecidableEq

/-- The reason a push could not be made. -/
inductive PushError where
  /-- The preamble could not be written. -/
  | io
  /-- `git push` did not succeed, with what it printed about that. -/
  | pushFailed (status : ExitStatus) (stderr : String)
  deriving DecidableEq

/-- A run of `git push`, as the client sees it. -/
structure GitPush where
  /-- What it sends, call by call. -/
  output : List Arrival
  /-- How much of each write to it is taken, where not all is. -/
  input : Nat → Option Nat
  stderr : Bytes
  status : ExitStatus

/-- What a push comes to. -/
structure Pushed where
  result : Except PushError PushWire
  /-- The bytes written for the preamble. -/
  preamble : Bytes
  /-- The bytes read from git. -/
  produced : Bytes
  /-- The bytes of git that were written to the server. -/
  sent : Bytes
  /-- The bytes read from the server. -/
  received : Bytes
  /-- The bytes of the server that were written to git. -/
  forwarded : Bytes

/-- Run `git push` with both directions counted. -/
def exchange (preamble : Bytes) (sock : Socket) (git : GitPush) : Pushed :=
  let outbound := pumpSplitting sock.outgoing git.output
  let inbound := pumpSplitting git.input sock.incoming
  { result :=
      if git.status.success then .ok ⟨outbound.split.counts, inbound.split.counts⟩
      else
        let stderr := (Text.ofBytes (Utf8.lossy git.stderr)).getD ""
        .error (.pushFailed git.status (Text.trim stderr))
    preamble := preamble
    produced := outbound.read
    sent := outbound.written
    received := inbound.read
    forwarded := inbound.written }

/-- Push refs over a connection, behind the preamble where there is a token. -/
def pushRefs (sock : Socket) (git : GitPush) (auth : Option Token) : Pushed :=
  match auth with
  | none => exchange [] sock git
  | some token =>
    let preamble := authPkt token
    -- The preamble is written to the socket itself, before git says anything.
    let written := preamble.take ((sock.outgoing 0).getD preamble.length)
    if written.length < preamble.length then ⟨.error .io, written, [], [], [], []⟩
    else exchange preamble { sock with outgoing := fun call => sock.outgoing (call + 1) } git

end GitFullSend

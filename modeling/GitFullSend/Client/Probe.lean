import GitFullSend.Common.Auth
import GitFullSend.Common.Process
import GitFullSend.Common.PumpSplitting
import GitFullSend.Common.StreamId
import GitFullSend.Lib.LossyText
import GitFullSend.Lib.PktLines

/-! Probing a server: the ref advertisement it sends, and what is reported of it. -/

namespace GitFullSend

open Utf8 (Bytes ofText)
open Text (splitWhitespace trim)
open Arrivals (Arrival ReadError delivered readWhole readWhole_ok)

/-- The ref advertisement as read off the wire. -/
structure Advertisement where
  /-- Its exact size, flush-pkt included. -/
  bytes : Nat
  /-- The ref names in it, excluding git's `capabilities^{}` placeholder. -/
  refs : List String
  /-- The server's `ERR` message, when it sent one of those instead. -/
  error : Option String
  deriving DecidableEq

/-- The message of an `ERR <message>` pkt-line, or `none` for any other line. -/
def errMessage (payload : Bytes) : Option String :=
  let text := Text.lossy payload
  (text.toList.dropPrefix? "ERR ".toList).map fun message => trim (.ofList message)

/-- The ref name in an advertisement line, or `none` for git's placeholder. -/
def refName (payload : Bytes) : Option String :=
  let line := Text.lossy payload
  -- The capabilities stand behind a NUL.
  let line := String.ofList (line.toList.takeWhile (· ≠ '\x00'))
  (splitWhitespace line)[1]?.filter (· ≠ "capabilities^{}")

/--
Read pkt-lines until the flush-pkt that ends the ref advertisement, giving what is left to arrive.

The bytes and the ref names are those read so far.
-/
def readAdvertisement (bytes : Nat) (refs : List String) (sock : List Arrival) :
    Except ReadError Advertisement × List Arrival :=
  match _opened : readWhole 4 sock with
  -- The server hung up mid-advertisement.
  | (.error .unexpectedEof, left) => (.ok ⟨bytes, refs, none⟩, left)
  | (.error .failed, left) => (.error .failed, left)
  | (.ok header, left) =>
    match parseLength header with
    -- Not pkt-line framed: whatever is listening, it isn't receive-pack.
    | none => (.ok ⟨bytes + 4, [], none⟩, left)
    | some 0 | some 1 | some 2 | some 3 => (.ok ⟨bytes + 4, refs, none⟩, left)
    | some (len + 4) =>
      match _followed : readWhole len left with
      | (.error error, left) => (.error error, left)
      | (.ok payload, left) =>
        let bytes := bytes + 4 + payload.length
        match errMessage payload with
        | some message => (.ok ⟨bytes, refs, some message⟩, left)
        | none => readAdvertisement bytes (refs ++ (refName payload).toList) left
termination_by (delivered sock).length
decreasing_by
  obtain ⟨four, before⟩ := readWhole_ok _opened
  obtain ⟨-, behind⟩ := readWhole_ok _followed
  rw [before, behind, List.length_append, List.length_append]
  omega

/-- The reason a probe got no report. -/
inductive ProbeError where
  /-- Nothing accepted the connection. -/
  | connect (remote : String)
  /-- The exchange with the server failed. -/
  | exchange (remote : String)
  /-- The server answered, and not with a ref advertisement. -/
  | notReceivePack (remote : String)
  /-- The server refused the connection. -/
  | refused (remote message : String)
  deriving DecidableEq

/-- What every connection to a server costs before any data moves. -/
structure ProbeReport where
  /-- The endpoint probed. -/
  remote : String
  /-- Bytes of ref advertisement. -/
  advertisementBytes : Nat
  /-- Refs advertised, without the placeholder of a repository that has none. -/
  refsAdvertised : Nat
  /-- Refs advertised that are the tool's own. -/
  refsOurs : Nat
  deriving DecidableEq

/-- Write to a socket, whose next call is then the one after it. -/
def Socket.send (sock : Socket) (bytes : Bytes) : Option Socket :=
  if (writeAll (sock.outgoing 0) bytes).2 then
    some { sock with outgoing := fun call => sock.outgoing (call + 1) }
  else none

/-- Present the preamble before the server says anything, exactly as a push does. -/
def present (remote : String) (auth : Option Token) (sock : Socket) : Except ProbeError Socket :=
  match auth with
  | none => .ok sock
  | some token => (sock.send (authPkt token)).elim (.error (.exchange remote)) .ok

/--
Check that a server accepts connections, and measure what its ref advertisement costs.

The socket is what connecting gives.
-/
def probe (remote : String) (connected : Option Socket) (auth : Option Token) :
    Except ProbeError ProbeReport := do
  let sock ← connected.elim (.error (.connect remote)) .ok
  let sock ← present remote auth sock
  let advertisement ← (readAdvertisement 0 [] sock.incoming).1.mapError fun _ => .exchange remote
  match advertisement.error with
  | some message => .error (.refused remote message)
  | none =>
    if advertisement.refs.isEmpty && advertisement.bytes == 0 then .error (.notReceivePack remote)
    else do
      -- The conversation is completed with an empty set of commands.
      let _ ← (sock.send PktLines.flush).elim (.error (.exchange remote)) .ok
      let refsOurs := advertisement.refs.countP fun name => decide (refNamespace <+: ofText name)
      .ok ⟨remote, advertisement.bytes, advertisement.refs.length, refsOurs⟩

/-- Writing to a socket takes nothing of what arrives on it. -/
theorem Socket.send_incoming {sock after : Socket} {bytes : Bytes}
    (sent : sock.send bytes = some after) : after.incoming = sock.incoming := by
  -- Only the direction of the writes moves on.
  unfold Socket.send at sent
  split at sent
  · cases sent
    rfl
  · cases sent

/-- Presenting the preamble takes nothing of what arrives. -/
theorem present_incoming {remote : String} {auth : Option Token} {sock after : Socket}
    (presented : present remote auth sock = .ok after) : after.incoming = sock.incoming := by
  -- Without a token nothing is sent, and with one there is one write.
  unfold present at presented
  cases auth with
  | none =>
    cases presented
    rfl
  | some token =>
    cases sent : sock.send (authPkt token) with
    | none => simp [sent] at presented
    | some written =>
      simp only [sent, Option.elim_some, Except.ok.injEq] at presented
      exact presented ▸ Socket.send_incoming sent

/-- A socket whose peer takes everything is written to, and stays such a socket. -/
theorem Socket.send_open {sock : Socket} (writable : ∀ call, sock.outgoing call = none)
    (bytes : Bytes) :
    ∃ after, sock.send bytes = some after ∧ ∀ call, after.outgoing call = none :=
  ⟨_, if_pos (by simp [writeAll, writable]), fun call => writable (call + 1)⟩

end GitFullSend

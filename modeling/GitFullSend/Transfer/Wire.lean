import GitFullSend.Client.Push
import GitFullSend.Common.FlushSplit
import GitFullSend.Server.AuthGate

/-! What the two ends of one push count of it. -/

namespace GitFullSend

open Utf8 (Bytes)
open Arrivals (Arrival delivered)
open FlushSplit (pump_read pump_whole new_sound)

/-- What a server that is given the same token, or none, accepts a push from. -/
def authOf : Option Token → Auth
  | none => .anonymous
  | some token => .token token

/-- Every byte that one side writes is read by the other. -/
structure Delivered (pushed : Pushed) (handled : Handled) : Prop where
  toServer : handled.consumed ++ handled.received = pushed.preamble ++ pushed.sent
  toClient : pushed.received = handled.answered

/-- No write of a pump fails: each hands on every byte that it reads. -/
structure HandedOn (pushed : Pushed) (handled : Handled) : Prop where
  fromGit : pushed.sent = pushed.produced
  toChild : handled.forwarded = handled.received
  fromChild : handled.answered = handled.produced
  toGit : pushed.forwarded = pushed.received

/-- The counts of one direction, as the record of the server has them. -/
def Inbound.Counts (inbound : Inbound) (counts : WireCounts) : Prop :=
  inbound.total = counts.total ∧ inbound.commands = counts.preFlush ∧
    inbound.commandPkts = counts.preFlushPkts ∧ inbound.pack = counts.postFlush

/-- The counts of the other direction, as the record of the server has them. -/
def Outbound.Counts (outbound : Outbound) (counts : WireCounts) : Prop :=
  outbound.total = counts.total ∧ outbound.advertisement = counts.preFlush ∧
    outbound.refsAdvertised = counts.preFlushPkts ∧ outbound.report = counts.postFlush

/-- The counts of a pump that hands on all that it reads are those of its bytes. -/
theorem pumpSplitting_whole {room : Nat → Option Nat} {arrivals : List Arrival}
    (whole : (pumpSplitting room arrivals).written = (pumpSplitting room arrivals).read) :
    (pumpSplitting room arrivals).split =
      FlushSplit.new.feed (pumpSplitting room arrivals).read :=
  pump_whole new_sound whole

/-- The child is given the stream from its beginning. -/
theorem receive_taken (consumed : Bytes) (sock : Socket) (child : Option Child) :
    (receive consumed sock child).received <+: delivered sock.incoming := by
  cases child with
  | none => exact List.nil_prefix
  | some child => exact pump_read _ _ _ _

/-- What is read of a connection is the stream from its beginning. -/
theorem handleConnection_prefix (token : Token) (sock : Socket) (child : Option Child) :
    let handled := handleConnection (.token token) sock child
    handled.consumed ++ handled.received <+: delivered sock.incoming := by
  -- An accepted preamble is followed by what is received; a refusal reads no more.
  intro handled
  by_cases accepted : (readAuthPkt sock.incoming token).outcome = .ok
  · have same : handled = _ := handleConnection_accepted child accepted
    rw [same, (receive_spawned _ _ child).2, ← readAuthPkt_left accepted]
    exact (List.prefix_append_right_inj _).mpr (receive_taken _ _ child)
  · obtain ⟨-, -, nothing, consumed, -⟩ := handleConnection_refused child accepted
    rw [nothing, consumed, List.append_nil]
    exact readAuthPkt_prefix _ _

/-- The preamble that the client writes is the one that the server reads. -/
theorem handleConnection_preamble {token : Token} {sock : Socket} {child : Option Child}
    {sent : Bytes}
    (whole : (handleConnection (.token token) sock child).consumed ++
      (handleConnection (.token token) sock child).received = authPkt token ++ sent) :
    ∃ rest, handleConnection (.token token) sock child =
      receive (authPkt token) { sock with incoming := rest } child := by
  -- The stream opens with the preamble, so it is accepted.
  have opening := handleConnection_prefix token sock child
  simp only at opening
  rw [whole] at opening
  obtain ⟨tail, arrives⟩ := opening
  rw [List.append_assoc] at arrives
  obtain ⟨outcome, taken, -⟩ := readAuthPkt_sent token arrives.symm
  have accepted := outcome.trans (if_pos rfl)
  have same := handleConnection_accepted child accepted
  rw [taken] at same
  exact ⟨_, same⟩

/-- Both ends count what one writes and the other reads, behind the preamble. -/
theorem exchange_agrees {preamble : Bytes} {clientSock serverSock : Socket} {git : GitPush}
    {child : Child}
    (passed : Delivered (exchange preamble clientSock git)
      (receive preamble serverSock (some child)))
    (handed : HandedOn (exchange preamble clientSock git)
      (receive preamble serverSock (some child)))
    {wire : PushWire} (ok : (exchange preamble clientSock git).result = .ok wire) :
    ∃ record, (receive preamble serverSock (some child)).record = some record ∧
      record.inbound.Counts wire.sent ∧ record.outbound.Counts wire.received ∧
      wire.sent.total = (exchange preamble clientSock git).sent.length := by
  -- Each pump has counted the bytes that it hands on, and they are the same on both ends.
  have sent : (pumpSplitting child.stdin serverSock.incoming).read =
      (pumpSplitting clientSock.outgoing git.output).written :=
    List.append_cancel_left passed.toServer
  have received : (pumpSplitting git.input clientSock.incoming).read =
      (pumpSplitting serverSock.outgoing child.stdout).written := passed.toClient
  have client := pumpSplitting_whole handed.fromGit
  have server := pumpSplitting_whole handed.toChild
  have answer := pumpSplitting_whole handed.fromChild
  have reply := pumpSplitting_whole handed.toGit
  have toChild : (pumpSplitting child.stdin serverSock.incoming).split =
      (pumpSplitting clientSock.outgoing git.output).split := by
    rw [server, client, sent]
    exact congrArg _ handed.fromGit
  have toGit : (pumpSplitting serverSock.outgoing child.stdout).split =
      (pumpSplitting git.input clientSock.incoming).split := by
    rw [answer, reply, received]
    exact congrArg _ handed.fromChild.symm
  have counted : wire = ⟨(pumpSplitting clientSock.outgoing git.output).split.counts,
      (pumpSplitting git.input clientSock.incoming).split.counts⟩ := by
    simp only [exchange] at ok
    split at ok
    · exact (Except.ok.inj ok).symm
    · cases ok
  obtain ⟨total, -⟩ := FlushSplit.feed_counts new_sound
    (pumpSplitting clientSock.outgoing git.output).read
  subst counted
  refine ⟨_, rfl, ?_, ?_, ?_⟩
  · exact toChild ▸ ⟨rfl, rfl, rfl, rfl⟩
  · exact toGit ▸ ⟨rfl, rfl, rfl, rfl⟩
  · have written : (exchange preamble clientSock git).sent =
        (pumpSplitting clientSock.outgoing git.output).read := handed.fromGit
    rw [client, total, written]
    exact Nat.zero_add _

/--
Both ends of a push count the same exchange, and neither counts the preamble, when every byte that
one side writes is read by the other and no write of a pump fails.
-/
theorem wire_agrees (auth : Option Token) {clientSock serverSock : Socket} {git : GitPush}
    {child : Child}
    (passed : Delivered (pushRefs clientSock git auth)
      (handleConnection (authOf auth) serverSock (some child)))
    (handed : HandedOn (pushRefs clientSock git auth)
      (handleConnection (authOf auth) serverSock (some child)))
    {wire : PushWire} (ok : (pushRefs clientSock git auth).result = .ok wire) :
    ∃ record, (handleConnection (authOf auth) serverSock (some child)).record = some record ∧
      record.inbound.Counts wire.sent ∧ record.outbound.Counts wire.received ∧
      wire.sent.total = (pushRefs clientSock git auth).sent.length := by
  cases auth with
  | none => exact exchange_agrees passed handed ok
  | some token =>
    -- The preamble was written, or there would be no counts of the client.
    obtain ⟨sock, pushed⟩ : ∃ sock, pushRefs clientSock git (some token) =
        exchange (authPkt token) sock git := by
      unfold pushRefs at ok ⊢
      simp only at ok ⊢
      split at ok
      · cases ok
      · rename_i whole
        rw [if_neg whole]
        exact ⟨_, rfl⟩
    rw [pushed] at passed handed ok ⊢
    obtain ⟨rest, handled⟩ := handleConnection_preamble passed.toServer
    rw [authOf, handled] at passed handed ⊢
    exact exchange_agrees passed handed ok

/-- A flush-pkt behind a preamble is counted alike, though it arrives in other pieces. -/
theorem wire_agrees_flush :
    let token : Token := ⟨"s3cret", by decide, by decide, by decide⟩
    let git : GitPush := ⟨[.data 0x30 [0x30], .data 0x30 [0x30]], fun _ => none, [], .code 0⟩
    let child : Child := ⟨fun _ => none, [.data 0x41 [0x42]], [], .code 0, none⟩
    let clientSock : Socket := ⟨[.data 0x41 [], .data 0x42 []], fun _ => none⟩
    let serverSock : Socket :=
      ⟨[.data 0x30 ((authPkt token).drop 1 ++ [0x30]), .data 0x30 [0x30, 0x30]], fun _ => none⟩
    let handled := handleConnection (.token token) serverSock (some child)
    (pushRefs clientSock git (some token)).result = .ok ⟨⟨4, 4, 0, 0⟩, ⟨2, 2, 0, 0⟩⟩ ∧
    ∃ record, handled.record = some record ∧ record.inbound.Counts ⟨4, 4, 0, 0⟩ ∧
      record.outbound.Counts ⟨2, 2, 0, 0⟩ := by
  intro token git child clientSock serverSock handled
  have passed : Delivered (pushRefs clientSock git (some token)) handled :=
    ⟨by decide, by decide⟩
  have handed : HandedOn (pushRefs clientSock git (some token)) handled :=
    ⟨by decide, by decide, by decide, by decide⟩
  have ok : (pushRefs clientSock git (some token)).result =
      .ok ⟨⟨4, 4, 0, 0⟩, ⟨2, 2, 0, 0⟩⟩ := by decide
  obtain ⟨record, recorded, inbound, outbound, -⟩ := wire_agrees (some token) passed handed ok
  exact ⟨ok, record, recorded, inbound, outbound⟩

/-- A piece that the child no longer takes is read by the server, but not counted. -/
theorem wire_broken_pipe :
    let git : GitPush :=
      ⟨[.data 0x30 [0x30, 0x30, 0x30], .data 0x50 []], fun _ => none, [], .code 0⟩
    let child : Child := ⟨fun call => if call = 1 then some 0 else none, [], [], .code 0, none⟩
    let clientSock : Socket := ⟨[], fun _ => none⟩
    let serverSock : Socket := ⟨[.data 0x30 [0x30, 0x30, 0x30], .data 0x50 []], fun _ => none⟩
    let pushed := pushRefs clientSock git none
    let handled := handleConnection .anonymous serverSock (some child)
    Delivered pushed handled ∧ ∃ wire, pushed.result = .ok wire ∧
      ∃ record, handled.record = some record ∧ ¬ record.inbound.Counts wire.sent := by
  -- The last byte is written by the client and not handed on by the server.
  intro git child clientSock serverSock pushed handled
  refine ⟨⟨by decide, by decide⟩, ⟨⟨5, 4, 0, 1⟩, ⟨0, 0, 0, 0⟩⟩, by decide, _, rfl, ?_⟩
  intro same
  exact absurd same.1 (by decide)

end GitFullSend

import GitFullSend.Transfer.Wire

/-! Where the two ends of a push find the shared secret, and which pushes that lets in. -/

namespace GitFullSend

open Utf8 (Bytes ofText)
open Text (trim)
open Arrivals (Arrival delivered)

/-- Where a command may find its shared secret. -/
structure Sources where
  /-- The path of `--token-file` as it is printed, with the text in the file if it can be read. -/
  tokenFile : Option (String × Option String)
  /-- The environment variable, if it is set to text. -/
  tokenEnv : Option String

/-- The reason no secret could be established. -/
inductive SecretError where
  /-- The token file could not be read. -/
  | readTokenFile (path : String)
  | invalid (error : AuthError)
  /-- Nobody has decided who may push. -/
  | undecided

/-- Read a shared secret from a file. -/
def Token.fromFile (path : String) (contents : Option String) : Except SecretError Token :=
  match contents with
  | none => .error (.readTokenFile path)
  | some contents =>
    (Token.new contents ("the token file `" ++ path ++ "`")).mapError .invalid

/-- Resolve the shared secret for a command: the token file if given, else the environment. -/
def Token.resolve (sources : Sources) : Except SecretError (Option Token) :=
  match sources.tokenFile, sources.tokenEnv with
  | some (path, contents), _ => (Token.fromFile path contents).map some
  | none, some value =>
    if trim value ≠ "" then
      ((Token.new value "$GIT_FULL_SEND_TOKEN").mapError .invalid).map some
    else .ok none
  | none, none => .ok none

/-- Decide who a listener accepts a push from, refusing to decide by default. -/
def listenAuth (sources : Sources) (allowAnonymous : Bool) : Except SecretError Auth :=
  -- An explicit flag beats what is found in the environment.
  if allowAnonymous then .ok .anonymous
  else
    match Token.resolve sources with
    | .error failure => .error failure
    | .ok (some token) => .ok (.token token)
    | .ok none => .error .undecided

/-- The text that a command is meant to have as its secret. -/
def Sources.secret (sources : Sources) : Option String :=
  match sources.tokenFile with
  | some (_, contents) => contents.map trim
  | none => (sources.tokenEnv.map trim).filter (· ≠ "")

/-- A secret that is resolved is the text of its source, without the white space around it. -/
theorem Token.resolve_ok {sources : Sources} {found : Option Token}
    (resolved : Token.resolve sources = .ok found) : sources.secret = found.map Token.text := by
  -- A file is looked at first, and the environment only without one.
  have accepted : ∀ {value sourceDesc : String}, ((Token.new value sourceDesc).mapError
      SecretError.invalid).map some = .ok found → found.map Token.text = some (trim value) := by
    intro value sourceDesc made
    cases checked : Token.new value sourceDesc with
    | error failure => rw [checked] at made; cases made
    | ok token =>
      rw [checked] at made
      cases made
      exact congrArg some (Token.text_of_new checked)
  obtain ⟨tokenFile, tokenEnv⟩ := sources
  cases tokenFile with
  | some file =>
    obtain ⟨path, contents⟩ := file
    cases contents with
    | none => cases resolved
    | some contents => exact (accepted resolved).symm
  | none =>
    cases tokenEnv with
    | none => cases resolved; rfl
    | some value =>
      by_cases blank : trim value = ""
      · simp only [Token.resolve, blank, ne_eq, not_true_eq_false, if_false] at resolved
        cases resolved
        simp [Sources.secret, blank]
      · simp only [Token.resolve, ne_eq, blank, not_false_eq_true, if_true] at resolved
        simp [Sources.secret, blank, accepted resolved]

/-- A listener is anonymous by its flag only, and else it has the secret of its sources. -/
theorem listenAuth_ok {sources : Sources} {allowAnonymous : Bool} {auth : Auth}
    (listening : listenAuth sources allowAnonymous = .ok auth) :
    allowAnonymous = true ∧ auth = .anonymous ∨ ∃ token, allowAnonymous = false ∧
      auth = .token token ∧ sources.secret = some token.text := by
  -- Without the flag there must be a token, and it is the one of the sources.
  unfold listenAuth at listening
  cases allowAnonymous with
  | true => cases listening; exact .inl ⟨rfl, rfl⟩
  | false =>
    simp only [Bool.false_eq_true, if_false] at listening
    split at listening
    · cases listening
    · rename_i token resolved
      cases listening
      exact .inr ⟨token, rfl, rfl, Token.resolve_ok resolved⟩
    · cases listening

/-- The preamble of a push that gets as far as git is written in whole. -/
theorem pushRefs_preamble {sock : Socket} {git : GitPush} {token : Token}
    (written : (pushRefs sock git (some token)).result ≠ .error .io) :
    (pushRefs sock git (some token)).preamble = authPkt token := by
  -- The push ends at its preamble only when that cannot be written.
  unfold pushRefs at written ⊢
  simp only at written ⊢
  split at written
  · exact absurd rfl written
  · rename_i whole
    rw [if_neg whole]
    rfl

/--
A push that presents a secret is let in exactly when both ends were given the same one.

Each end takes its secret from the token file, or from the environment without one, and white space
around it does not matter. A listener lets anybody in only where its flag says so, and is never
started without a secret otherwise. A push that is not let in is told apart by its preamble alone:
nothing behind that is read, and the record says that it was a mismatch.
-/
theorem pushRefs_admitted {server client : Sources} {allowAnonymous : Bool} {auth : Auth}
    {token : Token} {clientSock serverSock : Socket} {git : GitPush}
    (listening : listenAuth server allowAnonymous = .ok auth)
    (resolved : Token.resolve client = .ok (some token))
    (written : (pushRefs clientSock git (some token)).result ≠ .error .io)
    (arrives : delivered serverSock.incoming = (pushRefs clientSock git (some token)).preamble ++
      (pushRefs clientSock git (some token)).sent) (child : Option Child) :
    let handled := handleConnection auth serverSock child
    (auth = .anonymous ↔ allowAnonymous = true) ∧
    (handled.spawned = true ↔ allowAnonymous = true ∨ server.secret = client.secret) ∧
    (handled.spawned = false → handled.consumed = authPkt token ∧ handled.forwarded = [] ∧
      handled.record = some (.unauthenticated Outcome.unauthenticated.asStr
        AuthOutcome.mismatch.asStr)) := by
  -- The listener that was started is anonymous, or it has a token of its own.
  intro handled
  have presented : client.secret = some token.text := Token.resolve_ok resolved
  rw [pushRefs_preamble written] at arrives
  rcases listenAuth_ok listening with ⟨open_, rfl⟩ | ⟨expected, closed, rfl, known⟩
  · -- An anonymous listener reads no preamble of its own.
    have spawned : handled.spawned = true := (receive_spawned [] serverSock child).1
    simp [spawned, open_]
  · obtain ⟨outcome, taken, -⟩ := readAuthPkt_sent expected arrives
    have gate := (@handleConnection_gate expected serverSock child).1
    have admitted : handled.spawned = true ↔ token.text = expected.text := by
      rw [gate, outcome]
      split <;> simp_all
    refine ⟨by simp [closed], ?_, fun refused => ?_⟩
    · rw [admitted, closed, known, presented, Option.some.injEq]
      simp [eq_comm]
    · have differ : token.text ≠ expected.text := fun same => by
        rw [admitted.mpr same] at refused
        cases refused
      rw [if_neg differ] at outcome
      obtain ⟨-, nothing, -, consumed, record⟩ :=
        @handleConnection_refused expected serverSock child (by rw [outcome]; simp)
      rw [taken] at consumed
      rw [outcome] at record
      exact ⟨consumed, nothing, record⟩

/-- A secret. -/
def sharedToken : Token := ⟨"sesame", by decide, by decide, by decide⟩

/-- It is in the token file of one end, with a line feed. -/
def fileSources : Sources := ⟨some ("token", some "sesame\n"), none⟩

/-- It is in the environment of the other end. -/
def envSources : Sources := ⟨none, some "sesame"⟩

/-- A run of git that says nothing. -/
def quietGit : GitPush := ⟨[], fun _ => none, [], .code 0⟩

/-- The client's end of an open connection. -/
def openSock : Socket := ⟨[], fun _ => none⟩

/-- The server's end, on which the preamble arrives. -/
def preambleSock : Socket := ⟨[.data 0x30 ((authPkt sharedToken).drop 1)], fun _ => none⟩

/-- The preamble is written, and git adds nothing. -/
theorem quietGit_pushed : (pushRefs openSock quietGit (some sharedToken)).result ≠ .error .io ∧
    delivered preambleSock.incoming =
      (pushRefs openSock quietGit (some sharedToken)).preamble ++
        (pushRefs openSock quietGit (some sharedToken)).sent := by
  constructor
  · decide
  · decide

/-- A secret that one end has from a file with a line feed, and the other from its environment. -/
theorem pushRefs_admitted_sources :
    ∃ auth, listenAuth fileSources false = .ok auth ∧
      Token.resolve envSources = .ok (some sharedToken) ∧
      (handleConnection auth preambleSock none).spawned = true := by
  -- Each end gets the secret from its own source.
  have listening : listenAuth fileSources false = .ok (.token sharedToken) := rfl
  have resolved : Token.resolve envSources = .ok (some sharedToken) := rfl
  have admitted := (pushRefs_admitted listening resolved quietGit_pushed.1 quietGit_pushed.2
    none).2.1
  exact ⟨_, listening, resolved, admitted.mpr (.inr (by decide))⟩

end GitFullSend

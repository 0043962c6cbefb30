import GitFullSend.Common.Process
import GitFullSend.Common.StreamId
import GitFullSend.Lib.Hex
import GitFullSend.Lib.LossyText

/-! Which stream a sync uses, and where a generated id is kept. -/

namespace GitFullSend

open Utf8 (Bytes ofText)

/-- The Git config key holding a repository's default stream id. -/
def configKey : String := "git-full-send.stream-id"

/-- The reason no stream could be resolved. -/
inductive StreamResolveError where
  /-- A requested stream id was malformed. -/
  | invalid (reason : StreamIdError)
  /-- The value stored in the configuration is not a valid stream id. -/
  | storedInvalid (reason : StreamIdError)
  /-- Spawning `git config` failed. -/
  | runGit
  /-- `git config` exited neither with success nor with the status of an unset key. -/
  | gitConfig (stderr : String)
  /-- Drawing random bytes failed. -/
  | generate
  deriving DecidableEq

/-- The values of the key, in the order in which Git reads its files. -/
structure GitConfig where
  /-- Those of the system and of the user. -/
  broader : List Bytes
  /-- Those of the repository. -/
  own : List Bytes
  /-- Those of the worktree and of the command. -/
  narrower : List Bytes
  deriving DecidableEq

/-- The value in effect is the one that is read last. -/
def GitConfig.effective (config : GitConfig) : Option Bytes :=
  (config.broader ++ config.own ++ config.narrower).getLast?

/-- How a call of `git config` goes. -/
inductive GitCall where
  | works
  | notSpawned
  /--
  It ends otherwise, before or after it has done what it was asked.

  With one it only exits when the key is not set.
  -/
  | stops (status : ExitStatus) (failed : status ≠ .code 0 ∧ status ≠ .code 1) (stderr : Bytes)
    (late : Bool)

/-- What a child leaves: its status, output and errors, or `none` when it was not spawned. -/
abbrev GitOutput := Option (ExitStatus × Bytes × Bytes)

/-- `git config --get`, which exits with one when the key is not set. -/
def GitCall.get (call : GitCall) (config : GitConfig) : GitOutput :=
  match call with
  | .notSpawned => none
  | .stops status _ stderr _ => some (status, [], stderr)
  | .works =>
    match config.effective with
    | none => some (.code 1, [], [])
    | some value => some (.code 0, value ++ [0x0A], [])

/-- `git config --local`, which replaces one value and refuses to replace several. -/
def GitCall.set (call : GitCall) (config : GitConfig) (value : Bytes) : GitOutput × GitConfig :=
  let replaced := { config with own := [value] }
  match call with
  | .notSpawned => (none, config)
  | .stops status _ stderr late =>
    (some (status, [], stderr), if late ∧ config.own.length ≤ 1 then replaced else config)
  | .works =>
    if config.own.length ≤ 1 then (some (.code 0, [], []), replaced)
    else (some (.code 5, [], ofText ("warning: " ++ configKey ++ " has multiple values\n" ++
      "error: cannot overwrite multiple values with a single value\n" ++
      "       Use a regexp, --add or --replace-all to change " ++ configKey ++ ".\n")), config)

/-- Read the effective stream id, or `none` if it is unset. -/
def readConfig (call : GitCall) (config : GitConfig) :
    Except StreamResolveError (Option String) :=
  match call.get config with
  | none => .error .runGit
  | some (status, stdout, stderr) =>
    if status.success then
      let value := Text.trim (Text.lossy stdout)
      .ok (if value = "" then none else some value)
    -- The key is simply absent.
    else if status.code? = some 1 then .ok none
    else .error (.gitConfig (Text.trim (Text.lossy stderr)))

/-- Persist a value to the configuration of the repository. -/
def writeConfig (call : GitCall) (config : GitConfig) (value : Bytes) :
    Except StreamResolveError Unit × GitConfig :=
  match call.set config value with
  | (none, after) => (.error .runGit, after)
  | (some (status, _, stderr), after) =>
    if status.success then (.ok (), after)
    else (.error (.gitConfig (Text.trim (Text.lossy stderr))), after)

/-- Eight random bytes. -/
abbrev Random := { bytes : Bytes // bytes.length = 8 }

/-- Bytes in lower-case digits, two for each. -/
def hexOf (bytes : Bytes) : Bytes :=
  bytes.flatMap fun byte => Hex.padded 2 byte.toNat

/-- Generate a fresh stream id, unless there are no random bytes. -/
def generate (random : Option Random) : Except StreamResolveError StreamId :=
  match random with
  | none => .error .generate
  | some bytes => (StreamId.new (hexOf bytes)).mapError .invalid

/-- The id that a stored value gives. -/
def storedStream (value : String) : Except StreamResolveError StreamId :=
  (StreamId.new (ofText value)).mapError .storedInvalid

/-- Generate an id and persist it. -/
def persist (call : GitCall) (random : Option Random) (config : GitConfig) :
    Except StreamResolveError StreamId × GitConfig :=
  match generate random with
  | .error failure => (.error failure, config)
  | .ok stream =>
    let (written, after) := writeConfig call config stream.id
    (written.map fun _ => stream, after)

/-- Resolve the stream of a sync: the requested one, else the stored one, else a fresh one. -/
def resolveStream (read write : GitCall) (random : Option Random) (config : GitConfig)
    (requested : Option StreamId) : Except StreamResolveError StreamId × GitConfig :=
  match requested with
  | some stream => (.ok stream, config)
  | none =>
    match readConfig read config with
    | .error failure => (.error failure, config)
    | .ok (some value) => (storedStream value, config)
    | .ok none => persist write random config

/-- The value that a read finds, if it finds one that is not blank. -/
def GitConfig.stored (config : GitConfig) : Option String :=
  config.effective.bind fun value =>
    let text := Text.trim (Text.lossy (value ++ [0x0A]))
    if text = "" then none else some text

/-- The failures of running `git config`. -/
def StreamResolveError.ofGit : StreamResolveError → Bool
  | .runGit | .gitConfig _ => true
  | .invalid _ | .storedInvalid _ | .generate => false

/-- A read that works finds what is stored. -/
theorem readConfig_works (config : GitConfig) :
    readConfig .works config = .ok config.stored := by
  -- Git exits with one where there is no value, which is no failure.
  cases held : config.effective with
  | none =>
    simp [readConfig, GitCall.get, GitConfig.stored, held, ExitStatus.success, ExitStatus.code?]
  | some value => simp [readConfig, GitCall.get, GitConfig.stored, held, ExitStatus.success]

/-- A read finds what is stored, unless Git could not be run. -/
theorem readConfig_cases (call : GitCall) (config : GitConfig) :
    readConfig call config = .ok config.stored ∨
      ∃ failure, readConfig call config = .error failure ∧ failure.ofGit = true := by
  cases call with
  | notSpawned => exact .inr ⟨.runGit, rfl, rfl⟩
  | stops status failed stderr late =>
    -- The two statuses that would be read as an answer are none of a failure.
    have failure : status.success = false := decide_eq_false failed.1
    have other : status.code? ≠ some 1 := by
      cases status with
      | code number =>
        intro one
        cases one
        exact failed.2 rfl
      | signal number => intro one; cases one
    refine .inr ⟨.gitConfig (Text.trim (Text.lossy stderr)), ?_, rfl⟩
    simp [readConfig, GitCall.get, failure, other]
  | works => exact .inl (readConfig_works config)

section Generated

/-- A digit that is written is a figure, or one of the first six letters. -/
theorem refByte_lower {value : Nat} (small : value < 16) :
    refByte (Hex.lower value) = true ∧ Hex.lower value ≠ slash ∧ Hex.lower value ≤ 0x7F ∧
      Hex.lower value ∉ ofText ".@k" := by
  -- There are sixteen digits.
  revert value
  decide

/-- The two digits of a byte are those of its halves. -/
theorem padded_byte (byte : UInt8) :
    Hex.padded 2 byte.toNat = [Hex.lower (byte.toNat / 16), Hex.lower (byte.toNat % 16)] := by
  -- A zero is put in front where the byte has one digit, and two where it has none.
  have small := byte.toNat_lt
  generalize byte.toNat = number at small
  have zero : Hex.lower 0 = 0x30 := by decide
  by_cases none : number = 0
  · subst none
    decide
  · by_cases one : number < 16
    · rw [Hex.padded, Nat.digits_of_lt 16 number none one, Nat.div_eq_of_lt one,
        Nat.mod_eq_of_lt one, zero]
      rfl
    · have high : number / 16 ≠ 0 := by omega
      rw [Hex.padded, Nat.digits_def' (by decide) (by omega),
        Nat.digits_of_lt 16 (number / 16) high (by omega)]
      rfl

/-- The digits of bytes are the digits of their halves. -/
theorem mem_hexOf {bytes : Bytes} {digit : UInt8} (member : digit ∈ hexOf bytes) :
    ∃ value, value < 16 ∧ digit = Hex.lower value := by
  -- Each byte is spelled by two digits.
  obtain ⟨byte, -, listed⟩ := List.mem_flatMap.mp member
  have small := byte.toNat_lt
  rw [padded_byte] at listed
  rcases List.mem_pair.mp listed with rfl | rfl
  · exact ⟨_, by omega, rfl⟩
  · exact ⟨_, by omega, rfl⟩

/-- There are two digits for each byte. -/
theorem length_hexOf (bytes : Bytes) : (hexOf bytes).length = 2 * bytes.length := by
  -- The induction adds the two digits of one byte.
  induction bytes with
  | nil => rfl
  | cons byte rest ih =>
    rw [hexOf, List.flatMap_cons, List.length_append, padded_byte, ← hexOf, ih]
    simp only [List.length_cons, List.length_nil]
    omega

/-- Different bytes have different digits. -/
theorem hexOf_injective {left right : Bytes} (same : hexOf left = hexOf right) : left = right := by
  -- The induction is on both, and two digits give back one byte.
  induction left generalizing right with
  | nil =>
    cases right with
    | nil => rfl
    | cons byte rest => simp [hexOf, padded_byte] at same
  | cons byte rest ih =>
    cases right with
    | nil => simp [hexOf, padded_byte] at same
    | cons other others =>
      simp only [hexOf, List.flatMap_cons] at same
      obtain ⟨here, behind⟩ := List.append_inj same (by simp [padded_byte])
      have number : byte.toNat = other.toNat := by
        have read := congrArg Hex.value here
        rw [Hex.value_padded, Hex.value_padded] at read
        exact Option.some.inj read
      rw [UInt8.toNat_inj.mp number, ih behind]

/-- Digits are a component of a ref name by themselves. -/
theorem hexOf_splitOn (bytes : Bytes) : (hexOf bytes).splitOn slash = [hexOf bytes] := by
  -- A slash is no digit.
  apply List.splitOn_eq_singleton
  intro member
  obtain ⟨value, small, same⟩ := mem_hexOf member
  exact (refByte_lower small).2.1 same.symm

/-- Digits are a well-formed component of a ref name. -/
theorem hexOf_component {bytes : Bytes} (present : hexOf bytes ≠ []) :
    componentWellFormed (hexOf bytes) = true := by
  -- What Git forbids has a dot, an at sign or a letter that is no digit in it.
  have apart : ∀ pattern : Bytes, (∃ byte ∈ pattern, byte ∈ ofText ".@k") →
      ¬ pattern <:+: hexOf bytes := by
    intro pattern foreign within
    obtain ⟨byte, member, forbidden⟩ := foreign
    obtain ⟨value, small, rfl⟩ := mem_hexOf (within.subset member)
    exact (refByte_lower small).2.2.2 forbidden
  have lock : ¬ ofText ".lock" <:+ hexOf bytes := fun ends =>
    apart (ofText ".lock") ⟨0x2E, by decide, by decide⟩ ends.isInfix
  have dots := apart (ofText "..") ⟨0x2E, by decide, by decide⟩
  have brace := apart (ofText "@\x7b") ⟨0x40, by decide, by decide⟩
  have head : (hexOf bytes).head? ≠ some 0x2E := by
    intro first
    refine apart [0x2E] ⟨0x2E, by decide, by decide⟩ ?_
    obtain ⟨rest, split⟩ := List.head?_eq_some_iff.mp first
    exact split ▸ (List.prefix_append [0x2E] rest).isInfix
  have bytes : (hexOf bytes).all refByte = true := by
    rw [List.all_eq_true]
    intro byte member
    obtain ⟨value, small, rfl⟩ := mem_hexOf member
    exact (refByte_lower small).1
  simp [componentWellFormed, present, head, lock, dots, brace, bytes]

/-- Eight bytes give an id, and it is spelled in their sixteen digits. -/
theorem generate_ok (random : Random) : ∃ stream : StreamId,
    generate (some random) = .ok stream ∧ stream.id = hexOf random.1 ∧ stream.id.length = 16 := by
  -- Digits are text, and the ref of such an id has five well-formed components.
  have size : (hexOf random.1).length = 16 := by rw [length_hexOf, random.2]
  have present : hexOf random.1 ≠ [] := fun empty => by simp [empty] at size
  have plain : Utf8.valid (hexOf random.1) = true := by
    apply Utf8.valid_of_ascii
    intro byte member
    obtain ⟨value, small, rfl⟩ := mem_hexOf member
    exact (refByte_lower small).2.2.1
  have wellFormed : refNameWellFormed (streamRef (hexOf random.1) (ofText "code")) = true := by
    have split := splitOn_streamRef (hexOf random.1) (ofText "code")
    have code : (ofText "code").splitOn slash = [ofText "code"] := by decide
    have common : streamsSegments.all componentWellFormed = true := by decide
    have last : componentWellFormed (ofText "code") = true := by decide
    have ending : (streamRef (hexOf random.1) (ofText "code")).getLast? = some 0x65 := by
      have tail : ofText "code" = ofText "cod" ++ [0x65] := by decide
      rw [streamRef, tail, ← List.cons_append, ← List.append_assoc, List.getLast?_concat]
    rw [hexOf_splitOn, code] at split
    simp only [refNameWellFormed, split, ending]
    simp [streamsSegments] at common ⊢
    simp [common, last, hexOf_component present]
  refine ⟨⟨hexOf random.1, plain, present, wellFormed⟩, ?_, rfl, size⟩
  simp [generate, StreamId.new, present, plain, wellFormed, Except.mapError]

/-- What a generated id is stored as reads back as that id. -/
theorem stored_generated {random : Random} {stream : StreamId}
    (generated : generate (some random) = .ok stream) (broader : List Bytes) :
    ∃ value, GitConfig.stored ⟨broader, [stream.id], []⟩ = some value ∧
      storedStream value = .ok stream := by
  -- The line that Git prints is the digits and a line feed, and trimming leaves the digits.
  obtain ⟨other, again, spelled, size⟩ := generate_ok random
  obtain rfl : other = stream := Except.ok.inj (again.symm.trans generated)
  obtain ⟨word, written⟩ := Text.exists_ofText other.text
  have plain : ∀ byte ∈ ofText word, byte ≤ 0x7F := by
    intro byte member
    rw [written, spelled] at member
    obtain ⟨value, small, rfl⟩ := mem_hexOf member
    exact (refByte_lower small).2.2.1
  have dense : ∀ character ∈ word.toList, Text.whitespace character = false := by
    intro character member
    obtain ⟨byte, listed, same⟩ := Text.byte_of_mem
      (fun byte listed => Nat.lt_succ_of_le (UInt8.le_iff_toNat_le.mp (plain byte listed))) member
    rw [written, spelled] at listed
    obtain ⟨value, small, rfl⟩ := mem_hexOf listed
    simp only [Text.whitespace, same]
    clear listed same
    revert value
    decide
  have printed : Text.lossy (other.id ++ [0x0A]) = word ++ "\n" := by
    have line : Text.lossy [0x0A] = "\n" := by
      apply Text.ofText_injective
      rw [Text.ofText_lossy]
      decide
    rw [← written, Text.lossy_append plain, line]
  have present : word ≠ "" := by
    rintro rfl
    rw [← written] at size
    exact absurd size (by decide)
  refine ⟨word, ?_, ?_⟩
  · simp [GitConfig.stored, GitConfig.effective, printed, Text.trim_line dense, present]
  · rw [storedStream, written, StreamId.new_id]
    rfl

end Generated

end GitFullSend

import GitFullSend.Common.StreamId
import GitFullSend.Lib.Shell
import GitFullSend.Lib.Text
import GitFullSend.Server.Connection

/-! The pre-receive hook: which pushes it lets through, and what it writes down about them. -/

namespace GitFullSend

open Utf8 (Bytes ofText)
open Shell (Piece Glob Command Script State Dense)

/-- A part of a line that is separated by blanks: at least one byte, and no blank or control. -/
def Field (text : Bytes) : Prop :=
  text ≠ [] ∧ ∀ byte ∈ text, 0x20 < byte

instance (text : Bytes) : Decidable (Field text) :=
  @instDecidableAnd _ _ inferInstance (List.decidableBAll _ _)

/-- One update that a push asks for: a ref with the value it has and the one it is to get. -/
structure RefUpdate where
  old : Bytes
  new : Bytes
  ref : Bytes
  old_field : Field old
  new_field : Field new
  ref_field : Field ref

/-- The line of an update, as the hook reads it. -/
def RefUpdate.line (update : RefUpdate) : Bytes :=
  update.old ++ 0x20 :: (update.new ++ 0x20 :: update.ref)

/-- The name of the variable with the file that accepted refs are appended to. -/
def acceptedRefsEnv : String := "GFS_ACCEPTED_REFS_FILE"

/-- The body of the hook: reject any ref outside the namespace, append each other to the file. -/
def preReceiveHook : Script where
  -- while read -r old new ref; do case "$ref" in
  names := ["old", "new", "ref"]
  body :=
    -- refs/git-full-send/*) [ -n "$FILE" ] && printf '%s\n' "$ref" >> "$FILE" ;;
    .caseOf [.value "ref"] (refNamespace.map Glob.byte ++ [.star])
      (.andThen (.nonempty [.value acceptedRefsEnv])
        (.printLine [.value "ref"] [.value acceptedRefsEnv]))
    -- *) echo "git-full-send: refusing ref outside refs/git-full-send/: $ref" >&2; exit 1 ;;
    (.caseOf [.value "ref"] [.star]
      (.sequence
        (.complain [.literal (ofText hookRefusalMarker), .literal (ofText " "),
          .literal refNamespace, .literal (ofText ": "), .value "ref"])
        (.exit 1))
      .succeed)

/-- The file for accepted refs, as the handler hands it to the hook. -/
inductive AcceptedRefs where
  /-- It could not be created, and the variable is not set. -/
  | unset
  /-- It is there, but cannot be written. -/
  | unwritable (path : Bytes) (named : path ≠ [])
  /-- It can be written, and has something in it. -/
  | writable (path : Bytes) (named : path ≠ []) (contents : Bytes)

namespace AcceptedRefs

/-- The path that the variable holds. -/
def path : AcceptedRefs → Bytes
  | unset => []
  | unwritable path _ => path
  | writable path _ _ => path

/-- What is in the file, when it can be written. -/
def contents : AcceptedRefs → Option Bytes
  | unset => none
  | unwritable _ _ => none
  | writable _ _ contents => some contents

/-- What the hook finds when it starts. -/
def start (file : AcceptedRefs) : State where
  values name := if name = acceptedRefsEnv then file.path else []
  files path := if path = file.path then file.contents else none
  errors := []

end AcceptedRefs

/-- A run of the hook over the updates of a push. -/
def runHook (file : AcceptedRefs) (updates : List RefUpdate) : Shell.Result :=
  preReceiveHook.run (updates.flatMap fun update => update.line ++ [0x0A]) file.start

/-- What is in the file behind a run of the hook. -/
def recorded (file : AcceptedRefs) (updates : List RefUpdate) : Option Bytes :=
  (runHook file updates).state.files file.path

/-- The refs of updates, one on each line. -/
def refLines (updates : List RefUpdate) : Bytes :=
  updates.flatMap fun update => update.ref ++ [0x0A]

/-- An update is of a ref within the namespace. -/
def Inside (update : RefUpdate) : Prop := refNamespace <+: update.ref

instance (update : RefUpdate) : Decidable (Inside update) :=
  inferInstanceAs (Decidable (refNamespace <+: update.ref))

/-- The fields of an update have no blanks. -/
theorem dense_of_field {text : Bytes} (field : Field text) : Dense text := by
  -- Both blanks are below the bytes of a field.
  refine ⟨field.1, ?_⟩
  intro byte member
  have above := field.2 byte member
  simp only [Shell.blank, Bool.or_eq_false_iff, decide_eq_false_iff_not]
  constructor
  · intro same
    subst same
    exact absurd above (by decide)
  · intro same
    subst same
    exact absurd above (by decide)

/-- The line of an update has no line feed within. -/
theorem lineFeed_notMem_line (update : RefUpdate) : 0x0A ∉ update.line := by
  -- It is in none of the three fields, and the separators are spaces.
  intro member
  have printed {text : Bytes} (field : Field text) : 0x0A ∉ text := fun within =>
    absurd (field.2 _ within) (by decide)
  simp only [RefUpdate.line, List.mem_append, List.mem_cons] at member
  rcases member with within | feed | within | feed | within
  · exact printed update.old_field within
  · cases feed
  · exact printed update.new_field within
  · cases feed
  · exact printed update.ref_field within

/-- What reading the line of an update sets. -/
theorem assign_line (update : RefUpdate) (state : State) :
    let after := Shell.assign preReceiveHook.names update.line state
    after.values "ref" = update.ref ∧
      after.values acceptedRefsEnv = state.values acceptedRefsEnv ∧ after.files = state.files := by
  -- The names that are read are not the name of the file's variable.
  intro after
  have read : Shell.fields ["old", "new", "ref"] update.line =
      [("old", update.old), ("new", update.new), ("ref", update.ref)] := by
    rw [RefUpdate.line, Shell.fields_word (dense_of_field update.old_field), Shell.fields_blank,
      Shell.fields_word (dense_of_field update.new_field), Shell.fields_blank,
      Shell.fields_last (dense_of_field update.ref_field)]
  have unfolded : after = Shell.assign ["old", "new", "ref"] update.line state := rfl
  unfold Shell.assign at unfolded
  rw [read] at unfolded
  rw [unfolded]
  simp [acceptedRefsEnv]

/-- What the hook finds on every line: the file's path, and so much in the file. -/
structure Ready (file : AcceptedRefs) (contents : Option Bytes) (state : State) : Prop where
  path : state.values acceptedRefsEnv = file.path
  contents : state.files file.path = contents

/-- A ref outside the namespace makes the hook exit with one. -/
theorem turn_outside {update : RefUpdate} (outside : ¬ Inside update) (state : State) :
    (preReceiveHook.turn update.line state).exited = true ∧
      (preReceiveHook.turn update.line state).status = 1 := by
  -- The first pattern does not match, and the second matches everything.
  obtain ⟨ref, -, -⟩ := assign_line update state
  unfold Script.turn
  generalize Shell.assign preReceiveHook.names update.line state = after at ref ⊢
  have word : Shell.expand after [.value "ref"] = update.ref := by simp [Shell.expand, ref]
  have first : Shell.fits (refNamespace.map Glob.byte ++ [.star]) update.ref = false :=
    Bool.eq_false_iff.mpr (mt (Shell.fits_opening _ _).mp outside)
  have second := Shell.fits_star update.ref
  simp only [preReceiveHook, Shell.run, word, first, second]
  simp

/-- A ref within the namespace is written down, or ends its turn with one where it cannot be. -/
theorem turn_inside {update : RefUpdate} (inside : Inside update) (state : State) :
    let after := Shell.assign preReceiveHook.names update.line state
    preReceiveHook.turn update.line state =
      if state.values acceptedRefsEnv = [] then ⟨after, 1, false⟩
      else match state.files (state.values acceptedRefsEnv) with
        | none => ⟨after, 1, false⟩
        | some contents =>
          ⟨after.write (state.values acceptedRefsEnv) (contents ++ update.ref ++ [0x0A]), 0,
            false⟩ := by
  -- The first pattern matches; the test and the redirection may fail.
  obtain ⟨ref, env, files⟩ := assign_line update state
  simp only
  unfold Script.turn
  generalize Shell.assign preReceiveHook.names update.line state = after at ref env files ⊢
  have word : Shell.expand after [.value "ref"] = update.ref := by simp [Shell.expand, ref]
  have target : Shell.expand after [.value acceptedRefsEnv] = state.values acceptedRefsEnv := by
    simp [Shell.expand, env]
  have first := (Shell.fits_opening refNamespace update.ref).mpr inside
  simp only [preReceiveHook, Shell.run, word, target, first, files, if_true]
  by_cases none : state.values acceptedRefsEnv = []
  · simp [none]
  · simp only [none]
    cases state.files (state.values acceptedRefsEnv) <;> rfl

/-- Without a file that can be written every ref within the namespace ends its turn with one. -/
theorem turn_unrecorded {file : AcceptedRefs} {update : RefUpdate} (inside : Inside update)
    {state : State} (ready : Ready file none state) :
    (preReceiveHook.turn update.line state).exited = false ∧
      (preReceiveHook.turn update.line state).status = 1 ∧
      Ready file none (preReceiveHook.turn update.line state).state := by
  -- The test of the variable fails, or the redirection does.
  obtain ⟨-, env, files⟩ := assign_line update state
  obtain ⟨path, nothing⟩ := ready
  have turn := turn_inside inside state
  simp only [path, nothing, ite_self] at turn
  rw [turn]
  exact ⟨rfl, rfl, ⟨env.trans path, files ▸ nothing⟩⟩

/-- A ref within the namespace is appended to a file that can be written. -/
theorem turn_recorded {file : AcceptedRefs} {contents : Bytes} (named : file.path ≠ [])
    {update : RefUpdate} (inside : Inside update) {state : State}
    (ready : Ready file (some contents) state) :
    (preReceiveHook.turn update.line state).exited = false ∧
      (preReceiveHook.turn update.line state).status = 0 ∧
      Ready file (some (contents ++ update.ref ++ [0x0A]))
        (preReceiveHook.turn update.line state).state := by
  -- The test of the variable succeeds, and so does the redirection.
  obtain ⟨-, env, -⟩ := assign_line update state
  obtain ⟨path, before⟩ := ready
  have turn := turn_inside inside state
  simp only [path, before, if_neg named] at turn
  rw [turn]
  exact ⟨rfl, rfl, ⟨env.trans path, Function.update_self _ _ _⟩⟩

/-- Every ref within the namespace, whatever the file, leaves the hook running. -/
theorem turn_goes {update : RefUpdate} (inside : Inside update) (state : State) :
    (preReceiveHook.turn update.line state).exited = false := by
  -- Only the other pattern of the `case` exits.
  have turn := turn_inside inside state
  simp only at turn
  rw [turn]
  split
  · rfl
  · split <;> rfl

/-- What the hook reads are the lines of the updates. -/
theorem runHook_eq (file : AcceptedRefs) (updates : List RefUpdate) :
    runHook file updates =
      Shell.loop preReceiveHook (updates.map RefUpdate.line) 0 file.start := by
  -- Every line is read as it was written, because none has a line feed within.
  have whole : ∀ line ∈ updates.map RefUpdate.line, 0x0A ∉ line := by
    simpa using fun update _ => lineFeed_notMem_line update
  have read := Shell.lines_flatMap whole
  rw [List.flatMap_map] at read
  rw [runHook, Script.run, read]

/-- The hook starts with what the handler hands it. -/
theorem start_ready (file : AcceptedRefs) : Ready file file.contents file.start :=
  ⟨by simp [AcceptedRefs.start], by simp [AcceptedRefs.start]⟩

/-- A ref outside the namespace has the push declined, whatever the file. -/
theorem runHook_outside {updates : List RefUpdate} {foreign : RefUpdate}
    (member : foreign ∈ updates) (outside : ¬ Inside foreign) (file : AcceptedRefs) :
    (runHook file updates).status = 1 := by
  -- A turn goes on or exits with status one, and the turn of this ref exits.
  have turns : ∀ line ∈ updates.map RefUpdate.line, ∀ state, True →
      (preReceiveHook.turn line state).exited = true ∧ (preReceiveHook.turn line state).status = 1 ∨
        (preReceiveHook.turn line state).exited = false ∧ True := by
    intro line listed state _
    obtain ⟨update, -, rfl⟩ := List.mem_map.mp listed
    by_cases inside : Inside update
    · exact .inr ⟨turn_goes inside state, trivial⟩
    · exact .inl (turn_outside inside state)
  have last : foreign.line ∈ updates.map RefUpdate.line := List.mem_map_of_mem member
  have exits : ∀ state, True → (preReceiveHook.turn foreign.line state).exited = true :=
    fun state _ => (turn_outside outside state).1
  rw [runHook_eq]
  exact Shell.loop_exits turns last exits trivial 0

/-- Without a file that can be written every push of something is declined. -/
theorem runHook_unrecorded {updates : List RefUpdate} (inside : ∀ update ∈ updates, Inside update)
    {file : AcceptedRefs} (unwritable : file.contents = none) :
    (runHook file updates).status = if updates = [] then 0 else 1 := by
  -- Every turn ends with status one, so the last one does.
  have turns : ∀ line ∈ updates.map RefUpdate.line, ∀ state,
      Ready file none state → (preReceiveHook.turn line state).exited = false ∧
        (preReceiveHook.turn line state).status = 1 ∧
        Ready file none (preReceiveHook.turn line state).state := by
    intro line listed state ready
    obtain ⟨update, member, rfl⟩ := List.mem_map.mp listed
    exact turn_unrecorded (inside update member) ready
  have start := unwritable ▸ start_ready file
  rw [runHook_eq, Shell.loop_through turns start 0]
  simp

/-- Every ref of the rest is appended behind those of the lines before. -/
theorem loop_recorded {file : AcceptedRefs} (named : file.path ≠ []) {updates : List RefUpdate}
    (inside : ∀ update ∈ updates, Inside update) {contents : Bytes} {state : State}
    (ready : Ready file (some contents) state) :
    let result := Shell.loop preReceiveHook (updates.map RefUpdate.line) 0 state
    result.status = 0 ∧ Ready file (some (contents ++ refLines updates)) result.state := by
  -- The induction is on the updates that are left.
  induction updates generalizing contents state with
  | nil => exact ⟨rfl, by simpa [refLines, Shell.loop] using ready⟩
  | cons update rest ih =>
    obtain ⟨here, others⟩ := List.forall_mem_cons.mp inside
    obtain ⟨goes, ended, kept⟩ := turn_recorded named here ready
    have after := ih others kept
    rw [List.map_cons, Shell.loop_on goes, ended]
    simpa [refLines] using after

/-- With a file that can be written a push within the namespace is accepted and written down. -/
theorem runHook_recorded {updates : List RefUpdate} (inside : ∀ update ∈ updates, Inside update)
    {file : AcceptedRefs} {contents : Bytes} (writable : file.contents = some contents) :
    (runHook file updates).status = 0 ∧
      recorded file updates = some (contents ++ refLines updates) := by
  -- Every turn ends with status zero, and has appended its ref.
  have named : file.path ≠ [] := by
    cases file with
    | unset => cases writable
    | unwritable path named => cases writable
    | writable path named => exact named
  obtain ⟨status, ready⟩ := loop_recorded named inside (writable ▸ start_ready file)
  rw [recorded, runHook_eq]
  exact ⟨status, ready.contents⟩

/-- What the hook accepts is within the namespace, whatever the file. -/
theorem inside_of_accepted {file : AcceptedRefs} {updates : List RefUpdate}
    (accepted : (runHook file updates).status = 0) : ∀ update ∈ updates, Inside update := by
  -- A single ref outside would have declined the push.
  intro update member
  by_contra outside
  rw [runHook_outside member outside] at accepted
  cases accepted

/-- The hook accepts exactly the pushes within the namespace, and writes down what it accepts. -/
structure Confines (file : AcceptedRefs) (updates : List RefUpdate) : Prop where
  accepts : (runHook file updates).status = 0 ↔ ∀ update ∈ updates, Inside update
  records : ∀ contents, file.contents = some contents → (runHook file updates).status = 0 →
    recorded file updates = some (contents ++ refLines updates)

/--
The hook confines a push and writes it down exactly when the file can be written, nothing is pushed
or something is pushed outside the namespace.
-/
theorem runHook_confines (file : AcceptedRefs) (updates : List RefUpdate) :
    Confines file updates ↔
      file.contents ≠ none ∨ updates = [] ∨ ∃ update ∈ updates, ¬ Inside update := by
  -- Only the status of the last append decides where every ref is within the namespace.
  constructor
  · intro confines
    by_contra neither
    obtain ⟨unwritable, some, inside⟩ := not_or.mp neither |>.imp not_not.mp not_or.mp
    have inside : ∀ update ∈ updates, Inside update := by simpa using inside
    have declined := runHook_unrecorded inside unwritable
    rw [if_neg some, confines.accepts.mpr inside] at declined
    cases declined
  · intro condition
    constructor
    · refine ⟨inside_of_accepted, ?_⟩
      intro inside
      rcases condition with writable | rfl | ⟨foreign, member, outside⟩
      · obtain ⟨contents, writable⟩ := Option.ne_none_iff_exists'.mp writable
        exact (runHook_recorded inside writable).1
      · rw [runHook_eq]
        rfl
      · exact absurd (inside foreign member) outside
    · intro contents writable accepted
      exact (runHook_recorded (inside_of_accepted accepted) writable).2

/-- Without a file for its refs a push of a single ref within the namespace is declined. -/
theorem runHook_unset :
    let zero : Bytes := List.replicate 40 0x30
    let update : RefUpdate :=
      { old := zero
        new := zero
        ref := ofText "refs/git-full-send/work/code"
        old_field := by decide
        new_field := by decide
        ref_field := by decide }
    Inside update ∧ (runHook .unset [update]).status = 1 ∧ ¬ Confines .unset [update] := by
  -- Its one turn ends with the failed test of the variable.
  intro zero update
  have inside : Inside update := by decide
  have declined : (runHook .unset [update]).status = 1 :=
    runHook_unrecorded (by simpa using inside) rfl
  refine ⟨inside, declined, ?_⟩
  intro confines
  have accepted := confines.accepts.mpr (by simpa using inside)
  rw [declined] at accepted
  cases accepted

end GitFullSend

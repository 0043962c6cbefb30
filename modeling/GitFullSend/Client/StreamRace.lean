import Mathlib.Logic.Function.Basic
import GitFullSend.Client.Stream
import GitFullSend.Lib.Folds

/-! Any number of syncs that resolve their stream in one repository at once. -/

namespace GitFullSend

open Utf8 (Bytes ofText)

namespace Resolving

/-- How far a run has come. -/
inductive Phase where
  | start
  /-- It has read that no id is stored. -/
  | unset
  | done (result : Except StreamResolveError StreamId)

/-- The next thing a run does. -/
inductive Action where
  | read (call : GitCall)
  | persist (call : GitCall) (random : Option Random)

/-- One step of a run, or `none` when it is not the one that comes now. -/
def advance (requested : Option StreamId) (config : GitConfig) :
    Phase → Action → Option (Phase × GitConfig)
  | .start, .read call =>
    match requested with
    | some stream => some (.done (.ok stream), config)
    | none =>
      match readConfig call config with
      | .error failure => some (.done (.error failure), config)
      | .ok (some value) => some (.done (storedStream value), config)
      | .ok none => some (.unset, config)
  | .unset, .persist call random =>
    let (result, after) := persist call random config
    some (.done result, after)
  | _, _ => none

/-- Something that happens to the configuration. -/
inductive Event where
  /-- A run takes a step. -/
  | act (run : Nat) (action : Action)
  /-- Somebody else edits it. -/
  | edit (config : GitConfig)

end Resolving

/-- A repository in which streams are resolved: its configuration, and how far the runs are. -/
structure Resolving where
  config : GitConfig
  phase : Nat → Resolving.Phase

namespace Resolving

/-- One event, for runs that have requested these streams. -/
def step (requests : Nat → Option StreamId) (state : Resolving) : Event → Option Resolving
  | .act run action => (advance (requests run) state.config (state.phase run) action).map
      fun moved => ⟨moved.2, Function.update state.phase run moved.1⟩
  | .edit config => some { state with config := config }

/-- Events in their order. -/
def execute (requests : Nat → Option StreamId) (state : Resolving) (events : List Event) :
    Option Resolving :=
  events.foldlM (step requests) state

/-- What a run that starts while a value is stored comes to. -/
def Resolves (requested : Option StreamId) (value : String) : Phase → Prop
  | .done result =>
    match requested with
    | some stream => result = .ok stream
    | none => result = storedStream value ∨
        ∃ failure, result = .error failure ∧ failure.ofGit = true
  | .start | .unset => False

/-- Since some moment the value has stayed, and nobody is about to replace it. -/
structure Stays (requests : Nat → Option StreamId) (value : String) (since now : Resolving) :
    Prop where
  config : now.config = since.config
  /-- Nobody has read that no id is stored. -/
  nobody : ∀ run, now.phase run ≠ .unset
  resolves : ∀ run, since.phase run = .start →
    now.phase run = .start ∨ Resolves (requests run) value (now.phase run)

section Runs

variable {requests : Nat → Option StreamId} {value : String} {since now after : Resolving}
  {event : Event} {events : List Event}

/-- A run that reads while a value is stored is done, and leaves the configuration alone. -/
theorem advance_stored {requested : Option StreamId} {config changed : GitConfig}
    {phase next : Phase} {action : Action} (stored : config.stored = some value)
    (reads : phase ≠ .unset)
    (moved : advance requested config phase action = some (next, changed)) :
    changed = config ∧ phase = .start ∧ Resolves requested value next := by
  -- A requested id is taken as it is, and else the read decides.
  cases phase with
  | unset => exact absurd rfl reads
  | done result => cases moved
  | start =>
    cases action with
    | persist call random => cases moved
    | read call =>
      cases requested with
      | some stream => cases moved; exact ⟨rfl, rfl, rfl⟩
      | none =>
        rcases readConfig_cases call config with found | ⟨failure, refused, ofGit⟩
        · simp only [advance, found, stored] at moved
          cases moved
          exact ⟨rfl, rfl, .inl rfl⟩
        · simp only [advance, refused] at moved
          cases moved
          exact ⟨rfl, rfl, .inr ⟨failure, rfl, ofGit⟩⟩

/-- One step of a run keeps the value where it is. -/
theorem step_stays (stored : since.config.stored = some value)
    (stays : Stays requests value since now) (unedited : ∀ config, event ≠ .edit config)
    (stepped : step requests now event = some after) : Stays requests value since after := by
  -- The run that steps is looked at apart from the others, which stay where they are.
  cases event with
  | edit config => exact absurd rfl (unedited config)
  | act run action =>
    obtain ⟨⟨next, changed⟩, moved, rfl⟩ := Option.map_eq_some_iff.mp stepped
    simp only
    obtain ⟨same, idle, resolves⟩ :=
      advance_stored (stays.config ▸ stored) (stays.nobody run) moved
    refine ⟨same.trans stays.config, fun other => ?_, fun other started => ?_⟩
    · by_cases this : other = run
      · subst this
        simp only [Function.update_self]
        rintro rfl
        exact resolves
      · simp only [Function.update_of_ne this]
        exact stays.nobody other
    · by_cases this : other = run
      · subst this
        simp only [Function.update_self]
        exact .inr resolves
      · simp only [Function.update_of_ne this]
        exact stays.resolves other started

/-- From then on the value stays through any steps of any runs. -/
theorem execute_stays (stored : since.config.stored = some value)
    (nobody : ∀ run, since.phase run ≠ .unset) (unedited : ∀ config, .edit config ∉ events)
    (ran : execute requests since events = some after) : Stays requests value since after := by
  -- None of the events is an edit, and every step of a run keeps the value.
  refine @Folds.foldlM_keeps_while _ _ (step requests) (Stays requests value since)
    (fun _ event => ∀ config, event ≠ .edit config)
    (fun before event after stays => step_stays stored stays) events since after
    ⟨rfl, nobody, fun run started => .inl started⟩ ?_ ran
  rintro before event rest middle rfl - config rfl
  exact unedited config (List.mem_append_right _ List.mem_cons_self)

/--
Once an id is stored and nobody is about to replace it, it is the id of every later sync.

However the syncs before have raced, from then on the runs at once are any number, with any failures
of Git, and their steps come in any order. A run that starts then gets the stored id, or the error
that it is invalid, or a failure of Git; one with a requested id gets that; and none of them changes
the configuration.
-/
theorem execute_settles (stored : since.config.stored = some value)
    (nobody : ∀ run, since.phase run ≠ .unset) (unedited : ∀ config, .edit config ∉ events)
    (ran : execute requests since events = some after) :
    after.config = since.config ∧ ∀ run, since.phase run = .start →
      after.phase run = .start ∨ Resolves (requests run) value (after.phase run) := by
  have stays := execute_stays stored nobody unedited ran
  exact ⟨stays.config, stays.resolves⟩

/-- Eight times the same byte. -/
def eight (byte : UInt8) : Random := ⟨List.replicate 8 byte, rfl⟩

/-- Two first syncs that both read before either writes. -/
def race : List Event :=
  [.act 0 (.read .works), .act 1 (.read .works), .act 0 (.persist .works (some (eight 0))),
    .act 1 (.persist .works (some (eight 1)))]

/-- They get two ids, and the one that is written last stays. -/
theorem execute_race : ∃ (one two : StreamId) (since : Resolving), one ≠ two ∧
    generate (some (eight 1)) = .ok two ∧ since.config = ⟨[], [two.id], []⟩ ∧
    execute (fun _ => none) ⟨⟨[], [], []⟩, fun _ => .start⟩ race = some since ∧
    since.phase = Function.update (Function.update (fun _ => .start) 0 (.done (.ok one))) 1
      (.done (.ok two)) := by
  obtain ⟨one, first, spelled, -⟩ := generate_ok (eight 0)
  obtain ⟨two, second, spelled', -⟩ := generate_ok (eight 1)
  have different : one ≠ two := by
    rintro rfl
    have same := hexOf_injective (spelled.symm.trans spelled')
    exact absurd same (by decide)
  have unset : readConfig .works ⟨[], [], []⟩ = .ok none := rfl
  refine ⟨one, two, ⟨⟨[], [two.id], []⟩, Function.update (Function.update (fun _ => .start) 0
    (.done (.ok one))) 1 (.done (.ok two))⟩, different, second, rfl, ?_, rfl⟩
  have persisted : ∀ (random : Random) (stream : StreamId) (own : List Bytes),
      generate (some random) = .ok stream → own.length ≤ 1 →
      persist .works (some random) ⟨[], own, []⟩ = (.ok stream, ⟨[], [stream.id], []⟩) := by
    intro random stream own generated single
    simp [persist, generated, writeConfig, GitCall.set, single, ExitStatus.success, Except.map]
  have writes := persisted (eight 0) one [] first (by simp)
  have replaces := persisted (eight 1) two [one.id] second (by simp)
  -- The phases of the two runs are replaced in turn.
  have apart : (1 : Nat) ≠ 0 := by decide
  simp [execute, race, step, advance, unset, writes, replaces, Function.update_comm apart]

/-- A sync that starts behind a race of two first ones gets the id that was written last. -/
theorem execute_settles_raced :
    ∃ (two : StreamId) (since after : Resolving) (value : String),
      execute (fun _ => none) ⟨⟨[], [], []⟩, fun _ => .start⟩ race = some since ∧
      since.phase 1 = .done (.ok two) ∧ storedStream value = .ok two ∧
      execute (fun _ => none) since [.act 2 (.read .works)] = some after ∧
      (after.phase 2 = .start ∨ Resolves none value (after.phase 2)) := by
  -- Behind the race an id is stored and both runs are done, so nobody is about to replace it.
  obtain ⟨one, two, since, -, generated, config, ran, phases⟩ := execute_race
  obtain ⟨value, stored, reads⟩ := stored_generated generated []
  rw [← config] at stored
  have nobody : ∀ run, since.phase run ≠ .unset := by
    intro run
    simp only [phases, Function.update_apply]
    split
    · simp
    · split <;> simp
  have idle : since.phase 2 = .start := by simp [phases]
  obtain ⟨after, behind⟩ : ∃ after, execute (fun _ => none) since [.act 2 (.read .works)] =
      some after := by
    simp [execute, step, advance, idle, readConfig_works, stored]
  have settles := (execute_settles stored nobody (by simp) behind).2 2 idle
  exact ⟨two, since, after, value, ran, by simp [phases], reads, behind, settles⟩

/-- A run on its own does what the function does. -/
theorem execute_alone (requests : Nat → Option StreamId) {state : Resolving} {run : Nat}
    (idle : state.phase run = .start) (read write : GitCall) (random : Option Random) :
    let resolved := resolveStream read write random state.config (requests run)
    ∃ events, execute requests state events =
      some ⟨resolved.2, Function.update state.phase run (.done resolved.1)⟩ := by
  intro resolved
  obtain ⟨unfolded⟩ : Nonempty (resolved = resolveStream read write random state.config
    (requests run)) := ⟨rfl⟩
  unfold resolveStream at unfolded
  cases requested : requests run with
  | some stream =>
    simp only [requested] at unfolded
    exact ⟨[.act run (.read read)], by simp [execute, step, idle, advance, requested, unfolded]⟩
  | none =>
    simp only [requested] at unfolded
    cases found : readConfig read state.config with
    | error failure =>
      simp only [found] at unfolded
      exact ⟨[.act run (.read read)], by
        simp [execute, step, idle, advance, requested, found, unfolded]⟩
    | ok stored =>
      cases stored with
      | some value =>
        simp only [found] at unfolded
        exact ⟨[.act run (.read read)], by
          simp [execute, step, idle, advance, requested, found, unfolded]⟩
      | none =>
        -- A run that finds nothing stored takes a second step.
        simp only [found] at unfolded
        exact ⟨[.act run (.read read), .act run (.persist write random)], by
          simp [execute, step, idle, advance, requested, found, unfolded]⟩

end Runs

/--
The first sync of a repository gives it an id of its own, and every later one reuses it.

No id is stored, the repository has at most one value to replace, and no worktree or command
overrides it. Then the id is spelled by the random bytes, two digits each, and stored. Later syncs,
at once and in any order of their steps, get this id unless they request one or Git fails.
-/
theorem execute_reused {config : GitConfig} (unset : config.stored = none)
    (single : config.own.length ≤ 1) (plain : config.narrower = []) (random : Random) :
    ∃ stream, stream.id = hexOf random.1 ∧
      resolveStream .works .works (some random) config none =
        (.ok stream, { config with own := [stream.id] }) ∧
      ∀ requests events after, (∀ edited, .edit edited ∉ events) →
        execute requests ⟨{ config with own := [stream.id] }, fun _ => .start⟩ events =
          some after →
        after.config = { config with own := [stream.id] } ∧ ∀ run result,
          after.phase run = .done result →
          match requests run with
          | some requested => result = .ok requested
          | none => result = .ok stream ∨
              ∃ failure, result = .error failure ∧ failure.ofGit = true := by
  -- The id is stored by the first sync, and from then on it stays for the others.
  obtain ⟨broader, own, narrower⟩ := config
  obtain rfl : narrower = [] := plain
  obtain ⟨stream, generated, spelled, -⟩ := generate_ok random
  obtain ⟨value, stored, reads⟩ := stored_generated generated broader
  refine ⟨stream, spelled, ?_, fun requests events after unedited ran => ?_⟩
  · have found := (readConfig_works ⟨broader, own, []⟩).trans (congrArg _ unset)
    simp [resolveStream, found, persist, generated, writeConfig, GitCall.set, single,
      ExitStatus.success, Except.map]
  · have stays := execute_stays stored (fun run => by simp) unedited ran
    refine ⟨stays.config, fun run result done => ?_⟩
    rcases stays.resolves run rfl with idle | resolves
    · rw [done] at idle
      cases idle
    · rw [done] at resolves
      cases requested : requests run with
      | some other => simpa [Resolves, requested] using resolves
      | none => simpa [Resolves, requested, reads] using resolves

/-- A repository that never had an id: two later syncs at once get the one of the first. -/
theorem execute_reused_twice :
    ∃ (stream : StreamId) (after : Resolving), stream.id = hexOf (eight 1).1 ∧
      resolveStream .works .works (some (eight 1)) ⟨[], [], []⟩ none =
        (.ok stream, ⟨[], [stream.id], []⟩) ∧
      execute (fun _ => none) ⟨⟨[], [stream.id], []⟩, fun _ => .start⟩
        [.act 0 (.read .works), .act 1 (.read .works)] = some after ∧
      after.config = ⟨[], [stream.id], []⟩ ∧
      after.phase 0 = .done (.ok stream) ∧ after.phase 1 = .done (.ok stream) := by
  -- Both runs come behind the first sync, and Git does not fail them.
  obtain ⟨stream, spelled, resolved, later⟩ :=
    @execute_reused ⟨[], [], []⟩ rfl (by simp) rfl (eight 1)
  obtain ⟨same, generated, spelled', -⟩ := generate_ok (eight 1)
  obtain rfl : stream = same := StreamId.ext_id (spelled.trans spelled'.symm)
  obtain ⟨value, stored, reads⟩ := stored_generated generated []
  obtain ⟨after, ran, first, second⟩ : ∃ after, execute (fun _ => none)
      ⟨⟨[], [stream.id], []⟩, fun _ => .start⟩ [.act 0 (.read .works), .act 1 (.read .works)] =
        some after ∧ (∃ result, after.phase 0 = .done (.ok result)) ∧
      ∃ result, after.phase 1 = .done (.ok result) := by
    simp [execute, step, advance, readConfig_works, stored, reads]
  obtain ⟨config, results⟩ := later (fun _ => none) _ after (by simp) ran
  have gets : ∀ run, (∃ result, after.phase run = .done (.ok result)) →
      after.phase run = .done (.ok stream) := by
    intro run done
    obtain ⟨result, done⟩ := done
    rcases results run _ done with same | ⟨failure, refused, -⟩
    · rw [done, same]
    · cases refused
  exact ⟨stream, after, spelled, resolved, ran, config, gets 0 first, gets 1 second⟩

end Resolving

end GitFullSend

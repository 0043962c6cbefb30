import Mathlib.Logic.Function.Basic
import GitFullSend.Server.Reap

/-! Reaping and forgetting while pushes land: which refs can be lost, and to whom. -/

namespace GitFullSend

open Utf8 (Bytes ofText)

namespace Reaping

variable {Target : Type}

/-- What a pass is run for. -/
inductive Errand where
  | reap (cutoffUnixSecs : Int)
  | forget (stream : StreamId)

/-- How far a pass has come. -/
inductive Stage where
  | waiting
  /-- It reads the refs, and these streams were found stale. -/
  | scanning (stale : List StreamId)
  /-- It lists the refs of a stream, with other streams behind it. -/
  | listing (stream : StreamId) (edits : List Bytes) (rest : List StreamId)
  /-- It deletes what it has listed. -/
  | deleting (stream : StreamId) (edits : List Bytes) (rest : List StreamId)
  | over

/-- Go on with the next stream that is to be forgotten, if there is one. -/
def goOn : List StreamId → Stage
  | [] => .over
  | stream :: rest => .listing stream [] rest

/-- The next thing a pass does. -/
inductive Action where
  | start
  /-- It reads a ref and the time of its commit. -/
  | visit (name : Bytes)
  | scanned
  | list (name : Bytes)
  | listed
  | delete (name : Bytes)
  | next
  /-- The Git library fails. -/
  | fail

/-- One step of a pass, or `none` when it cannot come now. -/
def advance (commitTime : Target → Option Int) (errand : Errand) (refs : Bytes → Option Target) :
    Stage → Action → Option (Stage × (Bytes → Option Target))
  | .waiting, .start =>
    match errand with
    | .reap _ => some (.scanning [], refs)
    | .forget stream => some (.listing stream [] [], refs)
  | .scanning stale, .visit name =>
    match errand, refs name with
    | .reap cutoffUnixSecs, some target =>
      if streamsPrefix <+: name then
        if (listedAs name).isSome ∧ (commitTime target).isNone then some (.over, refs)
        else
          let found := (staleEntry commitTime cutoffUnixSecs (name, target)).map Prod.fst
          some (.scanning (stale ++ found.toList), refs)
      else none
    | _, _ => none
  | .scanning stale, .scanned => some (goOn stale, refs)
  | .listing stream edits rest, .list name =>
    if streamPrefix stream <+: name ∧ (refs name).isSome ∧ !edits.contains name then
      some (.listing stream (edits ++ [name]) rest, refs)
    else none
  | .listing stream edits rest, .listed => some (.deleting stream edits rest, refs)
  | .deleting stream edits rest, .delete name =>
    -- Whatever the ref points at by now, the deletion is unconditional.
    if edits.contains name then
      some (.deleting stream (edits.erase name) rest, Function.update refs name none)
    else none
  | .deleting _ [] rest, .next => some (goOn rest, refs)
  | .over, _ => none
  | _, .fail => some (.over, refs)
  | _, _ => none

/-- Something that happens to the refs of a server. -/
inductive Event (Target : Type) where
  /-- A pass takes a step. -/
  | act (place : Nat) (action : Action)
  /-- An update of a push lands, or deletes the ref. -/
  | push (name : Bytes) (target : Option Target)

end Reaping

/-- A server on which passes run: its refs, and how far the passes are. -/
structure Reaping (Target : Type) where
  refs : Bytes → Option Target
  stage : Nat → Reaping.Stage

namespace Reaping

variable {Target : Type}

/-- Before the first pass. -/
def initial (refs : Bytes → Option Target) : Reaping Target := ⟨refs, fun _ => .waiting⟩

/-- One event. -/
def step (commitTime : Target → Option Int) (errands : Nat → Errand) (state : Reaping Target) :
    Event Target → Option (Reaping Target)
  | .act place action =>
    (advance commitTime (errands place) state.refs (state.stage place) action).map fun moved =>
      ⟨moved.2, Function.update state.stage place moved.1⟩
  | .push name target => some { state with refs := Function.update state.refs name target }

/-- Events in their order. -/
def execute (commitTime : Target → Option Int) (errands : Nat → Errand) (state : Reaping Target)
    (events : List (Event Target)) : Option (Reaping Target) :=
  events.foldlM (step commitTime errands) state

/-- The value of a ref by its last push, as if no pass had ever deleted it. -/
def pushed (start : Bytes → Option Target) (events : List (Event Target)) (name : Bytes) :
    Option Target :=
  events.foldl (fun value event =>
    match event with
    | .push other target => if other = name then target else value
    | .act _ _ => value) (start name)

/--
A pass has a reason to forget a stream.

It was asked to, or it has read the stream's `code` ref when its last push was stale already.
-/
def Condemned (commitTime : Target → Option Int) (errand : Errand) (start : Bytes → Option Target)
    (place : Nat) (events : List (Event Target)) (stream : StreamId) : Prop :=
  match errand with
  | .forget other => other = stream
  | .reap cutoffUnixSecs => ∃ front code back target committed,
      events = front ++ .act place (.visit code) :: back ∧ pushed start front code = some target ∧
        staleEntry commitTime cutoffUnixSecs (code, target) = some (stream, committed)

/-- A pass has deleted a ref since its last push, with a reason to forget a stream above it. -/
def Lost (commitTime : Target → Option Int) (errands : Nat → Errand)
    (start : Bytes → Option Target) (events : List (Event Target)) (name : Bytes) : Prop :=
  ∃ first place second stream, events = first ++ .act place (.delete name) :: second ∧
    (∀ target, .push name target ∉ second) ∧ streamPrefix stream <+: name ∧
    Condemned commitTime (errands place) start place first stream

/-- The streams a pass has on its list. -/
def Stage.pending : Stage → List StreamId
  | .waiting | .over => []
  | .scanning stale => stale
  | .listing stream _ rest | .deleting stream _ rest => stream :: rest

/-- What a pass has listed lies under the stream it is at. -/
def Stage.Confined : Stage → Prop
  | .waiting | .scanning _ | .over => True
  | .listing stream edits _ | .deleting stream edits _ =>
    ∀ name ∈ edits, streamPrefix stream <+: name

/-- What can be said of a server after any events. -/
structure Traced (commitTime : Target → Option Int) (errands : Nat → Errand)
    (start : Bytes → Option Target) (events : List (Event Target)) (state : Reaping Target) :
    Prop where
  pending : ∀ place, ∀ stream ∈ (state.stage place).pending,
    Condemned commitTime (errands place) start place events stream
  confined : ∀ place, (state.stage place).Confined
  refs : ∀ name, state.refs name = pushed start events name ∨
    state.refs name = none ∧ Lost commitTime errands start events name

section Runs

variable {commitTime : Target → Option Int} {errands : Nat → Errand}
  {start : Bytes → Option Target} {events : List (Event Target)} {event : Event Target}
  {state after : Reaping Target}

/-- A ref is stale when it lists a stream, and its commit is older than the cutoff. -/
theorem staleEntry_eq_some {cutoffUnixSecs committed : Int} {entry : Bytes × Target}
    {stream : StreamId} :
    staleEntry commitTime cutoffUnixSecs entry = some (stream, committed) ↔
      listedAs entry.1 = some stream ∧ commitTime entry.2 = some committed ∧
        committed < cutoffUnixSecs := by
  -- The definition is a chain of questions, each of which must have an answer.
  simp only [staleEntry, Option.bind_eq_bind, Option.bind_eq_some_iff,
    Option.ite_none_right_eq_some, Option.some.injEq, Prod.mk.injEq]
  constructor
  · rintro ⟨other, listed, time, timed, old, rfl, rfl⟩
    exact ⟨listed, timed, old⟩
  · rintro ⟨listed, timed, old⟩
    exact ⟨stream, listed, committed, timed, old, rfl, rfl⟩

/-- A reason remains, whatever happens. -/
theorem Condemned.later {errand : Errand} {place : Nat} {stream : StreamId}
    (condemned : Condemned commitTime errand start place events stream) (event : Event Target) :
    Condemned commitTime errand start place (events ++ [event]) stream := by
  -- The reason lies in the past, to which the event only adds.
  cases errand with
  | forget other => exact condemned
  | reap cutoffUnixSecs =>
    obtain ⟨front, code, back, target, committed, rfl, read, stale⟩ := condemned
    exact ⟨front, code, back ++ [event], target, committed, by simp, read, stale⟩

/-- A lost ref remains so until it is pushed again. -/
theorem Lost.later {name : Bytes} (lost : Lost commitTime errands start events name)
    (other : ∀ target, event ≠ .push name target) :
    Lost commitTime errands start (events ++ [event]) name := by
  -- The deletion lies in the past, and the event is no push behind it.
  obtain ⟨first, place, second, stream, rfl, unpushed, below, condemned⟩ := lost
  refine ⟨first, place, second ++ [event], stream, by simp, fun target member => ?_, below,
    condemned⟩
  rcases List.mem_append.mp member with member | member
  · exact unpushed target member
  · exact other target (List.mem_singleton.mp member).symm

/-- Only a push of a ref changes what it was pushed to last. -/
theorem pushed_concat {name : Bytes} (other : ∀ target, event ≠ .push name target) :
    pushed start (events ++ [event]) name = pushed start events name := by
  -- The value is that of a fold, whose last step passes over the event.
  rw [pushed, List.foldl_append]
  cases event with
  | act place action => rfl
  | push ref target =>
    have apart : ref ≠ name := fun same => other target (same ▸ rfl)
    simp [pushed, apart]

/-- Going on leaves the streams behind on the list. -/
theorem pending_goOn (streams : List StreamId) :
    (goOn streams).pending = streams ∧ (goOn streams).Confined := by
  cases streams with
  | nil => exact ⟨rfl, trivial⟩
  | cons stream rest => exact ⟨rfl, by simp [goOn, Stage.Confined]⟩

/-- What a step of a pass can do. -/
inductive Moves (commitTime : Target → Option Int) (errand : Errand)
    (refs : Bytes → Option Target) : Stage → Action → Stage → (Bytes → Option Target) → Prop where
  /-- It goes on without a new stream on its list, and without a new ref. -/
  | passes {stage action after} : after.pending ⊆ stage.pending → after.Confined →
      Moves commitTime errand refs stage action after refs
  | begins {stream} : errand = .forget stream →
      Moves commitTime errand refs .waiting .start (.listing stream [] []) refs
  | visits {stale name cutoffUnixSecs target} : errand = .reap cutoffUnixSecs →
      refs name = some target →
      Moves commitTime errand refs (.scanning stale) (.visit name)
        (.scanning (stale ++
          ((staleEntry commitTime cutoffUnixSecs (name, target)).map Prod.fst).toList)) refs
  | deletes {stream edits rest name} : name ∈ edits →
      Moves commitTime errand refs (.deleting stream edits rest) (.delete name)
        (.deleting stream (edits.erase name) rest) (Function.update refs name none)

/-- Every step of a pass is one of these moves. -/
theorem advance_moves {errand : Errand} {refs changed : Bytes → Option Target}
    {stage after : Stage} {action : Action} (confined : stage.Confined)
    (moved : advance commitTime errand refs stage action = some (after, changed)) :
    Moves commitTime errand refs stage action after changed := by
  -- The cases are those of the definition, from stage to stage.
  unfold advance at moved
  split at moved
  · -- A pass begins.
    split at moved
    · cases moved
      exact .passes (by simp [Stage.pending]) trivial
    · cases moved
      exact .begins rfl
  · -- A ref is visited, which ends the pass when its commit has no time.
    split at moved
    · rename_i read
      split at moved
      · split at moved
        · cases moved
          exact .passes (by simp [Stage.pending]) trivial
        · cases moved
          exact .visits rfl read
      · cases moved
    · cases moved
  · -- The scan is over.
    cases moved
    obtain ⟨pending, confined⟩ := pending_goOn ‹_›
    exact .passes (by rw [pending]; exact List.Subset.refl _) confined
  · -- A ref is listed, which is one below the stream.
    split at moved
    · rename_i found
      cases moved
      refine .passes (List.Subset.refl _) fun name listed => ?_
      rcases List.mem_append.mp listed with listed | listed
      · exact confined name listed
      · exact List.mem_singleton.mp listed ▸ found.1
    · cases moved
  · cases moved
    exact .passes (List.Subset.refl _) confined
  · -- A ref that was listed is deleted.
    split at moved
    · rename_i listed
      cases moved
      exact .deletes (List.contains_iff_mem.mp listed)
    · cases moved
  · -- The stream is done with.
    cases moved
    obtain ⟨pending, confined⟩ := pending_goOn ‹_›
    exact .passes (by rw [pending]; exact List.subset_cons_self _ _) confined
  · cases moved
  · cases moved
    exact .passes (by simp [Stage.pending]) trivial
  · cases moved

/-- A push keeps everything traced. -/
theorem push_traced {name : Bytes} {target : Option Target}
    (traced : Traced commitTime errands start events state) :
    Traced commitTime errands start (events ++ [.push name target])
      { state with refs := Function.update state.refs name target } := by
  -- Passes do not move, so only what is known of the pushed ref is new.
  refine ⟨fun place stream listed => (traced.pending place stream listed).later _,
    traced.confined, fun other => ?_⟩
  by_cases same : other = name
  · -- The pushed ref has just this value.
    subst same
    simp [pushed]
  · have apart : ∀ value, Event.push name target ≠ .push other value := by
      rintro value ⟨⟩
      exact same rfl
    simp only [Function.update_of_ne same]
    rw [pushed_concat apart]
    exact (traced.refs other).imp_right fun lost => ⟨lost.1, lost.2.later apart⟩

/-- A step of a pass keeps everything traced. -/
theorem moves_traced {place : Nat} {action : Action} {next : Stage}
    {changed : Bytes → Option Target}
    (traced : Traced commitTime errands start events state)
    (moved : Moves commitTime (errands place) state.refs (state.stage place) action next changed) :
    Traced commitTime errands start (events ++ [.act place action])
      ⟨changed, Function.update state.stage place next⟩ := by
  have unpushed : ∀ (name : Bytes) (target : Option Target),
      Event.act place action ≠ .push name target := by simp
  -- The reasons and the refs that nobody touches are those of before.
  have before : ∀ {streams : List StreamId}, streams ⊆ (state.stage place).pending →
      ∀ stream ∈ streams, Condemned commitTime (errands place) start place
        (events ++ [.act place action]) stream :=
    fun within stream listed => (traced.pending place stream (within listed)).later _
  have kept : ∀ name, state.refs name = pushed start (events ++ [.act place action]) name ∨
      state.refs name = none ∧
        Lost commitTime errands start (events ++ [.act place action]) name := by
    intro name
    rw [pushed_concat (unpushed name)]
    exact (traced.refs name).imp_right fun lost => ⟨lost.1, lost.2.later (unpushed name)⟩
  suffices own : (∀ stream ∈ next.pending, Condemned commitTime (errands place) start place
      (events ++ [.act place action]) stream) ∧ next.Confined ∧
      ∀ name, changed name = pushed start (events ++ [.act place action]) name ∨
        changed name = none ∧
          Lost commitTime errands start (events ++ [.act place action]) name by
    refine ⟨fun other stream listed => ?_, fun other => ?_, own.2.2⟩
    · by_cases same : other = place
      · subst same
        simp only [Function.update_self] at listed
        exact own.1 stream listed
      · simp only [Function.update_of_ne same] at listed
        exact (traced.pending other stream listed).later _
    · by_cases same : other = place
      · subst same
        simp only [Function.update_self]
        exact own.2.1
      · simp only [Function.update_of_ne same]
        exact traced.confined other
  have confined := traced.confined place
  have reasons := traced.pending place
  generalize state.stage place = stage at moved before confined reasons
  cases moved with
  | passes within confined => exact ⟨before within, confined, kept⟩
  | begins asked =>
    refine ⟨fun stream listed => ?_, by simp [Stage.Confined], kept⟩
    rw [asked]
    exact (List.mem_singleton.mp listed).symm
  | @visits stale name cutoffUnixSecs target asked read =>
    refine ⟨fun stream listed => ?_, trivial, kept⟩
    rcases List.mem_append.mp listed with listed | listed
    · exact before (List.Subset.refl _) stream listed
    · -- The ref is read now, so its value is that of its last push.
      obtain ⟨found, stale, rfl⟩ := Option.map_eq_some_iff.mp (Option.mem_toList.mp listed)
      rw [asked]
      refine ⟨events, name, [], target, found.2, rfl, ?_, stale⟩
      rcases traced.refs name with value | ⟨gone, -⟩
      · rw [← value, read]
      · rw [gone] at read
        cases read
  | @deletes stream edits rest name listed =>
    refine ⟨before (List.Subset.refl _), fun name member =>
      confined name (List.mem_of_mem_erase member), fun other => ?_⟩
    by_cases same : other = name
    · -- Whoever lists a ref for deletion has a reason.
      subst same
      exact .inr ⟨Function.update_self _ _ _, events, place, [], stream, rfl, by simp,
        confined other listed, reasons stream List.mem_cons_self⟩
    · rw [Function.update_of_ne same]
      exact kept other

/-- After any events everything is traced. -/
theorem execute_traced (ran : execute commitTime errands (initial start) events = some state) :
    Traced commitTime errands start events state := by
  -- At first every pass waits, and every ref is as it was.
  induction events using List.reverseRecOn generalizing state with
  | nil =>
    cases ran
    exact ⟨fun place => by simp [initial, Stage.pending], fun place => trivial,
      fun name => .inl rfl⟩
  | append_singleton events event ih =>
    obtain ⟨middle, earlier, stepped⟩ := Folds.foldlM_concat.mp ran
    have traced := ih earlier
    cases event with
    | push name target => cases stepped; exact push_traced traced
    | act place action =>
      obtain ⟨⟨next, changed⟩, moved, rfl⟩ := Option.map_eq_some_iff.mp stepped
      exact moves_traced traced (advance_moves (traced.confined place) moved)

/--
A ref is only lost to a pass with a reason for it.

Any passes run at once with any pushes, in any order of their steps, and the Git library may fail at
any of them. Then a ref either has the value of its last push, or that of the start when it was not
pushed, or a pass has deleted it after its last push. That pass was to forget a stream at or above
the ref, or it had read the `code` ref of such a stream when the last push of that was stale.
-/
theorem execute_reaped (ran : execute commitTime errands (initial start) events = some state)
    (name : Bytes) : state.refs name = pushed start events name ∨
      state.refs name = none ∧ ∃ first place second stream,
        events = first ++ .act place (.delete name) :: second ∧
        (∀ target, .push name target ∉ second) ∧ streamPrefix stream <+: name ∧
        (errands place = .forget stream ∨
          ∃ cutoffUnixSecs front code back target committed,
            errands place = .reap cutoffUnixSecs ∧
            first = front ++ .act place (.visit code) :: back ∧
            listedAs code = some stream ∧ pushed start front code = some target ∧
            commitTime target = some committed ∧ committed < cutoffUnixSecs) := by
  -- What is traced of the ref is this, but for the two kinds of errands.
  refine ((execute_traced ran).refs name).imp_right ?_
  rintro ⟨gone, first, place, second, stream, split, unpushed, below, condemned⟩
  refine ⟨gone, first, place, second, stream, split, unpushed, below, ?_⟩
  unfold Condemned at condemned
  cases asked : errands place with
  | forget other =>
    rw [asked] at condemned
    exact .inl (by rw [condemned])
  | reap cutoffUnixSecs =>
    rw [asked] at condemned
    obtain ⟨front, code, back, target, committed, seen, read, stale⟩ := condemned
    obtain ⟨listed, timed, old⟩ := staleEntry_eq_some.mp stale
    exact .inr ⟨cutoffUnixSecs, front, code, back, target, committed, rfl, seen, listed, read,
      timed, old⟩

end Runs

section Alone

variable {commitTime : Target → Option Int} {errands : Nat → Errand} {place : Nat}

/-- Reading refs one by one gathers the stale streams in the order of their refs. -/
theorem execute_visits {cutoffUnixSecs : Int} (asked : errands place = .reap cutoffUnixSecs)
    {entries : List (Bytes × Target)} {stale : List StreamId} {state : Reaping Target}
    (scanning : state.stage place = .scanning stale)
    (held : ∀ entry ∈ entries, state.refs entry.1 = some entry.2 ∧ streamsPrefix <+: entry.1)
    (timed : ∀ entry ∈ entries, (listedAs entry.1).isSome → (commitTime entry.2).isSome) :
    execute commitTime errands state (entries.map fun entry => .act place (.visit entry.1)) =
      some ⟨state.refs, Function.update state.stage place (.scanning (stale ++
        (entries.filterMap (staleEntry commitTime cutoffUnixSecs)).map Prod.fst))⟩ := by
  -- The induction is on the refs, with more and more streams gathered.
  induction entries generalizing stale state with
  | nil => simp [execute, ← scanning]
  | cons entry rest ih =>
    obtain ⟨⟨read, opens⟩, others⟩ := List.forall_mem_cons.mp held
    obtain ⟨here, timed⟩ := List.forall_mem_cons.mp timed
    have readable : ¬ ((listedAs entry.1).isSome = true ∧ (commitTime entry.2).isNone = true) := by
      rintro ⟨listed, untimed⟩
      have timed := here listed
      simp_all
    let found := ((staleEntry commitTime cutoffUnixSecs entry).map Prod.fst).toList
    have visited : step commitTime errands state (.act place (.visit entry.1)) =
        some ⟨state.refs, Function.update state.stage place (.scanning (stale ++ found))⟩ := by
      simp only [step, scanning, advance, asked, read, opens, if_true, if_neg readable]
      rfl
    have later := @ih (stale ++ found)
      ⟨state.refs, Function.update state.stage place (.scanning (stale ++ found))⟩
      (Function.update_self _ _ _) others timed
    rw [List.map_cons, execute, List.foldlM_cons, visited, Option.bind_eq_bind, Option.bind_some]
    refine later.trans ?_
    simp only [Function.update_idem]
    cases gathered : staleEntry commitTime cutoffUnixSecs entry <;>
      simp [found, gathered]

/-- Listing refs one by one gathers their names. -/
theorem execute_lists {stream : StreamId} {names edits : List Bytes} {rest : List StreamId}
    {state : Reaping Target} (listing : state.stage place = .listing stream edits rest)
    (held : ∀ name ∈ names, streamPrefix stream <+: name ∧ (state.refs name).isSome)
    (distinct : (edits ++ names).Nodup) :
    execute commitTime errands state (names.map fun name => .act place (.list name)) =
      some ⟨state.refs, Function.update state.stage place
        (.listing stream (edits ++ names) rest)⟩ := by
  -- The induction is on the names, with more and more of them listed.
  induction names generalizing edits state with
  | nil => simp [execute, ← listing]
  | cons name names ih =>
    obtain ⟨⟨below, stored⟩, others⟩ := List.forall_mem_cons.mp held
    have fresh : name ∉ edits := fun listed =>
      (List.nodup_append.mp distinct).2.2 name listed name List.mem_cons_self rfl
    have found : step commitTime errands state (.act place (.list name)) =
        some ⟨state.refs, Function.update state.stage place
          (.listing stream (edits ++ [name]) rest)⟩ := by
      simp [step, listing, advance, below, stored, fresh]
    have later := @ih (edits ++ [name])
      ⟨state.refs, Function.update state.stage place (.listing stream (edits ++ [name]) rest)⟩
      (Function.update_self _ _ _) others (by simpa using distinct)
    rw [List.map_cons, execute, List.foldlM_cons, found, Option.bind_eq_bind, Option.bind_some]
    refine later.trans ?_
    simp only [Function.update_idem, List.append_assoc, List.singleton_append]

/-- Deleting the listed refs one by one frees their names. -/
theorem execute_deletes {stream : StreamId} {edits : List Bytes} {rest : List StreamId}
    {state : Reaping Target} (deleting : state.stage place = .deleting stream edits rest) :
    execute commitTime errands state (edits.map fun name => .act place (.delete name)) =
      some ⟨fun name => if name ∈ edits then none else state.refs name,
        Function.update state.stage place (.deleting stream [] rest)⟩ := by
  -- The induction is on what is listed.
  induction edits generalizing state with
  | nil => simp [execute, ← deleting]
  | cons name edits ih =>
    have deleted : step commitTime errands state (.act place (.delete name)) =
        some ⟨Function.update state.refs name none,
          Function.update state.stage place (.deleting stream edits rest)⟩ := by
      simp [step, deleting, advance]
    have later := @ih ⟨Function.update state.refs name none,
      Function.update state.stage place (.deleting stream edits rest)⟩ (Function.update_self _ _ _)
    rw [List.map_cons, execute, List.foldlM_cons, deleted, Option.bind_eq_bind, Option.bind_some]
    refine later.trans ?_
    simp only [Function.update_idem]
    congr 2
    funext other
    by_cases same : other = name
    · simp [same]
    · simp [same, Function.update_of_ne]

/-- Steps behind steps. -/
theorem execute_append {state middle last : Reaping Target} {before behind : List Action}
    (first : execute commitTime errands state (before.map (.act place)) = some middle)
    (second : execute commitTime errands middle (behind.map (.act place)) = some last) :
    execute commitTime errands state ((before ++ behind).map (.act place)) = some last := by
  rw [List.map_append, execute, List.foldlM_append]
  exact Option.bind_eq_some_iff.mpr ⟨middle, first, second⟩

/-- A pass that lists the refs of a stream on its own does what forgetting the stream does. -/
theorem execute_forgets {gix : Gix} {repo : Bytes} {store after : RefStore Target}
    {stream : StreamId} {rest : List StreamId} {stage : Nat → Stage}
    {result : Except ServerError Nat} (listing : stage place = .listing stream [] rest)
    (forgot : forgetStream gix repo store stream = (result, after)) :
    ∃ actions : List Action,
      execute commitTime errands ⟨store.get, stage⟩ (actions.map (.act place)) =
        some ⟨after.get, Function.update stage place
          (if result.isOk then goOn rest else .over)⟩ := by
  cases result with
  | error failure =>
    -- Nothing has been deleted, and the pass gives up.
    rw [forgetStream_error forgot]
    exact ⟨[.fail], by simp [execute, step, listing, advance, Except.isOk, Except.toBool]⟩
  | ok removed =>
    obtain ⟨-, rfl⟩ := forgetStream_ok forgot
    have names : ((store.prefixed (streamPrefix stream)).map Prod.fst).Nodup :=
      (List.filter_sublist.map Prod.fst).nodup store.distinct
    have held : ∀ name ∈ (store.prefixed (streamPrefix stream)).map Prod.fst,
        streamPrefix stream <+: name ∧ (store.get name).isSome := by
      intro name listed
      obtain ⟨entry, member, rfl⟩ := List.mem_map.mp listed
      obtain ⟨stored, below⟩ := RefStore.mem_prefixed.mp member
      exact ⟨below, by rw [RefStore.get_eq_some.mpr stored]; rfl⟩
    generalize (store.prefixed (streamPrefix stream)).map Prod.fst = edits at names held
    have lists := @execute_lists _ commitTime errands place stream edits [] rest ⟨store.get, stage⟩
      listing held (by simpa using names)
    have listed : execute commitTime errands ⟨store.get, Function.update stage place
        (.listing stream edits rest)⟩ ([.listed].map (.act place)) =
        some ⟨store.get, Function.update stage place (.deleting stream edits rest)⟩ := by
      simp [execute, step, advance]
    have deletes := @execute_deletes _ commitTime errands place stream edits rest ⟨store.get,
      Function.update stage place (.deleting stream edits rest)⟩ (Function.update_self _ _ _)
    have next : execute commitTime errands ⟨(store.delete edits).get, Function.update stage place
        (.deleting stream [] rest)⟩ ([.next].map (.act place)) =
        some ⟨(store.delete edits).get, Function.update stage place (goOn rest)⟩ := by
      simp [execute, step, advance]
    have left : (fun name => if name ∈ edits then none else store.get name) =
        (store.delete edits).get := funext fun name => (RefStore.get_delete edits).symm
    simp only [Function.update_idem, left, List.nil_append] at lists deletes
    refine ⟨edits.map .list ++ ([.listed] ++ (edits.map .delete ++ [.next])), ?_⟩
    exact execute_append (by simpa [Function.comp_def] using lists) (execute_append listed
      (execute_append (by simpa [Function.comp_def] using deletes) next))

/-- A pass that goes through streams on its own does what forgetting them in turn does. -/
theorem execute_each {gix : Nat → Gix} {repo : Bytes} {call : Nat} {stale : List (StreamId × Int)}
    {store after : RefStore Target} {stage : Nat → Stage}
    {result : Except ServerError (List ReapedStream)}
    (going : stage place = goOn (stale.map Prod.fst))
    (passed : reapEach gix repo false call stale store = (result, after)) :
    ∃ actions : List Action,
      execute commitTime errands ⟨store.get, stage⟩ (actions.map (.act place)) =
        some ⟨after.get, Function.update stage place .over⟩ := by
  -- The induction is on the streams, each forgotten from what the ones before it have left.
  induction stale generalizing call store stage result with
  | nil =>
    cases passed
    exact ⟨[], by simp [execute, ← show stage place = .over from going]⟩
  | cons entry rest ih =>
    obtain ⟨stream, committed⟩ := entry
    simp only [reapEach, Bool.false_eq_true, if_false] at passed
    cases forgot : forgetStream (gix call) repo store stream with
    | mk removed middle =>
      obtain ⟨first, ran⟩ := @execute_forgets _ commitTime errands place _ _ _ _ _
        (rest.map Prod.fst) _ _ going forgot
      cases removed with
      | error failure =>
        simp only [forgot] at passed
        cases passed
        exact ⟨first, ran⟩
      | ok removed =>
        simp only [forgot] at passed
        cases later : reapEach gix repo false (call + 1) rest middle with
        | mk reaped last =>
          simp only [later] at passed
          have same : last = after := by
            cases reaped <;> exact congrArg Prod.snd passed
          subst same
          obtain ⟨second, behind⟩ :=
            ih (Function.update_self place (goOn (rest.map Prod.fst)) stage) later
          rw [Function.update_idem] at behind
          exact ⟨first ++ second, execute_append ran behind⟩

/-- A reaping pass on its own does what the function does, also when that fails. -/
theorem execute_alone {gix : Nat → Gix} {repo : Bytes} {store after : RefStore Target}
    {cutoffUnixSecs : Int} {result : Except ServerError ReapOutcome} {stage : Nat → Stage}
    (asked : errands place = .reap cutoffUnixSecs) (waiting : stage place = .waiting)
    (ran : reapStreams gix commitTime repo store cutoffUnixSecs false = (result, after)) :
    ∃ actions : List Action,
      execute commitTime errands ⟨store.get, stage⟩ (actions.map (.act place)) =
        some ⟨after.get, Function.update stage place .over⟩ := by
  -- The scan and the deletions are two parts of the run, which a listing joins.
  rcases reapStreams_cases ran with ⟨rfl, -⟩ | ⟨timed, reaped, passed, -⟩
  · -- Nothing is deleted before the pass fails.
    exact ⟨[.fail], by simp [execute, step, waiting, advance]⟩
  · have start : execute commitTime errands ⟨store.get, stage⟩ ([.start].map (.act place)) =
        some ⟨store.get, Function.update stage place (.scanning [])⟩ := by
      simp [execute, step, waiting, advance, asked]
    have visits := @execute_visits _ commitTime errands place _ asked
      (store.prefixed streamsPrefix) [] ⟨store.get, Function.update stage place (.scanning [])⟩
      (Function.update_self _ _ _) (fun entry member => by
        obtain ⟨stored, opens⟩ := RefStore.mem_prefixed.mp member
        exact ⟨RefStore.get_eq_some.mpr stored, opens⟩) timed
    simp only [Function.update_idem, List.nil_append] at visits
    generalize (store.prefixed streamsPrefix).filterMap (staleEntry commitTime cutoffUnixSecs) =
      stale at passed visits
    have scanned : execute commitTime errands ⟨store.get, Function.update stage place
        (.scanning (stale.map Prod.fst))⟩ ([.scanned].map (.act place)) =
        some ⟨store.get, Function.update stage place (goOn (stale.map Prod.fst))⟩ := by
      simp [execute, step, advance]
    obtain ⟨actions, each⟩ := @execute_each _ commitTime errands place _ _ _ _ _ _ _ _
      (Function.update_self place (goOn (stale.map Prod.fst)) stage) passed
    rw [Function.update_idem] at each
    refine ⟨[.start] ++ ((store.prefixed streamsPrefix).map (fun entry => .visit entry.1) ++
      ([.scanned] ++ actions)), ?_⟩
    exact execute_append start (execute_append (by simpa [Function.comp_def] using visits)
      (execute_append scanned each))

end Alone

/-- A push that lands behind the reading of the `code` ref it replaces is lost with it. -/
theorem execute_reaped_pushed :
    ∃ (stream : StreamId) (start : Bytes → Option Int) (events : List (Event Int))
      (state : Reaping Int),
      execute some (fun _ => .reap 100) (initial start) events = some state ∧
      pushed start events (codeRef stream) = some 200 ∧ state.refs (codeRef stream) = none ∧
      ∃ place front code back target, events = front ++ .act place (.visit code) :: back ∧
        pushed start front code = some target ∧ target < 100 := by
  -- The old commit is read, the new one is pushed, and then the ref is deleted.
  let stream : StreamId := ⟨ofText "s", by decide, by decide, by decide⟩
  let code := codeRef stream
  let events : List (Event Int) := [.act 0 .start, .act 0 (.visit code), .push code (some 200),
    .act 0 .scanned, .act 0 (.list code), .act 0 .listed, .act 0 (.delete code)]
  have below : streamPrefix stream <+: code := by decide
  have opens : streamsPrefix <+: code := by decide
  have listed : listedAs code = some stream := listedAs_codeRef stream
  have old : staleEntry some 100 (code, (5 : Int)) = some (stream, 5) :=
    staleEntry_eq_some.mpr ⟨listed, rfl, by decide⟩
  obtain ⟨state, ran, gone⟩ : ∃ state, execute some (fun _ => .reap 100)
      (initial fun _ => some 5) events = some state ∧ state.refs code = none := by
    simp [execute, events, step, advance, initial, opens, old, goOn, below]
  have last : pushed (fun _ => some 5) events code = some 200 := by simp [pushed, events]
  refine ⟨stream, fun _ => some 5, events, state, ran, last, gone, ?_⟩
  rcases execute_reaped ran code with kept | ⟨-, first, place, second, other, split, -, -, reason⟩
  · rw [gone, last] at kept
    cases kept
  · rcases reason with asked | ⟨cutoff, front, seen, back, target, committed, asked, rfl, -, read,
      timed, before⟩
    · cases asked
    · cases asked
      cases timed
      exact ⟨place, front, seen, back ++ .act place (.delete code) :: second, target,
        by rw [split, List.append_assoc, List.cons_append], read, before⟩

end Reaping

end GitFullSend

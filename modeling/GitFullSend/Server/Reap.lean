import GitFullSend.Server.Streams

/-! Forgetting every stream whose `code` commit is older than a cutoff. -/

namespace GitFullSend

open Utf8 (Bytes ofText)
open Segments (Above AtOrAbove)

variable {Target : Type}

/-- One stream considered by a reaping pass. -/
structure ReapedStream where
  /-- The stale stream. -/
  stream : StreamId
  /-- The `code` commit's committer time, in Unix seconds, that made it stale. -/
  committedUnixSecs : Int
  /-- Refs removed forgetting it, or the number a dry run would remove. -/
  refsRemoved : Nat
  deriving DecidableEq

/-- The outcome of a reaping pass. -/
structure ReapOutcome where
  /-- Streams scanned: every stream with a `code` ref. -/
  scanned : Nat
  /-- Streams found stale and, unless it is a dry run, forgotten. -/
  reaped : List ReapedStream
  /-- Whether this was a dry run. -/
  dryRun : Bool
  deriving DecidableEq

/--
Classify enumerated refs: how many are a stream's `code` ref, and which of those are stale.

The commit time of an object is unknown when it does not peel to a commit that can be read.
-/
def classifyStale (commitTime : Target → Option Int) (cutoffUnixSecs : Int) :
    List (Bytes × Target) → Except ServerError (Nat × List (StreamId × Int))
  | [] => .ok (0, [])
  | (name, target) :: rest =>
    match listedAs name with
    | none => classifyStale commitTime cutoffUnixSecs rest
    | some stream =>
      match commitTime target with
      | none => .error .reap
      | some committed => do
        let (scanned, stale) ← classifyStale commitTime cutoffUnixSecs rest
        -- A stream is stale when it is strictly older than the cutoff.
        pure (scanned + 1, if committed < cutoffUnixSecs then (stream, committed) :: stale else stale)

/-- Count the refs a stream holds without deleting any. -/
def countStreamRefs (gix : Gix) (store : RefStore Target) (stream : StreamId) :
    Except ServerError Nat := do
  let entries ← enumerate gix .reap store (streamPrefix stream)
  pure entries.length

/-- Forget each stale stream in turn, or count its refs, stopping at the first failure. -/
def reapEach (gix : Nat → Gix) (repo : Bytes) (dryRun : Bool) :
    Nat → List (StreamId × Int) → RefStore Target →
      Except ServerError (List ReapedStream) × RefStore Target
  | _, [], store => (.ok [], store)
  | call, (stream, committed) :: rest, store =>
    let (refsRemoved, after) :=
      if dryRun then (countStreamRefs (gix call) store stream, store)
      else forgetStream (gix call) repo store stream
    match refsRemoved with
    | .error failure => (.error failure, after)
    | .ok refsRemoved =>
      match reapEach gix repo dryRun (call + 1) rest after with
      | (.error failure, last) => (.error failure, last)
      | (.ok reaped, last) => (.ok (⟨stream, committed, refsRemoved⟩ :: reaped), last)

/--
Forget every stream whose `code` commit is older than the cutoff.

Every stale stream is found before the first one is forgotten.
The library is asked again for each of them, so it may fail at any one.
-/
def reapStreams (gix : Nat → Gix) (commitTime : Target → Option Int) (repo : Bytes)
    (store : RefStore Target) (cutoffUnixSecs : Int) (dryRun : Bool) :
    Except ServerError ReapOutcome × RefStore Target :=
  if !(gix 0).discover then (.error (.notARepo repo), store)
  else
    match (enumerate (gix 0) .reap store streamsPrefix).bind
        (classifyStale commitTime cutoffUnixSecs) with
    | .error failure => (.error failure, store)
    | .ok (scanned, stale) =>
      match reapEach gix repo dryRun 1 stale store with
      | (.error failure, after) => (.error failure, after)
      | (.ok reaped, after) => (.ok ⟨scanned, reaped, dryRun⟩, after)

/-- The stream and commit time that a stale `code` ref contributes. -/
def staleEntry (commitTime : Target → Option Int) (cutoffUnixSecs : Int)
    (entry : Bytes × Target) : Option (StreamId × Int) := do
  let stream ← listedAs entry.1
  let committed ← commitTime entry.2
  if committed < cutoffUnixSecs then some (stream, committed) else none

/-- Classification that succeeds lists the stale streams in the order of their refs. -/
theorem classifyStale_ok {commitTime : Target → Option Int} {cutoffUnixSecs : Int}
    {entries : List (Bytes × Target)} {scanned : Nat} {stale : List (StreamId × Int)}
    (classified : classifyStale commitTime cutoffUnixSecs entries = .ok (scanned, stale)) :
    scanned = (entries.filterMap fun entry => listedAs entry.1).length ∧
      stale = entries.filterMap (staleEntry commitTime cutoffUnixSecs) := by
  -- The induction follows the enumeration, one ref at a time.
  induction entries generalizing scanned stale with
  | nil => cases classified; exact ⟨rfl, rfl⟩
  | cons entry rest ih =>
    obtain ⟨name, target⟩ := entry
    unfold classifyStale at classified
    cases listed : listedAs name with
    | none =>
      simp only [listed] at classified
      simpa [staleEntry, listed] using ih classified
    | some stream =>
      cases timed : commitTime target with
      | none => simp [listed, timed] at classified
      | some committed =>
        -- The rest is classified on its own, and this stream is put in front.
        simp only [listed, timed] at classified
        obtain ⟨⟨count, others⟩, later, joined⟩ := Folds.bind_ok.mp classified
        cases joined
        obtain ⟨counted, collected⟩ := ih later
        refine ⟨by simp [listed, counted], ?_⟩
        by_cases old : committed < cutoffUnixSecs <;>
          simp [staleEntry, listed, timed, old, collected]

/-- Forgetting stale streams in turn frees the names under all their prefixes, and no other name. -/
theorem reapEach_ok {gix : Nat → Gix} {repo : Bytes} {call : Nat} {stale : List (StreamId × Int)}
    {store after : RefStore Target} {reaped : List ReapedStream}
    (done : reapEach gix repo false call stale store = (.ok reaped, after)) :
    (reaped.map fun entry => (entry.stream, entry.committedUnixSecs)) = stale ∧
      ∀ name, after.get name =
        if ∃ entry ∈ stale, streamPrefix entry.1 <+: name then none else store.get name := by
  -- Each stream is forgotten from the store the ones before it left.
  induction stale generalizing call store reaped with
  | nil => cases done; simp
  | cons entry rest ih =>
    obtain ⟨stream, committed⟩ := entry
    simp only [reapEach, Bool.false_eq_true, if_false] at done
    cases forgot : forgetStream (gix call) repo store stream with
    | mk result middle =>
      cases result with
      | error failure => simp [forgot] at done
      | ok removed =>
        simp only [forgot] at done
        cases later : reapEach gix repo false (call + 1) rest middle with
        | mk result last =>
          cases result with
          | error failure => simp [later] at done
          | ok others =>
            simp only [later, Prod.mk.injEq, Except.ok.injEq] at done
            obtain ⟨rfl, rfl⟩ := done
            obtain ⟨named, lookups⟩ := ih later
            obtain ⟨-, rfl⟩ := forgetStream_ok forgot
            refine ⟨by simp [named], fun name => ?_⟩
            rw [lookups, RefStore.get_delete_prefixed]
            by_cases below : ∃ entry ∈ rest, streamPrefix entry.1 <+: name <;>
              by_cases here : streamPrefix stream <+: name <;> simp [below, here]

/-- Forgetting stale streams in turn leaves alone what is under none of their prefixes. -/
theorem reapEach_only {gix : Nat → Gix} {repo : Bytes} {dryRun : Bool} {call : Nat}
    {stale : List (StreamId × Int)} {store after : RefStore Target}
    {result : Except ServerError (List ReapedStream)}
    (ran : reapEach gix repo dryRun call stale store = (result, after)) {name : Bytes}
    (apart : ∀ entry ∈ stale, ¬ streamPrefix entry.1 <+: name) : after.get name = store.get name := by
  -- A pass that fails has forgotten only the streams before that.
  induction stale generalizing call store result with
  | nil => cases ran; rfl
  | cons entry rest ih =>
    obtain ⟨stream, committed⟩ := entry
    obtain ⟨here, others⟩ := List.forall_mem_cons.mp apart
    cases dryRun with
    | true =>
      simp only [reapEach, if_true] at ran
      split at ran
      · cases ran; rfl
      · split at ran <;> rename_i later <;> cases ran <;> exact ih later others
    | false =>
      simp only [reapEach, Bool.false_eq_true, if_false] at ran
      cases forgot : forgetStream (gix call) repo store stream with
      | mk removed middle =>
        cases removed with
        | error failure =>
          simp only [forgot] at ran
          cases ran
          rw [forgetStream_error forgot]
        | ok removed =>
          -- What was forgotten before is not this name.
          have kept : middle.get name = store.get name := by
            rw [(forgetStream_ok forgot).2, RefStore.get_delete_prefixed, if_neg here]
          simp only [forgot] at ran
          rw [← kept]
          split at ran <;> rename_i later <;> cases ran <;> exact ih later others

/-- Forgetting stale streams in turn succeeds when the library does. -/
theorem reapEach_sound (repo : Bytes) (call : Nat) (stale : List (StreamId × Int))
    (store : RefStore Target) :
    ∃ reaped after, reapEach (fun _ => .sound) repo false call stale store =
      (.ok reaped, after) := by
  -- Each stream can be forgotten from whatever the ones before it have left.
  induction stale generalizing call store with
  | nil => exact ⟨[], store, rfl⟩
  | cons entry rest ih =>
    obtain ⟨stream, committed⟩ := entry
    obtain ⟨removed, middle, forgot⟩ := forgetStream_sound repo store stream
    obtain ⟨reaped, after, later⟩ := ih (call + 1) middle
    exact ⟨_, after, by simp [reapEach, forgot, later]; rfl⟩

/-- Classification succeeds when every listed commit has a time. -/
theorem classifyStale_complete {commitTime : Target → Option Int} (cutoffUnixSecs : Int)
    {entries : List (Bytes × Target)}
    (timed : ∀ entry ∈ entries, (listedAs entry.1).isSome → (commitTime entry.2).isSome) :
    ∃ found, classifyStale commitTime cutoffUnixSecs entries = .ok found := by
  -- Each ref is passed over, or its commit is read.
  induction entries with
  | nil => exact ⟨_, rfl⟩
  | cons entry rest ih =>
    obtain ⟨here, others⟩ := List.forall_mem_cons.mp timed
    obtain ⟨⟨scanned, stale⟩, later⟩ := ih others
    unfold classifyStale
    cases listed : listedAs entry.1 with
    | none => exact ⟨_, later⟩
    | some stream =>
      obtain ⟨committed, read⟩ := Option.isSome_iff_exists.mp (here (by simp [listed]))
      simp only [read, later]
      exact ⟨_, rfl⟩

/-- Every listed commit of a classification that succeeds has a time. -/
theorem classifyStale_timed {commitTime : Target → Option Int} {cutoffUnixSecs : Int}
    {entries : List (Bytes × Target)} {found : Nat × List (StreamId × Int)}
    (classified : classifyStale commitTime cutoffUnixSecs entries = .ok found) :
    ∀ entry ∈ entries, (listedAs entry.1).isSome → (commitTime entry.2).isSome := by
  -- A commit without a time would have ended the classification.
  induction entries generalizing found with
  | nil => simp
  | cons entry rest ih =>
    unfold classifyStale at classified
    cases listed : listedAs entry.1 with
    | none =>
      simp only [listed] at classified
      exact List.forall_mem_cons.mpr ⟨by simp [listed], ih classified⟩
    | some stream =>
      cases read : commitTime entry.2 with
      | none => simp [listed, read] at classified
      | some committed =>
        simp only [listed, read] at classified
        obtain ⟨others, later, -⟩ := Folds.bind_ok.mp classified
        exact List.forall_mem_cons.mpr ⟨by simp [read], ih later⟩

/-- Every commit that is listed as a stream's can be read, and has a time. -/
def Timed (commitTime : Target → Option Int) (store : RefStore Target) : Prop :=
  ∀ entry ∈ store.prefixed streamsPrefix, (listedAs entry.1).isSome → (commitTime entry.2).isSome

/-- A pass goes through the stale streams of its enumeration, or changes no ref. -/
theorem reapStreams_cases {gix : Nat → Gix} {commitTime : Target → Option Int} {repo : Bytes}
    {store after : RefStore Target} {cutoffUnixSecs : Int} {dryRun : Bool}
    {result : Except ServerError ReapOutcome}
    (ran : reapStreams gix commitTime repo store cutoffUnixSecs dryRun = (result, after)) :
    (after = store ∧ ∃ failure, result = .error failure) ∨
      Timed commitTime store ∧ ∃ reaped,
        reapEach gix repo dryRun 1
          ((store.prefixed streamsPrefix).filterMap (staleEntry commitTime cutoffUnixSecs)) store =
            (reaped, after) ∧
        result = reaped.map fun reaped =>
          ⟨((store.prefixed streamsPrefix).filterMap fun entry => listedAs entry.1).length,
            reaped, dryRun⟩ := by
  -- What is enumerated is classified, and what is stale is forgotten.
  unfold reapStreams at ran
  split at ran
  · cases ran
    exact .inl ⟨rfl, _, rfl⟩
  · split at ran
    · cases ran
      exact .inl ⟨rfl, _, rfl⟩
    · rename_i scanned stale found
      obtain ⟨entries, listed, classified⟩ := Folds.bind_ok.mp found
      have timed := classifyStale_timed classified
      obtain ⟨rfl, rfl⟩ := classifyStale_ok classified
      obtain rfl := enumerate_ok listed
      split at ran <;> rename_i passed <;> cases ran <;> exact .inr ⟨timed, _, passed, rfl⟩

/-- A pass succeeds when the library does and every listed commit can be read. -/
theorem reapStreams_sound {commitTime : Target → Option Int} {store : RefStore Target}
    (timed : Timed commitTime store) (repo : Bytes) (cutoffUnixSecs : Int) :
    ∃ outcome after, reapStreams (fun _ => .sound) commitTime repo store cutoffUnixSecs false =
      (.ok outcome, after) := by
  -- The refs are listed, each listed commit is read, and each stale stream is forgotten.
  obtain ⟨⟨scanned, stale⟩, classified⟩ := classifyStale_complete cutoffUnixSecs timed
  obtain ⟨reaped, after, passed⟩ := reapEach_sound repo 1 stale store
  have listed : enumerate .sound .reap store streamsPrefix = .ok (store.prefixed streamsPrefix) := by
    simp [enumerate, Gix.sound]
  refine ⟨⟨scanned, reaped, false⟩, after, ?_⟩
  simp only [reapStreams, listed, Except.bind, classified, passed]
  rfl

/-- A pass that succeeds and deletes has forgotten the stale streams of its enumeration. -/
theorem reapStreams_ok {gix : Nat → Gix} {commitTime : Target → Option Int} {repo : Bytes}
    {store after : RefStore Target} {cutoffUnixSecs : Int} {outcome : ReapOutcome}
    (done : reapStreams gix commitTime repo store cutoffUnixSecs false = (.ok outcome, after)) :
    reapEach gix repo false 1
      ((store.prefixed streamsPrefix).filterMap (staleEntry commitTime cutoffUnixSecs)) store =
        (.ok outcome.reaped, after) := by
  -- A pass that succeeds went through the stale streams.
  rcases reapStreams_cases done with ⟨-, failure, failed⟩ | ⟨-, reaped, passed, told⟩
  · cases failed
  · cases reaped with
    | error failure => cases told
    | ok reaped => cases told; exact passed

end GitFullSend

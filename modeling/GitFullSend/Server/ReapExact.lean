import Mathlib.Data.Prod.Basic
import GitFullSend.Server.Reap

/-! Which streams a reaping pass deletes. -/

namespace GitFullSend

open Utf8 (Bytes ofText)
open Segments (Above AtOrAbove)

variable {Target : Type}

/-- A stream has a `code` commit of this time, and the time is before the cutoff. -/
def Stale (commitTime : Target → Option Int) (cutoffUnixSecs : Int) (store : RefStore Target)
    (stream : StreamId) (committed : Int) : Prop :=
  ∃ target, store.get (codeRef stream) = some target ∧ commitTime target = some committed ∧
    committed < cutoffUnixSecs

/-- A pass deleted the stale streams, no other one, and reported them. -/
structure ReapsExactly (commitTime : Target → Option Int) (cutoffUnixSecs : Int)
    (store after : RefStore Target) (reaped : List ReapedStream) : Prop where
  /-- A stream with a `code` ref loses its refs if and only if its time is before the cutoff. -/
  aged : ∀ stream target committed, store.get (codeRef stream) = some target →
    commitTime target = some committed →
    ((∀ name ∈ serverRefs stream, after.get name = none) ↔ committed < cutoffUnixSecs)
  /-- Every ref of every other stream is unchanged. -/
  others : ∀ stream, (∀ committed, ¬ Stale commitTime cutoffUnixSecs store stream committed) →
    ∀ name ∈ serverRefs stream, after.get name = store.get name
  /-- No stream is reported twice. -/
  once : (reaped.map ReapedStream.stream).Nodup
  /-- The report names the stale streams with their own times. -/
  named : ∀ stream committed,
    (stream, committed) ∈ reaped.map (fun entry => (entry.stream, entry.committedUnixSecs)) ↔
      Stale commitTime cutoffUnixSecs store stream committed

/-- No stored ref of a stream that is not stale has an id below the id of a stale one. -/
def NoneBelowStale (commitTime : Target → Option Int) (cutoffUnixSecs : Int)
    (store : RefStore Target) : Prop :=
  ∀ outer committed, Stale commitTime cutoffUnixSecs store outer committed →
    ∀ inner, (∀ committed, ¬ Stale commitTime cutoffUnixSecs store inner committed) →
      ∀ name ∈ serverRefs inner, (store.get name).isSome → ¬ Above slash outer.id inner.id

/-- The refs of a stream lie under the prefix of another one at or above it. -/
theorem streamPrefix_serverRef {outer inner : StreamId} {name : Bytes}
    (held : name ∈ serverRefs inner) :
    streamPrefix outer <+: name ↔ AtOrAbove slash outer.id inner.id := by
  -- Past the common prefix, the question is where the outer id and its slash end.
  have child : ∀ last : Bytes, slash ∉ last →
      (streamPrefix outer <+: streamRef inner.id last ↔ AtOrAbove slash outer.id inner.id) := by
    intro last plain
    rw [← Segments.above_child_iff plain]
    simp only [streamPrefix, streamRef, List.append_assoc, List.prefix_append_right_inj, Above]
  simp only [serverRefs, List.mem_cons, List.not_mem_nil, or_false] at held
  rcases held with rfl | rfl
  · exact child _ (by decide)
  · exact child _ (by decide)

private theorem mem_staleEntries {commitTime : Target → Option Int} {cutoffUnixSecs : Int}
    {store : RefStore Target} (holds : ServerHolds store) {stream : StreamId} {committed : Int} :
    (stream, committed) ∈
        (store.prefixed streamsPrefix).filterMap (staleEntry commitTime cutoffUnixSecs) ↔
      Stale commitTime cutoffUnixSecs store stream committed := by
  -- An entry classified as stale is a `code` ref, whose stream and time are the ones looked up.
  simp only [List.mem_filterMap, staleEntry, Option.bind_eq_bind, Option.bind_eq_some_iff,
    Option.ite_none_right_eq_some, Option.some.injEq, Prod.mk.injEq]
  constructor
  · intro listing
    obtain ⟨entry, member, listed, read, time, timed, old, rfl, rfl⟩ := listing
    have code := (holds.listed member).mp read
    refine ⟨entry.2, RefStore.get_eq_some.mpr ?_, timed, old⟩
    exact code ▸ (RefStore.mem_prefixed.mp member).1
  · intro stale
    obtain ⟨target, found, timed, old⟩ := stale
    refine ⟨(codeRef stream, target), ?_, stream, listedAs_codeRef stream, committed, timed, old,
      rfl, rfl⟩
    exact RefStore.mem_prefixed.mpr ⟨RefStore.get_eq_some.mp found, streamsPrefix_codeRef stream⟩

private theorem staleEntries_nodup {commitTime : Target → Option Int} {cutoffUnixSecs : Int}
    {store : RefStore Target} (holds : ServerHolds store) :
    (((store.prefixed streamsPrefix).filterMap
      (staleEntry commitTime cutoffUnixSecs)).map Prod.fst).Nodup := by
  -- Two entries that give one stream would carry the same name, and names are listed once.
  have names : ((store.prefixed streamsPrefix).map Prod.fst).Nodup :=
    (List.filter_sublist.map Prod.fst).nodup store.distinct
  have reads : ∀ entry result, staleEntry commitTime cutoffUnixSecs entry = some result →
      listedAs entry.1 = some result.1 := by
    intro entry result gives
    simp only [staleEntry, Option.bind_eq_bind, Option.bind_eq_some_iff,
      Option.ite_none_right_eq_some, Option.some.injEq] at gives
    obtain ⟨stream, read, time, timed, old, rfl⟩ := gives
    exact read
  rw [List.Nodup, List.pairwise_map, List.pairwise_filterMap]
  apply (List.pairwise_map.mp names).imp_of_mem
  intro left right here there apart first gives second gives' same
  have upper := (holds.listed here).mp (reads left first gives)
  have lower := (holds.listed there).mp (reads right second gives')
  exact apart (by rw [upper, lower, same])

/--
On a server, reaping deletes exactly the stale streams when no other stream lies below one of them.

The ids of the streams and the ages of their `code` commits decide it before the pass begins.
-/
theorem reapStreams_exact_iff {gix : Nat → Gix} {commitTime : Target → Option Int} {repo : Bytes}
    {store after : RefStore Target} {cutoffUnixSecs : Int} {outcome : ReapOutcome}
    (holds : ServerHolds store)
    (done : reapStreams gix commitTime repo store cutoffUnixSecs false = (.ok outcome, after)) :
    ReapsExactly commitTime cutoffUnixSecs store after outcome.reaped ↔
      NoneBelowStale commitTime cutoffUnixSecs store := by
  classical
  obtain ⟨reported, lookups⟩ := reapEach_ok (reapStreams_ok done)
  -- A server ref is gone exactly when its stream is at or below a stale one.
  have freed : ∀ stream, ∀ name ∈ serverRefs stream, after.get name =
      if ∃ outer committed, Stale commitTime cutoffUnixSecs store outer committed ∧
        AtOrAbove slash outer.id stream.id then none else store.get name := by
    intro stream name held
    rw [lookups]
    refine if_congr ?_ rfl rfl
    simp only [Prod.exists, mem_staleEntries holds, streamPrefix_serverRef held]
  constructor
  · intro exactly outer committed stale inner fresh name held stored above
    have kept := exactly.others inner fresh name held
    rw [freed inner name held, if_pos ⟨outer, committed, stale, .inr above⟩] at kept
    simp [← kept] at stored
  · intro safe
    -- A stored ref that goes belongs to a stale stream, because nothing else lies below one.
    have own : ∀ outer committed, Stale commitTime cutoffUnixSecs store outer committed →
        ∀ stream, ∀ name ∈ serverRefs stream, (store.get name).isSome →
          AtOrAbove slash outer.id stream.id →
          ∃ committed, Stale commitTime cutoffUnixSecs store stream committed := by
      intro outer committed stale stream name held stored inside
      rcases inside with same | above
      · exact ⟨committed, StreamId.ext_id same ▸ stale⟩
      · by_contra fresh
        exact safe outer committed stale stream (not_exists.mp fresh) name held stored above
    refine ⟨?_, ?_, ?_, ?_⟩
    · intro stream target committed found timed
      constructor
      · intro gone
        have code := gone (codeRef stream) List.mem_cons_self
        rw [freed stream _ List.mem_cons_self, found] at code
        split at code <;> rename_i below
        · obtain ⟨outer, time, stale, close⟩ := below
          obtain ⟨_, target', found', timed', old⟩ :=
            own outer time stale stream _ List.mem_cons_self (by simp [found]) close
          -- The stale time is the one of the commit the ref points at.
          obtain rfl : target = target' := Option.some.inj (found.symm.trans found')
          obtain rfl := Option.some.inj (timed.symm.trans timed')
          exact old
        · cases code
      · intro old name held
        rw [freed stream name held, if_pos ⟨stream, committed, ⟨target, found, timed, old⟩, .inl rfl⟩]
    · intro stream fresh name held
      rw [freed stream name held]
      split
      · rename_i below
        obtain ⟨outer, time, stale, close⟩ := below
        by_contra kept
        have stored : (store.get name).isSome := Option.ne_none_iff_isSome.mp (Ne.symm kept)
        obtain ⟨committed, old⟩ := own outer time stale stream name held stored close
        exact fresh committed old
      · rfl
    · have streams := congrArg (List.map Prod.fst) reported
      rw [List.map_map] at streams
      change List.Nodup (outcome.reaped.map (Prod.fst ∘ fun entry =>
        (entry.stream, entry.committedUnixSecs)))
      rw [streams]
      exact staleEntries_nodup holds
    · intro stream committed
      rw [reported, mem_staleEntries holds]

private theorem serverRefs_disjoint {left right : StreamId} {name : Bytes}
    (here : name ∈ serverRefs left) (there : name ∈ serverRefs right) : left = right := by
  -- One case for each pair of refs; two refs of one kind determine their stream.
  simp only [serverRefs, List.mem_cons, List.not_mem_nil, or_false] at here there
  rcases here with rfl | rfl <;> rcases there with same | same
  · exact codeRef_injective same
  · exact absurd same (codeRef_ne_extraRef left right)
  · exact absurd same.symm (codeRef_ne_extraRef right left)
  · exact extraRef_injective same

/-- With a stale and a fresh sibling on the server, the pass deletes exactly the stale one. -/
theorem reapStreams_sibling_exact :
    ∃ (store after : RefStore Int) (old new : StreamId) (outcome : ReapOutcome),
      store.refs = [(codeRef old, 1), (extraRef old, 1), (codeRef new, 9)] ∧
      reapStreams (fun _ => .sound) some [] store 5 false = (.ok outcome, after) ∧
      ReapsExactly some 5 store after outcome.reaped := by
  let old : StreamId := ⟨ofText "old", by decide, by decide, by decide⟩
  let new : StreamId := ⟨ofText "new", by decide, by decide, by decide⟩
  let store : RefStore Int :=
    ⟨[(codeRef old, 1), (extraRef old, 1), (codeRef new, 9)], by decide, by decide⟩
  have owned : ∀ entry ∈ store.refs, entry.1 ∈ serverRefs old ∨ entry.1 ∈ serverRefs new := by
    decide
  -- Two streams are scanned, and two refs of the stale one are deleted.
  have told : (reapStreams (fun _ => .sound) some [] store 5 false).1 =
      .ok ⟨2, [⟨old, 1, 2⟩], false⟩ := by decide +kernel
  have run := Prod.fst_eq_iff.mp told
  refine ⟨store, _, old, new, _, rfl, run,
    (reapStreams_exact_iff (fun entry stored _ => ?_) run).mpr ?_⟩
  · exact (owned entry stored).elim (fun held => ⟨old, held⟩) fun held => ⟨new, held⟩
  · -- Both streams of a nesting would be among the two siblings.
    have known : ∀ stream, ∀ name ∈ serverRefs stream, (store.get name).isSome →
        stream = old ∨ stream = new := by
      intro stream name held stored
      obtain ⟨target, found⟩ := Option.isSome_iff_exists.mp stored
      exact (owned _ (RefStore.get_eq_some.mp found)).imp (serverRefs_disjoint held)
        (serverRefs_disjoint held)
    intro outer committed stale inner apart name held stored
    obtain ⟨target, found, -⟩ := stale
    rcases known outer _ List.mem_cons_self (by simp [found]) with rfl | rfl <;>
      rcases known inner name held stored with rfl | rfl <;> decide

/-- Reaping the stale stream `a` also deletes the fresh stream `a/b`. -/
theorem reapStreams_takes_fresh :
    ∃ (store after : RefStore Int) (outer inner : StreamId) (outcome : ReapOutcome),
      outer.id = ofText "a" ∧ inner.id = ofText "a/b" ∧ ServerHolds store ∧
      store.refs = [(codeRef outer, 1), (codeRef inner, 9)] ∧
      reapStreams (fun _ => .sound) some [] store 5 false = (.ok outcome, after) ∧
      after.refs = [] ∧ ¬ ReapsExactly some 5 store after outcome.reaped := by
  let outer : StreamId := ⟨ofText "a", by decide, by decide, by decide⟩
  let inner : StreamId := ⟨ofText "a/b", by decide, by decide, by decide⟩
  let store : RefStore Int := ⟨[(codeRef outer, 1), (codeRef inner, 9)], by decide, by decide⟩
  have owned : ∀ entry ∈ store.refs, entry.1 ∈ serverRefs outer ∨ entry.1 ∈ serverRefs inner := by
    decide
  have told : (reapStreams (fun _ => .sound) some [] store 5 false).1 =
      .ok ⟨2, [⟨outer, 1, 2⟩], false⟩ := by decide +kernel
  have emptied : (reapStreams (fun _ => .sound) some [] store 5 false).2.refs = [] := by
    decide +kernel
  refine ⟨store, _, outer, inner, _, rfl, rfl, fun entry stored _ => ?_, rfl,
    Prod.fst_eq_iff.mp told, emptied, ?_⟩
  · exact (owned entry stored).elim (fun held => ⟨outer, held⟩) fun held => ⟨inner, held⟩
  · intro exactly
    -- The fresh stream's refs are gone, although its time is not before the cutoff.
    have aged := exactly.aged inner 9 9 (by decide) rfl
    refine absurd (aged.mp fun name _ => ?_) (by decide)
    simp [RefStore.get, emptied]

end GitFullSend

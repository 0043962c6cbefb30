import Mathlib.Data.List.Perm.Subperm
import GitFullSend.Lib.Lists
import GitFullSend.Server.Streams

/-! What forgetting one stream does to the refs of another. -/

namespace GitFullSend

open Utf8 (Bytes ofText)

variable {Target : Type}

/--
Forgetting a stream touched only that stream, as far as one other stream can tell.

The stores are the ones before and after the deletion, and the number is the count it returned.
-/
structure ForgetsOnly (repo : Bytes) (store after : RefStore Target)
    (forgotten other : StreamId) (removed : Nat) : Prop where
  /-- No managed ref of the forgotten stream is left. -/
  gone : ∀ name ∈ managedRefs forgotten, after.get name = none
  /-- Every managed ref of the other stream is as it was, present or not. -/
  kept : ∀ name ∈ managedRefs other, after.get name = store.get name
  /-- Only the forgotten stream has left the list of streams. -/
  listed : ∀ gix earlier, listStreams gix repo store = .ok earlier →
    ∀ gix later, listStreams gix repo after = .ok later → later = earlier.filter (· ≠ forgotten)
  /-- The count is the number of managed refs the forgotten stream had. -/
  counted : removed = ((managedRefs forgotten).filter fun name => (store.get name).isSome).length
  /-- Forgetting the stream again removes nothing. -/
  again : ∀ gix count last, forgetStream gix repo after forgotten = (.ok count, last) →
    count = 0 ∧ last = after

/--
The refs under the forgotten stream's prefix belong to that stream alone.

This is about the stored names before the deletion: whose refs they are, and how they are listed.
-/
structure Confined (store : RefStore Target) (forgotten other : StreamId) : Prop where
  /-- Only managed refs of the forgotten stream lie under its prefix. -/
  own : ∀ entry ∈ store.refs, streamPrefix forgotten <+: entry.1 → entry.1 ∈ managedRefs forgotten
  /-- No ref of the other stream does. -/
  foreign : ∀ entry ∈ store.refs, streamPrefix forgotten <+: entry.1 → entry.1 ∉ managedRefs other
  /-- The refs under its prefix that are listed as a stream are those listed as the stream itself. -/
  listing : ∀ entry ∈ store.prefixed streamsPrefix, ∀ stream ∈ listedAs entry.1,
    (streamPrefix forgotten <+: entry.1 ↔ stream = forgotten)

/-- The count is right exactly when only managed refs of the stream lie under its prefix. -/
theorem counted_iff {store : RefStore Target} {stream : StreamId} :
    (store.prefixed (streamPrefix stream)).length =
        ((managedRefs stream).filter fun name => (store.get name).isSome).length ↔
      ∀ entry ∈ store.refs, streamPrefix stream <+: entry.1 → entry.1 ∈ managedRefs stream := by
  -- The stored managed refs are always among the ones enumerated, and neither list repeats a name.
  have names : ((store.prefixed (streamPrefix stream)).map Prod.fst).Nodup :=
    (List.filter_sublist.map Prod.fst).nodup store.distinct
  have managed : ((managedRefs stream).filter fun name => (store.get name).isSome).Nodup :=
    (managedRefs_nodup stream).filter _
  have among : ((managedRefs stream).filter fun name => (store.get name).isSome) ⊆
      (store.prefixed (streamPrefix stream)).map Prod.fst := by
    intro name kept
    obtain ⟨own, stored⟩ := List.mem_filter.mp kept
    obtain ⟨target, found⟩ := Option.isSome_iff_exists.mp stored
    have entry := RefStore.mem_prefixed.mpr ⟨RefStore.get_eq_some.mp found, managedRefs_under own⟩
    exact List.mem_map.mpr ⟨(name, target), entry, rfl⟩
  rw [← List.length_map (f := Prod.fst)]
  constructor
  · intro count entry stored opens
    -- Lists of one length, one inside the other, have the same members.
    have same := (List.subperm_of_subset managed among).perm_of_length_le (Nat.le_of_eq count)
    have listed : entry.1 ∈ (store.prefixed (streamPrefix stream)).map Prod.fst :=
      List.mem_map.mpr ⟨entry, RefStore.mem_prefixed.mpr ⟨stored, opens⟩, rfl⟩
    exact (List.mem_filter.mp (same.mem_iff.mpr listed)).1
  · intro own
    refine ((List.perm_ext_iff_of_nodup names managed).mpr fun name => ⟨?_, (among ·)⟩).length_eq
    intro listed
    obtain ⟨entry, member, rfl⟩ := List.mem_map.mp listed
    obtain ⟨stored, opens⟩ := RefStore.mem_prefixed.mp member
    exact List.mem_filter.mpr ⟨own entry stored opens, by simp [RefStore.get_eq_some.mpr stored]⟩

private theorem prefixed_delete_prefixed {store : RefStore Target} (opening other : Bytes) :
    (store.delete ((store.prefixed opening).map Prod.fst)).prefixed other =
      (store.prefixed other).filter fun entry => ¬ opening <+: entry.1 := by
  -- Both are filters of the stored refs, in either order.
  change List.filter _ (store.delete _).refs = _
  rw [RefStore.refs_delete_prefixed]
  simp only [RefStore.prefixed, List.filter_filter, Bool.and_comm]

/-- Forgetting a stream touches only that stream exactly when its refs are confined to its prefix. -/
theorem forgetStream_only_iff {gix : Gix} {repo : Bytes} {store after : RefStore Target}
    {forgotten other : StreamId} {removed : Nat}
    (forgot : forgetStream gix repo store forgotten = (.ok removed, after)) :
    ForgetsOnly repo store after forgotten other removed ↔ Confined store forgotten other := by
  -- The deletion frees exactly the names under the prefix, whoever they belong to.
  obtain ⟨rfl, rfl⟩ := forgetStream_ok forgot
  constructor
  · intro only
    refine ⟨counted_iff.mp only.counted, ?_, ?_⟩
    · intro entry stored opens managed
      -- The other stream's ref was there, and the deletion took it.
      have kept := only.kept entry.1 managed
      rw [RefStore.get_delete_prefixed, if_pos opens, RefStore.get_eq_some.mpr stored] at kept
      cases kept
    · have lists := only.listed .sound _ (listStreams_sound repo store) .sound _
        (listStreams_sound repo _)
      rw [prefixed_delete_prefixed, Lists.filterMap_filter_eq_iff] at lists
      intro entry member stream read
      simpa [not_iff_not] using lists entry member stream read
  · intro confined
    refine ⟨?_, ?_, ?_, counted_iff.mpr confined.own, ?_⟩
    · intro name managed
      rw [RefStore.get_delete_prefixed, if_pos (managedRefs_under managed)]
    · intro name managed
      rw [RefStore.get_delete_prefixed]
      split
      · -- A name under the prefix would be stored only if the streams shared it.
        rename_i opens
        refine (RefStore.get_eq_none.mpr fun target stored => ?_).symm
        exact confined.foreign _ stored opens managed
      · rfl
    · intro gix earlier before gix later afterwards
      rw [listStreams_ok before, listStreams_ok afterwards, prefixed_delete_prefixed,
        Lists.filterMap_filter_eq_iff]
      intro entry member stream read
      simpa [not_iff_not] using confined.listing entry member stream read
    · intro gix count last repeated
      obtain ⟨rfl, rfl⟩ := forgetStream_ok repeated
      -- Nothing under the prefix is left to enumerate.
      have empty : (store.prefixed (streamPrefix forgotten)).filter
          (fun entry => ¬ streamPrefix forgotten <+: entry.1) = [] :=
        List.filter_eq_nil_iff.mpr fun entry member => by simp [(RefStore.mem_prefixed.mp member).2]
      rw [prefixed_delete_prefixed, empty]
      exact ⟨rfl, RefStore.delete_nil⟩

/-- Forgetting one of two sibling streams is confined, and touches only that one. -/
theorem forgetStream_sibling_only :
    ∃ (store after : RefStore Nat) (alice bob : StreamId),
      store.refs = [(codeRef alice, 1), (extraRef alice, 2), (codeRef bob, 3), (extraRef bob, 4)] ∧
      forgetStream .sound [] store alice = (.ok 2, after) ∧
      ForgetsOnly [] store after alice bob 2 := by
  -- Each of the three conditions is checked on the four stored refs.
  refine ⟨⟨[(ofText "refs/git-full-send/streams/alice/code", 1),
    (ofText "refs/git-full-send/streams/alice/extra", 2),
    (ofText "refs/git-full-send/streams/bob/code", 3),
    (ofText "refs/git-full-send/streams/bob/extra", 4)], by decide, by decide⟩, _,
    ⟨ofText "alice", by decide, by decide, by decide⟩,
    ⟨ofText "bob", by decide, by decide, by decide⟩, by decide, rfl, ?_⟩
  exact (@forgetStream_only_iff _ .sound _ _ _ _ _ _ rfl).mpr ⟨by decide, by decide, by decide⟩

/-- Forgetting the stream `a` also deletes what the different stream `a/b` has synced. -/
theorem forgetStream_takes_nested :
    ∃ (store after : RefStore Nat) (outer inner : StreamId),
      outer.id = ofText "a" ∧ inner.id = ofText "a/b" ∧
      store.refs = [(codeRef outer, 1), (codeRef inner, 2)] ∧
      forgetStream .sound [] store outer = (.ok 2, after) ∧
      store.get (codeRef inner) = some 2 ∧ after.get (codeRef inner) = none ∧
      ¬ ForgetsOnly [] store after outer inner 2 := by
  -- The other stream has lost a ref that was there before.
  refine ⟨⟨[(ofText "refs/git-full-send/streams/a/code", 1),
    (ofText "refs/git-full-send/streams/a/b/code", 2)], by decide, by decide⟩, _,
    ⟨ofText "a", by decide, by decide, by decide⟩,
    ⟨ofText "a/b", by decide, by decide, by decide⟩, rfl, rfl, by decide, rfl, by decide, by decide,
    ?_⟩
  intro only
  exact absurd (only.kept _ List.mem_cons_self) (by decide)

end GitFullSend

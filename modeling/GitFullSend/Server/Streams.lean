import GitFullSend.Lib.Folds
import GitFullSend.Server.RefStore

/-! Listing the streams a repository holds, and forgetting one of them. -/

namespace GitFullSend

open Utf8 (Bytes ofText)
open Segments (Above AtOrAbove)

variable {Target : Type}

/-- What follows a prefix of a string, when the string has it. -/
def stripPrefix (opening text : Bytes) : Option Bytes :=
  if opening <+: text then some (text.drop opening.length) else none

/-- What stands before a suffix of a string, when the string has it. -/
def stripSuffix (ending text : Bytes) : Option Bytes :=
  if ending <:+ text then some (text.take (text.length - ending.length)) else none

/-- Recover a stream id from the name of a stream's `code` ref, or `none` for any other name. -/
def streamIdFromCodeRef (name : Bytes) : Option StreamId := do
  let rest ← stripPrefix streamsPrefix name
  let id ← stripSuffix (ofText "/code") rest
  (StreamId.new id).toOption

/-- The stream a stored ref is listed as, after its name is printed as text. -/
def listedAs (name : Bytes) : Option StreamId :=
  -- Printing a name replaces what is not UTF-8, so the reading starts from the printed bytes.
  streamIdFromCodeRef (Utf8.lossy name)

/-- List the streams that have a synced `code` ref in the repository. -/
def listStreams (gix : Gix) (repo : Bytes) (store : RefStore Target) :
    Except ServerError (List StreamId) :=
  if !gix.discover then .error (.notARepo repo)
  else do
    let entries ← enumerate gix .listStreams store streamsPrefix
    pure (entries.filterMap fun entry => listedAs entry.1)

/-- The refs a server holds of a stream. -/
def serverRefs (stream : StreamId) : List Bytes := [codeRef stream, extraRef stream]

/-- A store whose per-stream refs are what syncing puts on a server. -/
def ServerHolds (store : RefStore Target) : Prop :=
  ∀ entry ∈ store.refs, streamsPrefix <+: entry.1 → ∃ stream, entry.1 ∈ serverRefs stream

/--
Delete every ref under a stream's prefix in one transaction, returning how many were removed.

A stream without refs is no error, and a transaction that fails deletes nothing.
-/
def forgetStream (gix : Gix) (repo : Bytes) (store : RefStore Target) (stream : StreamId) :
    Except ServerError Nat × RefStore Target :=
  if !gix.discover then (.error (.notARepo repo), store)
  else
    match enumerate gix .forgetStream store (streamPrefix stream) with
    | .error failure => (.error failure, store)
    | .ok entries =>
      let edits := entries.map Prod.fst
      if edits.isEmpty then (.ok 0, store)
      else if !gix.editReferences edits then (.error .forgetStream, store)
      else (.ok edits.length, store.delete edits)

private theorem stripPrefix_eq_some {opening text rest : Bytes} :
    stripPrefix opening text = some rest ↔ text = opening ++ rest := by
  -- A string with the prefix is the prefix and what is dropped of it.
  unfold stripPrefix
  constructor
  · intro stripped
    split at stripped
    · rename_i opens
      obtain ⟨tail, rfl⟩ := opens
      simpa using stripped
    · cases stripped
  · intro same
    subst same
    simp

private theorem stripSuffix_eq_some {ending text rest : Bytes} :
    stripSuffix ending text = some rest ↔ text = rest ++ ending := by
  -- A string with the suffix is what is taken of it and the suffix.
  unfold stripSuffix
  constructor
  · intro stripped
    split at stripped
    · rename_i ends
      obtain ⟨head, rfl⟩ := ends
      simpa using stripped
    · cases stripped
  · intro same
    subst same
    simp

/-- A name is read back as a stream exactly when it is that stream's `code` ref. -/
theorem streamIdFromCodeRef_eq_some {name : Bytes} {stream : StreamId} :
    streamIdFromCodeRef name = some stream ↔ name = codeRef stream := by
  -- Prefix and suffix are stripped around the id, which is then validated again.
  have suffix : ofText "/code" = slash :: ofText "code" := by decide
  simp only [streamIdFromCodeRef, Option.bind_eq_bind, Option.bind_eq_some_iff,
    stripPrefix_eq_some, stripSuffix_eq_some, suffix]
  constructor
  · intro parts
    obtain ⟨rest, rfl, id, rfl, accepted⟩ := parts
    cases built : StreamId.new id with
    | error reason => simp [built, Except.toOption] at accepted
    | ok found =>
      -- The id construction accepts is the one between the prefix and the suffix.
      have same : found = stream := by simpa [built, Except.toOption] using accepted
      have kept : stream.id = id := same ▸ StreamId.new_ok built
      simp [codeRef, streamRef, kept]
  · intro same
    subst same
    exact ⟨stream.id ++ slash :: ofText "code", by simp [codeRef, streamRef], stream.id, rfl,
      by simp [Except.toOption]⟩

private theorem lossy_streamRef (stream : StreamId) {rest : Bytes}
    (text : Utf8.valid (slash :: rest) = true) :
    Utf8.lossy (streamRef stream.id rest) = streamRef stream.id rest := by
  -- The prefix, the id and the rest are text, and so is the name they make up.
  have opening : Utf8.valid streamsPrefix = true := by decide
  exact Utf8.lossy_valid (Utf8.valid_append (Utf8.valid_append opening stream.text) text)

/-- The `code` ref of a stream is listed as that stream. -/
@[simp] theorem listedAs_codeRef (stream : StreamId) :
    listedAs (codeRef stream) = some stream := by
  rw [listedAs, codeRef, lossy_streamRef stream (by decide)]
  exact streamIdFromCodeRef_eq_some.mpr rfl

/-- A `code` ref is never the `extra` ref of any stream. -/
theorem codeRef_ne_extraRef (left right : StreamId) : codeRef left ≠ extraRef right := by
  -- The last segments of the two names differ.
  intro same
  have split := congrArg (List.splitOn slash) same
  rw [splitOn_codeRef, splitOn_extraRef] at split
  have last := List.append_inj_right' split rfl
  revert last
  decide

/-- An `extra` ref is read back as no stream. -/
theorem streamIdFromCodeRef_extraRef (stream : StreamId) :
    streamIdFromCodeRef (extraRef stream) = none := by
  -- What is read back as a stream is a `code` ref, and this one is not.
  rw [Option.eq_none_iff_forall_ne_some]
  intro other read
  exact codeRef_ne_extraRef other stream (streamIdFromCodeRef_eq_some.mp read).symm

/-- An `extra` ref is not listed as any stream. -/
@[simp] theorem listedAs_extraRef (stream : StreamId) : listedAs (extraRef stream) = none := by
  rw [listedAs, extraRef, lossy_streamRef stream (by decide)]
  exact streamIdFromCodeRef_extraRef stream

/-- Listing that succeeds gives the streams its refs are listed as, in their order. -/
theorem listStreams_ok {gix : Gix} {repo : Bytes} {store : RefStore Target}
    {streams : List StreamId} (listed : listStreams gix repo store = .ok streams) :
    streams = (store.prefixed streamsPrefix).filterMap fun entry => listedAs entry.1 := by
  -- Past the two failures the streams are read from what was enumerated.
  unfold listStreams at listed
  split at listed
  · cases listed
  · obtain ⟨entries, found, read⟩ := Folds.bind_ok.mp listed
    rw [← enumerate_ok found]
    exact (Except.ok.inj read).symm

/-- Listing succeeds when the library does. -/
theorem listStreams_sound (repo : Bytes) (store : RefStore Target) :
    listStreams .sound repo store =
      .ok ((store.prefixed streamsPrefix).filterMap fun entry => listedAs entry.1) := by
  simp [listStreams, enumerate, Gix.sound, Bind.bind, Except.bind, Pure.pure, Except.pure]

/-- Every `code` ref lies under the prefix of all streams. -/
theorem streamsPrefix_codeRef (stream : StreamId) : streamsPrefix <+: codeRef stream := by
  simp [codeRef, streamRef]

/-- On a server, only the `code` ref of a stream is listed as it. -/
theorem ServerHolds.listed {store : RefStore Target} (holds : ServerHolds store)
    {entry : Bytes × Target} (member : entry ∈ store.prefixed streamsPrefix) {stream : StreamId} :
    listedAs entry.1 = some stream ↔ entry.1 = codeRef stream := by
  -- The owner of a stored ref is known, and so is which of its two refs this is.
  obtain ⟨stored, opens⟩ := RefStore.mem_prefixed.mp member
  obtain ⟨owner, held⟩ := holds entry stored opens
  simp only [serverRefs, List.mem_cons, List.not_mem_nil, or_false] at held
  rcases held with code | extra
  · rw [code, listedAs_codeRef]
    exact ⟨fun same => congrArg _ (Option.some.inj same),
      fun same => congrArg _ (codeRef_injective same)⟩
  · rw [extra, listedAs_extraRef]
    exact ⟨nofun, fun same => absurd same.symm (codeRef_ne_extraRef stream owner)⟩

/-- Reading every entry of a server's listing gives a stream once. -/
private theorem ServerHolds.listing_nodup {store : RefStore Target} (holds : ServerHolds store) :
    ((store.prefixed streamsPrefix).filterMap fun entry => listedAs entry.1).Nodup := by
  -- Two entries listed as one stream would carry the same name, and names are listed once.
  have names : ((store.prefixed streamsPrefix).map Prod.fst).Nodup :=
    (List.filter_sublist.map Prod.fst).nodup store.distinct
  rw [List.Nodup, List.pairwise_filterMap]
  apply (List.pairwise_map.mp names).imp_of_mem
  intro left right here there apart first gives second gives' same
  have upper := (holds.listed here).mp gives
  have lower := (holds.listed there).mp gives'
  exact apart (by rw [upper, lower, same])

/--
Stream ids are recovered exactly from `code` refs.

On a server that keeps only `code` and `extra` refs, listing gives each stream with a `code` ref once.
-/
theorem listStreams_exact :
    (∀ stream, streamIdFromCodeRef (codeRef stream) = some stream) ∧
      (∀ name stream, streamIdFromCodeRef name = some stream → name = codeRef stream) ∧
      (∀ stream, streamIdFromCodeRef (extraRef stream) = none) ∧
      ∀ store : RefStore Target, ServerHolds store → ∀ repo,
        (∃ streams, listStreams .sound repo store = .ok streams) ∧
        ∀ gix streams, listStreams gix repo store = .ok streams → streams.Nodup ∧
          ∀ stream, stream ∈ streams ↔ (store.get (codeRef stream)).isSome := by
  refine ⟨fun stream => streamIdFromCodeRef_eq_some.mpr rfl,
    fun name stream => streamIdFromCodeRef_eq_some.mp, streamIdFromCodeRef_extraRef, ?_⟩
  intro store holds repo
  refine ⟨⟨_, listStreams_sound repo store⟩, ?_⟩
  intro gix streams listed
  rw [listStreams_ok listed]
  refine ⟨holds.listing_nodup, ?_⟩
  intro stream
  -- A stream is listed from an entry that carries its `code` ref, and from no other one.
  simp only [List.mem_filterMap, Option.isSome_iff_exists, RefStore.get_eq_some]
  constructor
  · intro found
    obtain ⟨entry, member, read⟩ := found
    have code := (holds.listed member).mp read
    exact ⟨entry.2, code ▸ (RefStore.mem_prefixed.mp member).1⟩
  · intro stored
    obtain ⟨target, stored⟩ := stored
    exact ⟨(codeRef stream, target),
      RefStore.mem_prefixed.mpr ⟨stored, streamsPrefix_codeRef stream⟩, listedAs_codeRef stream⟩

/-- An id made of the tool's own words is listed, beside a stream that has only an `extra` ref. -/
theorem listStreams_exact_own_words :
    ∃ (store : RefStore Unit) (stream other : StreamId), stream.id = ofText "extra/code" ∧
      other.id = ofText "a" ∧ ServerHolds store ∧
      ∀ gix streams, listStreams gix [] store = .ok streams →
        streams.Nodup ∧ ∀ found, found ∈ streams ↔ (store.get (codeRef found)).isSome := by
  let stream : StreamId := ⟨ofText "extra/code", by decide, by decide, by decide⟩
  let other : StreamId := ⟨ofText "a", by decide, by decide, by decide⟩
  let store : RefStore Unit :=
    ⟨[(codeRef stream, ()), (extraRef stream, ()), (extraRef other, ())], by decide, by decide⟩
  have holds : ServerHolds store := by
    intro entry stored opens
    simp only [store, List.mem_cons, List.not_mem_nil, or_false] at stored
    rcases stored with rfl | rfl | rfl
    · exact ⟨stream, by simp [serverRefs]⟩
    · exact ⟨stream, by simp [serverRefs]⟩
    · exact ⟨other, by simp [serverRefs]⟩
  exact ⟨store, stream, other, rfl, rfl, holds, (listStreams_exact.2.2.2 store holds []).2⟩

/-- Forgetting that succeeds has deleted and counted the refs under the stream's prefix. -/
theorem forgetStream_ok {gix : Gix} {repo : Bytes} {store after : RefStore Target}
    {stream : StreamId} {removed : Nat}
    (forgot : forgetStream gix repo store stream = (.ok removed, after)) :
    removed = (store.prefixed (streamPrefix stream)).length ∧
      after = store.delete ((store.prefixed (streamPrefix stream)).map Prod.fst) := by
  -- Every branch but two reports a failure.
  unfold forgetStream at forgot
  split at forgot
  · cases forgot
  · cases found : enumerate gix .forgetStream store (streamPrefix stream) with
    | error failure => simp [found] at forgot
    | ok entries =>
      rw [← enumerate_ok found]
      simp only [found] at forgot
      split at forgot
      · -- No ref has the prefix, so nothing is deleted.
        rename_i none
        have empty : entries = [] := by simpa using none
        cases forgot
        simp [empty]
      · split at forgot
        · cases forgot
        · cases forgot
          simp

/-- Forgetting that fails leaves every ref as it was. -/
theorem forgetStream_error {gix : Gix} {repo : Bytes} {store after : RefStore Target}
    {stream : StreamId} {failure : ServerError}
    (failed : forgetStream gix repo store stream = (.error failure, after)) : after = store := by
  -- Only the last branch deletes, and it succeeds.
  unfold forgetStream at failed
  grind

/-- Forgetting succeeds when the library does. -/
theorem forgetStream_sound (repo : Bytes) (store : RefStore Target) (stream : StreamId) :
    ∃ removed after, forgetStream .sound repo store stream = (.ok removed, after) := by
  -- With no failing call it is left whether there is anything to delete.
  simp only [forgetStream, enumerate, Gix.sound]
  by_cases empty : store.prefixed (streamPrefix stream) = [] <;> simp [empty]

namespace RefStore

variable {store : RefStore Target} {name : Bytes}

/-- Deleting the refs under a prefix frees every name that has it, and no other. -/
@[simp] theorem get_delete_prefixed (opening : Bytes) :
    (store.delete ((store.prefixed opening).map Prod.fst)).get name =
      if opening <+: name then none else store.get name := by
  -- The deleted names are the enumerated ones, which are the stored ones with the prefix.
  rw [get_delete]
  by_cases opens : opening <+: name
  · rw [if_pos opens]
    split
    · rfl
    · -- A stored name with the prefix would have been enumerated.
      rename_i unlisted
      apply get_eq_none.mpr
      intro target stored
      apply unlisted
      exact List.mem_map.mpr ⟨(name, target), mem_prefixed.mpr ⟨stored, opens⟩, rfl⟩
  · have unlisted : name ∉ (store.prefixed opening).map Prod.fst := by
      intro listed
      obtain ⟨entry, member, rfl⟩ := List.mem_map.mp listed
      exact opens (mem_prefixed.mp member).2
    rw [if_neg unlisted, if_neg opens]

/-- Deleting the refs under a prefix keeps the others in their order. -/
theorem refs_delete_prefixed (opening : Bytes) :
    (store.delete ((store.prefixed opening).map Prod.fst)).refs =
      store.refs.filter fun entry => ¬ opening <+: entry.1 := by
  -- A stored ref was enumerated exactly when it has the prefix.
  apply List.filter_congr
  intro entry stored
  simp only [List.mem_map, Prod.exists, exists_and_right, exists_eq_right, decide_eq_decide]
  refine not_congr ⟨fun ⟨target, listed⟩ => (mem_prefixed.mp listed).2, fun opens => ?_⟩
  exact ⟨entry.2, mem_prefixed.mpr ⟨stored, opens⟩⟩

end RefStore

end GitFullSend

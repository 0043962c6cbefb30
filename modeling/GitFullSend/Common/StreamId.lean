import Mathlib.Data.List.Infix
import GitFullSend.Lib.Utf8
import GitFullSend.Lib.Segments

/-! Stream ids, and the names of the refs each stream keeps its state under. -/

namespace GitFullSend

open Utf8 (Bytes ofText)

/-- The byte that separates the segments of a ref name or a repository path. -/
def slash : UInt8 := 0x2F

/-- Ref namespace that the synced refs are confined to. -/
def refNamespace : Bytes := ofText "refs/git-full-send/"

/-- Prefix under the namespace beneath which every per-stream ref subtree lives. -/
def streamsPrefix : Bytes := ofText "refs/git-full-send/streams/"

/-- Bytes Git admits in a ref name: no control character, no space, and none of its own operators. -/
def refByte (byte : UInt8) : Bool :=
  0x20 < byte && byte ≠ 0x7F && !(ofText "~^:?*[\\").contains byte

/-- What Git asks of each slash-separated component of a ref name. -/
def componentWellFormed (component : Bytes) : Bool :=
  -- An empty component is a leading, trailing or doubled slash.
  component ≠ [] && component.head? ≠ some 0x2E && !decide (ofText ".lock" <:+ component) &&
    !decide (ofText ".." <:+: component) && !decide (ofText "@\x7b" <:+: component) &&
    component.all refByte

/-- The names `gix_validate::reference::name` accepts: Git's well-formed ref names. -/
def refNameWellFormed (name : Bytes) : Bool :=
  let components := name.splitOn slash
  -- A name with one component is only for refs such as `HEAD`, which are written in capitals.
  (1 < components.length || name.all fun byte => (0x41 ≤ byte && byte ≤ 0x5A) || byte = 0x5F) &&
    components.all componentWellFormed && name.getLast? ≠ some 0x2E

/-- A well-formed name consists of the bytes Git admits and of slashes. -/
theorem refByte_of_wellFormed {name : Bytes} (wellFormed : refNameWellFormed name = true)
    {byte : UInt8} (member : byte ∈ name) : byte = slash ∨ refByte byte = true := by
  -- Every component is checked byte by byte.
  rcases @Segments.mem_segment _ _ slash _ _ member with same | ⟨component, listed, within⟩
  · exact .inl same
  · simp only [refNameWellFormed, Bool.and_eq_true, List.all_eq_true] at wellFormed
    have checked := wellFormed.1.2 component listed
    simp only [componentWellFormed, Bool.and_eq_true, List.all_eq_true] at checked
    exact .inr (checked.2 byte within)

/-- A ref name assembled for a stream id: the streams prefix, the id, a slash, and the rest. -/
def streamRef (id rest : Bytes) : Bytes :=
  streamsPrefix ++ id ++ slash :: rest

/--
An independent, reusable slot of synced state, named by a caller-chosen id.

The fields are what construction checks, so a malformed id cannot be built.
-/
structure StreamId where
  /-- The id as the caller spelled it, with any slashes it contains. -/
  id : Bytes
  /-- The id is a string. -/
  text : Utf8.valid id = true
  /-- The id is not empty. -/
  nonempty : id ≠ []
  /-- The assembled `code` ref is a well-formed ref name. -/
  wellFormed : refNameWellFormed (streamRef id (ofText "code")) = true
  deriving DecidableEq

/-- The reason a string was rejected as a stream id. -/
inductive StreamIdError where
  /-- The id was empty. -/
  | empty
  /-- The id would not form a valid Git ref path. -/
  | invalid (id : Bytes)
  deriving DecidableEq, Repr

/-- Validate an id on the assembled `code` ref, so anything Git would reject is rejected here. -/
def StreamId.new (id : Bytes) : Except StreamIdError StreamId :=
  if nonempty : id = [] then .error .empty
  -- The argument is a string, so it is always UTF-8; other bytes cannot be passed.
  else if sound : Utf8.valid id = true ∧
      refNameWellFormed (streamRef id (ofText "code")) = true then
    .ok ⟨id, sound.1, nonempty, sound.2⟩
  else .error (.invalid id)

/-- The ref holding a stream's encoded `code` state. -/
def codeRef (stream : StreamId) : Bytes := streamRef stream.id (ofText "code")

/-- The client-local ref pinning the last-confirmed-pushed `code` tip. -/
def sentRef (stream : StreamId) : Bytes := streamRef stream.id (ofText "sent/code")

/-- The ref holding a stream's encoded `extra` state. -/
def extraRef (stream : StreamId) : Bytes := streamRef stream.id (ofText "extra")

/-- The client-local ref pinning the last-confirmed-pushed `extra` tip. -/
def sentExtraRef (stream : StreamId) : Bytes := streamRef stream.id (ofText "sent/extra")

/-- The ref-name prefix under which every ref of a stream lives, ended by a slash. -/
def streamPrefix (stream : StreamId) : Bytes := streamRef stream.id []

/-- The four refs the tool manages for a stream, on the client or on the server. -/
def managedRefs (stream : StreamId) : List Bytes :=
  [codeRef stream, extraRef stream, sentRef stream, sentExtraRef stream]

/-- Two streams with the same id are the same stream. -/
theorem StreamId.ext_id {left right : StreamId} (same : left.id = right.id) : left = right := by
  cases left; cases right; simpa using same

/-- An id that construction accepts is kept as it was given. -/
theorem StreamId.new_ok {id : Bytes} {stream : StreamId} (accepted : StreamId.new id = .ok stream) :
    stream.id = id := by
  -- Only the last branch accepts, and it stores the id it was given.
  unfold StreamId.new at accepted
  split at accepted
  · cases accepted
  · split at accepted
    · cases accepted; rfl
    · cases accepted

/-- Construction accepts the id of every stream and gives that stream back. -/
@[simp] theorem StreamId.new_id (stream : StreamId) : StreamId.new stream.id = .ok stream := by
  -- The fields of a stream are the very checks of the construction.
  have sound := And.intro stream.text stream.wellFormed
  simp only [StreamId.new, dif_neg stream.nonempty, dif_pos sound]

/-- The segments every per-stream ref name opens with. -/
def streamsSegments : List Bytes := [ofText "refs", ofText "git-full-send", ofText "streams"]

/-- A name assembled below a stream consists of the common segments, the id's, and the rest. -/
theorem splitOn_streamRef (id rest : Bytes) :
    (streamRef id rest).splitOn slash =
      streamsSegments ++ id.splitOn slash ++ rest.splitOn slash := by
  -- The prefix ends with the slash that separates it from the id.
  have opened : streamRef id rest =
      ofText "refs/git-full-send/streams" ++ slash :: (id ++ slash :: rest) := by
    have ended : streamsPrefix = ofText "refs/git-full-send/streams" ++ [slash] := by decide
    simp [streamRef, ended]
  have common : (ofText "refs/git-full-send/streams").splitOn slash = streamsSegments := by decide
  rw [opened, List.splitOn_append_cons_self, List.splitOn_append_cons_self, common,
    List.append_assoc]

/-- The segments of a stream's `code` ref. -/
theorem splitOn_codeRef (stream : StreamId) :
    (codeRef stream).splitOn slash =
      streamsSegments ++ stream.id.splitOn slash ++ [ofText "code"] :=
  splitOn_streamRef stream.id (ofText "code")

/-- The segments of a stream's `extra` ref. -/
theorem splitOn_extraRef (stream : StreamId) :
    (extraRef stream).splitOn slash =
      streamsSegments ++ stream.id.splitOn slash ++ [ofText "extra"] :=
  splitOn_streamRef stream.id (ofText "extra")

/-- Names assembled for one id are the same exactly when their rests are. -/
@[simp] theorem streamRef_inj {id left right : Bytes} :
    streamRef id left = streamRef id right ↔ left = right := by
  simp [streamRef]

/-- The four managed refs of a stream are four different refs. -/
theorem managedRefs_nodup (stream : StreamId) : (managedRefs stream).Nodup := by
  -- The names share everything up to their last segments, which differ.
  simp only [managedRefs, codeRef, extraRef, sentRef, sentExtraRef, List.nodup_cons,
    List.mem_cons, streamRef_inj, List.not_mem_nil, or_false, List.nodup_nil, and_true]
  decide

/-- Every managed ref of a stream lies under the stream's prefix. -/
theorem managedRefs_under {stream : StreamId} {name : Bytes}
    (managed : name ∈ managedRefs stream) : streamPrefix stream <+: name := by
  -- Each name continues after the slash that ends the prefix.
  simp only [managedRefs, List.mem_cons, List.not_mem_nil, or_false] at managed
  rcases managed with rfl | rfl | rfl | rfl <;>
    simp [streamPrefix, codeRef, extraRef, sentRef, sentExtraRef, streamRef]

/-- A prefix that one of a stream's two server refs lies under covers the other one as well. -/
theorem streamPrefix_extraRef {upper stream : StreamId} :
    streamPrefix upper <+: extraRef stream ↔ streamPrefix upper <+: codeRef stream := by
  -- Either way the streams themselves are at or above one another.
  have above : ∀ rest, slash ∉ rest → (streamPrefix upper <+: streamRef stream.id rest ↔
      Segments.AtOrAbove slash (streamsPrefix ++ upper.id) (streamsPrefix ++ stream.id)) := by
    intro rest plain
    rw [← Segments.above_child_iff plain, Segments.Above]
    simp [streamPrefix, streamRef]
  exact (above _ (by decide)).trans (above _ (by decide)).symm

/-- Names assembled with one rest are the same only for one id. -/
theorem streamRef_id_inj {left right rest : Bytes}
    (same : streamRef left rest = streamRef right rest) : left = right := by
  -- The segments around the ids are the same on both sides.
  apply Segments.splitOn_injective slash
  simpa [splitOn_streamRef] using congrArg (List.splitOn slash) same

/-- Only the stream itself has a given `code` ref. -/
theorem codeRef_injective {left right : StreamId} (same : codeRef left = codeRef right) :
    left = right :=
  StreamId.ext_id (streamRef_id_inj same)

/-- Only the stream itself has a given `extra` ref. -/
theorem extraRef_injective {left right : StreamId} (same : extraRef left = extraRef right) :
    left = right :=
  StreamId.ext_id (streamRef_id_inj same)

end GitFullSend

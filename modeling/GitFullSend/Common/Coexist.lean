import GitFullSend.Common.StreamId

/-! Which two streams can keep their managed refs in one repository. -/

namespace GitFullSend

open Utf8 (Bytes ofText)
open Segments (Above AtOrAbove)

/-- What the managed ref names of a stream add below its id. -/
def managedRests : List Bytes :=
  [ofText "code", ofText "extra", ofText "sent/code", ofText "sent/extra"]

/-- The managed refs of a stream are assembled from its id and the four rests. -/
private theorem managedRefs_eq (stream : StreamId) :
    managedRefs stream = managedRests.map (streamRef stream.id) := rfl

/--
Two streams whose managed refs fit beside each other in one repository.

No ref of one is a ref of the other, and none stands where a ref of the other needs a directory.
-/
structure Coexist (first second : StreamId) : Prop where
  /-- The two sets of names are disjoint. -/
  disjoint : ∀ name ∈ managedRefs first, name ∉ managedRefs second
  /-- No name of the first is a proper path-segment prefix of a name of the second. -/
  beside : ∀ upper ∈ managedRefs first, ∀ lower ∈ managedRefs second, ¬ Above slash upper lower

/--
Neither id continues the other by the tool's own segments.

An id may lie below another one, as long as it does not enter `code`, `extra` or `sent` there.
-/
structure Independent (first second : StreamId) : Prop where
  /-- The second id is not the first one's `sent`. -/
  second_sent : second.id ≠ first.id ++ slash :: ofText "sent"
  /-- The first id is not the second one's `sent`. -/
  first_sent : first.id ≠ second.id ++ slash :: ofText "sent"
  /-- The second id is not at or below a managed ref of the first. -/
  outside : ∀ rest ∈ managedRests, ¬ AtOrAbove slash (first.id ++ slash :: rest) second.id

/-- Fitting beside each other means that no name of one stream is at or above one of the other. -/
theorem coexist_iff {first second : StreamId} :
    Coexist first second ↔ ∀ upper ∈ managedRests, ∀ lower ∈ managedRests,
      ¬ AtOrAbove slash (streamRef first.id upper) (streamRef second.id lower) := by
  -- Being the same name and being above it are the two ways of being at or above it.
  constructor
  · intro apart upper upperRest lower lowerRest meet
    obtain ⟨disjoint, beside⟩ := apart
    rcases meet with same | above
    · exact disjoint _ (List.mem_map_of_mem upperRest) (same ▸ List.mem_map_of_mem lowerRest)
    · exact beside _ (List.mem_map_of_mem upperRest) _ (List.mem_map_of_mem lowerRest) above
  · intro apart
    refine ⟨?_, ?_⟩
    · intro name here there
      obtain ⟨upper, upperRest, rfl⟩ := List.mem_map.mp (managedRefs_eq first ▸ here)
      obtain ⟨lower, lowerRest, same⟩ := List.mem_map.mp (managedRefs_eq second ▸ there)
      exact apart upper upperRest lower lowerRest (.inl same.symm)
    · intro name here other there above
      obtain ⟨upper, upperRest, rfl⟩ := List.mem_map.mp (managedRefs_eq first ▸ here)
      obtain ⟨lower, lowerRest, rfl⟩ := List.mem_map.mp (managedRefs_eq second ▸ there)
      exact apart upper upperRest lower lowerRest (.inr above)

/-- The common prefix of all streams drops out of comparing two of their names. -/
private theorem atOrAbove_streamRef {upper lower upperRest lowerRest : Bytes} :
    AtOrAbove slash (streamRef upper upperRest) (streamRef lower lowerRest) ↔
      upper.splitOn slash ++ upperRest.splitOn slash <+:
        lower.splitOn slash ++ lowerRest.splitOn slash := by
  rw [Segments.atOrAbove_iff, splitOn_streamRef, splitOn_streamRef, List.append_assoc,
    List.append_assoc, List.prefix_append_right_inj]

/-- An id at or below a path is one whose segments continue the segments of the path. -/
private theorem atOrAbove_id {upper lower rest : Bytes} :
    AtOrAbove slash (upper ++ slash :: rest) lower ↔
      upper.splitOn slash ++ rest.splitOn slash <+: lower.splitOn slash := by
  rw [Segments.atOrAbove_iff, List.splitOn_append_cons_self]

private theorem eq_sent_iff {upper lower : Bytes} :
    lower = upper ++ slash :: ofText "sent" ↔
      lower.splitOn slash = upper.splitOn slash ++ [ofText "sent"] := by
  -- The segment `sent` has no slash, so it stays one segment when it is joined.
  have plain : slash ∉ ofText "sent" := by decide
  rw [← Segments.splitOn_below upper plain]
  exact ⟨congrArg _, Segments.splitOn_injective slash⟩

/-- The segments of the four rests. -/
def restSegments : List (List Bytes) :=
  [[ofText "code"], [ofText "extra"], [ofText "sent", ofText "code"], [ofText "sent", ofText "extra"]]

/-- Splitting the rests gives their segments. -/
private theorem managedRests_split : managedRests.map (List.splitOn slash) = restSegments := by decide

private theorem rest_split {head tail : List Bytes} (nonempty : head ≠ []) (more : tail ≠ [])
    (rest : head ++ tail ∈ restSegments) : head = [ofText "sent"] := by
  -- No rest has more than two segments, so the head is one segment.
  obtain ⟨first, others, rfl⟩ := List.exists_cons_of_ne_nil nonempty
  obtain ⟨last, following, rfl⟩ := List.exists_cons_of_ne_nil more
  simp only [restSegments, List.mem_cons, List.not_mem_nil, or_false, List.cons_append] at rest
  rcases rest with same | same | same | same <;> obtain ⟨rfl, same⟩ := List.cons.inj same <;>
    cases others <;> simp_all

private theorem rests_meet_iff {upper lower : List Bytes} (different : upper ≠ lower) :
    (∃ above ∈ restSegments, ∃ below ∈ restSegments, upper ++ above <+: lower ++ below) ↔
      lower = upper ++ [ofText "sent"] ∨ upper = lower ++ [ofText "sent"] ∨
        ∃ rest ∈ restSegments, upper ++ rest <+: lower := by
  constructor
  · intro meet
    obtain ⟨above, aboveRest, below, belowRest, tail, same⟩ := meet
    have nonempty : above ≠ [] := by rintro rfl; revert aboveRest; decide
    rw [List.append_assoc] at same
    rcases List.append_eq_append_iff.mp same with ⟨middle, rfl, cut⟩ | ⟨middle, rfl, rfl⟩
    · -- The second id continues the first, so the first one's rest runs along it.
      rcases List.append_eq_append_iff.mp cut with ⟨past, rfl, rfl⟩ | ⟨left, rfl, rfl⟩
      · exact .inr (.inr ⟨above, aboveRest, by simp⟩)
      · by_cases ended : left = []
        · exact .inr (.inr ⟨middle, by simpa [ended] using aboveRest, by simp⟩)
        · have inside : middle ≠ [] := by rintro rfl; simp at different
          exact .inl (congrArg _ (rest_split inside ended aboveRest))
    · -- The first id continues the second, and its whole name fits into the other's rest.
      have inside : middle ≠ [] := by rintro rfl; simp at different
      exact .inr (.inl (congrArg _ (rest_split inside (by simp [nonempty]) belowRest)))
  · intro kinds
    rcases kinds with rfl | rfl | ⟨rest, isRest, opens⟩
    · exact ⟨[ofText "sent", ofText "code"], by decide, [ofText "code"], by decide, by simp⟩
    · exact ⟨[ofText "code"], by decide, [ofText "sent", ofText "code"], by decide, by simp⟩
    · exact ⟨rest, isRest, [ofText "code"], by decide, opens.trans (List.prefix_append ..)⟩

/-- Two different streams can coexist exactly when neither id enters the other's own segments. -/
theorem coexist_iff_independent {first second : StreamId} (different : first ≠ second) :
    Coexist first second ↔ Independent first second := by
  -- Split into segments, the question is where the two lists of segments meet.
  have apart : first.id.splitOn slash ≠ second.id.splitOn slash :=
    fun same => different (StreamId.ext_id (Segments.splitOn_injective slash same))
  have meets := not_congr (rests_meet_iff apart)
  simp only [← managedRests_split, List.mem_map, exists_exists_and_eq_and, ← eq_sent_iff,
    ← atOrAbove_streamRef, ← atOrAbove_id, not_or, not_exists, not_and] at meets
  rw [coexist_iff, meets]
  exact ⟨fun ⟨second, first, outside⟩ => ⟨second, first, outside⟩,
    fun ⟨second, first, outside⟩ => ⟨second, first, outside⟩⟩

/-- Two sibling ids, one of them with a slash, are independent, so their refs fit together. -/
theorem siblings_coexist :
    ∃ first second : StreamId, first.id = ofText "team/alice" ∧ second.id = ofText "team/bob" ∧
      (Coexist first second ↔ Independent first second) ∧ Independent first second := by
  refine ⟨⟨ofText "team/alice", by decide, by decide, by decide⟩,
    ⟨ofText "team/bob", by decide, by decide, by decide⟩, rfl, rfl,
    coexist_iff_independent (by decide), ?_⟩
  exact ⟨by decide, by decide, by decide⟩

/-- The ids `a` and `a/sent` share a ref, and `a/code` needs a directory where `a` has a ref. -/
theorem nested_ids_collide :
    ∃ parent sent code : StreamId,
      StreamId.new (ofText "a") = .ok parent ∧ StreamId.new (ofText "a/sent") = .ok sent ∧
      StreamId.new (ofText "a/code") = .ok code ∧ parent ≠ sent ∧ parent ≠ code ∧
      (sentRef parent = codeRef sent ∧ ¬ Coexist parent sent) ∧
      (Above slash (codeRef parent) (codeRef code) ∧ ¬ Coexist parent code) := by
  -- One name common to both sets, and one name above another, keep these ids apart.
  refine ⟨_, _, _, rfl, rfl, rfl, by decide, by decide, ⟨by decide, ?_⟩, by decide, ?_⟩
  · intro fits
    exact fits.disjoint (ofText "refs/git-full-send/streams/a/sent/code") (by decide) (by decide)
  · intro fits
    exact fits.beside (ofText "refs/git-full-send/streams/a/code") (by decide)
      (ofText "refs/git-full-send/streams/a/code/code") (by decide) (by decide)

end GitFullSend

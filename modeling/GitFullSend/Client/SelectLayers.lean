import GitFullSend.Lib.Lists
import GitFullSend.Client.SelectMeaning

/-! How far a later layer of include patterns has the final say over the earlier ones. -/

namespace GitFullSend

open Utf8 (Bytes ofText)

/--
The earlier layers overrule the last one at a path.

They have a line for the path, or for an ancestor of it, below every level the last one matches.
-/
def Overruled (wild : Bytes → Bytes → Bool) (earlier : Search) (last : List Pattern)
    (path : List FileName) : Prop :=
  ∃ deeper level upper, levels path = deeper ++ level :: upper ∧
    decision wild earlier level ≠ none ∧
    ∀ other ∈ deeper ++ [level], decision wild [last] other = none

section Layers

variable {wild : Bytes → Bytes → Bool} {earlier : Search} {last : List Pattern}
  {path : List FileName}

private theorem verdict_overruled (overruled : Overruled wild earlier last path) :
    verdict wild (earlier ++ [last]) path = verdict wild earlier path := by
  -- Both stacks are scanned from the deepest level, and they stop at the same one.
  obtain ⟨deeper, level, upper, split, matched, silent⟩ := overruled
  have whole : levels path = (deeper ++ [level]) ++ upper := by simpa using split
  -- Down to the overruling level both searches see the same decisions, and one is there.
  have same : (deeper ++ [level]).findSome? (decision wild (earlier ++ [last])) =
      (deeper ++ [level]).findSome? (decision wild earlier) := by
    apply Lists.findSome?_alike
    intro other member
    rw [decision_append, silent other member, Option.none_or]
  have found : ((deeper ++ [level]).findSome? (decision wild earlier)).isSome := by
    rw [List.findSome?_isSome_iff]
    exact ⟨level, by simp, Option.isSome_iff_ne_none.mpr matched⟩
  obtain ⟨polarity, here⟩ := Option.isSome_iff_exists.mp found
  have stops : ∀ search, (deeper ++ [level]).findSome? (decision wild search) = some polarity →
      verdict wild search path = polarity := by
    intro search reached
    rw [verdict, decided, whole, List.findSome?_append, reached]
    rfl
  rw [stops earlier here, stops (earlier ++ [last]) (same.trans here)]

/-- Where the last layer decides and is not overruled, its decision stands. -/
theorem verdict_last {own : Bool} (decides : decided wild [last] path = some own)
    (stands : ¬ Overruled wild earlier last path) :
    verdict wild (earlier ++ [last]) path = own := by
  obtain ⟨deeper, level, upper, split, here, silent⟩ := List.findSome?_eq_some_iff.mp decides
  -- An earlier layer with a line at a deeper level would have overruled the last one.
  have quiet : ∀ other ∈ deeper, decision wild earlier other = none := by
    intro other member
    by_contra matched
    obtain ⟨front, back, rfl⟩ := List.append_of_mem member
    refine stands ⟨front, other, back ++ level :: upper, by simpa using split, matched, ?_⟩
    intro above listed
    exact silent above (by simp only [List.mem_append, List.mem_cons] at listed ⊢; tauto)
  have first : (levels path).findSome? (decision wild (earlier ++ [last])) = some own := by
    refine List.findSome?_eq_some_iff.mpr ⟨deeper, level, upper, split, ?_, ?_⟩
    · rw [decision_append, here, Option.some_or]
    · intro other member
      rw [decision_append, silent other member, quiet other member, Option.none_or]
  rw [verdict, decided, first, Option.getD_some]

private theorem not_overruled_of_own {own : Bool}
    (line : decision wild [last] (path, false) = some own) :
    ¬ Overruled wild earlier last path := by
  intro overruled
  obtain ⟨deeper, level, upper, split, -, silent⟩ := overruled
  -- The path itself is the deepest level there is.
  have member : (path, false) ∈ deeper ++ [level] := by
    cases deeper with
    | nil => exact List.mem_singleton.mpr (List.cons.inj split).1
    | cons first rest => exact (List.cons.inj split).1 ▸ List.mem_cons_self
  simp [silent _ member] at line

/--
The last layer has the final say about a file at the level where it decides.

Earlier layers prevail only with a line for the file or an ancestor below that level, and a line of
the last layer for the file itself always decides.
-/
theorem selectIn_last_layer {read : Bytes → ReadResult} {parse : Bytes → List Pattern}
    {workdir : Bytes} {entries : List (FileName × Node)} {userInclude : Option Bytes}
    {extraIncludes : List Bytes} {selection : Selection} {target : Node} {own : Bool}
    (loaded : loadSearch read parse workdir userInclude extraIncludes = .ok (earlier ++ [last]))
    (done : selectIn wild read parse workdir (.dir entries) userInclude extraIncludes = .ok selection)
    (present : (Node.dir entries).At path target) (leaf : target.isLeaf = true)
    (free : GitFree path) (decides : decided wild [last] path = some own) :
    (¬ Overruled wild earlier last path → (relOf path ∈ selection.paths ↔ own = true)) ∧
      (Overruled wild earlier last path →
        (relOf path ∈ selection.paths ↔ verdict wild earlier path = true)) ∧
      (decision wild [last] (path, false) ≠ none →
        (relOf path ∈ selection.paths ↔ own = true)) := by
  -- Membership is read off the verdict, which is the last layer's or the earlier ones'.
  have below : path ≠ [] := by
    intro same
    subst same
    obtain rfl : Node.dir entries = target := present
    cases leaf
  -- The file is selected exactly when the whole stack includes it.
  have selected : relOf path ∈ selection.paths ↔
      verdict wild (earlier ++ [last]) path = true := by
    rw [mem_selectIn loaded done]
    constructor
    · intro selected
      obtain ⟨other, found, present', leaf', free', included, same⟩ := selected
      have below' : other ≠ [] := by
        intro differ
        subst differ
        obtain rfl : Node.dir entries = found := present'
        cases leaf'
      rw [relOf_injective below below' same]
      exact included
    · intro included
      exact ⟨path, target, present, leaf, free, included, rfl⟩
  refine ⟨fun stands => ?_, fun overruled => ?_, fun line => ?_⟩
  · rw [selected, verdict_last decides stands]
  · rw [selected, verdict_overruled overruled]
  · obtain ⟨polarity, line⟩ := Option.ne_none_iff_exists'.mp line
    rw [selected, verdict_last decides (not_overruled_of_own line)]

end Layers

/-- A project line for `dir/file` overrules the user's `!dir/`, although that one alone decides. -/
theorem later_layer_overruled :
    ∃ (entries : List (FileName × Node)) (path : List FileName) (project user : List Pattern)
      (selection : Selection),
      relOf path = ofText "dir/file" ∧ (Node.dir entries).At path .file ∧
      project = [⟨ofText "dir/file", false, false, false⟩] ∧
      user = [⟨ofText "dir", true, false, true⟩] ∧
      decided (fun _ _ => false) [user] path = some false ∧
      selectIn (fun _ _ => false)
        (fun file => .content (if file = ofText "/user" then ofText "!dir/\n" else ofText "dir/file\n"))
        (fun bytes => if bytes = ofText "!dir/\n" then user else project)
        (ofText "/work") (.dir entries) (some (ofText "/user")) [] = .ok selection ∧
      relOf path ∈ selection.paths := by
  -- The project line is at the level of the file, below the level of the user line.
  let dir : FileName := ⟨ofText "dir", by decide, by decide⟩
  let file : FileName := ⟨ofText "file", by decide, by decide⟩
  refine ⟨[(dir, .dir [(file, .file)])], [dir, file], _, _, _, by decide, ?_, rfl, rfl, by decide,
    rfl, by decide⟩
  exact ⟨_, List.mem_singleton.mpr rfl, _, List.mem_singleton.mpr rfl, rfl⟩

/-- The user's `!dir/secret` takes out one file of a directory the project includes. -/
theorem selectIn_last_layer_carves :
    ∃ (entries : List (FileName × Node)) (path : List FileName) (project user : List Pattern)
      (selection : Selection),
      relOf path = ofText "dir/secret" ∧
      project = [⟨ofText "dir", false, false, true⟩] ∧
      user = [⟨ofText "dir/secret", true, false, false⟩] ∧
      (Node.dir entries).At path .file ∧ relOf path ∉ selection.paths := by
  let dir : FileName := ⟨ofText "dir", by decide, by decide⟩
  let file : FileName := ⟨ofText "secret", by decide, by decide⟩
  have present : (Node.dir [(dir, .dir [(file, .file)])]).At [dir, file] .file :=
    ⟨_, List.mem_singleton.mpr rfl, _, List.mem_singleton.mpr rfl, rfl⟩
  let read : Bytes → ReadResult := fun file =>
    .content (if file = ofText "/user" then ofText "!dir/secret\n" else ofText "dir/\n")
  let parse : Bytes → List Pattern := fun bytes => if bytes = ofText "!dir/secret\n"
    then [⟨ofText "dir/secret", true, false, false⟩] else [⟨ofText "dir", false, false, true⟩]
  have loaded : loadSearch read parse (ofText "/work") (some (ofText "/user")) [] =
      .ok ([[⟨ofText "dir", false, false, true⟩]] ++ [[⟨ofText "dir/secret", true, false, false⟩]]) := rfl
  obtain ⟨selection, done⟩ : ∃ selection, selectIn (fun _ _ => false) read parse (ofText "/work")
      (.dir [(dir, .dir [(file, .file)])]) (some (ofText "/user")) [] = .ok selection := ⟨_, rfl⟩
  have decides : decided (fun _ _ => false) [[⟨ofText "dir/secret", true, false, false⟩]]
      [dir, file] = some false := by decide
  have final := selectIn_last_layer loaded done present rfl (by unfold GitFree; decide) decides
  exact ⟨_, _, _, _, selection, by decide, rfl, rfl, present, by simpa using final.2.2 (by decide)⟩

end GitFullSend

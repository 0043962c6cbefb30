import Mathlib.Data.List.Sort
import GitFullSend.Common.StreamId

/-! Selecting the force-included, normally-gitignored files of a working tree. -/

namespace GitFullSend

open Utf8 (Bytes ofText)

/-- The committed, project-level include file, looked for at the repo root. -/
def projectIncludeFile : Bytes := ofText ".git-full-send-include"

/-- The name of a Git directory, which no walk descends into. -/
def gitDirName : Bytes := ofText ".git"

/-- The name of a directory entry: not empty, and without a slash. -/
structure FileName where
  bytes : Bytes
  nonempty : bytes ≠ []
  plain : slash ∉ bytes

/-- Two names with the same bytes are the same name. -/
theorem FileName.ext_bytes {left right : FileName} (same : left.bytes = right.bytes) :
    left = right := by
  cases left; cases right; simpa using same

instance : DecidableEq FileName := fun left right =>
  decidable_of_iff (left.bytes = right.bytes) ⟨FileName.ext_bytes, congrArg FileName.bytes⟩

/-- What a directory walk finds at a path, with everything beneath it. -/
inductive Node where
  | file
  | symlink
  /-- A FIFO, a socket or a device. -/
  | other
  /-- An entry whose type cannot be read. -/
  | unstatable
  /-- A directory that cannot be listed. -/
  | unlistable
  | dir (entries : List (FileName × Node))

/-- A pattern as the ignore parser delivers it, stripped of its leading and trailing marks. -/
structure Pattern where
  /-- What is left between a leading `!` and `/` and a trailing `/`. -/
  text : Bytes
  /-- The line began with `!`. -/
  negative : Bool
  /-- The line went on with a `/`. -/
  absolute : Bool
  /-- The line ended with a `/`. -/
  mustBeDir : Bool
  deriving DecidableEq, Repr

/-- The bytes that begin a glob expression. -/
def globByte (byte : UInt8) : Bool := (ofText "*?[\\").contains byte

/-- There is no slash inside the pattern. -/
def Pattern.noSubDir (pattern : Pattern) : Bool := !pattern.text.contains slash

/-- Where the first glob expression of the pattern begins. -/
def Pattern.firstWildcardPos (pattern : Pattern) : Option Nat := pattern.text.findIdx? globByte

/-- The last segment of a path. -/
def basename (rel : Bytes) : Bytes := ((rel.splitOn slash).getLast?).getD []

/-- How a pattern is displayed: as it was written, with its text made printable. -/
def Pattern.display (pattern : Pattern) : Bytes :=
  (if pattern.negative then ofText "!" else []) ++ (if pattern.absolute then [slash] else []) ++
    Utf8.lossy pattern.text ++ (if pattern.mustBeDir then [slash] else [])

/-- The pattern lists of the layers, in the order they were added. -/
abbrev Search := List (List Pattern)

section Matching

-- Wildcard matching of a pattern text against a value, which the glob library decides.
variable (wild : Bytes → Bytes → Bool)

/-- Match a value: the bytes before the first glob expression literally, the rest by the library. -/
def Pattern.matchesText (pattern : Pattern) (value : Bytes) : Bool :=
  match pattern.firstWildcardPos with
  | none => value == pattern.text
  | some pos => (pattern.text.take pos).isPrefixOf value && wild pattern.text value

/-- Match a repo-relative path, of which a pattern without a slash sees the last segment only. -/
def Pattern.matchesPath (pattern : Pattern) (rel : Bytes) (isDir : Bool) : Bool :=
  if pattern.mustBeDir && !isDir then false
  else if pattern.noSubDir && !pattern.absolute then pattern.matchesText wild (basename rel)
  else pattern.matchesText wild rel

/-- The pattern that decides a path: lists and lines are scanned from last to first. -/
def patternMatchingRelativePath (search : Search) (rel : Bytes) (isDir : Bool) : Option Pattern :=
  search.reverse.findSome? fun list => list.reverse.find? fun pattern =>
    pattern.matchesPath wild rel isDir

/-- Match a path against the allow-list: an include, a carve-out, or no match. -/
def classify (search : Search) (rel : Bytes) (isDir : Bool) : Option Bool :=
  (patternMatchingRelativePath wild search rel isDir).map fun pattern => !pattern.negative

end Matching

/-- Which directories the walk may skip, derived once from the allow-list. -/
structure PruneInfo where
  /-- At least one positive pattern matches at any depth, so no directory can be pruned. -/
  anyUnanchored : Bool
  /-- How many distinct positive patterns do. -/
  unanchoredCount : Nat
  /-- Literal leading directory segments of the anchored positive patterns. -/
  prefixes : List (List Bytes)
  deriving DecidableEq, Repr

/-- Whether a directory could contain a file that some positive pattern matches. -/
def PruneInfo.canContainMatch (prune : PruneInfo) (rel : Bytes) : Bool :=
  if prune.anyUnanchored then true
  else
    let dir := rel.splitOn slash
    -- The shorter of the two has to be a segment-wise prefix of the longer.
    prune.prefixes.any fun opening =>
      let common := min opening.length dir.length
      opening.take common == dir.take common

/-- What stands before the last slash, or nothing when there is none. -/
def beforeLastSlash (text : Bytes) : Bytes :=
  ((text.reverse.dropWhile (· ≠ slash)).drop 1).reverse

/-- The directory segments every match of a pattern starts with, or `none` when there are none. -/
def prunablePrefix (pattern : Pattern) : Option (List Bytes) :=
  if pattern.noSubDir && !pattern.absolute then none
  else
    let literal := match pattern.firstWildcardPos with
      -- The segment that holds the first wildcard is partial.
      | some pos => beforeLastSlash (pattern.text.take pos)
      | none => pattern.text
    let segments := (literal.splitOn slash).filter (· ≠ [])
    if segments.isEmpty then none else some segments

/-- The patterns that include something, in the order they are scanned for pruning. -/
def positivePatterns (search : Search) : List Pattern :=
  search.flatten.filter fun pattern => !pattern.negative

/-- Inspect the allow-list and derive what may be pruned. -/
def buildPruneInfo (search : Search) : PruneInfo where
  anyUnanchored := (positivePatterns search).any fun pattern => (prunablePrefix pattern).isNone
  unanchoredCount := (((positivePatterns search).filter fun pattern =>
    (prunablePrefix pattern).isNone).map Pattern.display).eraseDups.length
  prefixes := (positivePatterns search).filterMap prunablePrefix

/-- What the selection walk cost. -/
structure SelectStats where
  /-- Directories the walk descended into, the repo root included. -/
  dirsEntered : Nat := 0
  /-- Directories skipped because no positive pattern could match beneath them. -/
  dirsPruned : Nat := 0
  /-- Entries the walk looked at and classified, of any kind. -/
  pathsConsidered : Nat := 0
  /-- Positive patterns that force the exhaustive walk. -/
  unanchoredPatterns : Nat := 0
  deriving DecidableEq, Repr

/-- What the walk has accumulated. -/
structure Walk where
  /-- The selected paths. -/
  out : List Bytes
  stats : SelectStats
  /-- Every directory the walk descended into. -/
  entered : List Bytes
  deriving DecidableEq, Repr

/-- Errors of a selection, without the texts the operating system attaches. -/
inductive SelectError where
  /-- Reading a pattern file failed. -/
  | readPatternFile (path : Bytes)
  /-- A caller-supplied extra include file does not exist. -/
  | missingExtraInclude (path : Bytes)
  /-- Listing a worktree directory failed. -/
  | readDir (path : Bytes)
  /-- Stat-ing a worktree entry failed. -/
  | metadata (path : Bytes)
  deriving DecidableEq, Repr

/-- Record that the walk descends into a directory. -/
def Walk.enter (walk : Walk) (rel : Bytes) : Walk :=
  { walk with
    stats := { walk.stats with dirsEntered := walk.stats.dirsEntered + 1 }
    entered := walk.entered ++ [rel] }

/-- Record that the walk looks at an entry. -/
def Walk.consider (walk : Walk) : Walk :=
  { walk with stats := { walk.stats with pathsConsidered := walk.stats.pathsConsidered + 1 } }

/-- Record that the walk skips a directory. -/
def Walk.skip (walk : Walk) : Walk :=
  { walk with stats := { walk.stats with dirsPruned := walk.stats.dirsPruned + 1 } }

/-- Record that the walk selects a file. -/
def Walk.select (walk : Walk) (rel : Bytes) : Walk :=
  { walk with out := walk.out ++ [rel] }

section Records

variable (walk : Walk) (rel : Bytes)

@[simp] theorem Walk.out_enter : (walk.enter rel).out = walk.out := rfl
@[simp] theorem Walk.entered_enter : (walk.enter rel).entered = walk.entered ++ [rel] := rfl
@[simp] theorem Walk.dirsPruned_enter :
    (walk.enter rel).stats.dirsPruned = walk.stats.dirsPruned := rfl
@[simp] theorem Walk.out_consider : walk.consider.out = walk.out := rfl
@[simp] theorem Walk.entered_consider : walk.consider.entered = walk.entered := rfl
@[simp] theorem Walk.dirsPruned_consider :
    walk.consider.stats.dirsPruned = walk.stats.dirsPruned := rfl
@[simp] theorem Walk.out_skip : walk.skip.out = walk.out := rfl
@[simp] theorem Walk.entered_skip : walk.skip.entered = walk.entered := rfl
@[simp] theorem Walk.out_select : (walk.select rel).out = walk.out ++ [rel] := rfl
@[simp] theorem Walk.entered_select : (walk.select rel).entered = walk.entered := rfl
@[simp] theorem Walk.stats_select : (walk.select rel).stats = walk.stats := rfl

end Records

/-- Join a repo-relative directory prefix with a child name. -/
def joinRel (rel name : Bytes) : Bytes :=
  if rel.isEmpty then name else rel ++ slash :: name

/-- Where a directory entry is on disk. -/
def childPath (dir name : Bytes) : Bytes :=
  if dir.getLast? = some slash then dir ++ name else dir ++ slash :: name

/-- How the walk goes on at an entry, given its path on disk and in the repo and the state. -/
abbrev Visit := Bytes → Bytes → Bool → Walk → Except SelectError Walk

/-- Go through the entries of a directory in the order of their names, skipping `.git`. -/
def walkEntries (visits : List (FileName × Visit)) (dir rel : Bytes) (inherited : Bool)
    (walk : Walk) : Except SelectError Walk :=
  (visits.insertionSort fun left right => left.1.bytes ≤ right.1.bytes).foldlM (fun walk entry =>
    -- Never descend into a Git directory, our own or a submodule's.
    if entry.1.bytes = gitDirName then .ok walk
    else entry.2 (childPath dir entry.1.bytes) (joinRel rel entry.1.bytes) inherited walk.consider)
    walk

section Walking

variable (wild : Bytes → Bytes → Bool) (search : Search) (prune : PruneInfo)

mutual

/-- Look at one entry: select a file, descend into a directory or prune it. -/
def visit : Node → Visit
  | .unstatable, path, _, _, _ => .error (.metadata path)
  | .file, _, rel, inherited, walk
  | .symlink, _, rel, inherited, walk =>
    .ok (if (classify wild search rel false).getD inherited then walk.select rel else walk)
  -- Anything else is not representable in a tree.
  | .other, _, _, _, walk => .ok walk
  | .unlistable, path, rel, inherited, walk =>
    let state := (classify wild search rel true).getD inherited
    if state || prune.canContainMatch rel then .error (.readDir path) else .ok walk.skip
  | .dir entries, path, rel, inherited, walk =>
    let state := (classify wild search rel true).getD inherited
    if state || prune.canContainMatch rel then
      walkEntries (visitAll entries) path rel state (walk.enter rel)
    else .ok walk.skip

/-- How the walk goes on at each entry of a directory. -/
def visitAll : List (FileName × Node) → List (FileName × Visit)
  | [] => []
  | (name, node) :: rest => (name, visit node) :: visitAll rest

end

/-- Walk a working tree from its root, which starts out excluded. -/
def runWalk (workdir : Bytes) (root : Node) (walk : Walk) : Except SelectError Walk :=
  match root with
  | .dir entries => walkEntries (visitAll wild search prune entries) workdir [] false (walk.enter [])
  | _ => .error (.readDir workdir)

end Walking

/-- What reading a file comes to. -/
inductive ReadResult where
  | content (bytes : Bytes)
  | notFound
  | failed
  deriving DecidableEq, Repr

/-- Read a pattern file, taking a missing one for an empty layer. -/
def readOptional (read : Bytes → ReadResult) (path : Bytes) : Except SelectError (Option Bytes) :=
  match read path with
  | .content bytes => .ok (some bytes)
  | .notFound => .ok none
  | .failed => .error (.readPatternFile path)

/-- Read a caller-supplied extra pattern file, where a missing one is an error. -/
def readRequired (read : Bytes → ReadResult) (path : Bytes) : Except SelectError Bytes :=
  match read path with
  | .content bytes => .ok bytes
  | .notFound => .error (.missingExtraInclude path)
  | .failed => .error (.readPatternFile path)

/-- Build the allow-list: the project layer, the user layer, and the extra layers in their order. -/
def loadSearch (read : Bytes → ReadResult) (parse : Bytes → List Pattern) (workdir : Bytes)
    (userInclude : Option Bytes) (extraIncludes : List Bytes) : Except SelectError Search := do
  let project ← readOptional read (childPath workdir projectIncludeFile)
  let user ← match userInclude with
    | some path => readOptional read path
    | none => pure none
  let extras ← extraIncludes.mapM (readRequired read)
  pure (project.toList.map parse ++ user.toList.map parse ++ extras.map parse)

/-- The selected paths, and what finding them cost. -/
structure Selection where
  paths : List Bytes
  stats : SelectStats
  deriving DecidableEq, Repr

/-- Drop each element that repeats the one before it. -/
def dedup : List Bytes → List Bytes
  | first :: second :: rest =>
    if first = second then dedup (second :: rest) else first :: dedup (second :: rest)
  | short => short

/-- Sort the paths of a walk and drop the repetitions. -/
def sortedPaths (out : List Bytes) : List Bytes :=
  dedup (out.insertionSort (· ≤ ·))

/-- Select the force-included files of a working tree, given where the pattern files are. -/
def selectIn (wild : Bytes → Bytes → Bool) (read : Bytes → ReadResult)
    (parse : Bytes → List Pattern) (workdir : Bytes) (root : Node) (userInclude : Option Bytes)
    (extraIncludes : List Bytes) : Except SelectError Selection := do
  let search ← loadSearch read parse workdir userInclude extraIncludes
  let prune := buildPruneInfo search
  let start : Walk := ⟨[], { unanchoredPatterns := prune.unanchoredCount }, []⟩
  let walk ← runWalk wild search prune workdir root start
  pure ⟨sortedPaths walk.out, walk.stats⟩

end GitFullSend

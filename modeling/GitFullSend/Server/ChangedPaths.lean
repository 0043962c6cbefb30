import GitFullSend.Common.Process
import GitFullSend.Lib.LossyText
import GitFullSend.Server.WorktreeMarker

/-! How an update counts the paths that it has to change, and what the counts come to. -/

namespace GitFullSend

open Utf8 (Bytes ofText)

/-- Which side of the checkout to compare the target tree against. -/
inductive Compare where
  /-- The index only. -/
  | index
  /-- The working tree. -/
  | worktree
  deriving DecidableEq

/-- A count of paths a checkout would have to change. -/
structure PathDelta where
  /-- Paths that must be created or rewritten. -/
  toWrite : Nat
  /-- Paths that must be removed. -/
  toRemove : Nat
  deriving DecidableEq

/-- Whether nothing at all differs. -/
def PathDelta.isEmpty (delta : PathDelta) : Bool :=
  delta.toWrite = 0 ∧ delta.toRemove = 0

/-- One more line of `git diff-index`, whose letters read backwards from what is counted. -/
def PathDelta.line (delta : PathDelta) (line : String) : PathDelta :=
  match (ofText line).head? with
  -- In the index or worktree but not in the tree: the checkout removes it.
  | some 0x41 => { delta with toRemove := delta.toRemove + 1 }
  -- In the tree but not here, different here, or unfamiliar: the checkout writes it.
  | some _ => { delta with toWrite := delta.toWrite + 1 }
  | none => delta

/-- Count the paths a checkout would have to write and remove, from what `git diff-index` left. -/
def countChangedPaths (output : Option (ExitStatus × Bytes)) : Option PathDelta :=
  match output with
  | none => none
  | some (status, stdout) =>
    if status.success then some ((Text.lines (Text.lossy stdout)).foldl PathDelta.line ⟨0, 0⟩)
    else none

/-- How far the worktree was from the tree being checked out. -/
structure ChangedPaths where
  treeUnchanged : Bool
  vsIndex : Option PathDelta
  vsWorktree : Option PathDelta

/-- What became of a path, seen from the tree. -/
inductive PathChange where
  | added
  | deleted
  /-- Its content differs, or its type. -/
  | modified (typed : Bool)
  deriving DecidableEq

/-- The letter that is printed for it. -/
def PathChange.letter : PathChange → UInt8
  | added => 0x41
  | deleted => 0x44
  | modified false => 0x4D
  | modified true => 0x54

section Git

variable {Leaf : Type}

/-- What the compared side has at a path: a file only counts where the index records the path. -/
def Worktree.side (compare : Compare) (worktree : Worktree Leaf) (path : List Bytes) :
    Option Leaf :=
  match compare with
  | .index => (worktree.index.getD .empty).get path
  | .worktree => if worktree.recorded path then worktree.files.get path else none

variable [DecidableEq Leaf]

/-- Paths whose file must be taken as changed, as its recorded stat data is out of date. -/
def Compare.dirty (compare : Compare) (stale : List Bytes → Bool) (path : List Bytes) : Bool :=
  match compare with
  -- Nothing on disk is looked at for the index.
  | .index => false
  | .worktree => stale path

/-- How a path differs, if it does. -/
def changeAt (typed : Leaf → Leaf → Bool) (dirty : Bool) :
    Option Leaf → Option Leaf → Option PathChange
  | none, none => none
  | none, some _ => some .added
  | some _, none => some .deleted
  | some wanted, some held =>
    if held = wanted ∧ !dirty then none else some (.modified (typed wanted held))

/-- The paths that differ between a tree and the compared side, each of them once. -/
def diffIndex (typed : Leaf → Leaf → Bool) (stale : List Bytes → Bool) (compare : Compare)
    (tree : Tree Leaf) (worktree : Worktree Leaf) : List (List Bytes × PathChange) :=
  let paths := tree.entries.map Prod.fst ++
    ((worktree.index.getD .empty).entries.map Prod.fst).filter fun path => (tree.get path).isNone
  paths.filterMap fun path =>
    (changeAt typed (compare.dirty stale path) (tree.get path) (worktree.side compare path)).map
      (path, ·)

/-- The lines printed for changes, with paths quoted so that each of them is on one line. -/
def printChanges (quote : List Bytes → Bytes) (changes : List (List Bytes × PathChange)) : Bytes :=
  changes.flatMap fun change => change.2.letter :: 0x09 :: quote change.1 ++ [0x0A]

/-- A way of writing paths without control characters. -/
def Quotes (quote : List Bytes → Bytes) : Prop :=
  ∀ path, ∀ byte ∈ quote path, 0x20 ≤ byte

/-- A run of `git diff-index`: it prints the changes in some order, or it fails. -/
inductive DiffRun (typed : Leaf → Leaf → Bool) (quote : List Bytes → Bytes)
    (stale : List Bytes → Bool) (compare : Compare) (tree : Tree Leaf) (worktree : Worktree Leaf) :
    Option (ExitStatus × Bytes) → Prop where
  | notSpawned : DiffRun typed quote stale compare tree worktree none
  | failed {status stdout} : status.success = false →
      DiffRun typed quote stale compare tree worktree (some (status, stdout))
  | done {changes} : changes.Perm (diffIndex typed stale compare tree worktree) →
      DiffRun typed quote stale compare tree worktree
        (some (.code 0, printChanges quote changes))

/-- What the two runs of `git diff-index` left before a checkout. -/
structure Diffs where
  index : Option (ExitStatus × Bytes)
  worktree : Option (ExitStatus × Bytes)

/-- How far a worktree is from a tree, with the expensive count only when it is asked for. -/
def changedPaths (measureWorktree : Bool) (diffs : Diffs) (tree : Tree Leaf)
    (worktree : Worktree Leaf) : ChangedPaths where
  treeUnchanged := treeUnchanged tree worktree
  vsIndex := countChangedPaths diffs.index
  vsWorktree := if measureWorktree then countChangedPaths diffs.worktree else none

/-- An update that also counts, under the lock and before its checkout, what it has to change. -/
def updateMeasured (rules : IgnoreRules Leaf) (stream : StreamId) (path : Bytes)
    (around : Surroundings Leaf) (measureWorktree : Bool) (diffs : Diffs)
    (worktree : Worktree Leaf) :
    Except ServerError (Report Leaf × ChangedPaths) × Worktree Leaf :=
  match updateWorktree rules stream path around worktree with
  | (.error failure, after) => (.error failure, after)
  | (.ok report, after) =>
    (.ok (report, changedPaths measureWorktree diffs report.tree worktree), after)

end Git

section Count

/-- Every letter is ASCII. -/
theorem PathChange.letter_plain (change : PathChange) : change.letter ≤ 0x7F := by
  cases change with
  | added | deleted => decide
  | modified typed => cases typed <;> decide

/-- A line is counted by its letter. -/
theorem PathDelta.line_letter (delta : PathDelta) (change : PathChange) (behind : Bytes) :
    delta.line (Text.lossy (change.letter :: behind)) =
      if change = .added then { delta with toRemove := delta.toRemove + 1 }
      else { delta with toWrite := delta.toWrite + 1 } := by
  -- The letter is ASCII, so it is the first byte of the text that is read.
  have first : (ofText (Text.lossy (change.letter :: behind))).head? = some change.letter := by
    have split := Utf8.lossy_ascii change.letter_plain [] behind
    rw [Text.ofText_lossy, ← List.nil_append (change.letter :: behind), split]
    rfl
  rw [PathDelta.line, first]
  cases change with
  | added => rfl
  | deleted => rfl
  | modified typed => cases typed <;> rfl

/-- A printed change is one line, and the others follow. -/
theorem lines_printChanges {quote : List Bytes → Bytes} (quotes : Quotes quote)
    (change : List Bytes × PathChange) (rest : List (List Bytes × PathChange)) :
    Text.lines (Text.lossy (printChanges quote (change :: rest))) =
      Text.lossy (change.2.letter :: 0x09 :: quote change.1) ::
        Text.lines (Text.lossy (printChanges quote rest)) := by
  -- Neither the letter, nor the tab, nor the quoted path has a line end in it.
  have apart : ∀ character : Char, character.toNat = 0x0A ∨ character.toNat = 0x0D →
      character ∉ (Text.lossy (change.2.letter :: 0x09 :: quote change.1)).toList := by
    intro character ends member
    have within := Text.byte_of_lossy member (by omega)
    rcases List.mem_cons.mp within with letter | within
    · rcases ends with ends | ends <;> rw [ends] at letter <;> revert letter <;>
        cases change.2 with
        | added | deleted => decide
        | modified typed => cases typed <;> decide
    · rcases List.mem_cons.mp within with tab | within
      · rcases ends with ends | ends <;> rw [ends] at tab <;> revert tab <;> decide
      · have above := quotes change.1 _ within
        rcases ends with ends | ends <;> rw [ends] at above <;> revert above <;> decide
  have split : printChanges quote (change :: rest) =
      (change.2.letter :: 0x09 :: quote change.1) ++ 0x0A :: printChanges quote rest := by
    simp [printChanges]
  rw [split, Text.lossy_line]
  exact Text.lines_append (apart '\n' (.inl rfl)) (apart '\r' (.inr rfl)) _

/-- Each printed change is counted once, by whether it was added. -/
theorem countChangedPaths_print {quote : List Bytes → Bytes} (quotes : Quotes quote)
    (changes : List (List Bytes × PathChange)) :
    countChangedPaths (some (.code 0, printChanges quote changes)) =
      some ⟨changes.countP (·.2 ≠ .added), changes.countP (·.2 = .added)⟩ := by
  -- The induction is on the changes, behind whatever has been counted before.
  suffices counted : ∀ start : PathDelta,
      (Text.lines (Text.lossy (printChanges quote changes))).foldl PathDelta.line start =
        ⟨start.toWrite + changes.countP (·.2 ≠ .added),
          start.toRemove + changes.countP (·.2 = .added)⟩ by
    have success : ExitStatus.success (.code 0) = true := rfl
    simp [countChangedPaths, success, counted ⟨0, 0⟩]
  induction changes with
  | nil => intro start; rfl
  | cons change rest ih =>
    intro start
    rw [lines_printChanges quotes, List.foldl_cons, PathDelta.line_letter, ih]
    by_cases added : change.2 = .added
    · simp [added, Nat.add_assoc, Nat.add_comm 1]
    · simp [added, Nat.add_assoc, Nat.add_comm 1]

end Count

section Differences

variable {Leaf : Type} [DecidableEq Leaf] {typed : Leaf → Leaf → Bool}
  {stale : List Bytes → Bool} {tree : Tree Leaf} {worktree : Worktree Leaf}

/-- The changes of a kind are counted over the tree's leaves, and over what else is recorded. -/
theorem countP_diffIndex (compare : Compare) (kind : PathChange → Bool) :
    (diffIndex typed stale compare tree worktree).countP (fun change => kind change.2) =
      (tree.entries.countP fun entry => (changeAt typed (compare.dirty stale entry.1)
        (some entry.2) (worktree.side compare entry.1)).any kind) +
      (worktree.index.getD .empty).entries.countP fun entry => (tree.get entry.1).isNone &&
        (changeAt typed (compare.dirty stale entry.1) none
          (worktree.side compare entry.1)).any kind := by
  -- A path of the tree carries its own leaf, and the ones behind are not in the tree.
  rw [diffIndex, List.countP_filterMap, List.countP_append, List.countP_filter]
  simp only [List.countP_map]
  congr 1
  · refine List.countP_congr fun entry listed => ?_
    have held : tree.get entry.1 = some entry.2 := Leaves.get_eq_some.mpr listed
    simp only [Function.comp_apply, held]
    cases changeAt typed (compare.dirty stale entry.1) (some entry.2)
      (worktree.side compare entry.1) <;> simp
  · refine List.countP_congr fun entry _ => ?_
    cases absent : tree.get entry.1 with
    | some leaf => simp [absent]
    | none =>
      simp only [Function.comp_apply, absent]
      cases changeAt typed (compare.dirty stale entry.1) none
        (worktree.side compare entry.1) <;> simp

/-- The paths a checkout has to write: the tree's, where the compared side has another leaf. -/
theorem diffIndex_written (compare : Compare) :
    (diffIndex typed stale compare tree worktree).countP (·.2 ≠ .added) =
      tree.entries.countP fun entry =>
        worktree.side compare entry.1 ≠ some entry.2 ∨ compare.dirty stale entry.1 := by
  -- Without a leaf in the tree a path can only be an addition.
  rw [countP_diffIndex compare fun change => decide (change ≠ .added)]
  have behind : ((worktree.index.getD .empty).entries.countP fun entry =>
      (tree.get entry.1).isNone && (changeAt typed (compare.dirty stale entry.1) none
        (worktree.side compare entry.1)).any fun change => decide (change ≠ .added)) = 0 := by
    rw [List.countP_eq_zero]
    intro entry _
    cases worktree.side compare entry.1 <;> simp [changeAt]
  rw [behind, Nat.add_zero]
  refine List.countP_congr fun entry _ => ?_
  cases worktree.side compare entry.1 with
  | none => simp [changeAt]
  | some held =>
    by_cases same : held = entry.2 <;> cases compare.dirty stale entry.1 <;> simp [changeAt, same]

/-- The paths a checkout has to remove: those the index records, and the compared side has. -/
theorem diffIndex_removed (compare : Compare) :
    (diffIndex typed stale compare tree worktree).countP (·.2 = .added) =
      (worktree.index.getD .empty).entries.countP fun entry =>
        (tree.get entry.1).isNone ∧ (worktree.side compare entry.1).isSome := by
  -- A path of the tree is written or left alone, never removed.
  rw [countP_diffIndex compare fun change => decide (change = .added)]
  have own : (tree.entries.countP fun entry => (changeAt typed (compare.dirty stale entry.1)
      (some entry.2) (worktree.side compare entry.1)).any
        fun change => decide (change = .added)) = 0 := by
    rw [List.countP_eq_zero]
    intro entry _
    cases worktree.side compare entry.1 with
    | none => simp [changeAt]
    | some held =>
      by_cases same : held = entry.2 <;> cases compare.dirty stale entry.1 <;>
        simp [changeAt, same]
  rw [own, Nat.zero_add]
  refine List.countP_congr fun entry _ => ?_
  cases worktree.side compare entry.1 <;> simp [changeAt]

end Differences

section Histories

variable {Leaf : Type} [DecidableEq Leaf] {typed : Leaf → Leaf → Bool}
  {quote : List Bytes → Bytes} {stale : List Bytes → Bool} {rules : IgnoreRules Leaf}
  {files tree : Tree Leaf} {worktree after : Worktree Leaf} {stream : StreamId} {path : Bytes}
  {around : Surroundings Leaf} {measureWorktree : Bool} {diffs : Diffs} {report : Report Leaf}
  {changed : ChangedPaths} {happenings : List (Happening Leaf)}

/-- A count that is reported is the count of the changes. -/
theorem DiffRun.counts {compare : Compare} {output : Option (ExitStatus × Bytes)}
    {delta : PathDelta} (quotes : Quotes quote)
    (run : DiffRun typed quote stale compare tree worktree output)
    (counted : countChangedPaths output = some delta) :
    delta.toWrite = (tree.entries.countP fun entry =>
        worktree.side compare entry.1 ≠ some entry.2 ∨ compare.dirty stale entry.1) ∧
      delta.toRemove = ((worktree.index.getD .empty).entries.countP fun entry =>
        (tree.get entry.1).isNone ∧ (worktree.side compare entry.1).isSome) := by
  cases run with
  | notSpawned => cases counted
  | failed failure => simp [countChangedPaths, failure] at counted
  | @done changes printed =>
    -- The order in which the changes are printed does not change how many there are.
    rw [countChangedPaths_print quotes, printed.countP_eq, printed.countP_eq, diffIndex_written,
      diffIndex_removed] at counted
    cases counted
    exact ⟨rfl, rfl⟩

/-- Measuring changes nothing that is left, nor what else is reported. -/
theorem updateMeasured_ok
    (done : updateMeasured rules stream path around measureWorktree diffs worktree =
      (.ok (report, changed), after)) :
    updateWorktree rules stream path around worktree = (.ok report, after) ∧
      changed = changedPaths measureWorktree diffs report.tree worktree := by
  unfold updateMeasured at done
  split at done <;> rename_i updated <;> cases done
  exact ⟨updated, rfl⟩

/-- The tree of the last update of a history that finished reading one, if there is such one. -/
def LastRead (happenings : List (Happening Leaf)) (held : Tree Leaf) : Prop :=
  let Unread (later : List (Happening Leaf)) := ∀ stream path around,
    .update stream path around ∈ later → ∀ tree, ¬ around.Reads stream tree
  (∃ before stream path around later,
      happenings = before ++ .update stream path around :: later ∧ around.Reads stream held ∧
        Unread later) ∨
    held = .empty ∧ Unread happenings

/-- At every time of a history the index holds the tree that was read last. -/
theorem live_lastRead (rules : IgnoreRules Leaf) (files : Tree Leaf)
    (happenings : List (Happening Leaf)) :
    LastRead happenings ((live rules files happenings).worktree.index.getD .empty) := by
  -- The induction takes the last happening off, and an edit does not touch the index.
  induction happenings using List.reverseRecOn with
  | nil => exact .inr ⟨rfl, by simp⟩
  | append_singleton happenings last ih =>
    rw [live_concat]
    -- What is not an update that reads a tree leaves everything said about the last read.
    have keeps : (∀ stream path around, last = .update stream path around →
        ∀ tree, ¬ around.Reads stream tree) →
        LastRead (happenings ++ [last])
          ((live rules files happenings).worktree.index.getD .empty) := by
      intro unread
      rcases ih with ⟨before, stream, path, around, later, rfl, reads, rest⟩ | ⟨held, rest⟩
      · refine .inl ⟨before, stream, path, around, later ++ [last], by simp, reads, ?_⟩
        intro stream path around member
        rcases List.mem_append.mp member with member | member
        · exact rest stream path around member
        · exact unread stream path around (List.mem_singleton.mp member).symm
      · refine .inr ⟨held, ?_⟩
        intro stream path around member
        rcases List.mem_append.mp member with member | member
        · exact rest stream path around member
        · exact unread stream path around (List.mem_singleton.mp member).symm
    cases last with
    | edit files => exact keeps (by simp)
    | update stream path around =>
      have left : ((live rules files happenings).happen rules
          (.update stream path around)).worktree = (updateWorktree rules stream path around
            (live rules files happenings).worktree).2 := rfl
      rw [left]
      by_cases reading : ∃ tree, around.Reads stream tree
      · obtain ⟨tree, reads⟩ := reading
        rw [updateWorktree_reads reads, (checkOut_read rules tree _ reads.read).1]
        exact .inl ⟨happenings, stream, path, around, [], rfl, reads, by simp⟩
      · have unread : ∀ tree, ¬ around.Reads stream tree := fun tree reads =>
          reading ⟨tree, reads⟩
        rw [(updateWorktree_unread unread).1]
        refine keeps fun stream' path' around' same => ?_
        cases same
        exact unread

/--
What the counts of an update mean.

The tree that was held is the one the index recorded before.
-/
structure Counted (rules : IgnoreRules Leaf) (stale : List Bytes → Bool) (held tree : Tree Leaf)
    (before after : Worktree Leaf) (changed : ChangedPaths) : Prop where
  /-- Against the index, the leaves of the tree that are new or different. -/
  written : ∀ delta, changed.vsIndex = some delta →
    delta.toWrite = tree.entries.countP fun entry => held.get entry.1 ≠ some entry.2
  /-- Against the index, the leaves that the tree has lost. -/
  removed : ∀ delta, changed.vsIndex = some delta →
    delta.toRemove = held.entries.countP fun entry => (tree.get entry.1).isNone
  /-- Nothing is counted against the index exactly when the tree was the held one. -/
  same : ∀ delta, changed.vsIndex = some delta → (delta.isEmpty = true ↔ held.Same tree)
  /-- Against the disk, the leaves of the tree that were not held, or whose file differs. -/
  rewritten : ∀ delta, changed.vsWorktree = some delta →
    delta.toWrite = tree.entries.countP fun entry =>
      held.get entry.1 = none ∨ before.files.get entry.1 ≠ some entry.2 ∨ stale entry.1
  /-- Against the disk, the files that were held and that the tree has lost. -/
  deleted : ∀ delta, changed.vsWorktree = some delta →
    delta.toRemove = held.entries.countP fun entry =>
      (tree.get entry.1).isNone ∧ (before.files.get entry.1).isSome
  /-- With nothing counted against the disk, the update only sweeps what `clean` does not spare. -/
  idle : ∀ delta, changed.vsWorktree = some delta → delta.isEmpty = true → ∀ path,
    after.files.get path =
      if held.get path = none ∧ rules.spares (before.checkedOut tree) tree path = false then none
      else before.files.get path

/-- No leaf to write and none to remove means that two trees are the same. -/
theorem same_of_counts {held : Tree Leaf} :
    ((tree.entries.countP fun entry => held.get entry.1 ≠ some entry.2) = 0 ∧
      (held.entries.countP fun entry => (tree.get entry.1).isNone) = 0) ↔ held.Same tree := by
  simp only [List.countP_eq_zero, ne_eq, decide_eq_true_eq, Decidable.not_not,
    Option.isNone_iff_eq_none]
  constructor
  · rintro ⟨kept, left⟩ path
    cases wanted : tree.get path with
    | some leaf => exact kept _ (Leaves.get_eq_some.mp wanted)
    | none =>
      -- What the tree does not have there is not held there either.
      by_contra there
      obtain ⟨leaf, there⟩ := Option.ne_none_iff_exists'.mp there
      exact left _ (Leaves.get_eq_some.mp there) wanted
  · intro same
    refine ⟨fun entry listed => (same _).trans (Leaves.get_eq_some.mpr listed), ?_⟩
    intro entry listed gone
    rw [← same, Leaves.get_eq_some.mpr listed] at gone
    cases gone

/-- The counts of a successful update, against what its worktree held before. -/
theorem updateMeasured_counted (quotes : Quotes quote)
    (done : updateMeasured rules stream path around measureWorktree diffs worktree =
      (.ok (report, changed), after))
    (index : DiffRun typed quote stale .index report.tree worktree diffs.index)
    (disk : DiffRun typed quote stale .worktree report.tree worktree diffs.worktree) :
    Counted rules stale (worktree.index.getD .empty) report.tree worktree after changed := by
  obtain ⟨updated, rfl⟩ := updateMeasured_ok done
  have files := (updateWorktree_ok updated).2.1.files
  -- What the index records it also has, and nothing on disk is looked at for it.
  have written : ∀ delta, countChangedPaths diffs.index = some delta →
      delta.toWrite = report.tree.entries.countP fun entry =>
        (worktree.index.getD .empty).get entry.1 ≠ some entry.2 := by
    intro delta counted
    simpa [Worktree.side, Compare.dirty] using (index.counts quotes counted).1
  have removed : ∀ delta, countChangedPaths diffs.index = some delta →
      delta.toRemove = (worktree.index.getD .empty).entries.countP fun entry =>
        (report.tree.get entry.1).isNone := by
    intro delta counted
    rw [(index.counts quotes counted).2]
    refine List.countP_congr fun entry listed => ?_
    simp [Worktree.side, Leaves.get_eq_some.mpr listed]
  have asked : ∀ delta, (changedPaths measureWorktree diffs report.tree worktree).vsWorktree =
      some delta → countChangedPaths diffs.worktree = some delta := by
    intro delta counted
    cases measureWorktree with
    | false => cases counted
    | true => exact counted
  have rewritten : ∀ delta, countChangedPaths diffs.worktree = some delta →
      delta.toWrite = report.tree.entries.countP fun entry =>
        (worktree.index.getD .empty).get entry.1 = none ∨
          worktree.files.get entry.1 ≠ some entry.2 ∨ stale entry.1 := by
    intro delta counted
    rw [(disk.counts quotes counted).1]
    refine List.countP_congr fun entry _ => ?_
    cases held : (worktree.index.getD .empty).get entry.1 <;>
      simp [Worktree.side, Worktree.recorded, Compare.dirty, held]
  have deleted : ∀ delta, countChangedPaths diffs.worktree = some delta →
      delta.toRemove = (worktree.index.getD .empty).entries.countP fun entry =>
        (report.tree.get entry.1).isNone ∧ (worktree.files.get entry.1).isSome := by
    intro delta counted
    rw [(disk.counts quotes counted).2]
    refine List.countP_congr fun entry listed => ?_
    simp [Worktree.side, Worktree.recorded, Leaves.get_eq_some.mpr listed]
  refine ⟨written, removed, ?_, fun delta counted => rewritten delta (asked delta counted),
    fun delta counted => deleted delta (asked delta counted), ?_⟩
  · intro delta counted
    rw [← same_of_counts, ← written delta counted, ← removed delta counted]
    simp [PathDelta.isEmpty]
  · intro delta counted empty path
    have counted := asked delta counted
    simp only [PathDelta.isEmpty, decide_eq_true_eq] at empty
    have kept := List.countP_eq_zero.mp ((rewritten delta counted).symm.trans empty.1)
    have left := List.countP_eq_zero.mp ((deleted delta counted).symm.trans empty.2)
    simp only [decide_eq_true_eq, not_or, ne_eq, Decidable.not_not] at kept
    simp only [decide_eq_true_eq, not_and, Option.isNone_iff_eq_none, Option.not_isSome_iff_eq_none]
      at left
    rw [files]
    cases wanted : report.tree.get path with
    | some leaf =>
      -- The leaf was held, and its file is on disk as it should be.
      obtain ⟨held, there, -⟩ := kept _ (Leaves.get_eq_some.mp wanted)
      simp [held, there]
    | none =>
      cases held : (worktree.index.getD .empty).get path with
      | some leaf =>
        -- The tree lost the leaf, so there was no file of it any more.
        have gone := left _ (Leaves.get_eq_some.mp held) wanted
        simp [Worktree.recorded, held, gone]
      | none =>
        have unrecorded : worktree.recorded path = false := by simp [Worktree.recorded, held]
        by_cases met : report.tree.Meets path
        · -- A leaf of the tree is in the way, and it is on disk already.
          obtain ⟨entry, listed, close⟩ := met
          have there := (kept entry listed).2.1
          cases file : worktree.files.get path with
          | none => simp
          | some leaf =>
            have same := Leaves.get_comparable there file close
            rw [← same, Leaves.get_eq_some.mpr listed] at wanted
            cases wanted
        · simp [met, unrecorded]

/--
What the counts of an update mean after any history of updates, failed ones too, and of edits.

They compare with the tree that was read into the index last, and where the updates take the record
along a tree that is reported as unchanged has no path to write or to remove.
-/
theorem live_counted (quotes : Quotes quote)
    (done : updateMeasured rules stream path around measureWorktree diffs
      (live rules files happenings).worktree = (.ok (report, changed), after))
    (index : DiffRun typed quote stale .index report.tree (live rules files happenings).worktree
      diffs.index)
    (disk : DiffRun typed quote stale .worktree report.tree (live rules files happenings).worktree
      diffs.worktree) :
    ∃ held, LastRead happenings held ∧
      Counted rules stale held report.tree (live rules files happenings).worktree after changed ∧
      (AllTakeAlong rules files happenings → changed.treeUnchanged = true →
        ∀ delta, changed.vsIndex = some delta → delta.isEmpty = true) := by
  have counted := updateMeasured_counted quotes done index disk
  refine ⟨_, live_lastRead rules files happenings, counted, ?_⟩
  intro along unchanged delta reported
  obtain ⟨updated, rfl⟩ := updateMeasured_ok done
  -- The record is true, so the index holds the tree that is reported as unchanged.
  rw [counted.same delta reported]
  have compared := (updateWorktree_ok updated).2.2
  obtain ⟨held, recorded, same⟩ :=
    (live_recordTrue along).unchanged updated (compared.trans unchanged)
  rw [recorded]
  exact same

/-- A file was deleted by hand, and its leaf is gone from the next tree, which has another one. -/
theorem live_counted_deleted :
    ∃ (happenings : List (Happening Nat)) (held : Tree Nat) (report : Report Nat)
      (after : Worktree Nat) (changed : ChangedPaths),
      LastRead happenings held ∧
      Counted .everything (fun _ => false) held report.tree
        (live .everything .empty happenings).worktree after changed ∧
      changed.vsIndex = some ⟨1, 1⟩ ∧ changed.vsWorktree = some ⟨1, 0⟩ := by
  -- Against the index the lost leaf is to be removed, and on disk there is nothing left of it.
  let stream : StreamId := ⟨ofText "s", by decide, by decide, by decide⟩
  let first : Tree Nat := ⟨[([ofText "x"], 1), ([ofText "y"], 2)], by decide⟩
  let second : Tree Nat := ⟨[([ofText "x"], 1), ([ofText "z"], 3)], by decide⟩
  let happenings : List (Happening Nat) :=
    [.update stream [] (calm first), .edit ⟨[([ofText "x"], 1)], by simp⟩]
  let quote : List Bytes → Bytes := fun path => path.flatten.filter (0x20 ≤ ·)
  have quotes : Quotes quote := fun path byte member => by
    simpa using (List.mem_filter.mp member).2
  let added : List (List Bytes × PathChange) := [([ofText "z"], .deleted), ([ofText "y"], .added)]
  let missing : List (List Bytes × PathChange) := [([ofText "z"], .deleted)]
  let diffs : Diffs := ⟨some (.code 0, printChanges quote added),
    some (.code 0, printChanges quote missing)⟩
  have index : DiffRun (fun _ _ => false) quote (fun _ => false) .index second
      (live .everything .empty happenings).worktree diffs.index :=
    .done (by decide)
  have disk : DiffRun (fun _ _ => false) quote (fun _ => false) .worktree second
      (live .everything .empty happenings).worktree diffs.worktree :=
    .done (by decide)
  obtain ⟨held, lastRead, counted, -⟩ := @live_counted _ _ _ _ _ .everything .empty _ stream
    [] (calm second) true diffs ⟨stream, [], second, _⟩ _ happenings quotes rfl index disk
  refine ⟨happenings, held, _, _, _, lastRead, counted, ?_, ?_⟩
  · exact (countChangedPaths_print quotes added).trans (by decide)
  · exact (countChangedPaths_print quotes missing).trans (by decide)

end Histories

end GitFullSend

import GitFullSend.Lib.Folds
import GitFullSend.Lib.Leaves
import GitFullSend.Server.RefStore

/-! Updating a worktree: resolve a tree, check it out over what is there, and clean up. -/

namespace GitFullSend

open Utf8 (Bytes ofText)

variable {Leaf : Type}

/-- A tree of a commit, or the files of a directory: every leaf with its mode and content. -/
abbrev Tree (Leaf : Type) := Leaves Bytes Leaf

/-- How `clean` judges a path that the index does not record. -/
structure IgnoreRules (Leaf : Type) where
  /-- Whether the ignore files among the files on disk cover a path, whoever wrote them. -/
  ignored : Tree Leaf → List Bytes → Bool
  /-- Whether a path on disk lies in a nested Git repository of which the index records nothing. -/
  nested : Tree Leaf → Tree Leaf → List Bytes → Bool

/-- Rules that cover every path. -/
def IgnoreRules.everything : IgnoreRules Leaf :=
  ⟨fun _ _ => true, fun _ _ _ => false⟩

/-- Whether `clean -d -f` spares a path that the index does not record, with these files on disk. -/
def IgnoreRules.spares (rules : IgnoreRules Leaf) (files index : Tree Leaf) (path : List Bytes) :
    Bool :=
  rules.ignored files path || rules.nested files index path

/-- A worktree, and what is kept about it under the git dir. -/
structure Worktree (Leaf : Type) where
  /-- The files and symlinks in the directory. -/
  files : Tree Leaf
  /-- The persistent index, or `none` when there is no index file. -/
  index : Option (Tree Leaf)
  /-- The tree the last successful checkout recorded. -/
  lastTree : Option (Tree Leaf)

/-- Whether the persistent index records a path. -/
def Worktree.recorded (worktree : Worktree Leaf) (path : List Bytes) : Bool :=
  ((worktree.index.getD .empty).get path).isSome

/-- Which of the calls that resolve a stream's tree succeed. -/
structure TreeCalls where
  /-- Whether `git rev-parse` starts for the `code` ref. -/
  codeSpawned : Bool
  /-- Whether `git rev-parse` starts for the `extra` ref. -/
  extraSpawned : Bool
  /-- Whether an editor opens on the `code` tree. -/
  editTree : Bool
  /-- Whether the `extra` tree can be read and traversed. -/
  traverseExtra : Bool
  /-- Whether the editor takes every leaf and writes the combined tree. -/
  write : Bool

/-- Calls that all succeed. -/
def TreeCalls.sound : TreeCalls := ⟨true, true, true, true, true⟩

/-- Resolve a stream's `code` ref to its tree. -/
def resolveCodeTree (calls : TreeCalls) (stream : StreamId) (found : Option (Tree Leaf)) :
    Except ServerError (Tree Leaf) :=
  if !calls.codeSpawned then .error (.runGit .revParse)
  else
    match found with
    | none => .error (.missingCodeRef (codeRef stream))
    | some code => .ok code

/-- Resolve a stream's `extra` ref to its tree, if it resolves to one. -/
def resolveExtraTree (calls : TreeCalls) (found : Option (Tree Leaf)) :
    Except ServerError (Option (Tree Leaf)) :=
  if !calls.extraSpawned then .error (.runGit .revParse)
  -- A ref that does not resolve is no error: there is nothing to overlay then.
  else .ok found

/-- The `code` tree with every leaf of the `extra` tree written over it at its own path. -/
def combined (code : Tree Leaf) (extra : Option (Tree Leaf)) : Tree Leaf :=
  match extra with
  | none => code
  -- Every leaf of `extra` is upserted, so it wins on any path collision.
  | some extra => code.overlay extra

/-- Overlay the `extra` tree onto the `code` tree at identity paths. -/
def overlayExtraOntoCode (calls : TreeCalls) (code : Tree Leaf) (extra : Option (Tree Leaf)) :
    Except ServerError (Tree Leaf) :=
  match extra with
  -- Without `extra` no object is read or written.
  | none => .ok code
  | some _ =>
    if !calls.editTree then .error .buildTree
    else if !calls.traverseExtra then .error .resolveExtra
    else if !calls.write then .error .buildTree
    else .ok (combined code extra)

/-- Resolve the tree to check out from what the stream's two refs lead to. -/
def resolveTree (calls : TreeCalls) (stream : StreamId) (code extra : Option (Tree Leaf)) :
    Except ServerError (Tree Leaf) := do
  let code ← resolveCodeTree calls stream code
  let extra ← resolveExtraTree calls extra
  overlayExtraOntoCode calls code extra

/-- A `code` tree that is resolved is the one its ref leads to. -/
theorem resolveCodeTree_ok {calls : TreeCalls} {stream : StreamId} {found : Option (Tree Leaf)}
    {code : Tree Leaf} (resolved : resolveCodeTree calls stream found = .ok code) :
    found = some code := by
  unfold resolveCodeTree at resolved
  split at resolved
  · cases resolved
  · cases found <;> cases resolved
    rfl

/-- What the `extra` ref leads to is overlaid onto the `code` tree when the calls succeed. -/
theorem overlayExtraTree_ok {calls : TreeCalls} {code tree : Tree Leaf}
    {found : Option (Tree Leaf)}
    (resolved : (resolveExtraTree calls found).bind (overlayExtraOntoCode calls code) = .ok tree) :
    tree = combined code found := by
  unfold resolveExtraTree at resolved
  split at resolved
  · cases resolved
  · simp only [Except.bind, overlayExtraOntoCode] at resolved
    cases found with
    | none => exact (Except.ok.inj resolved).symm
    | some extra =>
      -- Each of the three failures is refuted, and the last branch overlays.
      simp only at resolved
      split at resolved
      · cases resolved
      · split at resolved
        · cases resolved
        · split at resolved
          · cases resolved
          · exact (Except.ok.inj resolved).symm

/-- A tree that is resolved is the one the refs lead to, `extra` over `code`. -/
theorem resolveTree_ok {calls : TreeCalls} {stream : StreamId} {code extra : Option (Tree Leaf)}
    {tree : Tree Leaf} (resolved : resolveTree calls stream code extra = .ok tree) :
    ∃ base, code = some base ∧ tree = combined base extra := by
  obtain ⟨base, first, overlaid⟩ := Folds.bind_ok.mp resolved
  exact ⟨base, resolveCodeTree_ok first, overlayExtraTree_ok overlaid⟩

/-- With sound calls a tree is resolved from whatever `code` leads to. -/
theorem resolveTree_sound (stream : StreamId) (code : Tree Leaf) (extra : Option (Tree Leaf)) :
    resolveTree .sound stream (some code) extra = .ok (combined code extra) := by
  cases extra <;> rfl

/-- How a run reacts when another one already holds the worktree's lock. -/
inductive LockMode where
  | failFast
  /-- Wait for the lock, for so many milliseconds or for ever. -/
  | wait (timeoutMs : Option Nat)
  deriving DecidableEq, Repr

/-- The error a run gives up with while another one holds the lock; `none` keeps waiting. -/
def LockMode.refusal (mode : LockMode) (worktree : Bytes) : Option ServerError :=
  match mode with
  | .failFast => some (.worktreeBusy worktree)
  | .wait (some timeoutMs) => some (.lockTimeout worktree timeoutMs)
  | .wait none => none

/-- How a `git` step ends: it is done, it never started, or it processed only some paths. -/
inductive StepOutcome where
  | done
  | notSpawned
  /-- The step failed or was killed after it had processed these paths. -/
  | failed (touched : List Bytes → Bool)

/-- What became of writing the `last-tree` record. -/
inductive RecordOutcome where
  | written
  | kept
  /-- The old record was truncated and no new one was written. -/
  | torn
  deriving DecidableEq, Repr

/--
The files after `read-tree --reset -u` has processed some paths.

It deletes what the index records and the tree does not hold, and writes the leaves of the tree.
-/
def readTreeFiles (touched : List Bytes → Bool) (tree : Tree Leaf) (worktree : Worktree Leaf) :
    Tree Leaf :=
  (worktree.files.keep fun path =>
    !(touched path && worktree.recorded path && (tree.get path).isNone)).overlay (tree.keep touched)

/--
The files after `clean -d -f` has processed some paths.

It deletes what is neither in the index nor ignored nor in a nested Git repository, and it judges
by the files as it finds them.
-/
def cleanFiles (rules : IgnoreRules Leaf) (touched : List Bytes → Bool) (worktree : Worktree Leaf) :
    Tree Leaf :=
  worktree.files.keep fun path =>
    worktree.recorded path || rules.spares worktree.files (worktree.index.getD .empty) path ||
      !touched path

/-- The files that `clean` finds once a tree was read over a worktree. -/
def Worktree.checkedOut (worktree : Worktree Leaf) (tree : Tree Leaf) : Tree Leaf :=
  readTreeFiles (fun _ => true) tree worktree

/-- One `read-tree` step, which writes the index when it is done. -/
def readTree (outcome : StepOutcome) (tree : Tree Leaf) (worktree : Worktree Leaf) :
    Except ServerError Unit × Worktree Leaf :=
  match outcome with
  | .done => (.ok (), { worktree with
      files := readTreeFiles (fun _ => true) tree worktree, index := some tree })
  | .notSpawned => (.error (.runGit .readTree), worktree)
  | .failed touched => (.error (.worktree .readTree), { worktree with
      files := readTreeFiles touched tree worktree })

/-- One `clean` step. -/
def clean (rules : IgnoreRules Leaf) (outcome : StepOutcome) (worktree : Worktree Leaf) :
    Except ServerError Unit × Worktree Leaf :=
  match outcome with
  | .done => (.ok (), { worktree with files := cleanFiles rules (fun _ => true) worktree })
  | .notSpawned => (.error (.runGit .clean), worktree)
  | .failed touched => (.error (.worktree .clean), { worktree with
      files := cleanFiles rules touched worktree })

/-- Remember what was just checked out, which is best-effort. -/
def recordTree (outcome : RecordOutcome) (tree : Tree Leaf) (worktree : Worktree Leaf) :
    Worktree Leaf :=
  match outcome with
  | .written => { worktree with lastTree := some tree }
  | .kept => worktree
  | .torn => { worktree with lastTree := none }

/-- Whether the record says that this very tree was checked out last. -/
def treeUnchanged [DecidableEq Leaf] (tree : Tree Leaf) (worktree : Worktree Leaf) : Bool :=
  worktree.lastTree.any fun last => decide (last.Same tree)

/-- What one completed update reports about its checkout. -/
structure Report (Leaf : Type) where
  /-- The stream that was checked out. -/
  stream : StreamId
  /-- The worktree directory it was checked out into. -/
  worktree : Bytes
  /-- The combined tree that was checked out. -/
  tree : Tree Leaf
  /-- Whether this is the very tree the worktree last checked out. -/
  treeUnchanged : Bool

/-- How the steps under the lock end. -/
structure GitSteps where
  readTree : StepOutcome
  clean : StepOutcome
  record : RecordOutcome

/-- What a run meets outside: the stream's trees, the file system, the lock and the `git` steps. -/
structure Surroundings (Leaf : Type) where
  /-- The path the repository is looked for at. -/
  repo : Bytes
  /-- Whether it leads to a repository. -/
  discover : Bool
  /-- The tree the `code` ref leads to. -/
  code : Option (Tree Leaf)
  /-- The tree the `extra` ref leads to. -/
  extra : Option (Tree Leaf)
  calls : TreeCalls
  /-- Whether the worktree directory and its state directory can be created. -/
  prepared : Bool
  /-- The result of acquiring the worktree's lock. -/
  lock : Except ServerError Unit
  steps : GitSteps

/-- Check a tree out under the lock: measure, `read-tree`, `clean`, and record it. -/
def checkOut [DecidableEq Leaf] (rules : IgnoreRules Leaf) (steps : GitSteps) (tree : Tree Leaf)
    (worktree : Worktree Leaf) : Except ServerError Bool × Worktree Leaf :=
  let unchanged := treeUnchanged tree worktree
  match readTree steps.readTree tree worktree with
  | (.error failure, after) => (.error failure, after)
  | (.ok (), checkedOut) =>
    match clean rules steps.clean checkedOut with
    | (.error failure, after) => (.error failure, after)
    | (.ok (), swept) => (.ok unchanged, recordTree steps.record tree swept)

/-- Update a worktree to what is synced for a stream. -/
def updateWorktree [DecidableEq Leaf] (rules : IgnoreRules Leaf) (stream : StreamId) (path : Bytes)
    (around : Surroundings Leaf) (worktree : Worktree Leaf) :
    Except ServerError (Report Leaf) × Worktree Leaf :=
  if !around.discover then (.error (.notARepo around.repo), worktree)
  else
    match resolveTree around.calls stream around.code around.extra with
    | .error failure => (.error failure, worktree)
    | .ok tree =>
      if !around.prepared then (.error .createWorktree, worktree)
      else
        match around.lock with
        | .error failure => (.error failure, worktree)
        | .ok () =>
          match checkOut rules around.steps tree worktree with
          | (.error failure, after) => (.error failure, after)
          | (.ok unchanged, after) => (.ok ⟨stream, path, tree, unchanged⟩, after)

section Files

variable {rules : IgnoreRules Leaf} {tree : Tree Leaf} {worktree : Worktree Leaf}
  {path : List Bytes}

/-- A finished `read-tree` leaves the tree, and beside it what the index did not record. -/
theorem get_checkedOut :
    (worktree.checkedOut tree).get path =
      match tree.get path with
      | some leaf => some leaf
      | none =>
        if tree.Meets path ∨ worktree.recorded path = true then none
        else worktree.files.get path := by
  -- The tree is written over what is left once the stale files are deleted.
  rw [Worktree.checkedOut, readTreeFiles, Leaves.keep_all, Leaves.get_overlay]
  cases held : tree.get path with
  | some leaf => rfl
  | none =>
    by_cases met : tree.Meets path <;> cases stale : worktree.recorded path <;>
      simp [held, met, stale]

/-- A finished `clean` leaves what the index records or the rules spare. -/
theorem get_cleanFiles :
    (cleanFiles rules (fun _ => true) worktree).get path =
      if worktree.recorded path = true ∨
        rules.spares worktree.files (worktree.index.getD .empty) path = true
      then worktree.files.get path else none := by
  -- With every path processed, only what is recorded or spared is kept.
  simp [cleanFiles]

end Files

/--
What a successful update leaves in the worktree.

The tree is there, and beside it the spared files that the index did not record before.
-/
structure Updated (rules : IgnoreRules Leaf) (tree : Tree Leaf) (before after : Worktree Leaf) :
    Prop where
  /-- The index holds the tree that was checked out. -/
  index : after.index = some tree
  /-- The files are the tree's, and what it left alone. -/
  files : ∀ path, after.files.get path =
    match tree.get path with
    | some leaf => some leaf
    | none =>
      if tree.Meets path ∨ before.recorded path = true ∨
        rules.spares (before.checkedOut tree) tree path = false then none
      else before.files.get path

/--
Beside the leaves of a tree there are only files of the worktree that its checkout left alone.

They stood there before, the index did not record them, and `clean` spared them.
-/
def OnlySpared (rules : IgnoreRules Leaf) (tree : Tree Leaf) (before : Worktree Leaf)
    (files : Tree Leaf) : Prop :=
  ∀ path leaf, tree.get path = none → files.get path = some leaf →
    before.files.get path = some leaf ∧ before.recorded path = false ∧
      rules.spares (before.checkedOut tree) tree path = true

/-- A successful update leaves nothing beside its tree but what `clean` spared. -/
theorem Updated.onlySpared {rules : IgnoreRules Leaf} {tree : Tree Leaf}
    {before after : Worktree Leaf} (updated : Updated rules tree before after) :
    OnlySpared rules tree before after.files := by
  intro path leaf absent remains
  rw [updated.files, absent] at remains
  -- A file that is in the way, recorded or not spared would be gone.
  by_cases gone : tree.Meets path ∨ before.recorded path = true ∨
    rules.spares (before.checkedOut tree) tree path = false
  · simp [gone] at remains
  · simp only [gone, if_false] at remains
    simp only [not_or, Bool.not_eq_true, Bool.not_eq_false] at gone
    exact ⟨remains, gone.2⟩

/-- A checkout that succeeds leaves the worktree updated to its tree. -/
theorem checkOut_ok [DecidableEq Leaf] {rules : IgnoreRules Leaf} {steps : GitSteps}
    {tree : Tree Leaf} {before after : Worktree Leaf} {unchanged : Bool}
    (done : checkOut rules steps tree before = (.ok unchanged, after)) :
    Updated rules tree before after ∧ unchanged = treeUnchanged tree before := by
  -- Success needs both steps to be done, so each of the other outcomes is refuted.
  unfold checkOut at done
  cases read : steps.readTree with
  | notSpawned => simp [read, readTree] at done
  | failed touched => simp [read, readTree] at done
  | done =>
    cases swept : steps.clean with
    | notSpawned => simp [read, swept, readTree, clean] at done
    | failed touched => simp [read, swept, readTree, clean] at done
    | done =>
      simp only [read, swept, readTree, clean, Prod.mk.injEq, Except.ok.injEq] at done
      obtain ⟨rfl, rfl⟩ := done
      -- Recording the tree changes neither the index nor the files.
      have index : ∀ swept : Worktree Leaf, (recordTree steps.record tree swept).index =
          swept.index := by intro swept; unfold recordTree; split <;> rfl
      have files : ∀ swept : Worktree Leaf, (recordTree steps.record tree swept).files =
          swept.files := by intro swept; unfold recordTree; split <;> rfl
      refine ⟨⟨by rw [index], fun path => ?_⟩, rfl⟩
      have recorded : ∀ files, (Worktree.mk files (some tree) before.lastTree).recorded path =
          (tree.get path).isSome := fun _ => rfl
      have found : readTreeFiles (fun _ => true) tree before = before.checkedOut tree := rfl
      rw [files, get_cleanFiles]
      simp only [recorded, found, Option.getD_some, get_checkedOut]
      cases held : tree.get path with
      | some leaf => simp
      | none =>
        by_cases met : tree.Meets path <;> by_cases stale : before.recorded path = true <;>
          cases ruled : rules.spares (before.checkedOut tree) tree path <;> simp [met, stale]

/-- An update that succeeds leaves the worktree updated to the tree it resolved and reports. -/
theorem updateWorktree_ok [DecidableEq Leaf] {rules : IgnoreRules Leaf} {stream : StreamId}
    {path : Bytes} {around : Surroundings Leaf} {before after : Worktree Leaf}
    {report : Report Leaf}
    (done : updateWorktree rules stream path around before = (.ok report, after)) :
    resolveTree around.calls stream around.code around.extra = .ok report.tree ∧
      Updated rules report.tree before after ∧
      report.treeUnchanged = treeUnchanged report.tree before := by
  -- A failure before the checkout leaves no way to a report.
  unfold updateWorktree at done
  split at done
  · cases done
  · cases resolved : resolveTree around.calls stream around.code around.extra with
    | error failure => simp [resolved] at done
    | ok tree =>
      simp only [resolved] at done
      split at done
      · cases done
      · split at done
        · cases done
        · split at done <;> rename_i checked
          · cases done
          · cases done
            exact ⟨rfl, checkOut_ok checked⟩

/-- A run that never gets the lock leaves the worktree as it was. -/
theorem updateWorktree_unlocked [DecidableEq Leaf] {rules : IgnoreRules Leaf} {stream : StreamId}
    {path : Bytes} {around : Surroundings Leaf} {worktree : Worktree Leaf} {failure : ServerError}
    (refused : around.lock = .error failure) :
    (updateWorktree rules stream path around worktree).2 = worktree := by
  -- Every branch up to the lock leaves the worktree alone.
  unfold updateWorktree
  rw [refused]
  split
  · rfl
  · split
    · rfl
    · split <;> rfl

end GitFullSend

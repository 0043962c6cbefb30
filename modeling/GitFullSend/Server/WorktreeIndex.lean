import GitFullSend.Server.WorktreeHistory

/-! Whether the persistent index of a worktree is pure cache. -/

namespace GitFullSend

open Utf8 (Bytes ofText)

variable {Leaf : Type} [DecidableEq Leaf]

/-- A worktree whose index file is missing or replaced by another one. -/
def Worktree.withIndex (worktree : Worktree Leaf) (index : Option (Tree Leaf)) : Worktree Leaf :=
  { worktree with index }

/-- Successful updates to one tree leave the same files with either index. -/
def SameFiles (rules : IgnoreRules Leaf) (worktree : Worktree Leaf) (other : Option (Tree Leaf))
    (tree : Tree Leaf) : Prop :=
  ∀ stream path around around' report report' after after',
    updateWorktree rules stream path around worktree = (.ok report, after) →
    updateWorktree rules stream path around' (worktree.withIndex other) = (.ok report', after') →
    report.tree = tree → report'.tree = tree → after.files.Same after'.files

/--
Both indexes agree on every file on disk that is in no way of a leaf of the tree.

Either both record it, or neither does and the rules judge it alike, or only one does and the rules
do not spare it. They judge by the tree and the files that are not recorded in the index at hand.
-/
def AgreeOnIgnored (rules : IgnoreRules Leaf) (worktree : Worktree Leaf)
    (other : Option (Tree Leaf)) (tree : Tree Leaf) : Prop :=
  ∀ path, worktree.files.get path ≠ none → ¬ tree.Meets path →
    match worktree.recorded path, (worktree.withIndex other).recorded path with
    | true, true => True
    | true, false => rules.spares ((worktree.withIndex other).checkedOut tree) tree path = false
    | false, true => rules.spares (worktree.checkedOut tree) tree path = false
    | false, false => rules.spares (worktree.checkedOut tree) tree path =
        rules.spares ((worktree.withIndex other).checkedOut tree) tree path

private theorem sameFiles_iff (rules : IgnoreRules Leaf) (worktree : Worktree Leaf)
    (other : Option (Tree Leaf)) (tree : Tree Leaf) :
    SameFiles rules worktree other tree ↔ AgreeOnIgnored rules worktree other tree := by
  have kept : (worktree.withIndex other).files = worktree.files := rfl
  -- An update without failures shows the difference, and no update hides it.
  constructor
  · intro same path stood beside
    obtain ⟨report, after, done, resolved⟩ :=
      updateWorktree_calm rules ⟨ofText "s", by decide, by decide, by decide⟩ [] tree worktree
    obtain ⟨report', after', done', resolved'⟩ :=
      updateWorktree_calm rules ⟨ofText "s", by decide, by decide, by decide⟩ [] tree
        (worktree.withIndex other)
    have files := same _ _ _ _ _ _ _ _ done done' resolved resolved' path
    rw [(updateWorktree_ok done).2.1.files, (updateWorktree_ok done').2.1.files, resolved,
      resolved'] at files
    have absent : tree.get path = none := by
      cases held : tree.get path with
      | none => rfl
      | some leaf => exact absurd (Leaves.meets_of_get held) beside
    -- A file that is recorded is removed, and any other one is removed unless it is spared.
    simp only [absent, beside, false_or, kept] at files
    cases here : worktree.recorded path <;>
      cases there : (worktree.withIndex other).recorded path <;>
      cases judged : rules.spares (worktree.checkedOut tree) tree path <;>
      cases judged' : rules.spares ((worktree.withIndex other).checkedOut tree) tree path <;>
      simp_all
  · intro agree stream name around around' report report' after after' done done' same resolved' path
    subst same
    have updated := (updateWorktree_ok done).2.1
    have updated' := (updateWorktree_ok done').2.1
    rw [updated.files, updated'.files, resolved']
    cases held : report.tree.get path with
    | some leaf => rfl
    | none =>
      -- Apart from the files on disk in nobody's way, the index plays no part.
      by_cases met : report.tree.Meets path
      · simp [met]
      · by_cases stood : worktree.files.get path = none
        · simp [kept, stood]
        · have alike := agree path stood met
          simp only [met, false_or, kept]
          cases here : worktree.recorded path <;>
            cases there : (worktree.withIndex other).recorded path <;>
            simp_all

end GitFullSend

import Mathlib.Data.List.Induction
import GitFullSend.Server.Worktree

/-! Histories of one worktree: what an update guarantees after many others, and local edits. -/

namespace GitFullSend

open Utf8 (Bytes ofText)

variable {Leaf : Type} [DecidableEq Leaf]

/-- Something that happens to a worktree. -/
inductive Happening (Leaf : Type) where
  /-- The remote side leaves the directory with these files. -/
  | edit (files : Tree Leaf)
  /-- An update runs, for any stream and under any circumstances. -/
  | update (stream : StreamId) (path : Bytes) (around : Surroundings Leaf)

/-- One update of a history, with the worktree it found and the worktree it left. -/
structure Run (Leaf : Type) where
  before : Worktree Leaf
  result : Except ServerError (Report Leaf)
  after : Worktree Leaf

/-- A worktree and the updates it has been through. -/
structure Life (Leaf : Type) where
  worktree : Worktree Leaf
  runs : List (Run Leaf)

/-- An update of a worktree, with what it found and what it left. -/
def runUpdate (rules : IgnoreRules Leaf) (stream : StreamId) (path : Bytes)
    (around : Surroundings Leaf) (worktree : Worktree Leaf) : Run Leaf :=
  let (result, after) := updateWorktree rules stream path around worktree
  ⟨worktree, result, after⟩

/-- One more happening. -/
def Life.happen (rules : IgnoreRules Leaf) (life : Life Leaf) : Happening Leaf → Life Leaf
  | .edit files => { life with worktree := { life.worktree with files := files } }
  | .update stream path around =>
    let run := runUpdate rules stream path around life.worktree
    ⟨run.after, life.runs ++ [run]⟩

/-- A history: a directory that was never updated, and what happens to it from then on. -/
def live (rules : IgnoreRules Leaf) (files : Tree Leaf) (happenings : List (Happening Leaf)) :
    Life Leaf :=
  happenings.foldl (Life.happen rules) ⟨⟨files, none, none⟩, []⟩

/-- Every update of a life so far succeeded. -/
def Life.Successful (life : Life Leaf) : Prop :=
  ∀ run ∈ life.runs, ∃ report, run.result = .ok report

/-- A run delivered a path when the tree it reports has a leaf there. -/
def Run.Delivered (run : Run Leaf) (path : List Bytes) : Prop :=
  ∃ report, run.result = .ok report ∧ (report.tree.get path).isSome = true

/-- A happening at the end of a history. -/
theorem live_concat (rules : IgnoreRules Leaf) (files : Tree Leaf)
    (happenings : List (Happening Leaf)) (last : Happening Leaf) :
    live rules files (happenings ++ [last]) = (live rules files happenings).happen rules last := by
  rw [live, List.foldl_append]
  rfl

/-- An update that reports success leaves the worktree updated to the tree it reports. -/
private theorem runUpdate_updated {rules : IgnoreRules Leaf} {stream : StreamId} {path : Bytes}
    {around : Surroundings Leaf} {worktree : Worktree Leaf} {report : Report Leaf}
    (done : (runUpdate rules stream path around worktree).result = .ok report) :
    Updated rules report.tree worktree (runUpdate rules stream path around worktree).after :=
  (updateWorktree_ok (Prod.ext done rfl)).2.1

section History

variable {rules : IgnoreRules Leaf} {files : Tree Leaf} {happenings : List (Happening Leaf)}

private theorem live_updated {run : Run Leaf} (listed : run ∈ (live rules files happenings).runs)
    {report : Report Leaf} (done : run.result = .ok report) :
    Updated rules report.tree run.before run.after := by
  -- The induction takes the last happening off, and only an update adds a run.
  induction happenings using List.reverseRecOn with
  | nil => cases listed
  | append_singleton happenings last ih =>
    rw [live_concat] at listed
    cases last with
    | edit files => exact ih listed
    | update stream path around =>
      rcases List.mem_append.mp listed with earlier | new
      · exact ih earlier
      · obtain rfl := List.mem_singleton.mp new
        exact runUpdate_updated done

/--
A path that was delivered once is still recorded in the index, or it has been gone since.

The second case is a run after the delivery that left the worktree without the path.
-/
def Life.Accounted (life : Life Leaf) (path : List Bytes) : Prop :=
  ∀ earlier run later, life.runs = earlier ++ run :: later → run.Delivered path →
    life.worktree.recorded path = true ∨ ∃ other ∈ later, other.after.files.get path = none

/-- A successful update removes what the index recorded and its tree does not hold. -/
theorem Updated.drops {Leaf : Type} {rules : IgnoreRules Leaf} {tree : Tree Leaf}
    {before after : Worktree Leaf} (updated : Updated rules tree before after) {path : List Bytes}
    (absent : tree.get path = none) (recorded : before.recorded path = true) :
    after.files.get path = none := by
  -- The path is not in the tree, and what was recorded is not spared.
  rw [updated.files, absent]
  simp [recorded]

/-- After a successful update the index records the paths of its tree. -/
theorem Updated.recorded {Leaf : Type} {rules : IgnoreRules Leaf} {tree : Tree Leaf}
    {before after : Worktree Leaf} (updated : Updated rules tree before after) (path : List Bytes) :
    after.recorded path = (tree.get path).isSome := by
  rw [Worktree.recorded, updated.index, Option.getD_some]

/-- In a history of successful updates every delivered path is accounted for. -/
theorem live_accounted (successful : (live rules files happenings).Successful) (path : List Bytes) :
    (live rules files happenings).Accounted path := by
  -- The induction takes the last happening off, and an edit does not touch the index.
  induction happenings using List.reverseRecOn with
  | nil =>
    intro earlier run later split
    simp [live] at split
  | append_singleton happenings last ih =>
    rw [live_concat] at successful ⊢
    cases last with
    | edit files => exact ih successful
    | update stream name around =>
      have before := ih fun run member => successful run (List.mem_append_left _ member)
      obtain ⟨report, done⟩ := successful _ (List.mem_append_right _ List.mem_cons_self)
      have updated := runUpdate_updated done
      intro earlier run later split delivered
      simp only [Life.happen] at split ⊢
      generalize runUpdate rules stream name around (live rules files happenings).worktree = newest
        at split done updated ⊢
      rcases List.eq_nil_or_concat' later with rfl | ⟨middle, last, rfl⟩
      · -- The delivery was this very run, whose tree is in the index now.
        obtain ⟨-, same⟩ := List.append_inj' split rfl
        obtain rfl := (List.cons.inj same).1
        obtain ⟨report', done', held⟩ := delivered
        obtain rfl : report = report' := Except.ok.inj (done.symm.trans done')
        exact .inl (by rw [updated.recorded, held])
      · rw [← List.cons_append, ← List.append_assoc] at split
        obtain ⟨runs, same⟩ := List.append_inj' split rfl
        obtain rfl := (List.cons.inj same).1
        rcases before earlier run middle runs delivered with recorded | ⟨other, member, gone⟩
        · -- Its path was in the index, so this run either delivers it again or removes it.
          cases held : report.tree.get path with
          | some leaf => exact .inl (by rw [updated.recorded, held]; rfl)
          | none => exact .inr ⟨newest, by simp, updated.drops held recorded⟩
        · exact .inr ⟨other, List.mem_append_left _ member, gone⟩

private theorem live_recorded (successful : (live rules files happenings).Successful)
    {path : List Bytes} (recorded : (live rules files happenings).worktree.recorded path = true) :
    ∃ past ∈ (live rules files happenings).runs, past.Delivered path := by
  -- An index only comes from an update, and it holds the tree that update reported.
  induction happenings using List.reverseRecOn with
  | nil => cases recorded
  | append_singleton happenings last ih =>
    rw [live_concat] at successful recorded ⊢
    cases last with
    | edit files => exact ih successful recorded
    | update stream name around =>
      -- The index holds the tree of the update that ran last.
      obtain ⟨report, done⟩ := successful _ (List.mem_append_right _ List.mem_cons_self)
      refine ⟨_, List.mem_append_right _ List.mem_cons_self, report, done, ?_⟩
      rw [← (runUpdate_updated done).recorded]
      exact recorded

private theorem live_before {earlier later : List (Run Leaf)} {run : Run Leaf}
    (split : (live rules files happenings).runs = earlier ++ run :: later) :
    ∃ prior, (live rules files prior).runs = earlier ∧
      (live rules files prior).worktree = run.before := by
  -- The induction takes the last happening off until the run is the last one.
  induction happenings using List.reverseRecOn generalizing later with
  | nil => simp [live] at split
  | append_singleton happenings last ih =>
    rw [live_concat] at split
    cases last with
    | edit files => exact ih split
    | update stream name around =>
      simp only [Life.happen] at split
      rcases List.eq_nil_or_concat' later with rfl | ⟨middle, newest, rfl⟩
      · obtain ⟨same, new⟩ := List.append_inj' split rfl
        exact ⟨happenings, same, congrArg Run.before (List.cons.inj new).1⟩
      · rw [← List.cons_append, ← List.append_assoc] at split
        exact ih (List.append_inj' split rfl).1

/--
What a successful update guarantees at its place in a history of successful updates.

The tree is the one it checked out, and the earlier runs are the ones before it.
-/
structure Exact (rules : IgnoreRules Leaf) (earlier : List (Run Leaf)) (run : Run Leaf)
    (tree : Tree Leaf) : Prop where
  /-- Every path of the tree is present with its mode and content. -/
  present : ∀ path leaf, tree.get path = some leaf → run.after.files.get path = some leaf
  /-- A path delivered before that is not in the tree only remains if it was gone in between. -/
  dropped : ∀ front past between, earlier = front ++ past :: between → ∀ path,
    past.Delivered path → tree.get path = none → run.after.files.get path ≠ none →
    ∃ other ∈ between, other.after.files.get path = none
  /-- Every other remaining file is spared by the rules for the files that `clean` found. -/
  ignored : ∀ path, tree.get path = none → run.after.files.get path ≠ none →
    rules.spares (run.before.checkedOut tree) tree path = true
  /-- A spared file that was never delivered and is in nobody's way is untouched. -/
  spared : ∀ path leaf, run.before.files.get path = some leaf →
    rules.spares (run.before.checkedOut tree) tree path = true →
    (∀ past ∈ earlier, ¬ past.Delivered path) → ¬ tree.Meets path →
    run.after.files.get path = some leaf

end History

/-- The circumstances of an update that nothing goes wrong with. -/
def calm (tree : Tree Leaf) : Surroundings Leaf :=
  ⟨ofText "/repo", true, some tree, none, .sound, true, .ok (), ⟨.done, .done, .written⟩⟩

/-- Nothing goes wrong with a calm update. -/
theorem updateWorktree_calm (rules : IgnoreRules Leaf) (stream : StreamId) (path : Bytes)
    (tree : Tree Leaf) (worktree : Worktree Leaf) :
    ∃ report after, updateWorktree rules stream path (calm tree) worktree = (.ok report, after) ∧
      report.tree = tree := by
  refine ⟨⟨stream, path, tree, treeUnchanged tree worktree⟩, _, rfl, rfl⟩

/-- What git makes of a line `y` in the top ignore file, and of `*` or `!y` one directory down. -/
def starRules : IgnoreRules Bytes where
  ignored files path :=
    match path with
    | [directory, name] =>
      if files.get [directory, ofText ".gitignore"] = some (ofText "*") then true
      else name = ofText "y" && files.get [ofText ".gitignore"] = some name &&
        files.get [directory, ofText ".gitignore"] ≠ some (ofText "!y")
    | [name] => name = ofText "y" && files.get [ofText ".gitignore"] = some name
    | _ => false
  nested _ _ _ := false

end GitFullSend

import GitFullSend.Server.WorktreeHistory

/-! When the record of the last tree proves that an update has nothing to do. -/

namespace GitFullSend

open Utf8 (Bytes ofText)

variable {Leaf : Type} [DecidableEq Leaf]

/-- The record, if there is one, names the tree that the index holds. -/
def Worktree.RecordTrue (worktree : Worktree Leaf) : Prop :=
  ∀ last, worktree.lastTree = some last → ∃ held, worktree.index = some held ∧ held.Same last

/-- An update gets as far as a finished `read-tree`. -/
structure Surroundings.Reads (around : Surroundings Leaf) (stream : StreamId) (tree : Tree Leaf) :
    Prop where
  discovered : around.discover = true
  resolved : resolveTree around.calls stream around.code around.extra = .ok tree
  prepared : around.prepared = true
  locked : around.lock = .ok ()
  read : around.steps.readTree = .done

/--
An update takes the record along with the index.

Once it has read a tree into the index, it also cleans and does not leave the old record in place,
unless the old record names that very tree, or there is none.
-/
def TakesRecordAlong (stream : StreamId) (around : Surroundings Leaf) (worktree : Worktree Leaf) :
    Prop :=
  ∀ tree, around.Reads stream tree →
    (around.steps.clean = .done ∧ around.steps.record ≠ .kept) ∨
      ∀ last, worktree.lastTree = some last → tree.Same last

section Update

variable {rules : IgnoreRules Leaf} {stream : StreamId} {path : Bytes}
  {around : Surroundings Leaf} {worktree : Worktree Leaf} {tree : Tree Leaf}

/-- An update that reads a tree ends as the checkout of that tree does. -/
theorem updateWorktree_reads (reads : around.Reads stream tree) :
    (updateWorktree rules stream path around worktree).2 =
      (checkOut rules around.steps tree worktree).2 := by
  -- Nothing before the checkout stops it, and what the checkout answers changes no worktree.
  unfold updateWorktree
  simp only [reads.discovered, reads.resolved, reads.prepared, reads.locked, Bool.not_true,
    Bool.false_eq_true, if_false]
  split <;> rename_i checked <;> rw [checked]

/-- Reading a tree puts it into the index, and only recording it changes the record. -/
theorem checkOut_read (rules : IgnoreRules Leaf) {steps : GitSteps} (tree : Tree Leaf)
    (worktree : Worktree Leaf) (read : steps.readTree = .done) :
    (checkOut rules steps tree worktree).2.index = some tree ∧
      (steps.clean = .done → (checkOut rules steps tree worktree).2.lastTree =
        (recordTree steps.record tree worktree).lastTree) ∧
      (steps.clean ≠ .done →
        (checkOut rules steps tree worktree).2.lastTree = worktree.lastTree) := by
  -- Cleaning touches files only, and recording touches the record only.
  simp only [checkOut, read, readTree]
  cases swept : steps.clean with
  | done => cases steps.record <;> exact ⟨rfl, fun _ => rfl, fun bad => absurd rfl bad⟩
  | notSpawned => exact ⟨rfl, by simp, fun _ => rfl⟩
  | failed touched => exact ⟨rfl, by simp, fun _ => rfl⟩

/-- An update that does not read a tree leaves the index and the record alone. -/
theorem updateWorktree_unread (unread : ∀ tree, ¬ around.Reads stream tree) :
    (updateWorktree rules stream path around worktree).2.index = worktree.index ∧
      (updateWorktree rules stream path around worktree).2.lastTree = worktree.lastTree := by
  -- Whatever stops it before the checkout leaves everything alone, and so does a failed read.
  unfold updateWorktree
  split
  · exact ⟨rfl, rfl⟩
  rename_i discovered
  cases resolved : resolveTree around.calls stream around.code around.extra with
  | error failure => exact ⟨rfl, rfl⟩
  | ok tree =>
    simp only
    split
    · exact ⟨rfl, rfl⟩
    rename_i prepared
    cases locked : around.lock with
    | error failure => exact ⟨rfl, rfl⟩
    | ok granted =>
      simp only [checkOut]
      cases read : around.steps.readTree with
      | done =>
        exact absurd ⟨by simpa using discovered, resolved, by simpa using prepared, locked, read⟩
          (unread tree)
      | notSpawned => exact ⟨rfl, rfl⟩
      | failed touched => exact ⟨rfl, rfl⟩

/-- After an update the record is true exactly when the update takes it along. -/
theorem recordTrue_updateWorktree_iff (sound : worktree.RecordTrue) :
    (updateWorktree rules stream path around worktree).2.RecordTrue ↔
      TakesRecordAlong stream around worktree := by
  -- What is read into the index is the tree, so the record has to name it, or be gone.
  by_cases reading : ∃ tree, around.Reads stream tree
  · obtain ⟨tree, reads⟩ := reading
    obtain ⟨index, cleaned, stopped⟩ := checkOut_read rules tree worktree reads.read
    -- The index holds this tree, so it is what a true record has to name.
    have named : (checkOut rules around.steps tree worktree).2.RecordTrue ↔
        ∀ last, (checkOut rules around.steps tree worktree).2.lastTree = some last →
          tree.Same last := by
      simp only [Worktree.RecordTrue, index, Option.some.injEq, exists_eq_left']
    have only : TakesRecordAlong stream around worktree ↔
        (around.steps.clean = .done ∧ around.steps.record ≠ .kept) ∨
          ∀ last, worktree.lastTree = some last → tree.Same last := by
      refine ⟨fun along => along tree reads, fun along other reads' => ?_⟩
      cases reads.resolved.symm.trans reads'.resolved
      exact along
    rw [updateWorktree_reads reads, named, only]
    by_cases swept : around.steps.clean = .done
    · rw [cleaned swept]
      cases recorded : around.steps.record with
      | written => simp [recordTree, swept]
      | kept => simp [recordTree]
      | torn => simp [recordTree, swept]
    · rw [stopped swept]
      simp [swept]
  · have unread : ∀ tree, ¬ around.Reads stream tree := fun tree reads => reading ⟨tree, reads⟩
    obtain ⟨index, record⟩ := @updateWorktree_unread _ _ rules _ path _ worktree unread
    constructor
    · exact fun _ tree reads => absurd reads (unread tree)
    · intro _
      rw [Worktree.RecordTrue, index, record]
      exact sound

/-- Where the record is true, an update that reports an unchanged tree finds it in the index. -/
theorem Worktree.RecordTrue.unchanged (sound : worktree.RecordTrue) {report : Report Leaf}
    {after : Worktree Leaf}
    (done : updateWorktree rules stream path around worktree = (.ok report, after))
    (unchanged : report.treeUnchanged = true) :
    ∃ held, worktree.index = some held ∧ held.Same report.tree := by
  -- The report compares its tree with the record, and the index holds what that names.
  rw [(updateWorktree_ok done).2.2, treeUnchanged, Option.any_eq_true] at unchanged
  obtain ⟨last, recorded, same⟩ := unchanged
  obtain ⟨held, index, agrees⟩ := sound last recorded
  exact ⟨held, index, fun path => (agrees path).trans (of_decide_eq_true same path)⟩

/-- Where the record is not true, the next update to its tree reports what is not so. -/
theorem Worktree.false_unchanged (unsound : ¬ worktree.RecordTrue) :
    ∃ tree report after, updateWorktree rules stream path (calm tree) worktree =
        (.ok report, after) ∧ report.treeUnchanged = true ∧
      ¬ ∃ held, worktree.index = some held ∧ held.Same report.tree := by
  -- An update to the very tree that the false record names reports it as unchanged.
  simp only [Worktree.RecordTrue, not_forall] at unsound
  obtain ⟨last, recorded, apart⟩ := unsound
  obtain ⟨report, after, done, same⟩ := updateWorktree_calm rules stream path last worktree
  refine ⟨last, report, after, done, ?_, by rwa [same]⟩
  rw [(updateWorktree_ok done).2.2, same, treeUnchanged, recorded]
  simp

end Update

/-- Every update of a history takes the record along. -/
def AllTakeAlong (rules : IgnoreRules Leaf) (files : Tree Leaf)
    (happenings : List (Happening Leaf)) : Prop :=
  ∀ before stream path around later,
    happenings = before ++ .update stream path around :: later →
      TakesRecordAlong stream around (live rules files before).worktree

section History

variable {rules : IgnoreRules Leaf} {files : Tree Leaf} {happenings : List (Happening Leaf)}

/-- In a history whose updates take the record along, it is true at every time. -/
theorem live_recordTrue (along : AllTakeAlong rules files happenings) :
    (live rules files happenings).worktree.RecordTrue := by
  -- The induction takes the last happening off, and an edit touches neither index nor record.
  induction happenings using List.reverseRecOn with
  | nil => nofun
  | append_singleton happenings last ih =>
    have earlier := ih fun before stream path around later split =>
      along before stream path around (later ++ [last]) (by simp [split])
    rw [live_concat]
    cases last with
    | edit files => exact earlier
    | update stream path around =>
      exact (recordTrue_updateWorktree_iff earlier).mpr
        (along happenings stream path around [] rfl)

/-- In a history whose updates take the record along, no report of an unchanged tree is false. -/
theorem live_unchanged (along : AllTakeAlong rules files happenings) {run : Run Leaf}
    (listed : run ∈ (live rules files happenings).runs) {report : Report Leaf}
    (done : run.result = .ok report) (unchanged : report.treeUnchanged = true) :
    ∃ held, run.before.index = some held ∧ held.Same report.tree := by
  -- The run is an older one, or it is the last, before which the record was true.
  induction happenings using List.reverseRecOn with
  | nil => cases listed
  | append_singleton happenings last ih =>
    have earlier : AllTakeAlong rules files happenings := fun before stream path around later split =>
      along before stream path around (later ++ [last]) (by simp [split])
    rw [live_concat] at listed
    cases last with
    | edit files => exact ih earlier listed
    | update stream path around =>
      rcases List.mem_append.mp listed with old | new
      · exact ih earlier old
      · obtain rfl := List.mem_singleton.mp new
        exact (live_recordTrue earlier).unchanged (Prod.ext done rfl) unchanged

end History

/-- A tree that is checked out twice in a row is reported as unchanged, and the index has it. -/
theorem live_unchanged_twice :
    ∃ (happenings : List (Happening Nat)) (run : Run Nat) (report : Report Nat) (held : Tree Nat),
      run ∈ (live .everything .empty happenings).runs ∧ run.result = .ok report ∧
      report.treeUnchanged = true ∧ run.before.index = some held ∧ held.Same report.tree := by
  -- Both updates clean and record their tree, so the record is true between them.
  let stream : StreamId := ⟨ofText "s", by decide, by decide, by decide⟩
  let tree : Tree Nat := ⟨[([ofText "x"], 1)], by simp⟩
  let happenings : List (Happening Nat) :=
    [.update stream [] (calm tree), .update stream [] (calm tree)]
  have along : AllTakeAlong .everything .empty happenings := by
    intro before stream' path around later split other reads
    have member : Happening.update stream' path around ∈ happenings := by simp [split]
    simp only [happenings, List.mem_cons, List.not_mem_nil, or_false, or_self] at member
    cases member
    exact .inl ⟨rfl, nofun⟩
  obtain ⟨held, index, same⟩ := live_unchanged along (List.mem_cons_of_mem _ List.mem_cons_self)
    rfl rfl
  exact ⟨happenings, _, _, held, List.mem_cons_of_mem _ List.mem_cons_self, rfl, rfl, index, same⟩

/-- After a checkout whose `clean` failed, going back to the tree before it is reported as unchanged,
while the index holds the other tree. -/
theorem live_unchanged_false :
    ∃ (happenings : List (Happening Nat)) (stream : StreamId) (first second : Tree Nat)
      (around : Surroundings Nat) (run : Run Nat) (report : Report Nat),
      happenings = [.update stream [] (calm first), .update stream [] around,
        .update stream [] (calm first)] ∧
      around = { calm second with steps := ⟨.done, .failed fun _ => false, .written⟩ } ∧
      run ∈ (live .everything .empty happenings).runs ∧ run.result = .ok report ∧
      report.tree = first ∧ report.treeUnchanged = true ∧ run.before.index = some second ∧
      ¬ ∃ held, run.before.index = some held ∧ held.Same report.tree := by
  -- The second update reads the empty tree and fails to clean, so the record stays behind.
  let stream : StreamId := ⟨ofText "s", by decide, by decide, by decide⟩
  refine ⟨_, stream, ⟨[([ofText "x"], 1)], by simp⟩, .empty, _, _, _, rfl, rfl,
    List.mem_cons_of_mem _ (List.mem_cons_of_mem _ List.mem_cons_self), rfl, rfl, rfl, rfl, ?_⟩
  intro held
  obtain ⟨tree, index, same⟩ := held
  cases index
  exact absurd (same [ofText "x"]) (by decide)

end GitFullSend

import GitFullSend.Server.WorktreeRefines

/-! Updates of one worktree exclude each other, and those that never get the lock leave no trace. -/

namespace GitFullSend

open Utf8 (Bytes ofText)

variable {Leaf Dir : Type}

/-- Whether a failure is about a stream never synced, or about a lock held by another run. -/
def ServerError.lockless : ServerError → Bool
  | .missingCodeRef _ | .worktreeBusy _ | .lockTimeout _ _ => true
  | _ => false

/-- A run that has had the lock, or can get it no more; it never ends for want of the lock. -/
def Course.Past : Course Leaf Dir → Prop
  | .locked _ | .measured _ _ | .checkedOut _ _ | .swept _ _ | .returned _ | .crashed => True
  | .failed failure => failure.lockless = false
  | _ => False

/-- A run that holds the lock is past the point where it could fail for want of it. -/
theorem Course.past_of_held {course : Course Leaf Dir} {site : Site Leaf Dir}
    (held : course.held = some site) : course.Past := by
  cases course <;> trivial

/-- A `read-tree` that fails does not fail for want of the lock. -/
private theorem readTree_lockless {outcome : StepOutcome} {tree : Tree Leaf}
    {worktree after : Worktree Leaf} {failure : ServerError}
    (failed : readTree outcome tree worktree = (.error failure, after)) :
    failure.lockless = false := by
  cases outcome <;> cases failed <;> rfl

/-- A `clean` that fails does not fail for want of the lock. -/
private theorem clean_lockless {rules : IgnoreRules Leaf} {outcome : StepOutcome}
    {worktree after : Worktree Leaf} {failure : ServerError}
    (failed : clean rules outcome worktree = (.error failure, after)) :
    failure.lockless = false := by
  cases outcome <;> cases failed <;> rfl

section Moves

variable [DecidableEq Dir] [DecidableEq Leaf] {layout : Layout Dir} {rules : IgnoreRules Leaf}
  {request : Request} {host after : Host Leaf Dir} {run : Nat}

/-- A step of a run leaves the courses of the others alone. -/
theorem HostMoves.others (moved : HostMoves layout rules request host run after) {other : Nat}
    (different : other ≠ run) : after.course other = host.course other := by
  cases moved <;> exact Function.update_of_ne different ..

/-- A run that has not got the lock changes no file, no index and no record. -/
theorem HostMoves.frame (moved : HostMoves layout rules request host run after)
    (outside : (host.course run).held = none) :
    after.files = host.files ∧ after.index = host.index ∧ after.lastTree = host.lastTree := by
  -- The steps that put something into the worktree are taken under the lock.
  cases moved with
  | discovered | code | resolved | created | canonical | indexed | located | opened | polls
  | locked | stops | measured | dies => exact ⟨rfl, rfl, rfl⟩
  | read found | readFails found | clean found | cleanFails found | record _ found =>
    rw [found] at outside
    cases outside

/-- A run that holds the lock, or is past it, is so after its next step. -/
theorem HostMoves.past (moved : HostMoves layout rules request host run after)
    (past : (host.course run).Past) : (after.course run).Past := by
  -- Under the lock a run fails by one of its `git` steps, and past it there are no steps left.
  cases moved with
  | discovered found | code found | resolved found | created found | canonical found
  | indexed found | located found | opened found =>
    rw [found] at past
    exact past.elim
  | polls waits | locked waits =>
    cases found : host.course run <;> rw [found] at past waits <;> cases waits <;> exact past.elim
  | measured | read | clean | record | dies => simp [Host.enter, Course.Past]
  | readFails _ failed => simpa [Host.enter, Course.Past] using readTree_lockless failed
  | cleanFails _ failed => simpa [Host.enter, Course.Past] using clean_lockless failed
  | stops active outside =>
    exfalso
    cases found : host.course run with
    | start | discovered | code | resolved | created | canonical | indexed | located | opened
    | polling => rw [found] at past; exact past
    | locked | measured | checkedOut | swept => rw [found] at outside; cases outside
    | returned | failed | crashed => rw [found] at active; cases active

end Moves

section Runs

variable [DecidableEq Dir] [DecidableEq Leaf] {layout : Layout Dir} {rules : IgnoreRules Leaf}
  {requests : Nat → Request} {host after : Host Leaf Dir} {run : Nat} {event : HostEvent Leaf}
  {events : List (HostEvent Leaf)}

/-- Whatever happens, a run that is past the lock stays so. -/
theorem hostStep_past (past : (host.course run).Past)
    (stepped : hostStep layout rules requests host event = some after) :
    (after.course run).Past := by
  -- A run moves by its own steps only.
  cases event with
  | push => cases stepped; exact past
  | act acting action =>
    obtain ⟨acted, moved, rfl⟩ := Option.map_eq_some_iff.mp stepped
    have moved := Host.act_moves moved
    by_cases same : run = acting
    · subst same
      exact moved.past past
    · simp only [Host.later, moved.others same]
      exact past

/-- A run that ends for want of the lock has changed nothing in any of its steps. -/
theorem executeHost_traceless {start : Host Leaf Dir}
    (ran : executeHost layout rules requests start events = some host) {failure : ServerError}
    (failed : host.course run = .failed failure) (lockless : failure.lockless = true)
    {before rest : List (HostEvent Leaf)} {action : HostAction}
    (split : events = before ++ .act run action :: rest) {now next : Host Leaf Dir}
    (here : executeHost layout rules requests start before = some now)
    (stepped : hostStep layout rules requests now (.act run action) = some next) :
    next.files = now.files ∧ next.index = now.index ∧ next.lastTree = now.lastTree := by
  subst split
  obtain ⟨acted, moved, rfl⟩ := Option.map_eq_some_iff.mp stepped
  have moved := Host.act_moves moved
  cases held : (now.course run).held with
  | none => exact moved.frame held
  | some site =>
    -- Once it has the lock, the run can end in many ways, but not in this one.
    exfalso
    obtain ⟨middle, found, went⟩ := Folds.foldlM_before ran
    obtain rfl := Option.some.inj (here.symm.trans found)
    rw [List.foldlM_cons, stepped] at went
    have each : ∀ before event after, (before.course run).Past →
        hostStep layout rules requests before event = some after → (after.course run).Past :=
      fun before event after past stepped => hostStep_past past stepped
    have reached : (acted.later.course run).Past := moved.past (Course.past_of_held held)
    have past := Folds.foldlM_keeps each reached went
    rw [failed] at past
    rw [past] at lockless
    cases lockless

/-- Two runs with the lock of one canonical worktree are one run. -/
theorem executeHost_exclusive (sound : layout.Sound) {files : Bytes → Tree Leaf}
    {index lastTree : Dir → Option (Tree Leaf)}
    (ran : executeHost layout rules requests (.initial files index lastTree) events = some host)
    {left right : Nat} {leftSite rightSite : Site Leaf Dir}
    (leftHeld : (host.course left).held = some leftSite)
    (rightHeld : (host.course right).held = some rightSite)
    (same : leftSite.worktree = rightSite.worktree) : left = right := by
  -- Both runs go with updates that hold the lock of that one path.
  obtain ⟨moves, system, executed, refines⟩ :=
    executeHost_refines sound ran (host.agrees_jobs requests)
  have locked := (execute_serialized executed).1.locked
  have held : ∀ run site, (host.course run).held = some site →
      system.holder site.worktree = some run := by
    intro run site within
    obtain ⟨holds, keyed⟩ := Course.Matches.inside within (refines.phase run)
    exact (locked run _).mpr ⟨(host.agrees_jobs requests run).2 _ keyed.place, holds⟩
  have first := held left leftSite leftHeld
  rw [same, held right rightSite rightHeld] at first
  exact (Option.some.inj first).symm

end Runs

/--
Updates of one worktree exclude each other, and failures for want of the lock leave no trace.

No two runs are between getting the lock and their end on one canonical worktree, and a run that
ends with a missing `code` ref, a busy worktree or a lock timeout has changed no file of any
worktree, no index and no record of the last tree in any of its steps.
-/
theorem worktree_updates_exclusive [DecidableEq Dir] [DecidableEq Leaf] {layout : Layout Dir}
    {rules : IgnoreRules Leaf} {requests : Nat → Request} {files : Bytes → Tree Leaf}
    {index lastTree : Dir → Option (Tree Leaf)} {events : List (HostEvent Leaf)}
    {host : Host Leaf Dir} (sound : layout.Sound)
    (ran : executeHost layout rules requests (.initial files index lastTree) events = some host) :
    (∀ left right leftSite rightSite, (host.course left).held = some leftSite →
      (host.course right).held = some rightSite → leftSite.worktree = rightSite.worktree →
      left = right) ∧
    ∀ run failure, host.course run = .failed failure → failure.lockless = true →
      ∀ before action rest now next, events = before ++ .act run action :: rest →
        executeHost layout rules requests (.initial files index lastTree) before = some now →
        hostStep layout rules requests now (.act run action) = some next →
        next.files = now.files ∧ next.index = now.index ∧ next.lastTree = now.lastTree := by
  -- The two halves are two facts about every run.
  refine ⟨fun left right leftSite rightSite leftHeld rightHeld same =>
    executeHost_exclusive sound ran leftHeld rightHeld same, ?_⟩
  intro run failure failed lockless before action rest now next split here stepped
  exact executeHost_traceless ran failed lockless split here stepped

/-- The directory `/w`, and a link to it. -/
def linkedLayout : Layout Bytes where
  canonicalize _ path :=
    if path = ofText "/w" ∨ path = ofText "/link" then some (ofText "/w") else none
  stateDir path := ofText "/git/git-full-send/worktrees/" ++ path
  now moment := moment

/-- The directory stays where it is, and its state directory tells it from others. -/
theorem linkedLayout_sound : linkedLayout.Sound := by
  refine ⟨fun moment spelled path known later after again known' => ?_,
    fun left right _ _ same => List.append_cancel_left same⟩
  -- Both paths lead to the one directory there is.
  simp only [linkedLayout] at known known'
  split at known <;> cases known
  split at known' <;> cases known'
  rfl

/-- An update by either of two spellings, where only the second one gives up at once. -/
def spelled : Nat → Request
  | 0 =>
    ⟨ofText "/repo", ⟨ofText "stream", by decide, by decide, by decide⟩, ofText "/w", .wait none⟩
  | _ =>
    ⟨ofText "/repo", ⟨ofText "stream", by decide, by decide, by decide⟩, ofText "/link",
      .failFast⟩

/-- The steps of a run up to its first try for the lock. -/
def upToLock (run : Nat) : List (HostEvent Nat) :=
  [.discover true, .resolveCode .sound, .resolveExtra .sound, .createDir true, .canonicalize,
    .stateDir true, .stateDir true, .openLock true, .tryLock true].map (.act run)

/-- A push, and then both runs up to their first try for the lock. -/
def contended : List (HostEvent Nat) :=
  .push (spelled 0).stream ⟨some .empty, none⟩ :: (upToLock 0 ++ upToLock 1)

/-- The first run holds the lock, so the second one is refused, and the first one is alone. -/
theorem worktree_updates_exclusive_busy : ∃ host : Host Nat Bytes,
    executeHost linkedLayout .everything spelled
      (.initial (fun _ => .empty) (fun _ => none) fun _ => none) contended = some host ∧
    host.course 1 = .failed (.worktreeBusy (ofText "/w")) ∧
    ∀ run site, (host.course run).held = some site → site.worktree = ofText "/w" → run = 0 := by
  obtain ⟨host, ran⟩ : ∃ host, executeHost linkedLayout .everything spelled
      (.initial (fun _ => .empty) (fun _ => none) fun _ => none) contended = some host := ⟨_, rfl⟩
  have exclusive := (worktree_updates_exclusive linkedLayout_sound ran).1
  cases ran
  exact ⟨_, rfl, rfl, fun run site held here => exclusive run 0 site _ held rfl here⟩

end GitFullSend

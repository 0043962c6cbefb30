import GitFullSend.Server.WorktreeSerial

/-! In which order concurrent updates of a worktree return what they resolved. -/

namespace GitFullSend

open Utf8 (Bytes ofText)

variable {Leaf : Type} [DecidableEq Leaf]

/-- The reads a tree was resolved from: their moments, and how many pushes had landed by then. -/
def Ticket.reads (ticket : Ticket Leaf) : List (Nat × Nat) :=
  [(ticket.began, ticket.codePush), (ticket.resolved, ticket.extraPush)]

/-- The reads a run in this phase has done. -/
def Phase.reads : Phase Leaf → List (Nat × Nat)
  | .code _ codePush began => [(began, codePush)]
  | phase => (phase.ticket.map Ticket.reads).getD []

/-- A tree was resolved from a stream, first its `code` and then its `extra`. -/
structure Ticket.Resolved (pushes : List (Push Leaf)) (ticket : Ticket Leaf) : Prop where
  tree : ∃ code, (stateAt pushes ticket.codePush).code = some code ∧
    ticket.tree = combined code (stateAt pushes ticket.extraPush).extra
  since : ticket.began < ticket.resolved

/-- What a run in this phase has resolved, it has read from its stream. -/
def Phase.Resolved (pushes : List (Push Leaf)) : Phase Leaf → Prop
  | .code tree codePush _ => (stateAt pushes codePush).code = some tree
  | phase => ∀ ticket, phase.ticket = some ticket → ticket.Resolved pushes

section Phase

variable {Leaf : Type} {phase : Phase Leaf} {pushes : List (Push Leaf)}

/-- The reads of a run that has resolved its tree. -/
private theorem Phase.reads_ticket {ticket : Ticket Leaf} (has : phase.ticket = some ticket) :
    phase.reads = ticket.reads := by
  cases phase <;> cases has <;> rfl

/-- What a run that has resolved its tree has read. -/
theorem Phase.Resolved.ticket (resolved : phase.Resolved pushes) {ticket : Ticket Leaf}
    (has : phase.ticket = some ticket) : ticket.Resolved pushes := by
  cases phase <;> first | exact resolved ticket has | cases has

/-- A run that is over without a tree has no reads to answer for. -/
private theorem Phase.reads_ended (ended : phase.active = false) (settled : phase.ticket = none) :
    phase.reads = [] := by
  cases phase with
  | failed | crashed => rfl
  | returned => cases settled
  | start | code | ready | holding | checkedOut | swept => cases ended

/-- A run that is over without a tree has resolved nothing wrong. -/
private theorem Phase.resolved_ended (ended : phase.active = false) (settled : phase.ticket = none) :
    phase.Resolved pushes := by
  cases phase with
  | failed | crashed => intro ticket has; cases has
  | returned => cases settled
  | start | code | ready | holding | checkedOut | swept => cases ended

/-- Later pushes do not change what a run has read. -/
theorem Phase.Resolved.push (resolved : phase.Resolved pushes)
    (landed : ∀ read ∈ phase.reads, read.2 ≤ pushes.length) (state : Push Leaf) :
    phase.Resolved (pushes ++ [state]) := by
  -- All reads were of pushes that had landed, and these stay where they are.
  have later : ∀ ticket, phase.ticket = some ticket →
      ticket.Resolved (pushes ++ [state]) := by
    intro ticket has
    obtain ⟨tree, since⟩ := resolved.ticket has
    rw [Phase.reads_ticket has] at landed
    have code := landed (ticket.began, ticket.codePush) (by simp [Ticket.reads])
    have extra := landed (ticket.resolved, ticket.extraPush) (by simp [Ticket.reads])
    exact ⟨by rw [stateAt_concat code, stateAt_concat extra]; exact tree, since⟩
  cases phase with
  | code tree codePush began =>
    have code := landed (began, codePush) (by simp [Phase.reads])
    rw [Phase.Resolved, stateAt_concat code]
    exact resolved
  | _ => exact later

end Phase

section Moves

variable {rules : IgnoreRules Leaf} {job : Job} {run : Nat} {pushes : List (Push Leaf)}
  {clock : Nat} {view after : View Leaf}

/-- A step reads at most once, and it reads what the stream is then. -/
theorem Moves.reads (moved : Moves rules job run pushes clock view after) :
    ∀ read ∈ after.phase.reads, read ∈ view.phase.reads ∨ read = (clock, pushes.length) := by
  -- Two steps read, one ref each, and every other step keeps or drops the reads.
  cases moved with
  | stop _ _ ended settled => simp [Phase.reads_ended ended settled]
  | readFails _ _ ended settled | cleanFails _ _ ended settled => simp [Phase.reads_ended ended settled]
  | recordLost ended settled => simp [Phase.reads_ended ended settled]
  | code => intro read listed; exact .inr (List.mem_singleton.mp listed)
  | extra =>
    intro read listed
    rcases List.mem_cons.mp listed with rfl | second
    · exact .inl (List.mem_singleton.mpr rfl)
    · exact .inr (List.mem_singleton.mp second)
  | acquire | read | clean | record => exact fun read listed => .inl listed

/-- A step resolves a tree from what the run has read and what the stream is then. -/
theorem Moves.resolved (moved : Moves rules job run pushes clock view after)
    (past : ∀ read ∈ view.phase.reads, read.1 < clock)
    (resolved : view.phase.Resolved pushes) :
    after.phase.Resolved pushes := by
  -- The tree is put together when the second ref is read.
  cases moved with
  | stop _ _ ended settled => exact Phase.resolved_ended ended settled
  | readFails _ _ ended settled | cleanFails _ _ ended settled =>
    exact Phase.resolved_ended ended settled
  | recordLost ended settled => exact Phase.resolved_ended ended settled
  | code found => exact found
  | extra =>
    intro ticket has
    cases has
    exact ⟨⟨_, resolved, rfl⟩, past _ (List.mem_singleton.mpr rfl)⟩
  | acquire | read | clean | record => exact resolved

end Moves

section System

variable {rules : IgnoreRules Leaf} {jobs : Nat → Job} {start : Bytes → Worktree Leaf}
  {system after : System Leaf} {event : Event Leaf} {events : List (Event Leaf)}

/-- What is read later is not older. -/
structure System.Timely (jobs : Nat → Job) (system : System Leaf) : Prop where
  /-- Every read lies in the past, of the clock and of the stream. -/
  past : ∀ run, ∀ read ∈ (system.phase run).reads,
    read.1 < system.clock ∧ read.2 ≤ (system.pushes (jobs run).stream).length
  /-- A read of a stream that is not before another one sees at least its pushes. -/
  ordered : ∀ run other, (jobs run).stream = (jobs other).stream →
    ∀ first ∈ (system.phase run).reads, ∀ second ∈ (system.phase other).reads,
      first.1 ≤ second.1 → first.2 ≤ second.2
  resolved : ∀ run,
    (system.phase run).Resolved (system.pushes (jobs run).stream)

/-- A push leaves the reads before it in the past. -/
theorem System.Timely.push {Leaf : Type} {system : System Leaf} (timely : system.Timely jobs)
    (stream : StreamId) (state : Push Leaf) :
    System.Timely jobs { system with
      pushes := Function.update system.pushes stream (system.pushes stream ++ [state])
      clock := system.clock + 1 } := by
  -- The push adds to one stream and to the clock, and no run moves.
  refine ⟨fun run read done => ?_, timely.ordered, fun run => ?_⟩
  · obtain ⟨before, landed⟩ := timely.past run read done
    refine ⟨Nat.lt_succ_of_lt before, ?_⟩
    by_cases same : (jobs run).stream = stream
    · subst same
      simpa using Nat.le_succ_of_le landed
    · simpa [same] using landed
  · by_cases same : (jobs run).stream = stream
    · subst same
      simp only [Function.update_self]
      exact (timely.resolved run).push (fun read done => (timely.past run read done).2) state
    · simpa [same] using timely.resolved run

/-- One step keeps every later read from being older. -/
theorem step_timely (timely : system.Timely jobs)
    (stepped : step rules jobs system event = some after) : after.Timely jobs := by
  rcases step_cases stepped with ⟨stream, state, rfl⟩ | ⟨run, view, moved, rfl⟩
  · exact timely.push stream state
  -- A read is one from before, or the newest: it happens now, and sees all pushes there are.
  have news : ∀ other, ∀ read ∈ ((system.show (jobs run) run view).phase other).reads,
      read ∈ (system.phase other).reads ∨
        read = (system.clock, (system.pushes (jobs other).stream).length) := by
    intro other read done
    by_cases same : other = run
    · subst same
      simp only [System.show, Function.update_self] at done
      exact moved.reads read done
    · simp only [System.show, Function.update_of_ne same] at done
      exact .inl done
  refine ⟨fun other read done => ?_, fun one other same first earlier second later inOrder => ?_,
    fun other => ?_⟩
  · rcases news other read done with old | rfl
    · obtain ⟨before, landed⟩ := timely.past other read old
      exact ⟨Nat.lt_succ_of_lt before, landed⟩
    · exact ⟨Nat.lt_succ_self _, Nat.le_refl _⟩
  · rcases news one first earlier with old | rfl <;> rcases news other second later with prior | rfl
    · exact timely.ordered one other same first old second prior inOrder
    · exact same ▸ (timely.past one first old).2
    · exact absurd (timely.past other second prior).1 (Nat.not_lt.mpr inOrder)
    · exact Nat.le_of_eq (by rw [same])
  · by_cases same : other = run
    · subst same
      simp only [System.show, Function.update_self]
      exact moved.resolved (fun read done => (timely.past other read done).1) (timely.resolved other)
    · simp only [System.show, Function.update_of_ne same]
      exact timely.resolved other

/-- In every execution what is read later is not older. -/
theorem execute_timely (ran : execute rules jobs (.initial start) events = some system) :
    system.Timely jobs := by
  -- Nothing has been read before the first event.
  refine Folds.foldlM_keeps (fun before event after => step_timely) ⟨?_, ?_, ?_⟩ ran
  · simp [System.initial, Phase.reads, Phase.ticket]
  · simp [System.initial, Phase.reads, Phase.ticket]
  · intro run ticket has
    cases has

/--
Two returns of one stream are in the order of what their runs had resolved.

A read that is not before a read of the other run sees at least as many pushes.
-/
theorem execute_ordered (ran : execute rules jobs (.initial start) events = some system)
    {one other : Return Leaf} (here : one ∈ system.log) (there : other ∈ system.log)
    (same : one.job.stream = other.job.stream) :
    ∀ first ∈ one.ticket.reads, ∀ second ∈ other.ticket.reads,
      first.1 ≤ second.1 → first.2 ≤ second.2 := by
  -- A run that returned keeps its reads, so both returns can be compared at the end.
  obtain ⟨-, logged⟩ := execute_serialized ran
  obtain ⟨asked, report, done, -⟩ := logged one here
  obtain ⟨asked', report', done', -⟩ := logged other there
  have ordered := (execute_timely ran).ordered one.run other.run (by rw [← asked, ← asked', same])
  rw [done, done'] at ordered
  exact ordered

/-- A run that returned is one sequential update of a worktree, with the refs as it read them. -/
theorem execute_update (ran : execute rules jobs (.initial start) events = some system)
    {ret : Return Leaf} (listed : ret ∈ system.log) :
    ∃ before after around report, Serial rules (start ret.job.worktree) before ∧
      around.code = (stateAt (system.pushes ret.job.stream) ret.ticket.codePush).code ∧
      around.extra = (stateAt (system.pushes ret.job.stream) ret.ticket.extraPush).extra ∧
      updateWorktree rules ret.job.stream ret.job.worktree around before = (.ok report, after) ∧
      report.tree = ret.ticket.tree ∧ after.files = ret.files := by
  -- Under the lock the checkout is a sequential one, and what is resolved are the refs as read.
  obtain ⟨-, logged⟩ := execute_serialized ran
  obtain ⟨asked, report, done, before, after, steps, unchanged, serial, whole, told, files⟩ :=
    logged ret listed
  have resolved := (execute_timely ran).resolved ret.run
  rw [done, ← asked] at resolved
  obtain ⟨code, found, tree⟩ := (resolved.ticket rfl).tree
  refine ⟨before, after, ⟨[], true, _, _, .sound, true, .ok (), steps⟩, report, serial, rfl, rfl, ?_,
    by rw [told], files⟩
  simp only [updateWorktree, found, resolveTree_sound, ← tree, whole, told, Bool.not_true,
    Bool.false_eq_true, if_false]

/-- A run resolved the state its stream had after one push. -/
def Ticket.At (ticket : Ticket Leaf) (push : Nat) : Prop :=
  ticket.codePush = push ∧ ticket.extraPush = push

/-- No return is followed by one that leaves the same worktree at an earlier push. -/
def NeverBack (log : List (Return Leaf)) : Prop :=
  log.Pairwise fun earlier later => earlier.job.stream = later.job.stream →
    earlier.job.worktree = later.job.worktree → ∀ push back,
    earlier.ticket.At push → later.ticket.At back → push ≤ back

/-- A return leaves exactly the tree its run had resolved, and beside it what `clean` spared. -/
structure Return.Faithful (rules : IgnoreRules Leaf) (start : Worktree Leaf)
    (pushes : List (Push Leaf)) (ret : Return Leaf) : Prop where
  resolved : ∃ code, (stateAt pushes ret.ticket.codePush).code = some code ∧
    ret.ticket.tree = combined code (stateAt pushes ret.ticket.extraPush).extra
  landed : ret.ticket.codePush ≤ ret.ticket.extraPush ∧ ret.ticket.extraPush ≤ pushes.length
  present : ∀ path leaf, ret.ticket.tree.get path = some leaf → ret.files.get path = some leaf
  beside : ∃ before, Serial rules start before ∧
    OnlySpared rules ret.ticket.tree before ret.files

/-- In every execution a return leaves exactly the tree its run had resolved. -/
theorem execute_faithful (ran : execute rules jobs (.initial start) events = some system)
    {ret : Return Leaf} (listed : ret ∈ system.log) :
    ret.Faithful rules (start ret.job.worktree) (system.pushes ret.job.stream) := by
  -- The return is one whole checkout, and a checkout leaves the tree and what `clean` spares.
  obtain ⟨-, logged⟩ := execute_serialized ran
  obtain ⟨asked, report, done, before, after, steps, unchanged, serial, whole, -, files⟩ :=
    logged ret listed
  have timely := execute_timely ran
  have resolved := timely.resolved ret.run
  have landed := (timely.past ret.run (ret.ticket.resolved, ret.ticket.extraPush)
    (by rw [done]; exact List.mem_cons_of_mem _ List.mem_cons_self)).2
  rw [done, ← asked] at resolved
  rw [← asked] at landed
  have updated := (checkOut_ok whole).1
  have since := Nat.le_of_lt (resolved.ticket rfl).since
  refine ⟨(resolved.ticket rfl).tree, ⟨?_, landed⟩, fun path leaf held => ?_,
    before, serial, files ▸ updated.onlySpared⟩
  · exact execute_ordered ran listed listed rfl (ret.ticket.began, ret.ticket.codePush)
      List.mem_cons_self (ret.ticket.resolved, ret.ticket.extraPush)
      (List.mem_cons_of_mem _ List.mem_cons_self) since
  · rw [← files, updated.files, held]

end System

/-- A job that waits for its lock. -/
def waiting : Job :=
  ⟨⟨ofText "s", by decide, by decide, by decide⟩, ofText "/w", .wait none⟩

/-- A push of one file. -/
def pushOf (content : Nat) : Push Nat :=
  ⟨some ⟨[([ofText "x"], content)], by simp⟩, none⟩

/-- The first run resolves, and then a push and a whole second run come before its checkout. -/
def overtaking : List (Event Nat) :=
  [.push waiting.stream (pushOf 1), .act 0 (.resolveCode .sound), .act 0 (.resolveExtra .sound),
    .push waiting.stream (pushOf 2), .act 1 (.resolveCode .sound), .act 1 (.resolveExtra .sound),
    .act 1 .acquire, .act 1 (.readTree .done), .act 1 (.clean .done), .act 1 (.record .written),
    .act 0 .acquire, .act 0 (.readTree .done), .act 0 (.clean .done), .act 0 (.record .written)]

end GitFullSend

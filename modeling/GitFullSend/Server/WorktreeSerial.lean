import GitFullSend.Server.WorktreeRace

/-! Under the lock, concurrent updates of a worktree are whole checkouts one after the other. -/

namespace GitFullSend

open Utf8 (Bytes)

variable {Leaf : Type} [DecidableEq Leaf]

/-- What comes of a worktree by whole checkouts, done or failed, one after the other. -/
inductive Serial (rules : IgnoreRules Leaf) (start : Worktree Leaf) : Worktree Leaf → Prop where
  | start : Serial rules start start
  | checkOut {before : Worktree Leaf} (steps : GitSteps) (tree : Tree Leaf) :
      Serial rules start before → Serial rules start (checkOut rules steps tree before).2

/-- What a run that holds the lock has made so far of the worktree it found. -/
def Phase.Under (rules : IgnoreRules Leaf) (before now : Worktree Leaf) : Phase Leaf → Prop
  | .holding ticket unchanged => unchanged = treeUnchanged ticket.tree before ∧ now = before
  | .checkedOut ticket unchanged =>
    unchanged = treeUnchanged ticket.tree before ∧ now = (readTree .done ticket.tree before).2
  | .swept ticket unchanged =>
    unchanged = treeUnchanged ticket.tree before ∧
      now = (clean rules .done (readTree .done ticket.tree before).2).2
  | _ => False

/-- A run that is over holds no lock. -/
private theorem Phase.holds_of_ended {Leaf : Type} {phase : Phase Leaf}
    (ended : phase.active = false) : phase.holds = false := by
  cases phase <;> first | rfl | cases ended

/-- A run that has done something under the lock holds it. -/
theorem Phase.Under.holds {rules : IgnoreRules Leaf} {before now : Worktree Leaf}
    {phase : Phase Leaf} (under : phase.Under rules before now) : phase.holds = true := by
  cases phase <;> first | rfl | cases under

/-- A run that lets go of its lock leaves it free, and no other run held it. -/
theorem released {Leaf : Type} {holder : Option Nat} {run : Nat} {phase : Phase Leaf}
    (held : holder = some run) (outside : phase.holds = false) :
    ((none : Option Nat) = some run ↔ phase.holds = true) ∧
      ∀ other, other ≠ run → ((none : Option Nat) = some other ↔ holder = some other) := by
  subst held
  exact ⟨by simp [outside], fun other different => by simp [different.symm]⟩

section Moves

variable {rules : IgnoreRules Leaf} {job : Job} {run : Nat} {pushes : List (Push Leaf)}
  {clock : Nat} {view after : View Leaf} {start before : Worktree Leaf}

/-- A run that does not hold the lock leaves the worktree alone. -/
theorem Moves.frame (moved : Moves rules job run pushes clock view after)
    (outside : view.phase.holds = false) : after.worktree = view.worktree := by
  -- The worktree changes in the steps under the lock, and a run in any of these holds it.
  cases moved with
  | stop | code | extra | acquire => rfl
  | read | readFails | clean | cleanFails | record | recordLost => cases outside

/-- The lock stays with the run that holds it until that run is over, and no run takes it away. -/
theorem Moves.holder (moved : Moves rules job run pushes clock view after)
    (locked : view.holder = some run ↔ view.phase.holds = true) :
    (after.holder = some run ↔ after.phase.holds = true) ∧
      ∀ other, other ≠ run → (after.holder = some other ↔ view.holder = some other) := by
  -- A run takes a free lock for itself, and gives up no lock but its own.
  cases moved with
  | stop _ outside ended =>
    refine ⟨?_, fun other different => Iff.rfl⟩
    rw [Phase.holds_of_ended ended, ← outside]
    exact locked
  | code | extra | read | clean => exact ⟨locked, fun other different => Iff.rfl⟩
  | acquire => exact ⟨by simp [Phase.holds], fun other different => by simp [different.symm]⟩
  | readFails _ _ ended | cleanFails _ _ ended =>
    exact released (locked.mpr rfl) (Phase.holds_of_ended ended)
  | record => exact released (locked.mpr rfl) rfl
  | recordLost ended => exact released (locked.mpr rfl) (Phase.holds_of_ended ended)

/-- A run that gets the lock finds it free, and has done nothing to the worktree yet. -/
theorem Moves.takes (moved : Moves rules job run pushes clock view after)
    (outside : view.phase.holds = false) (inside : after.phase.holds = true) :
    view.holder = none ∧ after.phase.Under rules view.worktree after.worktree := by
  -- The lock is taken in one step, which reads the last record and touches nothing.
  cases moved with
  | stop _ _ ended => rw [Phase.holds_of_ended ended] at inside; cases inside
  | code | extra => cases inside
  | acquire => exact ⟨rfl, rfl, rfl⟩
  | read | readFails | clean | cleanFails | record | recordLost => cases outside

/-- A run that goes on under the lock goes on with what it found there. -/
theorem Moves.goes (moved : Moves rules job run pushes clock view after)
    (inside : after.phase.holds = true) (under : view.phase.Under rules before view.worktree) :
    after.phase.Under rules before after.worktree := by
  -- Two steps stay under the lock, and each makes one more step of the checkout.
  cases moved with
  | stop _ _ ended => rw [Phase.holds_of_ended ended] at inside; cases inside
  | code | extra | record => cases inside
  | acquire => cases under
  | read =>
    obtain ⟨unchanged, rfl⟩ := under
    exact ⟨unchanged, rfl⟩
  | clean =>
    obtain ⟨unchanged, rfl⟩ := under
    exact ⟨unchanged, rfl⟩
  | readFails _ _ ended | cleanFails _ _ ended =>
    rw [Phase.holds_of_ended ended] at inside; cases inside
  | recordLost ended => rw [Phase.holds_of_ended ended] at inside; cases inside

/-- A run that lets go of the lock has done one whole checkout, or a failed one. -/
theorem Moves.lets (moved : Moves rules job run pushes clock view after)
    (outside : after.phase.holds = false) (under : view.phase.Under rules before view.worktree) :
    ∃ steps tree, after.worktree = (checkOut rules steps tree before).2 := by
  -- Each way out of the lock is a checkout whose steps ended in some way.
  cases moved with
  | stop _ inside => rw [under.holds] at inside; cases inside
  | code | extra | acquire => cases under
  | read | clean => cases outside
  | @readFails outcome ticket _ _ _ _ _ failed =>
    obtain ⟨-, rfl⟩ := under
    refine ⟨⟨outcome, .done, .kept⟩, ticket.tree, ?_⟩
    cases outcome with
    | done => cases failed
    | notSpawned | failed touched => rfl
  | @cleanFails outcome ticket _ _ _ _ _ failed =>
    obtain ⟨-, rfl⟩ := under
    refine ⟨⟨.done, outcome, .kept⟩, ticket.tree, ?_⟩
    cases outcome with
    | done => cases failed
    | notSpawned | failed touched => rfl
  | @record ticket _ _ _ outcome =>
    obtain ⟨-, rfl⟩ := under
    exact ⟨⟨.done, .done, outcome⟩, ticket.tree, rfl⟩
  | @recordLost ticket =>
    obtain ⟨-, rfl⟩ := under
    exact ⟨⟨.done, .done, .kept⟩, ticket.tree, rfl⟩

end Moves

/-- A return is one sequential checkout of the tree the run had resolved. -/
def Return.Whole (rules : IgnoreRules Leaf) (start : Worktree Leaf) (ret : Return Leaf)
    (report : Report Leaf) : Prop :=
  ∃ before after steps unchanged, Serial rules start before ∧
    checkOut rules steps ret.ticket.tree before = (.ok unchanged, after) ∧
    report = ⟨ret.job.stream, ret.job.worktree, ret.ticket.tree, unchanged⟩ ∧
    after.files = ret.files

/-- The last step of a run is taken under the lock, and returns from one whole checkout. -/
theorem Moves.returned {rules : IgnoreRules Leaf} {job : Job} {run : Nat}
    {pushes : List (Push Leaf)} {clock : Nat} {view after : View Leaf} {start : Worktree Leaf}
    (moved : Moves rules job run pushes clock view after) {ticket : Ticket Leaf}
    {report : Report Leaf} (done : after.phase = .returned ticket report) :
    view.phase.holds = true ∧ ∀ before, Serial rules start before →
      view.phase.Under rules before view.worktree →
      Return.Whole rules start ⟨run, job, ticket, after.worktree.files⟩ report := by
  -- Only the last step reports success.
  cases moved with
  | stop _ _ ended settled => subst done; cases settled
  | readFails _ _ ended settled | cleanFails _ _ ended settled => subst done; cases settled
  | recordLost ended settled => subst done; cases settled
  | code | extra | acquire | read | clean => cases done
  | record outcome =>
    cases done
    refine ⟨rfl, fun before serial under => ?_⟩
    obtain ⟨rfl, rfl⟩ := under
    exact ⟨before, _, ⟨.done, .done, outcome⟩, _, serial, rfl, rfl, rfl⟩

section System

variable {rules : IgnoreRules Leaf} {jobs : Nat → Job} {start : Bytes → Worktree Leaf}
  {system after : System Leaf} {event : Event Leaf} {events : List (Event Leaf)}

/-- The run that holds a worktree's lock is the one that runs under it, on that worktree. -/
def System.Locked (jobs : Nat → Job) (system : System Leaf) : Prop :=
  ∀ run worktree, system.holder worktree = some run ↔
    (jobs run).worktree = worktree ∧ (system.phase run).holds = true

/-- One step keeps the locks with the runs that hold them. -/
theorem step_locked (locked : system.Locked jobs)
    (stepped : step rules jobs system event = some after) : after.Locked jobs := by
  -- A run changes the lock of its own worktree, and its own phase.
  rcases step_cases stepped with ⟨stream, state, rfl⟩ | ⟨run, view, moved, rfl⟩
  · exact locked
  have own : system.holder (jobs run).worktree = some run ↔ (system.phase run).holds = true := by
    rw [locked run]; simp
  obtain ⟨self, others⟩ := moved.holder own
  intro other worktree
  simp only [System.show, Function.update_apply]
  by_cases here : worktree = (jobs run).worktree <;> by_cases same : other = run
  · subst here same
    simp [self]
  · rw [if_pos here, if_neg same, others other same, here]
    exact locked other _
  · subst same
    rw [if_neg here, if_pos rfl, locked other worktree]
    constructor <;> rintro ⟨rfl, -⟩ <;> exact absurd rfl here
  · rw [if_neg here, if_neg same]
    exact locked other worktree

/-- Every worktree is between two whole checkouts, or its holder is within one. -/
structure System.Serialized (rules : IgnoreRules Leaf) (jobs : Nat → Job)
    (start : Bytes → Worktree Leaf) (system : System Leaf) : Prop where
  locked : system.Locked jobs
  free : ∀ worktree, system.holder worktree = none →
    Serial rules (start worktree) (system.worktree worktree)
  held : ∀ run worktree, system.holder worktree = some run →
    ∃ before, Serial rules (start worktree) before ∧
      (system.phase run).Under rules before (system.worktree worktree)

/-- Under the lock a run has found a worktree that whole checkouts had left. -/
theorem System.Serialized.under (serialized : system.Serialized rules jobs start) {run : Nat}
    (inside : (system.phase run).holds = true) :
    ∃ before, Serial rules (start (jobs run).worktree) before ∧
      (system.phase run).Under rules before (system.worktree (jobs run).worktree) :=
  serialized.held run _ ((serialized.locked run _).mpr ⟨rfl, inside⟩)

/-- One step keeps the checkouts of every worktree apart. -/
theorem step_serialized (serialized : system.Serialized rules jobs start)
    (stepped : step rules jobs system event = some after) :
    after.Serialized rules jobs start := by
  -- Other worktrees are untouched; on its own the run takes, keeps or lets go of the lock.
  have locked := step_locked serialized.locked stepped
  rcases step_cases stepped with ⟨stream, state, rfl⟩ | ⟨run, view, moved, rfl⟩
  · exact ⟨locked, serialized.free, serialized.held⟩
  have own : (system.view (jobs run) run).holder = some run ↔
      (system.view (jobs run) run).phase.holds = true := by
    simp only [System.view, serialized.locked run, true_and]
  obtain ⟨self, others⟩ := moved.holder own
  refine ⟨locked, fun worktree free => ?_, fun other worktree held => ?_⟩
  · by_cases here : worktree = (jobs run).worktree
    · subst here
      simp only [System.show, Function.update_self] at free ⊢
      have outside : view.phase.holds = false := by
        rw [← Bool.not_eq_true, ← self, free]; simp
      cases inside : (system.phase run).holds with
      | true =>
        -- The run has let go of the lock.
        obtain ⟨before, serial, under⟩ := serialized.under inside
        obtain ⟨steps, tree, made⟩ := moved.lets outside under
        exact made ▸ serial.checkOut steps tree
      | false =>
        rw [moved.frame inside]
        refine serialized.free _ (Option.eq_none_iff_forall_ne_some.mpr fun other taken => ?_)
        by_cases same : other = run
        · exact absurd (own.mp (same ▸ taken)) (by simp [System.view, inside])
        · exact absurd ((others other same).mpr taken) (by simp [free])
    · simp only [System.show, Function.update_of_ne here] at free ⊢
      exact serialized.free worktree free
  · by_cases here : worktree = (jobs run).worktree
    · subst here
      simp only [System.show, Function.update_self] at held ⊢
      by_cases same : other = run
      · subst same
        rw [Function.update_self]
        have within := self.mp held
        cases inside : (system.phase other).holds with
        | true =>
          obtain ⟨before, serial, under⟩ := serialized.under inside
          exact ⟨before, serial, moved.goes within under⟩
        | false =>
          -- The run has got the lock, with the worktree as the last checkout left it.
          obtain ⟨free, under⟩ := moved.takes inside within
          exact ⟨_, serialized.free _ free, under⟩
      · rw [Function.update_of_ne same]
        have taken := (others other same).mp held
        have outside : (system.phase run).holds = false := by
          rw [← Bool.not_eq_true]
          intro inside
          exact same (Option.some.inj (taken.symm.trans (own.mpr inside)))
        rw [moved.frame outside]
        exact serialized.held other _ taken
    · simp only [System.show, Function.update_of_ne here] at held ⊢
      have different : other ≠ run := by
        intro same
        subst same
        exact here ((serialized.locked other worktree).mp held).1.symm
      rw [Function.update_of_ne different]
      exact serialized.held other worktree held

/-- Every logged return is one sequential checkout, and its run stays as it returned. -/
def System.Logged (rules : IgnoreRules Leaf) (jobs : Nat → Job) (start : Bytes → Worktree Leaf)
    (system : System Leaf) : Prop :=
  ∀ ret ∈ system.log, ret.job = jobs ret.run ∧
    ∃ report, system.phase ret.run = .returned ret.ticket report ∧
      ret.Whole rules (start ret.job.worktree) report

/-- One step keeps the log a list of whole checkouts. -/
theorem step_logged (serialized : system.Serialized rules jobs start)
    (logged : system.Logged rules jobs start)
    (stepped : step rules jobs system event = some after) : after.Logged rules jobs start := by
  -- A step adds at most the return of the run that moved.
  rcases step_cases stepped with ⟨stream, state, rfl⟩ | ⟨run, view, moved, rfl⟩
  · exact logged
  intro ret listed
  rcases List.mem_append.mp listed with earlier | new
  · -- A run that has returned has no steps left, so another one has moved.
    obtain ⟨asked, report, done, whole⟩ := logged ret earlier
    have different : ret.run ≠ run := by
      intro same
      have active : (system.phase run).active = true := moved.active
      rw [← same, done] at active
      cases active
    refine ⟨asked, report, ?_, whole⟩
    simp only [System.show, Function.update_of_ne different]
    exact done
  · unfold View.returns at new
    split at new
    · rename_i ticket report done
      obtain rfl := List.mem_singleton.mp new
      refine ⟨rfl, report, by simp [System.show, done], ?_⟩
      obtain ⟨inside, whole⟩ := moved.returned done
      obtain ⟨before, serial, under⟩ := serialized.under inside
      exact whole before serial under
    · cases new

/-- Every execution keeps the checkouts of every worktree apart, and logs whole checkouts. -/
theorem execute_serialized (ran : execute rules jobs (.initial start) events = some system) :
    system.Serialized rules jobs start ∧ system.Logged rules jobs start := by
  -- The two facts hold before the first event, and every event keeps both.
  have each : ∀ before event after,
      before.Serialized rules jobs start ∧ before.Logged rules jobs start →
      step rules jobs before event = some after →
      after.Serialized rules jobs start ∧ after.Logged rules jobs start :=
    fun before event after kept stepped =>
      ⟨step_serialized kept.1 stepped, step_logged kept.1 kept.2 stepped⟩
  have initial : (System.initial start).Serialized rules jobs start ∧
      (System.initial start).Logged rules jobs start := by
    refine ⟨⟨fun run worktree => ?_, fun worktree free => .start, ?_⟩, ?_⟩
    · simp [System.initial, Phase.holds]
    · simp [System.initial]
    · simp [System.Logged, System.initial]
  exact Folds.foldlM_keeps each initial ran

end System

end GitFullSend

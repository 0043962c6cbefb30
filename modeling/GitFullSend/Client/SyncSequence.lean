import GitFullSend.Client.SyncTruth

/-! Syncs that are run one after another push their own commits, wherever each of them stops. -/

namespace GitFullSend

variable {Commit : Type}

/-- The syncs are run one after another: once a later one has begun, an earlier one does no more. -/
def OneByOne (events : List (SyncEvent Commit)) : Prop :=
  (events.filterMap SyncEvent.run).Pairwise (· ≤ ·)

/-- What the refs name when the sync that moved them last has come this far. -/
def SyncPhase.Owns (tip : Chain → Option Commit) : SyncPhase Commit → Prop
  | .codeEncoded code | .parentRead code _ => tip .code = some code
  | .extraWritten encoded => tip .code = some encoded.code
  | .ready _ encoded | .pushing _ encoded _ | .pushed _ encoded =>
    ∀ chain, tip chain = some (encoded.tip chain)
  | _ => True

/-- This sync was the last to move the refs, and no later one has begun. -/
structure SyncState.Alone (state : SyncState Commit) (run : Nat) : Prop where
  owns : (state.phase run).Owns state.tip
  later : ∀ other, run < other → state.phase other = .start

section Alone

variable {parents : Commit → List Commit} {state after : SyncState Commit} {run : Nat}
  {action : SyncAction Commit}

/-- A step of a sync leaves the phases of the others alone. -/
theorem SyncMoves.others (moved : SyncMoves parents state run action after) {other : Nat}
    (different : other ≠ run) : after.phase other = state.phase other := by
  cases moved <;> exact Function.update_of_ne different ..

/-- A step of the last sync leaves it the last. -/
theorem SyncMoves.alone (alone : state.Alone run)
    (moved : SyncMoves parents state run action after) : after.Alone run := by
  have owns := alone.owns
  have untouched : ∀ other, run < other → after.phase other = .start :=
    fun other later => (moved.others (Nat.ne_of_gt later)).trans (alone.later other later)
  refine ⟨?_, untouched⟩
  -- The two scratch refs are moved to what was just encoded, and then only read.
  cases moved with
  | writeCode | stop => simp [SyncState.enter, SyncPhase.Owns]
  | codeRef => simp [SyncState.enter, SyncState.updateRef, SyncPhase.Owns]
  | readParent found =>
    rw [found] at owns
    simpa [SyncState.enter, SyncPhase.Owns] using owns
  | writeExtra found =>
    rw [found] at owns
    simpa [SyncState.enter, SyncPhase.Owns] using owns
  | extraRef found =>
    rw [found] at owns
    simp only [SyncState.enter, Function.update_self]
    intro chain
    cases chain with
    | code => exact owns
    | extra => simp [SyncState.updateRef, Encoded.tip]
  | push found | report found =>
    rw [found] at owns
    simpa [SyncState.enter, SyncPhase.Owns] using owns
  | @retain chain encoded found =>
    rw [found] at owns
    simp only [SyncState.enter, Function.update_self]
    cases chain with
    | code => exact owns
    | extra => trivial

variable [DecidableEq Commit] {events : List (SyncEvent Commit)}

/-- Among syncs run one after another, one that no later sync follows yet is the last. -/
theorem executeSyncs_alone (ran : executeSyncs parents events = some state)
    (ordered : OneByOne events)
    (latest : ∀ acting ∈ events.filterMap SyncEvent.run, acting ≤ run) : state.Alone run := by
  -- The induction is from the end: the last event is a step of this sync, or of an earlier one.
  induction events using List.reverseRecOn generalizing state run with
  | nil =>
    cases ran
    exact ⟨trivial, fun other later => rfl⟩
  | append_singleton events event ih =>
    obtain ⟨middle, earlier, stepped⟩ := Folds.foldlM_concat.mp ran
    rw [OneByOne, List.filterMap_append, List.pairwise_append] at ordered
    rw [List.filterMap_append] at latest
    obtain ⟨inOrder, -, before⟩ := ordered
    cases event with
    | land chain commit =>
      have alone := ih earlier inOrder fun acting listed =>
        latest acting (List.mem_append_left _ listed)
      obtain ⟨-, rfl⟩ := SyncState.land_ok stepped
      exact ⟨alone.owns, alone.later⟩
    | act acting action =>
      have moved := SyncState.act_moves stepped
      have alone := ih earlier inOrder fun other listed =>
        before other listed acting (List.mem_singleton.mpr rfl)
      have bound : acting ≤ run :=
        latest acting (List.mem_append_right _ (List.mem_singleton.mpr rfl))
      rcases Nat.eq_or_lt_of_le bound with rfl | fresh
      · exact moved.alone alone
      · -- The later sync has not begun, and owns nothing.
        have untouched : ∀ other, acting < other → state.phase other = .start :=
          fun other later => (moved.others (Nat.ne_of_gt later)).trans (alone.later other later)
        refine ⟨?_, fun other later => untouched other (Nat.lt_trans fresh later)⟩
        rw [untouched run fresh]
        trivial

/-- Syncs run one after another push what they encoded themselves. -/
theorem OneByOne.pushesOwn (ordered : OneByOne events) :
    ∀ before event rest now, events = before ++ event :: rest →
      executeSyncs parents before = some now → now.PushesOwn event := by
  intro before event rest now split ran
  subst split
  rw [OneByOne, List.filterMap_append, List.pairwise_append] at ordered
  obtain ⟨inOrder, -, earlier⟩ := ordered
  cases event with
  | land => trivial
  | act run action =>
    cases action with
    | push =>
      -- Whoever acted before was this sync, or one that is over.
      have alone := executeSyncs_alone ran inOrder fun acting listed =>
        earlier acting listed run (by simp [SyncEvent.run])
      intro chain encoded found
      have owns := alone.owns
      rw [found] at owns
      exact owns chain
    | writeCode | updateRef | readParent | writeExtra | report | retain | stop => trivial

end Alone

section Reports

variable [DecidableEq Commit] {parents : Commit → List Commit} {state after : SyncState Commit}
  {event : SyncEvent Commit} {events : List (SyncEvent Commit)}

/-- A sync that is about to retain a tip was told that its push was successful. -/
def SyncState.Told (state : SyncState Commit) : Prop :=
  ∀ run chain encoded, state.phase run = .pushed chain encoded → (run, chain) ∈ state.reports

/-- One event keeps every tip that is to be retained a reported one. -/
theorem syncStep_told (told : state.Told) (stepped : syncStep parents state event = some after) :
    after.Told := by
  -- Only a report takes a sync there.
  cases event with
  | land chain commit =>
    obtain ⟨-, rfl⟩ := SyncState.land_ok stepped
    exact told
  | act run action =>
    have moved := SyncState.act_moves stepped
    intro other chain encoded pushed
    by_cases same : other = run
    · subst same
      cases moved with
      | report => simp_all [SyncState.enter]
      | @retain done =>
        cases done <;> simp [SyncState.enter, Encoded.next] at pushed
      | writeCode | codeRef | readParent | writeExtra | extraRef | push | stop =>
        simp [SyncState.enter] at pushed
    · rw [moved.others same] at pushed
      have before := told other chain encoded pushed
      cases moved <;> first | exact before | exact List.mem_cons_of_mem _ before

/-- In every execution a tip that is to be retained is a reported one. -/
theorem executeSyncs_told (ran : executeSyncs parents events = some state) : state.Told := by
  have initial : (SyncState.initial : SyncState Commit).Told :=
    fun run chain encoded pushed => (nomatch pushed)
  exact Folds.foldlM_keeps (fun before event after told stepped => syncStep_told told stepped)
    initial ran

/-- A pin is moved by a sync whose push of that chain was reported successful, and by no other. -/
theorem syncStep_sent (told : state.Told) (stepped : syncStep parents state event = some after)
    {chain : Chain} (moved : after.sent chain ≠ state.sent chain) :
    ∃ run, event = .act run .retain ∧ (run, chain) ∈ state.reports := by
  -- The one step that writes a pin is behind a report.
  cases event with
  | land other commit =>
    obtain ⟨-, rfl⟩ := SyncState.land_ok stepped
    exact absurd rfl moved
  | act run action =>
    cases SyncState.act_moves stepped with
    | @retain retained encoded found =>
      have same : chain = retained := by
        by_contra different
        exact moved (Function.update_of_ne different ..)
      subst same
      exact ⟨run, rfl, told run chain encoded found⟩
    | writeCode | codeRef | readParent | writeExtra | extraRef | push | report | stop =>
      exact absurd rfl moved

end Reports

/--
What holds at every point of syncs that are run one after another, wherever each of them stops.

Pins name commits the server accepted, new `extra` commits are built on such commits only, and
no event moves the pin of a chain but for a sync whose push of it was reported successful.
-/
theorem sequential_syncs_truthful [DecidableEq Commit] {parents : Commit → List Commit}
    {events : List (SyncEvent Commit)} {state : SyncState Commit}
    (ran : executeSyncs parents events = some state) (ordered : OneByOne events) :
    (∀ chain commit, state.sent chain = some commit → commit ∈ state.accepted chain) ∧
    (∀ extra ∈ state.extras,
      parents extra = [] ∨ ∃ parent ∈ state.accepted .extra, parents extra = [parent]) ∧
    ∀ event after, syncStep parents state event = some after →
      ∀ chain, after.sent chain ≠ state.sent chain →
        ∃ run, event = .act run .retain ∧ (run, chain) ∈ state.reports := by
  -- One after another, the syncs push their own commits, and that keeps the pins exact.
  have exact := executeSyncs_exact ran ordered.pushesOwn
  have told := executeSyncs_told ran
  exact ⟨exact.pinned, exact.parented,
    fun event after stepped chain moved => syncStep_sent told stepped moved⟩

/-- A sync whose `extra` push is applied and reported as failed, and a second one after it. -/
def ambiguousSyncs : List (SyncEvent Nat) :=
  [.act 0 (.writeCode (some 0) 1), .act 0 .updateRef, .act 0 .readParent, .act 0 (.writeExtra 2),
    .act 0 .updateRef, .act 0 .push, .land .code 1, .act 0 .report, .act 0 .retain,
    .act 0 .push, .land .extra 2, .act 0 .stop,
    .act 1 (.writeCode (some 0) 3), .act 1 .updateRef, .act 1 .readParent, .act 1 (.writeExtra 4),
    .act 1 .updateRef, .act 1 .push, .land .code 3, .act 1 .report, .act 1 .retain,
    .act 1 .push, .land .extra 4, .act 1 .report, .act 1 .retain]

/-- Their two `code` commits are parented on `HEAD`. -/
def ambiguousParents (commit : Nat) : List Nat := if commit = 1 ∨ commit = 3 then [0] else []

/-- After the two syncs the pin of the `extra` chain is a commit the server accepted. -/
theorem sequential_syncs_truthful_ambiguous : ∃ state : SyncState Nat,
    executeSyncs ambiguousParents ambiguousSyncs = some state ∧
    state.sent .extra = some 4 ∧ 4 ∈ state.accepted .extra :=
  ⟨_, rfl, rfl, (@sequential_syncs_truthful _ _ ambiguousParents ambiguousSyncs _ rfl
    (by unfold OneByOne; decide)).1 .extra 4 rfl⟩

end GitFullSend

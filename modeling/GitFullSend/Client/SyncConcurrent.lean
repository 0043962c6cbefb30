import GitFullSend.Client.SyncSequence

/-! Syncs that run at once, and the one thing that keeps their records truthful. -/

namespace GitFullSend

variable {Commit : Type}

/-- An accepted commit has been received. -/
theorem SyncState.received_of_accepted {parents : Commit → List Commit} {state : SyncState Commit}
    {chain : Chain} {commit : Commit} (accepted : commit ∈ state.accepted chain) :
    state.Received parents commit := ⟨chain, commit, accepted, .refl⟩

/-- The server has received no commit outside a closed set of what it accepted. -/
theorem SyncState.received_mem {parents : Commit → List Commit} {state : SyncState Commit}
    {known : Commit → Prop} (tips : ∀ chain, ∀ tip ∈ state.accepted chain, known tip)
    (closed : ∀ commit, known commit → ∀ parent ∈ parents commit, known parent) {commit : Commit}
    (received : state.Received parents commit) : known commit := by
  -- The induction is on the descent from an accepted commit.
  obtain ⟨chain, tip, accepted, descends⟩ := received
  induction descends with
  | refl => exact tips chain tip accepted
  | tail _ parent ih => exact closed _ ih _ parent

/-- Concurrent syncs are truthful while every push finds the ref naming its own sync's commit. -/
theorem concurrent_syncs_truthful [DecidableEq Commit] {parents : Commit → List Commit}
    {events : List (SyncEvent Commit)} {state : SyncState Commit}
    (ran : executeSyncs parents events = some state)
    (own : ∀ before event rest now, events = before ++ event :: rest →
      executeSyncs parents before = some now → now.PushesOwn event) :
    state.Truthful parents := by
  -- What the server accepted under a ref it has received.
  have exact := executeSyncs_exact ran own
  refine ⟨fun chain commit named => ?_, fun run summary returned chain => ?_,
    fun extra made parent listed => ?_⟩
  · exact SyncState.received_of_accepted (exact.pinned chain commit named)
  · have backed := exact.backed run
    rw [returned] at backed
    exact SyncState.received_of_accepted (backed chain)
  · rcases exact.parented extra made with rootless | ⟨only, accepted, listed'⟩
    · rw [rootless] at listed
      cases listed
    · rw [listed'] at listed
      exact List.mem_singleton.mp listed ▸ SyncState.received_of_accepted accepted

/-- The syncs of an ambiguous push leave truthful records, as each pushes its own commits. -/
theorem concurrent_syncs_truthful_ambiguous : ∃ state : SyncState Nat,
    executeSyncs ambiguousParents ambiguousSyncs = some state ∧ state.Truthful ambiguousParents :=
  ⟨_, rfl, @concurrent_syncs_truthful _ _ ambiguousParents ambiguousSyncs _ rfl
    (OneByOne.pushesOwn (by unfold OneByOne; decide))⟩

/-- Two syncs encode, the first one pushes and retains both chains, and a third one encodes. -/
def mixedUpSyncs : List (SyncEvent Nat) :=
  [.act 0 (.writeCode (some 0) 1), .act 0 .updateRef, .act 0 .readParent, .act 0 (.writeExtra 3),
    .act 0 .updateRef,
    .act 1 (.writeCode (some 0) 2), .act 1 .updateRef, .act 1 .readParent, .act 1 (.writeExtra 4),
    .act 1 .updateRef,
    .act 0 .push, .land .code 2, .act 0 .report, .act 0 .retain,
    .act 0 .push, .land .extra 4, .act 0 .report, .act 0 .retain,
    .act 2 (.writeCode (some 0) 5), .act 2 .updateRef, .act 2 .readParent, .act 2 (.writeExtra 6)]

/-- The `code` commits are parented on `HEAD`, and the last `extra` commit on the pin it found. -/
def mixedUpParents (commit : Nat) : List Nat :=
  if commit = 1 ∨ commit = 2 ∨ commit = 5 then [0] else if commit = 6 then [3] else []

/-- The server has received what the second sync encoded, and nothing of the others. -/
private theorem mixedUp_received {state : SyncState Nat}
    (ran : executeSyncs mixedUpParents mixedUpSyncs = some state) {commit : Nat}
    (received : state.Received mixedUpParents commit) : commit = 0 ∨ commit = 2 ∨ commit = 4 := by
  -- The three commits are closed under parents.
  cases ran
  refine @SyncState.received_mem _ mixedUpParents _ (fun commit => commit = 0 ∨ commit = 2 ∨
    commit = 4) ?_ ?_ commit received
  · intro chain tip accepted
    cases chain with
    | code => exact .inr (.inl (List.mem_singleton.mp accepted))
    | extra => exact .inr (.inr (List.mem_singleton.mp accepted))
  · rintro commit (rfl | rfl | rfl) parent listed
    · cases listed
    · exact .inl (List.mem_singleton.mp listed)
    · cases listed

/-- Both pins, both reported commits and a parent name commits the server never received. -/
theorem concurrent_syncs_mixed_up : ∃ (parents : Nat → List Nat) (events : List (SyncEvent Nat))
    (state : SyncState Nat), executeSyncs parents events = some state ∧
    (∀ chain, ∃ commit, state.sent chain = some commit ∧ ¬ state.Received parents commit) ∧
    (∃ run summary, state.phase run = .returned summary ∧
      ∀ chain, ¬ state.Received parents (summary.tip chain)) ∧
    ∃ extra ∈ state.extras, ∃ parent ∈ parents extra, ¬ state.Received parents parent := by
  -- The first sync goes by its own commits `1` and `3`, and has pushed `2` and `4`.
  refine ⟨mixedUpParents, mixedUpSyncs, _, rfl, fun chain => ?_, ⟨0, ⟨1, 3⟩, rfl, fun chain => ?_⟩,
    6, List.mem_cons_self, 3, List.mem_cons_self, fun received => ?_⟩
  · cases chain with
    | code => exact ⟨1, rfl, fun received => absurd (mixedUp_received rfl received) (by decide)⟩
    | extra => exact ⟨3, rfl, fun received => absurd (mixedUp_received rfl received) (by decide)⟩
  · intro received
    have known := mixedUp_received rfl received
    cases chain <;> exact absurd known (by decide)
  · exact absurd (mixedUp_received rfl received) (by decide)

end GitFullSend

import GitFullSend.Client.SyncRace

/-! Pins, parents and summaries are truthful while every push sends what its own sync encoded. -/

namespace GitFullSend

variable {Commit : Type}

section Truth

/-- The server has a commit when it accepted one that is, or descends from, this commit. -/
def SyncState.Received (parents : Commit → List Commit) (state : SyncState Commit)
    (commit : Commit) : Prop :=
  ∃ chain, ∃ tip ∈ state.accepted chain,
    Relation.ReflTransGen (fun child parent => parent ∈ parents child) tip commit

/-- Whatever is recorded, reported or built on as pushed has been received by the server. -/
structure SyncState.Truthful (parents : Commit → List Commit) (state : SyncState Commit) :
    Prop where
  pinned : ∀ chain commit, state.sent chain = some commit → state.Received parents commit
  returned : ∀ run summary, state.phase run = .returned summary →
    ∀ chain, state.Received parents (summary.tip chain)
  parented : ∀ extra ∈ state.extras, ∀ parent ∈ parents extra, state.Received parents parent

/-- A push that begins in this event finds the ref naming what its own sync encoded. -/
def SyncState.PushesOwn (state : SyncState Commit) : SyncEvent Commit → Prop
  | .act run .push => ∀ chain encoded, state.phase run = .ready chain encoded →
      state.tip chain = some (encoded.tip chain)
  | _ => True

/-- What the server must have accepted for a sync to be in this phase. -/
def SyncPhase.Backed (accepted : Chain → List Commit) : SyncPhase Commit → Prop
  | .parentRead _ parent => ∀ commit, parent = some commit → commit ∈ accepted .extra
  | .ready chain encoded => chain = .extra → encoded.code ∈ accepted .code
  | .pushing chain encoded sent =>
    sent = encoded.tip chain ∧ (chain = .extra → encoded.code ∈ accepted .code)
  | .pushed chain encoded =>
    encoded.tip chain ∈ accepted chain ∧ (chain = .extra → encoded.code ∈ accepted .code)
  | .returned summary => ∀ chain, summary.tip chain ∈ accepted chain
  | _ => True

/-- Pins, parents and phases go by what the server has accepted under the ref they are about. -/
structure SyncState.Exact (parents : Commit → List Commit) (state : SyncState Commit) : Prop where
  pinned : ∀ chain commit, state.sent chain = some commit → commit ∈ state.accepted chain
  parented : ∀ extra ∈ state.extras,
    parents extra = [] ∨ ∃ parent ∈ state.accepted .extra, parents extra = [parent]
  backed : ∀ run, (state.phase run).Backed state.accepted

end Truth

section Exact

variable {parents : Commit → List Commit} {state : SyncState Commit} {run : Nat}

/-- What backs a phase goes on doing so while the server accepts more. -/
theorem SyncPhase.Backed.mono {accepted more : Chain → List Commit} {phase : SyncPhase Commit}
    (backed : phase.Backed accepted) (grown : ∀ chain, accepted chain ⊆ more chain) :
    phase.Backed more := by
  -- Every phase asks for commits to be there, and they stay.
  cases phase with
  | start | codeWritten | codeEncoded | extraWritten | stopped => trivial
  | parentRead code parent => exact fun commit read => grown _ (backed commit read)
  | ready chain encoded => exact fun last => grown _ (backed last)
  | pushing chain encoded sent => exact ⟨backed.1, fun last => grown _ (backed.2 last)⟩
  | pushed chain encoded => exact ⟨grown _ backed.1, fun last => grown _ (backed.2 last)⟩
  | returned summary => exact fun chain => grown _ (backed chain)

/-- A sync may go over to a phase that is backed. -/
theorem SyncState.Exact.enter (exact : state.Exact parents) {phase : SyncPhase Commit}
    (backed : phase.Backed state.accepted) : (state.enter run phase).Exact parents := by
  -- No other phase changes.
  refine ⟨exact.pinned, exact.parented, fun other => ?_⟩
  by_cases same : other = run
  · subst same
    simpa [SyncState.enter] using backed
  · simpa [SyncState.enter, Function.update_of_ne same] using exact.backed other

/-- A sync that has pushed its own commits pins and reports nothing else. -/
theorem SyncPhase.Backed.next {accepted : Chain → List Commit} {chain : Chain}
    {encoded : Encoded Commit} (backed : (SyncPhase.pushed chain encoded).Backed accepted) :
    (encoded.next chain).Backed accepted := by
  -- The `extra` chain is pushed behind the `code` chain, and is the last.
  obtain ⟨landed, earlier⟩ := backed
  cases chain with
  | code => exact fun _ => landed
  | extra =>
    intro chain
    cases chain with
    | code => exact earlier rfl
    | extra => exact landed

variable {after : SyncState Commit}

/-- A step of a sync keeps everything exact, unless it begins to push another sync's commit. -/
private theorem SyncMoves.exact {action : SyncAction Commit} (exact : state.Exact parents)
    (own : state.PushesOwn (.act run action)) (moved : SyncMoves parents state run action after) :
    after.Exact parents := by
  have backed := exact.backed run
  -- Each phase brings what backs the next one; moving a scratch ref backs and breaks nothing.
  cases moved with
  | writeCode | stop => exact exact.enter trivial
  | @codeRef code =>
    have moved : (state.updateRef .code code).Exact parents := ⟨exact.1, exact.2, exact.3⟩
    exact moved.enter trivial
  | readParent => exact exact.enter (exact.pinned .extra)
  | @writeExtra code parent commit found formed =>
    rw [found] at backed
    have written : ({ state with extras := commit :: state.extras }).Exact parents := by
      refine ⟨exact.pinned, fun extra made => ?_, exact.backed⟩
      rcases List.mem_cons.mp made with rfl | earlier
      · -- The parent was a pin when it was read, and so the server had accepted it.
        cases parent with
        | none => exact .inl formed
        | some tip => exact .inr ⟨tip, backed tip rfl, formed⟩
      · exact exact.parented extra earlier
    exact written.enter trivial
  | @extraRef encoded =>
    have moved : (state.updateRef .extra encoded.extra).Exact parents :=
      ⟨exact.1, exact.2, exact.3⟩
    refine moved.enter ?_
    intro last
    cases last
  | @push chain encoded commit found named =>
    rw [found] at backed
    have begun : ({ state with flying := (chain, commit) :: state.flying }).Exact parents :=
      ⟨exact.1, exact.2, exact.3⟩
    have sent : commit = encoded.tip chain := Option.some.inj (named.symm.trans (own _ _ found))
    exact begun.enter ⟨sent, backed⟩
  | @report chain encoded sent found landed =>
    rw [found] at backed
    obtain ⟨rfl, earlier⟩ := backed
    have told : ({ state with reports := (run, chain) :: state.reports }).Exact parents :=
      ⟨exact.1, exact.2, exact.3⟩
    exact told.enter ⟨landed, earlier⟩
  | @retain chain encoded found =>
    rw [found] at backed
    have retained : (state.retainPushedTip chain (encoded.tip chain)).Exact parents := by
      refine ⟨fun other commit named => ?_, exact.parented, exact.backed⟩
      by_cases same : other = chain
      · subst same
        simp only [SyncState.retainPushedTip, Function.update_self, Option.some.injEq] at named
        exact named ▸ backed.1
      · simp only [SyncState.retainPushedTip, Function.update_of_ne same] at named
        exact exact.pinned other commit named
    exact retained.enter backed.next

variable [DecidableEq Commit] {event : SyncEvent Commit}

/-- What the server takes leaves everything exact. -/
private theorem SyncState.Exact.land (exact : state.Exact parents) {chain : Chain}
    {commit : Commit} (landed : state.land chain commit = some after) : after.Exact parents := by
  -- Only what is accepted changes, and that grows.
  obtain ⟨-, rfl⟩ := SyncState.land_ok landed
  have grown : ∀ other, state.accepted other ⊆
      Function.update state.accepted chain (commit :: state.accepted chain) other := by
    intro other
    by_cases same : other = chain
    · subst same
      simp
    · simp [Function.update_of_ne same]
  refine ⟨fun other pin named => grown _ (exact.pinned other pin named), fun extra made => ?_,
    fun other => (exact.backed other).mono grown⟩
  rcases exact.parented extra made with rootless | ⟨parent, accepted, only⟩
  · exact .inl rootless
  · exact .inr ⟨parent, grown _ accepted, only⟩

/-- One event keeps everything exact, unless a push begins that sends another sync's commit. -/
theorem syncStep_exact (exact : state.Exact parents) (own : state.PushesOwn event)
    (stepped : syncStep parents state event = some after) : after.Exact parents := by
  cases event with
  | act run action => exact (SyncState.act_moves stepped).exact exact own
  | land chain commit => exact exact.land stepped

/-- While every push sends what its own sync encoded, everything stays exact. -/
theorem executeSyncs_exact {events : List (SyncEvent Commit)}
    (ran : executeSyncs parents events = some state)
    (own : ∀ before event rest now, events = before ++ event :: rest →
      executeSyncs parents before = some now → now.PushesOwn event) : state.Exact parents := by
  -- Nothing is pinned, created or pushed before the first event.
  have initial : SyncState.initial.Exact parents :=
    ⟨fun chain commit named => (nomatch named), fun extra made => (nomatch made),
      fun run => trivial⟩
  exact Folds.foldlM_keeps_while (fun before event after kept allowed stepped =>
    syncStep_exact kept allowed stepped) initial own ran

end Exact

end GitFullSend

import GitFullSend.Lib.Lists
import GitFullSend.Server.AcceptLoop

/-! No permit is lost, no connection is dropped, and no handler outlives the accept loop. -/

namespace GitFullSend

variable {Sock : Type}

namespace AcceptLoop

/-- The handlers that are running. -/
def live (state : AcceptLoop Sock) : Nat := state.handlers.countP (·.stage = .running)

/-- The permits that are held, by the loop and by the handlers. -/
def held (state : AcceptLoop Sock) : Nat :=
  state.phase.permits + state.handlers.countP (·.stage.owns)

/-- What holds of the loop at any time. -/
structure Accounted (maxConnections : Nat) (state : AcceptLoop Sock) : Prop where
  /-- Every permit is held or free. -/
  permits : state.held + state.free = maxConnections
  /-- Every accepted connection is handed on, in the order of their coming. -/
  handed : state.accepted = state.handed ++ state.phase.unhanded
  /-- Every connection handed on has its own handler. -/
  spawned : state.handed = state.handlers.map Handler.sock ++ state.phase.unspawned
  /-- Behind the loop no handler is left. -/
  drained : state.phase.done = true → ∀ handler ∈ state.handlers, handler.stage = .joined

section Invariant

variable {maxConnections : Nat} {state after : AcceptLoop Sock}

/-- A loop that waits has handed on and spawned whatever it accepted. -/
private theorem waiting_facts {phase : LoopPhase Sock} (waiting : phase.waiting = true) :
    phase.unhanded = [] ∧ phase.unspawned = [] ∧ phase.done = false ∧ phase.stopped = false := by
  -- Each waiting phase holds no connection, and the loop is still open.
  cases phase <;> first | exact ⟨rfl, rfl, rfl, rfl⟩ | cases waiting

/-- A replaced handler has the same connection. -/
private theorem socks_set {handlers : List (Handler Sock)} {place : Nat} {found : Handler Sock}
    (located : handlers[place]? = some found) (stage : HandlerStage) :
    (handlers.set place ⟨found.sock, stage⟩).map Handler.sock = handlers.map Handler.sock := by
  -- Writing back the same connection changes no connection.
  obtain ⟨within, rfl⟩ := List.getElem?_eq_some_iff.mp located
  have inside : place < (handlers.map Handler.sock).length := by rwa [List.length_map]
  have unchanged := List.set_getElem_self inside
  rw [List.getElem_map] at unchanged
  rw [List.map_set, unchanged]

/-- A loop that starts is accounted for. -/
theorem Accounted.start (started : start maxConnections = some state) :
    Accounted maxConnections state := by
  -- All permits are free, and nothing was accepted yet.
  unfold AcceptLoop.start at started
  split at started
  · cases started
  · obtain rfl := Option.some.inj started
    exact ⟨Nat.zero_add _, rfl, rfl, nofun⟩

/-- A step keeps the loop accounted for. -/
theorem Accounted.step (accounted : state.Accounted maxConnections) (moved : state.Moves after) :
    after.Accounted maxConnections := by
  -- Each move passes permits and connections on, and loses neither.
  obtain ⟨permits, handed, spawned, drained⟩ := accounted
  unfold held at permits
  cases moved with
  | signal => exact ⟨permits, handed, spawned, drained⟩
  | waits here there same =>
    obtain ⟨unhanded, unspawned, -, -⟩ := waiting_facts here
    obtain ⟨unhanded', unspawned', running, -⟩ := waiting_facts there
    rw [unhanded] at handed
    rw [unspawned] at spawned
    refine ⟨?_, ?_, ?_, ?_⟩
    · simpa [held, enter, same] using permits
    · simpa [enter, unhanded'] using handed
    · simpa [enter, unspawned'] using spawned
    · simp [enter, running]
  | stops here =>
    obtain ⟨unhanded, unspawned, -, -⟩ := waiting_facts here
    rw [unhanded] at handed
    rw [unspawned] at spawned
    refine ⟨?_, handed, spawned, nofun⟩
    change 0 + state.handlers.countP _ + (state.free + state.phase.permits) = maxConnections
    omega
  | assigned phase free =>
    rw [phase] at permits handed spawned
    refine ⟨?_, handed, spawned, nofun⟩
    simp only [held, enter, LoopPhase.permits, Bool.toNat_false, Bool.toNat_true] at permits ⊢
    omega
  | accepts sock phase =>
    rw [phase] at permits handed spawned
    refine ⟨permits, ?_, spawned, nofun⟩
    simpa [enter, LoopPhase.unhanded] using handed
  | fails phase =>
    rw [phase] at permits handed spawned
    refine ⟨?_, handed, spawned, nofun⟩
    simp only [held, enter, give, LoopPhase.permits, Bool.toNat_false] at permits ⊢
    omega
  | handles phase =>
    rw [phase] at permits handed spawned
    refine ⟨permits, ?_, ?_, nofun⟩
    · simpa [enter, LoopPhase.unhanded] using handed
    · simpa [enter, LoopPhase.unspawned] using spawned
  | spawns phase =>
    -- The permit goes with the handler.
    rw [phase] at permits handed spawned
    refine ⟨?_, handed, ?_, nofun⟩
    · simp only [held, enter, LoopPhase.permits, List.countP_append, List.countP_singleton,
        HandlerStage.owns, Bool.toNat_false] at permits ⊢
      simp only [if_true]
      omega
    · simpa [enter, LoopPhase.unspawned] using spawned
  | @advances place found stage freed located present onward owned =>
    have counted := @Lists.countP_replaced _ (fun handler : Handler Sock => handler.stage.owns)
      _ _ _ ⟨found.sock, stage⟩ located
    refine ⟨?_, handed, ?_, ?_⟩
    · simp only [held, give] at permits counted ⊢
      omega
    · simpa only [give, socks_set located] using spawned
    · -- Behind the loop every handler is joined, and goes no further.
      intro done
      have joined := drained done found (List.mem_of_getElem? located)
      exact absurd joined present
  | returns phase ended =>
    rw [phase] at permits handed spawned
    exact ⟨permits, handed, spawned, fun _ => ended⟩
  | closes phase =>
    rw [phase] at permits handed spawned drained
    exact ⟨permits, handed, spawned, fun _ => drained rfl⟩

/-- Once the shutdown was seen, no connection is handed on and no handler is spawned. -/
structure Closing (before state : AcceptLoop Sock) : Prop where
  stopped : state.phase.stopped = true
  handed : state.handed = before.handed
  spawned : state.handlers.map Handler.sock = before.handlers.map Handler.sock

/-- A loop that has seen the shutdown goes on closing. -/
theorem Closing.step {before : AcceptLoop Sock} (closing : Closing before state)
    (moved : state.Moves after) : Closing before after := by
  -- Only the running loop hands on and spawns, and it has stopped running.
  obtain ⟨stopped, handed, spawned⟩ := closing
  cases moved with
  | signal => exact ⟨stopped, handed, spawned⟩
  | waits here there same | stops here =>
    rw [(waiting_facts here).2.2.2] at stopped
    cases stopped
  | assigned phase free => rw [phase] at stopped; cases stopped
  | accepts sock phase | fails phase | handles phase | spawns phase =>
    rw [phase] at stopped
    cases stopped
  | advances located present onward owned =>
    exact ⟨stopped, handed, (socks_set located _).trans spawned⟩
  | returns phase ended => exact ⟨rfl, handed, spawned⟩
  | closes phase => exact ⟨rfl, handed, spawned⟩

end Invariant

/-- Steps keep what every move keeps. -/
private theorem run_keeps {kept : AcceptLoop Sock → Prop}
    (each : ∀ state after, kept state → Moves state after → kept after)
    {actions : List (LoopAction Sock)} {state after : AcceptLoop Sock} (held : kept state)
    (ran : actions.foldlM act state = some after) : kept after :=
  Folds.foldlM_keeps (fun state _ after held taken => each state after held (act_moves taken))
    held ran

/--
However connections come, fail, are served, panic and are shut down, the loop keeps its cap.

Every permit is held or free, every accepted connection is handed on exactly once, and once the loop
has returned no handler runs, and none was started since it saw the shutdown.
-/
theorem execute_bounded {maxConnections : Nat} {actions : List (LoopAction Sock)}
    {state : AcceptLoop Sock} (ran : execute maxConnections actions = some state) :
    state.live ≤ maxConnections ∧
    state.held + state.free = maxConnections ∧
    state.accepted = state.handed ++ state.phase.unhanded ∧
    state.handed = state.handlers.map Handler.sock ++ state.phase.unspawned ∧
    (state.phase.done = true →
      state.handed = state.accepted ∧ ∀ handler ∈ state.handlers, handler.stage = .joined) ∧
    ∀ before after middle, actions = before ++ after →
      execute maxConnections before = some middle → middle.phase.stopped = true →
      state.handed = middle.handed ∧
        state.handlers.map Handler.sock = middle.handlers.map Handler.sock := by
  -- What a move keeps holds of the whole run, and of its end behind the shutdown.
  obtain ⟨first, started, ran⟩ := Option.bind_eq_some_iff.mp ran
  have accounted : state.Accounted maxConnections :=
    run_keeps (fun _ _ kept moved => kept.step moved) (.start started) ran
  have owners : state.live ≤ state.handlers.countP (·.stage.owns) := by
    apply List.countP_mono_left
    intro handler _ running
    have stage : handler.stage = .running := by simpa using running
    rw [stage]
    rfl
  refine ⟨?_, accounted.permits, accounted.handed, accounted.spawned, ?_, ?_⟩
  · have total := accounted.permits
    unfold held at total
    omega
  · intro done
    refine ⟨?_, accounted.drained done⟩
    have unhanded : state.phase.unhanded = [] := by
      cases phase : state.phase <;> simp [phase, LoopPhase.done, LoopPhase.unhanded] at done ⊢
    simpa [unhanded] using accounted.handed.symm
  · intro before after middle split reached stopped
    obtain ⟨first', started', reached⟩ := Option.bind_eq_some_iff.mp reached
    obtain rfl := Option.some.inj (started.symm.trans started')
    -- The rest of the run starts where the shutdown had been seen.
    rw [split] at ran
    obtain ⟨middle', reached', onward⟩ := Folds.foldlM_before ran
    obtain rfl := Option.some.inj (reached.symm.trans reached')
    have closing : Closing middle state :=
      run_keeps (fun _ _ kept moved => kept.step moved) ⟨stopped, rfl, rfl⟩ onward
    exact ⟨closing.handed, closing.spawned⟩

/-- A run with a failed accept, a panic, a handler that outlives the shutdown, and a full drain. -/
def panickingActions : List (LoopAction Nat) :=
  [.pollShutdown, .assign, .acquire, .pollShutdown, .acceptFails,
    .pollShutdown, .pend, .assign, .pollShutdown, .acquire, .pollShutdown, .accept 7, .handle,
    .spawn, .assign, .pollShutdown, .acquire, .pollShutdown, .accept 8, .handle, .spawn, .panics 0,
    .assign, .signal, .pollShutdown, .joinNext 0, .complete 1, .release 1, .joinNext 1, .finish]

/-- Two slots, one of which a panic freed, are both free again when the loop has returned. -/
theorem execute_bounded_panic :
    ∃ state : AcceptLoop Nat, execute 2 panickingActions = some state ∧
      state.phase = .returned ∧ state.handed = [7, 8] ∧ state.free = 2 ∧
      state.live ≤ 2 ∧ state.handed = state.accepted := by
  have bounded := @execute_bounded Nat 2 panickingActions _ rfl
  exact ⟨_, rfl, rfl, rfl, rfl, bounded.1, (bounded.2.2.2.2.1 rfl).1⟩

end AcceptLoop

end GitFullSend

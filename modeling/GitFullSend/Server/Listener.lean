import GitFullSend.Lib.Folds
import GitFullSend.Server.Receive

/-! Any number of push connections at once: where the values of the refs come from. -/

namespace GitFullSend

open Utf8 (Bytes ofText)
open Arrivals (delivered)

/-- A connection that a listener accepts, and the run of `receive-pack` there is for it. -/
structure Visitor where
  sock : Socket
  /-- What `receive-pack` does when it is spawned, unless it cannot be started. -/
  run : Option ReceivePack

/-- What handling the connection comes to. -/
def Visitor.handled (auth : Auth) (visit : Visitor) : Handled :=
  handleConnection auth visit.sock (visit.run.map ReceivePack.child)

namespace Listener

/-- How far the handler of a connection has come. -/
inductive Stage where
  | waiting
  /-- `receive-pack` runs, and its hook has not decided yet. -/
  | admitted (run : ReceivePack)
  /-- The hook has decided, and these updates are left to take effect or fail. -/
  | applying (run : ReceivePack) (left : List (RefUpdate × Bool))
  /-- The handler is done, with the record it made and whether that was appended to the sink. -/
  | closed (record : Option ReceiveRecord) (kept : Bool)

/-- The next thing that happens on a connection; appending its record is best-effort. -/
inductive Action where
  | gate (kept : Bool)
  | hook
  | update
  | finish (kept : Bool)

/-- The updates of a run that are left when its hook has decided. -/
def decided (run : ReceivePack) : List (RefUpdate × Bool) :=
  match run.progress with
  | .idle | .hooked _ => []
  | .through effects =>
    if (runHook run.file run.updates).status = 0 then run.updates.zip effects else []

/-- One step on a connection, or `none` when it is not the one that comes now. -/
def advance (auth : Auth) (visit : Visitor) (refs : Refs) : Stage → Action → Option (Stage × Refs)
  | .waiting, .gate kept =>
    match (visit.handled auth).spawned, visit.run with
    | true, some run => some (.admitted run, refs)
    -- A connection that is refused, or whose child cannot be started, is over at once.
    | _, _ => some (.closed (visit.handled auth).record kept, refs)
  | .admitted run, .hook => some (.applying run (decided run), refs)
  | .applying run ((update, effect) :: left), .update =>
    some (.applying run left, if effect then update.apply refs else refs)
  | .applying _ [], .finish kept => some (.closed (visit.handled auth).record kept, refs)
  | _, _ => none

end Listener

/-- A listener: the refs of its repository, its connections, and what was appended to its sink. -/
structure Listener where
  refs : Refs
  stage : Nat → Listener.Stage
  sink : List ReceiveRecord

namespace Listener

/-- Before the first connection. -/
def initial (refs : Refs) : Listener := ⟨refs, fun _ => .waiting, []⟩

/-- The record a connection adds to the sink when it is over, unless appending it fails. -/
def Stage.record : Stage → Option ReceiveRecord
  | .closed record true => record
  | _ => none

/-- One step on one of the connections. -/
def step (auth : Auth) (visits : Nat → Visitor) (listener : Listener) (event : Nat × Action) :
    Option Listener :=
  (advance auth (visits event.1) listener.refs (listener.stage event.1) event.2).map
    fun (stage, refs) => ⟨refs, Function.update listener.stage event.1 stage,
      listener.sink ++ stage.record.toList⟩

/-- Steps in their order. -/
def execute (auth : Auth) (visits : Nat → Visitor) (listener : Listener)
    (events : List (Nat × Action)) : Option Listener :=
  events.foldlM (step auth visits) listener

/-- A peer has got past the gate: where a secret is required, its stream opens with that secret. -/
def Presents : Auth → Bytes → Prop
  | .anonymous, _ => True
  | .token expected, stream => ∃ header payload rest, stream = header ++ payload ++ rest ∧
      header.length = 4 ∧ (payload = ofText authPktPrefix ++ ofText expected.text ∨
        payload = ofText authPktPrefix ++ ofText expected.text ++ [0x0A])

/-- What a step on a connection can do. -/
inductive Moves (auth : Auth) (visit : Visitor) (refs : Refs) : Stage → Stage → Refs → Prop where
  /-- It is refused, or its child cannot be started. -/
  | dismissed {kept} : Moves auth visit refs .waiting (.closed (visit.handled auth).record kept) refs
  | admitted {run} : (visit.handled auth).spawned = true → visit.run = some run →
      Moves auth visit refs .waiting (.admitted run) refs
  | hook {run} : Moves auth visit refs (.admitted run) (.applying run (decided run)) refs
  | update {run update effect left} :
      Moves auth visit refs (.applying run ((update, effect) :: left)) (.applying run left)
        (if effect then update.apply refs else refs)
  | finish {run kept} :
      Moves auth visit refs (.applying run []) (.closed (visit.handled auth).record kept) refs

section Advance

variable {auth : Auth} {visit : Visitor} {refs changed : Refs} {stage after : Stage}
  {action : Action}

/-- Every step on a connection is one of these moves. -/
theorem advance_moves (moved : advance auth visit refs stage action = some (after, changed)) :
    Moves auth visit refs stage after changed := by
  -- Each stage has one action that comes next.
  unfold advance at moved
  split at moved
  · split at moved
    · rename_i spawned present
      cases moved
      exact .admitted spawned present
    · cases moved
      exact .dismissed
  · cases moved
    exact .hook
  · cases moved
    exact .update
  · cases moved
    exact .finish
  · cases moved

/-- What a connection has come to is what its handler makes of it. -/
def Stage.Sound (auth : Auth) (visit : Visitor) : Stage → Prop
  | .waiting => True
  | .admitted run => (visit.handled auth).spawned = true ∧ visit.run = some run
  | .applying run left => (visit.handled auth).spawned = true ∧ visit.run = some run ∧
      ∀ update ∈ left, run.Accepts ∧ update.1 ∈ run.updates
  | .closed record _ => record = (visit.handled auth).record

/-- Updates are only left behind a hook that has accepted the push. -/
theorem decided_accepts {run : ReceivePack} {update : RefUpdate × Bool}
    (left : update ∈ decided run) : run.Accepts ∧ update.1 ∈ run.updates := by
  -- Of the ways a run can progress, only one gets past the hook.
  unfold decided at left
  split at left
  · cases left
  · cases left
  · rename_i effects through
    split at left
    · rename_i accepted
      exact ⟨⟨⟨effects, through⟩, accepted⟩, (List.of_mem_zip left).1⟩
    · cases left

/-- A step keeps a connection what its handler makes of it. -/
theorem Moves.sound (moved : Moves auth visit refs stage after changed)
    (sound : stage.Sound auth visit) : after.Sound auth visit := by
  -- Only the hook's step leaves updates behind, and applying one leaves fewer.
  cases moved with
  | dismissed => rfl
  | admitted spawned present => exact ⟨spawned, present⟩
  | hook => exact ⟨sound.1, sound.2, fun update => decided_accepts⟩
  | update =>
    exact ⟨sound.1, sound.2.1, fun update left => sound.2.2 update (List.mem_cons_of_mem _ left)⟩
  | finish => rfl

/-- The value a ref gets from an update, of which one with zeros only is none. -/
def value (update : RefUpdate) : Option Bytes :=
  if update.new.all (· = 0x30) then none else some update.new

/-- A step changes a ref only by an update of it. -/
theorem Moves.changes (moved : Moves auth visit refs stage after changed) (ref : Bytes) :
    changed ref = refs ref ∨ ∃ run update left,
      stage = .applying run ((update, true) :: left) ∧ after = .applying run left ∧
      update.ref = ref ∧ changed ref = value update := by
  -- No other step touches the refs, and an update without effect does not either.
  cases moved with
  | dismissed | admitted | hook | finish => exact .inl rfl
  | @update run update effect left =>
    cases effect with
    | false => exact .inl rfl
    | true =>
      by_cases about : update.ref = ref
      · refine .inr ⟨run, update, left, rfl, rfl, about, ?_⟩
        subst about
        exact Function.update_self _ _ _
      · exact .inl (Function.update_of_ne (Ne.symm about) _ _)

end Advance

/-- A connection whose handler has let some update take effect. -/
def Stage.Behind (auth : Auth) (visit : Visitor) (run : ReceivePack) (stage : Stage) : Prop :=
  (∃ left, stage = .applying run left) ∨ ∃ kept, stage = .closed (visit.handled auth).record kept

/-- An update that one of the connections brought, in a push that its hook has accepted. -/
structure Brought (auth : Auth) (visit : Visitor) (run : ReceivePack) (update : RefUpdate) :
    Prop where
  spawned : (visit.handled auth).spawned = true
  present : visit.run = some run
  accepts : run.Accepts
  update : update ∈ run.updates

/-- What can be said of a listener after any steps. -/
structure Traced (auth : Auth) (visits : Nat → Visitor) (start : Refs) (listener : Listener) :
    Prop where
  sound : ∀ visit, (listener.stage visit).Sound auth (visits visit)
  /-- The records in the sink are those that the connections that are over have appended. -/
  sink : ∀ record, record ∈ listener.sink ↔ ∃ visit, (listener.stage visit).record = some record
  /-- A ref has the value it started with, or one that a connection brought. -/
  refs : ∀ ref, listener.refs ref = start ref ∨ ∃ visit run update,
    Brought auth (visits visit) run update ∧ update.ref = ref ∧
      listener.refs ref = value update ∧ (listener.stage visit).Behind auth (visits visit) run

section System

variable {auth : Auth} {visits : Nat → Visitor} {start : Refs} {listener after : Listener}
  {event : Nat × Action} {events : List (Nat × Action)}

/-- A step moves one connection, and adds its record to the sink when it is over. -/
theorem step_cases (stepped : step auth visits listener event = some after) :
    ∃ stage, Moves auth (visits event.1) listener.refs (listener.stage event.1) stage after.refs ∧
      after.stage = Function.update listener.stage event.1 stage ∧
      after.sink = listener.sink ++ stage.record.toList := by
  obtain ⟨⟨stage, refs⟩, moved, rfl⟩ := Option.map_eq_some_iff.mp stepped
  exact ⟨stage, advance_moves moved, rfl, rfl⟩

/-- A connection that is over takes no more steps, and one that applies updates goes on. -/
theorem Moves.behind {visit : Visitor} {refs changed : Refs} {stage next : Stage}
    {run : ReceivePack}
    (moved : Moves auth visit refs stage next changed) (behind : stage.Behind auth visit run) :
    next.Behind auth visit run := by
  -- From applying updates the only way on is through them to the record.
  rcases behind with ⟨left, rfl⟩ | ⟨kept, rfl⟩
  · cases moved with
    | update => exact .inl ⟨_, rfl⟩
    | finish => exact .inr ⟨_, rfl⟩
  · cases moved

/-- No step starts from a stage that has its record. -/
theorem Moves.unrecorded {visit : Visitor} {refs changed : Refs} {stage next : Stage}
    (moved : Moves auth visit refs stage next changed) : stage.record = none := by
  cases moved <;> rfl

/-- One step keeps the refs and the records traced. -/
theorem step_traced (traced : Traced auth visits start listener)
    (stepped : step auth visits listener event = some after) :
    Traced auth visits start after := by
  -- The connection that moves is looked at apart from the others, which stay where they are.
  obtain ⟨next, moved, stages, sink⟩ := step_cases stepped
  obtain ⟨visit, action⟩ := event
  simp only at moved stages sink
  have other : ∀ place, place ≠ visit → after.stage place = listener.stage place := by
    intro place apart
    rw [stages, Function.update_of_ne apart]
  have own : after.stage visit = next := by rw [stages, Function.update_self]
  refine ⟨fun place => ?_, fun record => ?_, fun ref => ?_⟩
  · by_cases same : place = visit
    · subst same
      rw [own]
      exact moved.sound (traced.sound place)
    · rw [other place same]
      exact traced.sound place
  · rw [sink, List.mem_append, traced.sink, Option.mem_toList]
    constructor
    · rintro (⟨place, told⟩ | told)
      · -- A connection that has its record is not the one that moves.
        refine ⟨place, ?_⟩
        rw [other place ?_, told]
        rintro rfl
        rw [moved.unrecorded] at told
        cases told
      · exact ⟨visit, by rw [own, told]⟩
    · rintro ⟨place, told⟩
      by_cases same : place = visit
      · subst same
        exact .inr (own ▸ told)
      · exact .inl ⟨place, other place same ▸ told⟩
  · rcases moved.changes ref with kept | ⟨run, update, left, stage, rfl, about, changed⟩
    · rw [kept]
      refine (traced.refs ref).imp_right ?_
      rintro ⟨place, run, update, brought, about, value, behind⟩
      refine ⟨place, run, update, brought, about, value, ?_⟩
      by_cases same : place = visit
      · subst same
        rw [own]
        exact moved.behind behind
      · rw [other place same]
        exact behind
    · -- The update that changes the ref is one the hook had accepted.
      have sound := traced.sound visit
      rw [stage] at sound
      obtain ⟨spawned, present, accepted⟩ := sound
      obtain ⟨accepts, member⟩ := accepted _ List.mem_cons_self
      exact .inr ⟨visit, run, update, ⟨spawned, present, accepts, member⟩, about, changed,
        .inl ⟨left, own⟩⟩

/-- After any steps the refs and the records are traced. -/
theorem execute_traced (ran : execute auth visits (initial start) events = some listener) :
    Traced auth visits start listener := by
  -- At first no ref has changed, and no connection is over.
  refine Folds.foldlM_keeps (fun before event after => step_traced) ⟨?_, ?_, ?_⟩ ran
  · exact fun visit => trivial
  · intro record
    simp [initial, Stage.record]
  · exact fun ref => .inl rfl

end System

section Alone

variable {auth : Auth} {visits : Nat → Visitor} {visit : Nat} {run : ReceivePack}

/-- The updates that are left take effect or fail one by one. -/
theorem execute_updates {left : List (RefUpdate × Bool)} {refs : Refs} {stage : Nat → Stage}
    {sink : List ReceiveRecord} (applying : stage visit = .applying run left) :
    execute auth visits ⟨refs, stage, sink⟩ (List.replicate left.length (visit, .update)) =
      some ⟨left.foldl (fun refs update => if update.2 then update.1.apply refs else refs) refs,
        Function.update stage visit (.applying run []), sink⟩ := by
  -- The induction is on what is left.
  induction left generalizing refs stage with
  | nil =>
    rw [← applying, Function.update_eq_self]
    rfl
  | cons update left ih =>
    have later := @ih (if update.2 then update.1.apply refs else refs)
      (Function.update stage visit (.applying run left)) (Function.update_self _ _ _)
    rw [Function.update_idem] at later
    have stepped : step auth visits ⟨refs, stage, sink⟩ (visit, .update) =
        some ⟨if update.2 then update.1.apply refs else refs,
          Function.update stage visit (.applying run left), sink⟩ := by
      simp [step, applying, advance, Stage.record]
    rw [List.length_cons, List.replicate_succ, execute, List.foldlM_cons, stepped]
    exact later

/-- A connection that is handled on its own leaves the refs as its run of `receive-pack` does. -/
theorem execute_alone {listener : Listener} (waiting : listener.stage visit = .waiting)
    (spawned : ((visits visit).handled auth).spawned = true)
    (present : (visits visit).run = some run) (kept : Bool) :
    execute auth visits listener ((visit, .gate kept) :: (visit, .hook) ::
        (List.replicate (decided run).length (visit, .update) ++ [(visit, .finish kept)])) =
      some ⟨run.after listener.refs,
        Function.update listener.stage visit (.closed ((visits visit).handled auth).record kept),
        listener.sink ++ if kept then ((visits visit).handled auth).record.toList else []⟩ := by
  -- The gate, the hook and the updates are three parts of the run, each joined to the next.
  have applied : (decided run).foldl
      (fun refs update => if update.2 then update.1.apply refs else refs) listener.refs =
        run.after listener.refs := by
    unfold decided ReceivePack.after
    cases run.progress with
    | idle | hooked _ => rfl
    | through effects =>
      simp only
      split <;> rfl
  have gate : step auth visits listener (visit, .gate kept) = some ⟨listener.refs,
      Function.update listener.stage visit (.admitted run), listener.sink⟩ := by
    simp [step, waiting, advance, spawned, present, Stage.record]
  have hook : step auth visits ⟨listener.refs,
      Function.update listener.stage visit (.admitted run), listener.sink⟩ (visit, .hook) =
      some ⟨listener.refs, Function.update listener.stage visit (.applying run (decided run)),
        listener.sink⟩ := by
    simp [step, advance, Stage.record]
  have updates := @execute_updates auth visits visit run (decided run) listener.refs
    (Function.update listener.stage visit (.applying run (decided run))) listener.sink
    (Function.update_self _ _ _)
  rw [Function.update_idem, applied] at updates
  unfold execute at updates ⊢
  rw [List.foldlM_cons, gate, Option.bind_eq_bind, Option.bind_some, List.foldlM_cons, hook,
    Option.bind_eq_bind, Option.bind_some, List.foldlM_append, updates]
  cases kept <;> simp [step, advance, Stage.record]

end Alone

/-- Whoever gets to `receive-pack` has presented what the listener requires. -/
theorem presents_of_spawned {auth : Auth} {visit : Visitor}
    (spawned : (visit.handled auth).spawned = true) :
    Presents auth (delivered visit.sock.incoming) := by
  cases auth with
  | anonymous => trivial
  | token expected =>
    -- Of the four ways a preamble is read, one accepts it, and by its payload.
    have accepted := (handleConnection_gate _).1.mp spawned
    rcases readAuthPkt_cases visit.sock.incoming expected with
      ⟨-, outcome, -⟩ | ⟨-, -, outcome, -⟩ | ⟨len, -, -, -, outcome, -⟩ |
      ⟨len, parsed, fits, enough, outcome, -, -⟩
    · cases accepted.symm.trans outcome
    · cases accepted.symm.trans outcome
    · cases accepted.symm.trans outcome
    · have long := fits.1
      have joined := @Lists.take_append_take_drop _ (delivered visit.sock.incoming) 4 len (by omega)
      refine ⟨(delivered visit.sock.incoming).take 4, _, (delivered visit.sock.incoming).drop len,
        ?_, ?_, checkPayload_ok.mp (outcome.symm.trans accepted)⟩
      · rw [joined, List.take_append_drop]
      · rw [List.length_take]
        omega

/-- A connection that brought an update has a record, which names its ref if the names are text. -/
theorem Brought.record {auth : Auth} {visit : Visitor} {run : ReceivePack} {update : RefUpdate}
    (brought : Brought auth visit run update) :
    ∃ record, (visit.handled auth).record = some record ∧
      ∀ names, Named run.updates names → ∃ name ∈ record.refsUpdated, ofText name = update.ref := by
  -- What was admitted has a record, and that of an accepted push has all its names.
  obtain ⟨consumed, rest, same⟩ := handleConnection_spawned brought.spawned
  have handled : visit.handled auth =
      receive consumed { visit.sock with incoming := rest } (some run.child) := by
    rw [Visitor.handled, same, brought.present]
    rfl
  obtain ⟨inbound, outbound, told⟩ :=
    receive_record consumed { visit.sock with incoming := rest } run.child
  refine ⟨_, (congrArg Handled.record handled).trans told, fun names named => ?_⟩
  have listing := refsUpdated_of_accepts brought.accepts named consumed
    { visit.sock with incoming := rest }
  rw [told, Option.map_some, Option.some.injEq] at listing
  have about : update.ref ∈ names.map ofText := named.refs ▸ List.mem_map_of_mem brought.update
  obtain ⟨name, known, spelled⟩ := List.mem_map.mp about
  refine ⟨name, ?_, spelled⟩
  rw [listing, Lists.mem_foldl_once]
  exact .inr known

/--
Whatever a ref of a listening repository comes to hold, somebody who may push has brought it there.

The connections are any number at once, with any bytes, and their steps come in any order. A ref
keeps the value it started with, unless it is within the namespace and some accepted push of it is
behind the value. That push came from a peer that presented what the listener requires, and its
connection is still being handled, or appending its record has failed, or the sink has that record.
It names the ref where all names of the push are text that does not end in white space. The sink has
no other records than those of connections that are over.
-/
theorem execute_accounted {auth : Auth} {visits : Nat → Visitor} {start : Refs}
    {listener : Listener} {events : List (Nat × Action)}
    (ran : execute auth visits (initial start) events = some listener) :
    (∀ ref, listener.refs ref = start ref ∨ ∃ visit run update,
      refNamespace <+: ref ∧ Presents auth (delivered (visits visit).sock.incoming) ∧
      Brought auth (visits visit) run update ∧ update.ref = ref ∧
      listener.refs ref = value update ∧
      ((∃ left, listener.stage visit = .applying run left) ∨
        listener.stage visit = .closed ((visits visit).handled auth).record false ∨
        ∃ record ∈ listener.sink, ((visits visit).handled auth).record = some record ∧
          ∀ names, Named run.updates names → ∃ name ∈ record.refsUpdated, ofText name = ref)) ∧
    ∀ record ∈ listener.sink, ∃ visit, listener.stage visit = .closed (some record) true ∧
      ((visits visit).handled auth).record = some record := by
  have traced := execute_traced ran
  have done : ∀ visit record, (listener.stage visit).record = some record →
      listener.stage visit = .closed (some record) true ∧
        ((visits visit).handled auth).record = some record := by
    intro visit record told
    have sound := traced.sound visit
    cases stage : listener.stage visit with
    | closed made kept =>
      rw [stage] at told sound
      cases kept with
      | true => exact ⟨congrArg (Stage.closed · true) told, sound ▸ told⟩
      | false => cases told
    | waiting | admitted | applying => rw [stage] at told; cases told
  refine ⟨fun ref => (traced.refs ref).imp_right ?_, fun record listed => ?_⟩
  · rintro ⟨visit, run, update, brought, rfl, changed, behind⟩
    refine ⟨visit, run, update, inside_of_accepted brought.accepts.2 _ brought.update,
      presents_of_spawned brought.spawned, brought, rfl, changed, behind.imp_right ?_⟩
    rintro ⟨kept, stage⟩
    obtain ⟨record, told, names⟩ := brought.record
    cases kept with
    | false => exact .inl stage
    | true =>
      exact .inr ⟨record, (traced.sink _).mpr ⟨visit, by rw [stage]; exact told⟩, told, names⟩
  · obtain ⟨visit, told⟩ := (traced.sink record).mp listed
    exact ⟨visit, done visit record told⟩

/-- An update of one ref. -/
def oneUpdate : RefUpdate where
  old := [0x30]
  new := [0x31]
  ref := ofText "refs/git-full-send/a"
  old_field := by decide
  new_field := by decide
  ref_field := by decide

/-- A run of `receive-pack` that makes it. -/
def oneRun : ReceivePack where
  updates := [oneUpdate]
  file := .writable [0x66] (by decide) []
  fresh := by rintro contents ⟨⟩; rfl
  progress := .through [true]
  stdin _ := none
  stdout := []
  stderr := []
  status := .code 0

/-- A secret. -/
def oneToken : Token := ⟨"s3cret", by decide, by decide, by decide⟩

/-- A connection that presents the secret, behind which that run is. -/
def oneVisit : Visitor where
  sock := ⟨[.data 0x30 (ofText "021git-full-send-auth-v1 s3cret\n")], fun _ => none⟩
  run := some oneRun

/-- The connection gets past the gate. -/
theorem oneVisit_spawned : (oneVisit.handled (.token oneToken)).spawned = true := by
  decide

/-- Behind the run the ref has its new value. -/
theorem oneRun_after : oneRun.after (fun _ => none) oneUpdate.ref = some [0x31] := by
  -- The hook accepts the one update, which is applied then.
  have inside : ∀ update ∈ oneRun.updates, Inside update := by decide
  have accepted : (runHook oneRun.file oneRun.updates).status = 0 := (runHook_recorded inside rfl).1
  have after : oneRun.after (fun _ => none) = oneUpdate.apply fun _ => none := by
    have through : oneRun.progress = .through [true] := rfl
    simp only [ReceivePack.after, through, accepted, if_true]
    rfl
  rw [after]
  exact Function.update_self _ _ _

/-- A push of one ref behind the secret: its value is accounted for. -/
theorem execute_accounted_one :
    ∃ (listener : Listener) (events : List (Nat × Action)),
      execute (.token oneToken) (fun _ => oneVisit) (initial fun _ => none) events =
        some listener ∧
      listener.refs oneUpdate.ref = some [0x31] ∧
      Presents (.token oneToken) (delivered oneVisit.sock.incoming) ∧
      ∃ record ∈ listener.sink, "refs/git-full-send/a" ∈ record.refsUpdated := by
  obtain ⟨listener, events, ran, refs, stages⟩ : ∃ (listener : Listener) (events : _),
      execute (.token oneToken) (fun _ => oneVisit) (initial fun _ => none) events =
        some listener ∧ listener.refs = oneRun.after (fun _ => none) ∧
      listener.stage = Function.update (fun _ => .waiting) 0
        (.closed (oneVisit.handled (.token oneToken)).record true) :=
    ⟨_, _, @execute_alone _ _ 0 _ _ rfl oneVisit_spawned rfl true, rfl, rfl⟩
  have named : Named oneRun.updates ["refs/git-full-send/a"] := ⟨rfl, by decide⟩
  -- The one connection is over, and the sink has its record.
  have settled : ∀ place, listener.stage place = .waiting ∨
      ∃ record, listener.stage place = .closed record true := by
    intro place
    rw [stages, Function.update_apply]
    split
    · exact .inr ⟨_, rfl⟩
    · exact .inl rfl
  rcases (execute_accounted ran).1 oneUpdate.ref with
    same | ⟨place, other, change, -, presents, brought, -, -, ⟨left, stage⟩ | stage | told⟩
  · rw [refs, oneRun_after] at same
    cases same
  · rcases settled place with idle | ⟨record, closed⟩
    · cases idle.symm.trans stage
    · cases closed.symm.trans stage
  · rcases settled place with idle | ⟨record, closed⟩
    · cases idle.symm.trans stage
    · cases closed.symm.trans stage
  · obtain ⟨record, listed, -, names⟩ := told
    obtain rfl : oneRun = other := Option.some.inj brought.present
    obtain ⟨name, known, spelled⟩ := names _ named
    have same : name = "refs/git-full-send/a" := Text.ofText_injective spelled
    exact ⟨listener, events, ran, by rw [refs, oneRun_after], presents, record, listed,
      same ▸ known⟩

end Listener

end GitFullSend

import Mathlib.Logic.Relation
import GitFullSend.Common.Preamble

/-! The authentication of a connection on a clock, byte by byte as the preamble arrives. -/

namespace GitFullSend

open Utf8 (Bytes ofText)
open Arrivals (Arrival delivered readExact readExact_taken)

/-- What the bytes taken so far decide, or `none` while more of them are read. -/
def authProgress (expected : Token) (taken : Bytes) : Option AuthOutcome :=
  if taken.length < 4 then none
  else
    match parseLength (taken.take 4) with
    | none => some .malformed
    | some len =>
      if ¬ (5 ≤ len ∧ len ≤ (ofText authPktPrefix).length + maxTokenLen + 6) then some .malformed
      else if taken.length < len then none
      else some (checkPayload ((taken.drop 4).take (len - 4)) expected)

/-- What a read that fails makes of the bytes taken before it. -/
def cutShort (taken : Bytes) : AuthOutcome := if taken.length < 4 then .absent else .malformed

/-- When the bytes of a peer arrive, when it hangs up, and when `receive-pack` is done. -/
structure Schedule where
  /-- Each byte with the time it arrives at. -/
  arrivals : List (Nat × UInt8)
  /-- The bytes arrive in this order. -/
  ordered : arrivals.Pairwise fun earlier later => earlier.1 ≤ later.1
  /-- When the peer hangs up, if it ever does. -/
  hangUp : Option Nat
  /-- When `receive-pack` has ended, its output passed on and its errors read, if it ever does. -/
  ends : Option Nat
  /-- Nothing arrives after the peer has hung up. -/
  last : ∀ time ∈ hangUp, ∀ arrival ∈ arrivals, arrival.1 ≤ time

/-- What a listener asks of a connection, and how long it waits for it. -/
structure GateConfig where
  expected : Token
  /-- The read timeout of the socket while the preamble is read. -/
  authTimeout : Nat
  /-- What the watchdog of an authenticated connection waits for. -/
  connectionTimeout : Nat

/-- How far a connection has come. -/
inductive ConnectionPhase where
  /-- A read call was issued at some time, with these bytes taken before it. -/
  | authenticating (since : Nat) (taken : Bytes)
  /-- The watchdog was started at some time, and may have shut the socket; `receive-pack` runs. -/
  | receiving (since : Nat) (shut : Bool)
  | refused (outcome : AuthOutcome)
  | finished
  deriving DecidableEq

/-- Whether a connection holds one of the slots of the listener. -/
def ConnectionPhase.held : ConnectionPhase → Prop
  | authenticating _ _ | receiving _ _ => True
  | refused _ | finished => False

/-- A connection on its clock. -/
structure TimedConnection where
  clock : Nat
  phase : ConnectionPhase
  /-- What has not been read. -/
  coming : List (Nat × UInt8)

/-- Nothing happens on a connection until some time, so the clock can go on to it. -/
def TimedConnection.Idle (config : GateConfig) (schedule : Schedule)
    (connection : TimedConnection) (later : Nat) : Prop :=
  match connection.phase with
  | .authenticating since taken =>
    authProgress config.expected taken = none ∧
      -- No timeout can be set that is zero, and then the read goes on without one.
      (config.authTimeout ≠ 0 → later ≤ since + config.authTimeout) ∧
      (∀ arrival ∈ connection.coming, later ≤ arrival.1) ∧
      (connection.coming = [] → ∀ time ∈ schedule.hangUp, later ≤ time)
  | .receiving since shut =>
    -- The watchdog fires once; the end of `receive-pack` is waited for without a bound.
    (shut = false → later ≤ since + config.connectionTimeout) ∧
      ∀ time ∈ schedule.ends, later ≤ time
  | .refused _ | .finished => True

/-- One step of a connection, or of its clock. -/
inductive ConnectionStep (config : GateConfig) (schedule : Schedule) :
    TimedConnection → TimedConnection → Prop
  | wait {connection : TimedConnection} {later : Nat} (passes : connection.clock < later)
      (idle : connection.Idle config schedule later) :
      ConnectionStep config schedule connection { connection with clock := later }
  /-- A read call returns with a byte that is there, and the next one is issued. -/
  | take {clock since time : Nat} {taken : Bytes} {byte : UInt8} {coming : List (Nat × UInt8)}
      (undecided : authProgress config.expected taken = none) (there : time ≤ clock) :
      ConnectionStep config schedule ⟨clock, .authenticating since taken, (time, byte) :: coming⟩
        ⟨clock, .authenticating clock (taken ++ [byte]), coming⟩
  | accept {clock since : Nat} {taken : Bytes} {coming : List (Nat × UInt8)}
      (decided : authProgress config.expected taken = some .ok) :
      ConnectionStep config schedule ⟨clock, .authenticating since taken, coming⟩
        ⟨clock, .receiving clock false, coming⟩
  | refuse {clock since : Nat} {taken : Bytes} {coming : List (Nat × UInt8)}
      {outcome : AuthOutcome} (decided : authProgress config.expected taken = some outcome)
      (other : outcome ≠ .ok) :
      ConnectionStep config schedule ⟨clock, .authenticating since taken, coming⟩
        ⟨clock, .refused outcome, coming⟩
  /-- A read call returns because its timeout has passed with nothing there. -/
  | timeout {clock since : Nat} {taken : Bytes} {coming : List (Nat × UInt8)}
      (undecided : authProgress config.expected taken = none) (timed : config.authTimeout ≠ 0)
      (late : since + config.authTimeout ≤ clock) (nothing : ∀ arrival ∈ coming, clock < arrival.1) :
      ConnectionStep config schedule ⟨clock, .authenticating since taken, coming⟩
        ⟨clock, .refused (cutShort taken), coming⟩
  | endOfFile {clock since time : Nat} {taken : Bytes}
      (undecided : authProgress config.expected taken = none) (ended : time ∈ schedule.hangUp)
      (past : time ≤ clock) :
      ConnectionStep config schedule ⟨clock, .authenticating since taken, []⟩
        ⟨clock, .refused (cutShort taken), []⟩
  /-- The watchdog shuts the socket down. -/
  | watchdog {clock since : Nat} {coming : List (Nat × UInt8)}
      (late : since + config.connectionTimeout ≤ clock) :
      ConnectionStep config schedule ⟨clock, .receiving since false, coming⟩
        ⟨clock, .receiving since true, coming⟩
  /-- `receive-pack` is done. -/
  | finish {clock since time : Nat} {shut : Bool} {coming : List (Nat × UInt8)}
      (ended : time ∈ schedule.ends) (past : time ≤ clock) :
      ConnectionStep config schedule ⟨clock, .receiving since shut, coming⟩
        ⟨clock, .finished, coming⟩

/-- The states a connection can come to that was accepted at some time. -/
def Schedule.Reaches (config : GateConfig) (schedule : Schedule) (start : Nat) :
    TimedConnection → Prop :=
  Relation.ReflTransGen (ConnectionStep config schedule)
    ⟨start, .authenticating start [], schedule.arrivals⟩

/-- A connection that is never later than its deadlines. -/
structure WithinDeadlines (config : GateConfig) (schedule : Schedule) (start : Nat) : Prop where
  /-- It is not in its authentication phase later than the authentication deadline. -/
  authenticating : ∀ connection since taken, schedule.Reaches config start connection →
    connection.phase = .authenticating since taken →
      connection.clock ≤ start + config.authTimeout
  /-- It does not hold its slot later than both deadlines together. -/
  held : ∀ connection, schedule.Reaches config start connection → connection.phase.held →
    connection.clock ≤ start + config.connectionTimeout + config.authTimeout

/-- The bytes that have arrived by some time. -/
def Schedule.arrivedBy (schedule : Schedule) (time : Nat) : Bytes :=
  (schedule.arrivals.filter fun arrival => decide (arrival.1 ≤ time)).map Prod.snd

/--
A peer that has said enough by the deadline, or has hung up, or has nothing arrive on the way to it.

What is there when the connection is accepted does not put the deadline off.
-/
def Schedule.InTime (config : GateConfig) (schedule : Schedule) (start : Nat) : Prop :=
  (authProgress config.expected (schedule.arrivedBy (start + config.authTimeout))).isSome ∨
    (∃ time ∈ schedule.hangUp, time ≤ start + config.authTimeout) ∨
    (config.authTimeout ≠ 0 ∧ ∀ arrival ∈ schedule.arrivals,
      ¬ (start < arrival.1 ∧ arrival.1 ≤ start + config.authTimeout))

/-- A `receive-pack` that is run for the peer ends by both deadlines together. -/
def Schedule.EndsInTime (config : GateConfig) (schedule : Schedule) (start : Nat) : Prop :=
  authProgress config.expected (schedule.arrivedBy (start + config.authTimeout)) = some .ok →
    ∃ time ∈ schedule.ends, time ≤ start + config.connectionTimeout + config.authTimeout

/-- What is decided stays decided, whatever arrives behind it. -/
theorem authProgress_append {expected : Token} {taken : Bytes} {outcome : AuthOutcome}
    (decided : authProgress expected taken = some outcome) (more : Bytes) :
    authProgress expected (taken ++ more) = some outcome := by
  -- The header and the payload are taken from the front.
  unfold authProgress at decided ⊢
  by_cases short : taken.length < 4
  · rw [if_pos short] at decided
    cases decided
  · rw [if_neg short] at decided
    rw [if_neg (by rw [List.length_append]; omega), List.take_append_of_le_length (by omega)]
    cases parsed : parseLength (taken.take 4) with
    | none =>
      rw [parsed] at decided
      exact decided
    | some len =>
      rw [parsed] at decided
      simp only at decided ⊢
      by_cases fits : 5 ≤ len ∧ len ≤ (ofText authPktPrefix).length + maxTokenLen + 6
      · rw [if_neg (not_not_intro fits)] at decided ⊢
        by_cases cut : taken.length < len
        · rw [if_pos cut] at decided
          cases decided
        · rw [if_neg cut] at decided
          rw [if_neg (by rw [List.length_append]; omega),
            List.drop_append_of_le_length (by omega),
            List.take_append_of_le_length (by rw [List.length_drop]; omega)]
          exact decided
      · rw [if_pos fits] at decided ⊢
        exact decided

/-- What reading the preamble comes to is decided by the bytes that arrive, or by their end. -/
theorem readAuthPkt_outcome (reader : List Arrival) (expected : Token) :
    (readAuthPkt reader expected).outcome =
      (authProgress expected (delivered reader)).getD (cutShort (delivered reader)) := by
  -- A header that is cut short is absent, and is not looked at.
  by_cases short : (delivered reader).length < 4
  · have header : (readExact 4 reader).1.length < 4 := by
      rw [readExact_taken, List.length_take]
      omega
    rw [authProgress, if_pos short, Option.getD_none, cutShort, if_pos short]
    unfold readAuthPkt
    simp only
    rw [if_pos header]
  · rw [authProgress, if_neg short, cutShort, if_neg short]
    rcases readAuthPkt_cases reader expected with ⟨less, -⟩ | ⟨-, odd, malformed, -⟩ |
      ⟨len, parsed, fits, cut, malformed, -⟩ | ⟨len, parsed, fits, enough, checked, -⟩
    · exact absurd less short
    · rw [malformed]
      cases parsed : parseLength ((delivered reader).take 4) with
      | none => rfl
      | some len =>
        have refused : ¬ (5 ≤ len ∧ len ≤ (ofText authPktPrefix).length + maxTokenLen + 6) :=
          odd len parsed
        simp only
        rw [if_pos refused]
        rfl
    · rw [malformed, parsed]
      simp only
      rw [if_neg (not_not_intro (by exact fits)), if_pos cut]
      rfl
    · rw [checked, parsed]
      simp only
      rw [if_neg (not_not_intro (by exact fits)), if_neg (Nat.not_lt.mpr enough)]
      rfl

/-- What a connection has read of its schedule, and what its clock is bound to. -/
structure OnSchedule (config : GateConfig) (schedule : Schedule) (start : Nat)
    (connection : TimedConnection) : Prop where
  begun : start ≤ connection.clock
  /-- What was taken is what has arrived first. -/
  taken : ∀ since taken, connection.phase = .authenticating since taken →
    ∃ gone, schedule.arrivals = gone ++ connection.coming ∧ taken = gone.map Prod.snd ∧
      (∀ arrival ∈ gone, arrival.1 ≤ connection.clock) ∧
      (since = start ∨ ∃ arrival ∈ gone, start < arrival.1)
  /-- Once the clock has moved, nothing that is there is left unread. -/
  urgent : ∀ since taken, connection.phase = .authenticating since taken →
    start < connection.clock → ∀ arrival ∈ connection.coming, connection.clock ≤ arrival.1
  bounded : ∀ since taken, connection.phase = .authenticating since taken →
    connection.clock ≤ start + config.authTimeout
  /-- A peer that was accepted was so by what arrived in time, and the clock is within both. -/
  watched : ∀ since shut, connection.phase = .receiving since shut →
    authProgress config.expected (schedule.arrivedBy (start + config.authTimeout)) = some .ok ∧
      connection.clock ≤ start + config.connectionTimeout + config.authTimeout

variable {config : GateConfig} {schedule : Schedule} {start : Nat}

/-- Bytes that were read by some time are the front of those that have arrived by then. -/
private theorem arrivedBy_split {gone coming : List (Nat × UInt8)} {time : Nat}
    (split : schedule.arrivals = gone ++ coming) (before : ∀ arrival ∈ gone, arrival.1 ≤ time) :
    schedule.arrivedBy time = gone.map Prod.snd ++
      (coming.filter fun arrival => decide (arrival.1 ≤ time)).map Prod.snd := by
  have early : gone.filter (fun arrival => decide (arrival.1 ≤ time)) = gone :=
    List.filter_eq_self.mpr fun arrival member => decide_eq_true (before arrival member)
  rw [Schedule.arrivedBy, split, List.filter_append, early, List.map_append]

/-- The clock of a connection that is in time does not pass the deadline while it authenticates. -/
private theorem idle_bounded (inTime : schedule.InTime config start)
    {connection : TimedConnection} (on : OnSchedule config schedule start connection)
    {later since : Nat} {taken : Bytes}
    (authenticating : connection.phase = .authenticating since taken)
    (idle : connection.Idle config schedule later) :
    later ≤ start + config.authTimeout := by
  -- Otherwise what was taken is all that arrives by the deadline.
  by_contra past
  obtain ⟨gone, split, rfl, before, moved⟩ := on.taken since taken authenticating
  have now := on.bounded since _ authenticating
  simp only [TimedConnection.Idle, authenticating] at idle
  obtain ⟨undecided, timed, nothing, silent⟩ := idle
  have arrived : schedule.arrivedBy (start + config.authTimeout) = gone.map Prod.snd := by
    have late : connection.coming.filter
        (fun arrival => decide (arrival.1 ≤ start + config.authTimeout)) = [] := by
      rw [List.filter_eq_nil_iff]
      intro arrival member here
      have after := nothing arrival member
      have within := of_decide_eq_true here
      omega
    rw [arrivedBy_split split fun arrival member => (before arrival member).trans now, late,
      List.map_nil, List.append_nil]
  rcases inTime with decided | ⟨time, ended, within⟩ | ⟨positive, none⟩
  · rw [arrived, undecided] at decided
    cases decided
  · -- Nothing arrives behind the end, so the clock stops there.
    have empty : connection.coming = [] := by
      rw [List.eq_nil_iff_forall_not_mem]
      intro arrival member
      have after := nothing arrival member
      have before := schedule.last time ended arrival (split ▸ List.mem_append_right _ member)
      omega
    have stops := silent empty time ended
    omega
  · -- Nothing was taken after the start, so the first read is still going on.
    have first : since = start := by
      rcases moved with same | ⟨arrival, member, after⟩
      · exact same
      · have here := none arrival (split ▸ List.mem_append_left _ member)
        have sooner := (before arrival member).trans now
        exact absurd ⟨after, sooner⟩ here
    have stops := timed positive
    omega

/-- A connection that is over is on its schedule whatever that is. -/
private theorem onSchedule_over {connection : TimedConnection}
    (begun : start ≤ connection.clock) (done : ¬ connection.phase.held) :
    OnSchedule config schedule start connection := by
  -- It neither authenticates nor receives.
  have unheard : ∀ since taken, connection.phase ≠ .authenticating since taken :=
    fun since taken phase => done (by rw [phase]; trivial)
  have unspawned : ∀ since shut, connection.phase ≠ .receiving since shut :=
    fun since shut phase => done (by rw [phase]; trivial)
  exact ⟨begun, fun since taken phase => absurd phase (unheard since taken),
    fun since taken phase => absurd phase (unheard since taken),
    fun since taken phase => absurd phase (unheard since taken),
    fun since shut phase => absurd phase (unspawned since shut)⟩

/-- The clock of a connection that is in time moves within its schedule. -/
private theorem onSchedule_wait (inTime : schedule.InTime config start)
    (endsInTime : schedule.EndsInTime config start) {connection : TimedConnection}
    (on : OnSchedule config schedule start connection)
    {later : Nat} (passes : connection.clock < later)
    (idle : connection.Idle config schedule later) :
    OnSchedule config schedule start { connection with clock := later } := by
  refine ⟨on.begun.trans passes.le, ?_, ?_, ?_, ?_⟩
  · intro since taken authenticating
    obtain ⟨gone, split, same, before, moved⟩ := on.taken since taken authenticating
    exact ⟨gone, split, same, fun arrival member => (before arrival member).trans passes.le, moved⟩
  · -- The clock does not pass a byte that is still to be read.
    intro since taken authenticating _
    simp only at authenticating
    simp only [TimedConnection.Idle, authenticating] at idle
    exact idle.2.2.1
  · intro since taken authenticating
    exact idle_bounded inTime on authenticating idle
  · -- What was accepted is waited for no longer than it lasts.
    intro since shut receiving
    simp only at receiving
    simp only [TimedConnection.Idle, receiving] at idle
    have accepted := (on.watched since shut receiving).1
    obtain ⟨time, ended, within⟩ := endsInTime accepted
    exact ⟨accepted, (idle.2 time ended).trans within⟩

/-- A connection that takes a byte stays on its schedule. -/
private theorem onSchedule_take {clock since time : Nat} {taken : Bytes} {byte : UInt8}
    {coming : List (Nat × UInt8)} (there : time ≤ clock)
    (on : OnSchedule config schedule start
      ⟨clock, .authenticating since taken, (time, byte) :: coming⟩) :
    OnSchedule config schedule start ⟨clock, .authenticating clock (taken ++ [byte]), coming⟩ := by
  have begun := on.begun
  refine ⟨begun, ?_, ?_, ?_, by simp⟩
  · intro since' taken' authenticating
    simp only [ConnectionPhase.authenticating.injEq] at authenticating
    obtain ⟨rfl, rfl⟩ := authenticating
    obtain ⟨gone, split, rfl, before, -⟩ := on.taken since taken rfl
    refine ⟨gone ++ [(time, byte)], by simpa using split, by simp, ?_, ?_⟩
    · intro arrival member
      rcases List.mem_append.mp member with member | member
      · exact before arrival member
      · rw [List.mem_singleton.mp member]
        exact there
    · -- A byte that is taken after the start arrives when it is taken.
      rcases Nat.eq_or_lt_of_le begun with same | moved
      · exact .inl same.symm
      · have here := on.urgent since _ rfl moved (time, byte) List.mem_cons_self
        refine .inr ⟨(time, byte), by simp, ?_⟩
        simp only at here moved ⊢
        omega
  · intro since' taken' _ moved arrival member
    exact on.urgent since taken rfl moved arrival (List.mem_cons_of_mem _ member)
  · intro since' taken' _
    exact on.bounded since taken rfl

/-- Every step of a connection that is in time keeps it on its schedule. -/
private theorem onSchedule_step (inTime : schedule.InTime config start)
    (endsInTime : schedule.EndsInTime config start) {connection after : TimedConnection}
    (on : OnSchedule config schedule start connection)
    (step : ConnectionStep config schedule connection after) :
    OnSchedule config schedule start after := by
  -- The cases are the steps, and a connection that is over after its step is bound to nothing.
  have begun := on.begun
  cases step with
  | wait passes idle => exact onSchedule_wait inTime endsInTime on passes idle
  | take undecided there => exact onSchedule_take there on
  | @accept clock since taken coming decided =>
    refine ⟨begun, by simp, by simp, by simp, ?_⟩
    intro since' shut receiving
    have now := on.bounded since taken rfl
    obtain ⟨gone, split, rfl, before, -⟩ := on.taken since taken rfl
    refine ⟨?_, by simp only at now ⊢; omega⟩
    -- What was taken is the front of what arrives by the deadline, which decides the same.
    rw [arrivedBy_split split fun arrival member => (before arrival member).trans now]
    exact authProgress_append decided _
  | refuse decided other => exact onSchedule_over begun (by simp [ConnectionPhase.held])
  | timeout undecided timed late nothing =>
    exact onSchedule_over begun (by simp [ConnectionPhase.held])
  | endOfFile undecided ended past => exact onSchedule_over begun (by simp [ConnectionPhase.held])
  | watchdog late =>
    exact ⟨begun, by simp, by simp, by simp, fun since shut receiving => on.watched _ false rfl⟩
  | finish ended past => exact onSchedule_over begun (by simp [ConnectionPhase.held])

/-- A connection that is in time is on its schedule in every state it comes to. -/
private theorem onSchedule_reaches (inTime : schedule.InTime config start)
    (endsInTime : schedule.EndsInTime config start) {connection : TimedConnection}
    (reached : schedule.Reaches config start connection) :
    OnSchedule config schedule start connection := by
  -- The induction is on the run.
  induction reached with
  | refl =>
    refine ⟨Nat.le_refl _, ?_, ?_, ?_, by simp⟩
    · intro since taken authenticating
      simp only [ConnectionPhase.authenticating.injEq] at authenticating
      obtain ⟨rfl, rfl⟩ := authenticating
      exact ⟨[], rfl, rfl, by simp, .inl rfl⟩
    · intro since taken _ moved
      exact absurd moved (Nat.lt_irrefl _)
    · intro since taken _
      exact Nat.le_add_right _ _
  | tail _ step ih => exact onSchedule_step inTime endsInTime ih step

/-- A byte that arrives by the deadline is waited for and read, with a timeout of its own. -/
private theorem reads_first {clock since time : Nat} {taken : Bytes} {byte : UInt8}
    {coming : List (Nat × UInt8)} (begun : start ≤ since) (here : time ≤ start + config.authTimeout)
    (front : ∀ arrival ∈ coming, time ≤ arrival.1)
    (undecided : authProgress config.expected taken = none) :
    Relation.ReflTransGen (ConnectionStep config schedule)
      ⟨clock, .authenticating since taken, (time, byte) :: coming⟩
      ⟨max clock time, .authenticating (max clock time) (taken ++ [byte]), coming⟩ := by
  -- The clock goes on to the byte, where it has not come there yet.
  have waited : Relation.ReflTransGen (ConnectionStep config schedule)
      ⟨clock, .authenticating since taken, (time, byte) :: coming⟩
      ⟨max clock time, .authenticating since taken, (time, byte) :: coming⟩ := by
    rcases Nat.lt_or_ge clock time with ahead | there
    · rw [Nat.max_eq_right ahead.le]
      refine .single (.wait ahead ⟨undecided, ?_, ?_, by simp⟩)
      · intro _
        omega
      · exact List.forall_mem_cons.mpr ⟨Nat.le_refl _, front⟩
    · rw [Nat.max_eq_left there]
  exact waited.tail (.take undecided (Nat.le_max_right ..))

/-- What precedes undecided bytes was undecided. -/
private theorem undecided_front {expected : Token} {taken more : Bytes}
    (undecided : authProgress expected (taken ++ more) = none) :
    authProgress expected taken = none := by
  -- An outcome stays when more bytes come.
  rw [Option.eq_none_iff_forall_ne_some]
  intro outcome decided
  rw [authProgress_append decided] at undecided
  cases undecided

/-- Bytes that keep arriving by the deadline are read, each with a timeout of its own. -/
private theorem reads_on {early late : List (Nat × UInt8)}
    (ordered : (early ++ late).Pairwise fun earlier later => earlier.1 ≤ later.1)
    (within : ∀ arrival ∈ early, arrival.1 ≤ start + config.authTimeout)
    {clock since : Nat} {taken : Bytes} (begun : start ≤ since) (issued : since ≤ clock)
    (now : clock ≤ start + config.authTimeout)
    (undecided : authProgress config.expected (taken ++ early.map Prod.snd) = none) :
    ∃ clock' since', since ≤ since' ∧ since' ≤ clock' ∧ clock' ≤ start + config.authTimeout ∧
      (∀ arrival ∈ early, arrival.1 ≤ since') ∧
      Relation.ReflTransGen (ConnectionStep config schedule)
        ⟨clock, .authenticating since taken, early ++ late⟩
        ⟨clock', .authenticating since' (taken ++ early.map Prod.snd), late⟩ := by
  -- The induction is on the bytes; the clock waits for each, and each read is issued anew.
  induction early generalizing clock since taken with
  | nil => exact ⟨clock, since, Nat.le_refl _, issued, now, by simp, by simpa using .refl⟩
  | cons first rest ih =>
    obtain ⟨time, byte⟩ := first
    obtain ⟨here, others⟩ := List.forall_mem_cons.mp within
    obtain ⟨front, ordered⟩ := List.pairwise_cons.mp ordered
    have unread := undecided_front undecided
    have joined : taken ++ ((time, byte) :: rest).map Prod.snd =
        taken ++ [byte] ++ rest.map Prod.snd := by simp
    rw [joined] at undecided ⊢
    obtain ⟨clock', since', later, order, bound, seen, run⟩ :=
      @ih ordered others (max clock time) (max clock time) (taken ++ [byte])
        (by omega) (Nat.le_refl _) (by simp only at here; omega) undecided
    refine ⟨clock', since', by omega, order, bound, List.forall_mem_cons.mpr ⟨?_, seen⟩, ?_⟩
    · simp only
      omega
    · exact (reads_first begun here front unread).trans run

/-- Bytes that are accepted by the deadline are read until they are. -/
private theorem reads_accepted {early late : List (Nat × UInt8)}
    (ordered : (early ++ late).Pairwise fun earlier later => earlier.1 ≤ later.1)
    (within : ∀ arrival ∈ early, arrival.1 ≤ start + config.authTimeout)
    {clock since : Nat} {taken : Bytes} (begun : start ≤ since) (issued : since ≤ clock)
    (now : clock ≤ start + config.authTimeout)
    (accepted : authProgress config.expected (taken ++ early.map Prod.snd) = some .ok) :
    ∃ clock' coming, clock' ≤ start + config.authTimeout ∧
      Relation.ReflTransGen (ConnectionStep config schedule)
        ⟨clock, .authenticating since taken, early ++ late⟩
        ⟨clock', .receiving clock' false, coming⟩ := by
  -- The induction is on the bytes, up to the one that decides.
  induction early generalizing clock since taken with
  | nil => exact ⟨clock, late, now, .single (.accept (by simpa using accepted))⟩
  | cons first rest ih =>
    cases decided : authProgress config.expected taken with
    | some outcome =>
      obtain rfl : outcome = .ok :=
        Option.some.inj ((authProgress_append decided _).symm.trans accepted)
      exact ⟨clock, _, now, .single (.accept decided)⟩
    | none =>
      obtain ⟨time, byte⟩ := first
      obtain ⟨here, others⟩ := List.forall_mem_cons.mp within
      obtain ⟨front, ordered⟩ := List.pairwise_cons.mp ordered
      obtain ⟨clock', coming, bound, run⟩ :=
        @ih ordered others (max clock time) (max clock time) (taken ++ [byte])
          (by omega) (Nat.le_refl _) (by simp only at here; omega) (by simpa using accepted)
      exact ⟨clock', coming, bound, (reads_first begun here front decided).trans run⟩

/-- A connection that receives holds its slot until `receive-pack` ends. -/
private theorem receiving_outlasts {clock late : Nat} {coming : List (Nat × UInt8)}
    (behind : clock + config.connectionTimeout < late)
    (lasts : ∀ time ∈ schedule.ends, late ≤ time) :
    Relation.ReflTransGen (ConnectionStep config schedule) ⟨clock, .receiving clock false, coming⟩
      ⟨late, .receiving clock true, coming⟩ := by
  -- The clock goes on to the watchdog, and then on behind it.
  have fired : Relation.ReflTransGen (ConnectionStep config schedule)
      ⟨clock, .receiving clock false, coming⟩
      ⟨clock + config.connectionTimeout, .receiving clock false, coming⟩ := by
    rcases Nat.eq_zero_or_pos config.connectionTimeout with zero | positive
    · rw [zero]
      exact .refl
    · exact .single (.wait (Nat.lt_add_of_pos_right positive) ⟨fun _ => Nat.le_refl _,
        fun time ended => behind.le.trans (lasts time ended)⟩)
  exact (fired.tail (.watchdog (Nat.le_refl _))).tail (.wait behind ⟨by simp, lasts⟩)

/-- Bytes in the order of their arrival are those by some time, and then those behind it. -/
private theorem arrivals_split {arrivals : List (Nat × UInt8)}
    (ordered : arrivals.Pairwise fun earlier later => earlier.1 ≤ later.1) (time : Nat) :
    ∃ late, arrivals = arrivals.filter (fun arrival => decide (arrival.1 ≤ time)) ++ late ∧
      ∀ arrival ∈ late, time < arrival.1 := by
  -- The induction is on the bytes, and behind one that is late all are.
  induction arrivals with
  | nil => exact ⟨[], rfl, by simp⟩
  | cons first rest ih =>
    obtain ⟨front, ordered⟩ := List.pairwise_cons.mp ordered
    by_cases early : first.1 ≤ time
    · obtain ⟨late, split, after⟩ := ih ordered
      refine ⟨late, ?_, after⟩
      rw [List.filter_cons, if_pos (decide_eq_true early), List.cons_append, ← split]
    · have all : ∀ arrival ∈ first :: rest, time < arrival.1 := by
        refine List.forall_mem_cons.mpr ⟨Nat.lt_of_not_le early, fun arrival member => ?_⟩
        have behind := front arrival member
        omega
      have none : (first :: rest).filter (fun arrival => decide (arrival.1 ≤ time)) = [] := by
        rw [List.filter_eq_nil_iff]
        intro arrival member here
        exact absurd (of_decide_eq_true here) (Nat.not_le.mpr (all arrival member))
      exact ⟨first :: rest, by rw [none, List.nil_append], all⟩

/-- A peer that is not in time is waited for beyond the authentication deadline. -/
private theorem inTime_of_within (bounded : WithinDeadlines config schedule start) :
    schedule.InTime config start := by
  -- All bytes up to the deadline are read, and the clock then goes one step beyond it.
  by_contra late
  unfold Schedule.InTime at late
  simp only [not_or, not_exists, not_and, Option.not_isSome_iff_eq_none, not_forall,
    not_not] at late
  obtain ⟨undecided, unended, missed⟩ := late
  obtain ⟨rest, split, after⟩ :=
    arrivals_split schedule.ordered (start + config.authTimeout)
  obtain ⟨clock, since, begun, issued, now, seen, run⟩ :=
    @reads_on config schedule start _ rest (split ▸ schedule.ordered)
      (fun arrival member => of_decide_eq_true (List.mem_filter.mp member).2) start start []
      (Nat.le_refl _) (Nat.le_refl _) (Nat.le_add_right _ _)
      (by simpa [Schedule.arrivedBy] using undecided)
  rw [← split] at run
  have passes := bounded.authenticating _ since _ (run.tail (.wait (Nat.lt_succ_of_le now)
    ⟨by simpa [Schedule.arrivedBy] using undecided, ?_, fun arrival member => after arrival member,
      fun _ time ended => Nat.lt_of_not_le (unended time ended)⟩)) rfl
  · simp only at passes
    omega
  · -- A byte has arrived after the start, and the read behind it was issued no sooner.
    intro positive
    obtain ⟨arrival, member, behind, sooner⟩ := missed positive
    have taken := seen arrival (List.mem_filter.mpr ⟨member, decide_eq_true sooner⟩)
    omega

/-- A peer that is accepted in time holds its slot beyond both deadlines if its child does. -/
private theorem endsInTime_of_within (bounded : WithinDeadlines config schedule start) :
    schedule.EndsInTime config start := by
  -- The preamble is read as soon as it can be, and the child is then waited for.
  intro accepted
  by_contra late
  simp only [not_exists, not_and, Nat.not_le] at late
  obtain ⟨rest, split, -⟩ := arrivals_split schedule.ordered (start + config.authTimeout)
  obtain ⟨clock, coming, now, run⟩ :=
    @reads_accepted config schedule start _ rest (split ▸ schedule.ordered)
      (fun arrival member => of_decide_eq_true (List.mem_filter.mp member).2) start start []
      (Nat.le_refl _) (Nat.le_refl _) (Nat.le_add_right _ _)
      (by simpa [Schedule.arrivedBy] using accepted)
  rw [← split] at run
  have outlasts := @receiving_outlasts config schedule clock
    (start + config.connectionTimeout + config.authTimeout + 1) coming (by omega) late
  have passes := bounded.held _ (run.trans outlasts) trivial
  simp only at passes
  omega

/--
A peer cannot outstay the deadlines exactly when its schedule and its `receive-pack` are in time.

Every read call has the whole timeout for itself, so a byte on the way to the deadline puts it off.
The watchdog only shuts the socket, and the slot is held until `receive-pack` has ended.
-/
theorem withinDeadlines_iff (config : GateConfig) (schedule : Schedule) (start : Nat) :
    WithinDeadlines config schedule start ↔
      schedule.InTime config start ∧ schedule.EndsInTime config start := by
  constructor
  · intro bounded
    exact ⟨inTime_of_within bounded, endsInTime_of_within bounded⟩
  · -- In every state that is reached, the deadlines have not passed.
    intro inTime
    obtain ⟨inTime, endsInTime⟩ := inTime
    refine ⟨?_, ?_⟩
    · intro connection since taken reached
      exact (onSchedule_reaches inTime endsInTime reached).bounded since taken
    · intro connection reached held
      have on := onSchedule_reaches inTime endsInTime reached
      cases phase : connection.phase with
      | authenticating since taken =>
        have bound := on.bounded since taken phase
        omega
      | receiving since shut => exact (on.watched since shut phase).2
      | refused outcome => simp [phase, ConnectionPhase.held] at held
      | finished => simp [phase, ConnectionPhase.held] at held

/-- A preamble with its token is accepted. -/
private theorem accepted_secret :
    authProgress ⟨"secret", by decide, by decide +kernel, by decide +kernel⟩
      (ofText "0021git-full-send-auth-v1 secret\n") = some .ok := by
  decide +kernel

/--
Two bytes, each within the timeout of its read, keep a connection beyond both of its deadlines.

So does a `receive-pack` that goes on, behind a preamble that was there at once.
-/
theorem drip_outstays :
    (∃ (config : GateConfig) (schedule : Schedule) (connection : TimedConnection) (taken : Bytes),
      config.authTimeout = 10 ∧ config.connectionTimeout = 5 ∧
      schedule.arrivals = [(8, 0x30), (16, 0x30)] ∧ schedule.hangUp = none ∧
      schedule.Reaches config 0 connection ∧ connection.clock = 17 ∧
      connection.phase = .authenticating 16 taken ∧ ¬ WithinDeadlines config schedule 0) ∧
    ∃ (config : GateConfig) (schedule : Schedule) (connection : TimedConnection),
      config.authTimeout = 10 ∧ config.connectionTimeout = 5 ∧
      (∀ arrival ∈ schedule.arrivals, arrival.1 = 0) ∧ schedule.ends = some 100 ∧
      schedule.InTime config 0 ∧ schedule.Reaches config 0 connection ∧ connection.clock = 16 ∧
      connection.phase.held := by
  let expected : Token := ⟨"secret", by decide, by decide +kernel, by decide +kernel⟩
  let config : GateConfig := ⟨expected, 10, 5⟩
  refine ⟨?_, ?_⟩
  · let schedule : Schedule := ⟨[(8, 0x30), (16, 0x30)], by decide, none, none, by simp⟩
    -- The clock waits for each byte, and then on into the third read.
    have first : schedule.Reaches config 0 ⟨8, .authenticating 0 [], [(8, 0x30), (16, 0x30)]⟩ :=
      .single (.wait (by decide) ⟨rfl, by decide, by decide, by simp⟩)
    have second : schedule.Reaches config 0 ⟨16, .authenticating 8 [0x30], [(16, 0x30)]⟩ :=
      (first.tail (.take rfl (by decide))).tail
        (.wait (by decide) ⟨rfl, by decide, by decide, by simp⟩)
    have third : schedule.Reaches config 0 ⟨17, .authenticating 16 [0x30, 0x30], []⟩ :=
      (second.tail (.take rfl (by decide))).tail (.wait (by decide)
        ⟨rfl, by decide, by decide, by simp [schedule]⟩)
    refine ⟨config, schedule, _, _, rfl, rfl, rfl, rfl, third, rfl, rfl, fun within => ?_⟩
    exact absurd (within.authenticating _ _ _ third rfl) (by decide)
  · let arrivals : List (Nat × UInt8) :=
      (ofText "0021git-full-send-auth-v1 secret\n").map fun byte => (0, byte)
    have atOnce : ∀ arrival ∈ arrivals, arrival.1 = 0 := by simp [arrivals]
    have ordered : arrivals.Pairwise fun earlier later => earlier.1 ≤ later.1 :=
      List.pairwise_of_forall_mem_list fun left here right there => by
        rw [atOnce left here, atOnce right there]
    let schedule : Schedule := ⟨arrivals, ordered, none, some 100, by simp⟩
    have sent : arrivals.map Prod.snd = ofText "0021git-full-send-auth-v1 secret\n" := by
      simp [arrivals]
    have accepted : authProgress expected (schedule.arrivedBy 10) = some .ok := by
      have all : arrivals.filter (fun arrival => decide (arrival.1 ≤ 10)) = arrivals :=
        List.filter_eq_self.mpr fun arrival member => by simp [atOnce arrival member]
      rw [Schedule.arrivedBy, all, sent]
      exact accepted_secret
    -- The preamble is read at once, and the watchdog changes nothing about what comes behind it.
    obtain ⟨clock, coming, now, run⟩ :=
      @reads_accepted config schedule 0 arrivals [] (by simpa using ordered)
        (fun arrival member => by simp [atOnce arrival member]) 0 0 [] le_rfl le_rfl (Nat.zero_le _)
        (by rw [List.nil_append, sent]; exact accepted_secret)
    rw [List.append_nil] at run
    have bound : clock ≤ 10 := by simpa [config] using now
    have outlasts := @receiving_outlasts config schedule clock 16 coming
      (by simp only [config]; omega) (by simp [schedule])
    exact ⟨config, schedule, _, rfl, rfl, atOnce, rfl, .inl (by simp [config, accepted]),
      run.trans outlasts, rfl, trivial⟩

end GitFullSend

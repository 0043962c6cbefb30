import GitFullSend.Server.WorktreeLock
import GitFullSend.Server.WorktreeSerial

/-! Worktree updates with all their calls do what the updates of canonical paths do. -/

namespace GitFullSend

open Utf8 (Bytes)

variable {Leaf Dir : Type}

/-- A site whose two directories are the state directory of the place a run has found. -/
structure Site.Keyed (layout : Layout Dir) (place : Option Bytes) (site : Site Leaf Dir) :
    Prop where
  place : place = some site.worktree
  index : site.index = layout.stateDir site.worktree
  state : site.state = layout.stateDir site.worktree

/-- How far the update of a canonical path has come when a run with all its calls is here. -/
def Course.Matches (layout : Layout Dir) (place : Option Bytes) :
    Course Leaf Dir → Phase Leaf → Prop
  | .start, phase | .discovered, phase => phase = .start ∧ place = none
  | .code tree, phase => (∃ codePush began, phase = .code tree codePush began) ∧ place = none
  | .resolved tree, phase | .created tree, phase =>
    (∃ ticket, phase = .ready ticket ∧ ticket.tree = tree) ∧ place = none
  | .canonical tree path, phase =>
    (∃ ticket, phase = .ready ticket ∧ ticket.tree = tree) ∧ place = some path
  | .indexed tree path index, phase =>
    (∃ ticket, phase = .ready ticket ∧ ticket.tree = tree) ∧
      place = some path ∧ index = layout.stateDir path
  | .located site, phase | .opened site, phase | .polling site _ _, phase =>
    (∃ ticket, phase = .ready ticket ∧ ticket.tree = site.tree) ∧ site.Keyed layout place
  | .locked site, phase =>
    (∃ ticket unchanged, phase = .holding ticket unchanged ∧ ticket.tree = site.tree) ∧
      site.Keyed layout place
  | .measured site unchanged, phase =>
    (∃ ticket, phase = .holding ticket unchanged ∧ ticket.tree = site.tree) ∧
      site.Keyed layout place
  | .checkedOut site unchanged, phase =>
    (∃ ticket, phase = .checkedOut ticket unchanged ∧ ticket.tree = site.tree) ∧
      site.Keyed layout place
  | .swept site unchanged, phase =>
    (∃ ticket, phase = .swept ticket unchanged ∧ ticket.tree = site.tree) ∧
      site.Keyed layout place
  | .returned report, phase => ∃ ticket, phase = .returned ticket report
  | .failed _, phase | .crashed, phase => phase.active = false ∧ phase.ticket = none

/-- What the host has for a canonical path: the worktree, and who holds its lock. -/
def Host.seen (layout : Layout Dir) (host : Host Leaf Dir) (path : Bytes) :
    Worktree Leaf × Option Nat :=
  (⟨host.files path, host.index (layout.stateDir path), host.lastTree (layout.stateDir path)⟩,
    host.lock (layout.stateDir path))

/-- The jobs on canonical paths that the requests come to. -/
def Host.Agrees (requests : Nat → Request) (jobs : Nat → Job) (host : Host Leaf Dir) : Prop :=
  ∀ run, (jobs run).stream = (requests run).stream ∧
    ∀ path, host.place run = some path → (jobs run).worktree = path

/-- The server of canonical paths is where the host is. -/
structure Host.Refines (layout : Layout Dir) (host : Host Leaf Dir) (system : System Leaf) :
    Prop where
  pushes : host.pushes = system.pushes
  seen : ∀ path, layout.Canonical path →
    host.seen layout path = (system.worktree path, system.holder path)
  phase : ∀ run, (host.course run).Matches layout (host.place run) (system.phase run)
  place : ∀ run path, host.place run = some path →
    ∃ moment spelled, moment < host.moment ∧ layout.canonicalize moment spelled = some path

/-- The host with a worktree and its lock as a step left them. -/
def Host.leave [DecidableEq Dir] (host : Host Leaf Dir) (site : Site Leaf Dir)
    (after : Worktree Leaf) (holder : Option Nat) : Host Leaf Dir :=
  { host.put site after with lock := Function.update host.lock site.state holder }

section Seen

variable {layout : Layout Dir} {host : Host Leaf Dir} {site : Site Leaf Dir}
  {place : Option Bytes} {path : Bytes}

/-- What a run works on is what its canonical path is seen to be. -/
theorem Host.worktree_seen (keyed : site.Keyed layout place) :
    host.worktree site = (host.seen layout site.worktree).1 := by
  rw [Host.worktree, keyed.index, keyed.state]
  rfl

variable [DecidableEq Dir]

/-- What a step leaves is seen at its worktree, and at no other canonical path. -/
theorem Host.seen_leave (sound : layout.Sound) (keyed : site.Keyed layout place)
    (here : layout.Canonical site.worktree) (canonical : layout.Canonical path)
    (after : Worktree Leaf) (holder : Option Nat) :
    (host.leave site after holder).seen layout path =
      if path = site.worktree then (after, holder) else host.seen layout path := by
  -- Another canonical path has another state directory.
  by_cases same : path = site.worktree
  · subst same
    simp [Host.seen, Host.leave, Host.put, keyed.index, keyed.state]
  · have apart : layout.stateDir path ≠ layout.stateDir site.worktree :=
      fun clash => same (sound.distinct _ _ canonical here clash)
    simp [Host.seen, Host.leave, Host.put, keyed.index, keyed.state, same, apart]

/-- A run that takes the lock leaves the worktree as it found it. -/
theorem Host.take_leave (run : Nat) :
    host.take run site = host.leave site (host.worktree site) (some run) := by
  simp [Host.take, Host.leave, Host.put, Host.worktree]

/-- A run that is gone leaves the worktree as it was, and the lock free. -/
theorem Host.release_leave : host.release site = host.leave site (host.worktree site) none := by
  simp [Host.release, Host.leave, Host.put, Host.worktree]

/-- A step on the worktree leaves the lock with its holder. -/
theorem Host.put_leave (after : Worktree Leaf) :
    host.put site after = host.leave site after (host.lock site.state) := by
  simp [Host.leave, Host.put]

end Seen

section Step

variable {layout : Layout Dir} {host : Host Leaf Dir} {system : System Leaf} {run : Nat}
  {job : Job} {site : Site Leaf Dir}

/-- A run may go on unnoticed where the update of a canonical path stays where it is. -/
private theorem Host.Refines.enter (refines : host.Refines layout system)
    {course : Course Leaf Dir}
    (matched : course.Matches layout (host.place run) (system.phase run)) :
    (host.enter run course).later.Refines layout system := by
  -- Only the course of this run changes, and time goes on.
  refine ⟨refines.pushes, refines.seen, fun other => ?_, fun other path found => ?_⟩
  · by_cases same : other = run
    · subst same
      simpa [Host.enter, Host.later] using matched
    · simpa [Host.enter, Host.later, Function.update_of_ne same] using refines.phase other
  · obtain ⟨moment, spelled, earlier, known⟩ := refines.place other path found
    exact ⟨moment, spelled, Nat.lt_succ_of_lt earlier, known⟩

/-- A run may go on together with the update of its canonical path. -/
private theorem Host.Refines.paired (refines : host.Refines layout system)
    (before : Host Leaf Dir) (pushes : before.pushes = host.pushes)
    (others : before.course = host.course) (place : before.place = host.place)
    (moment : before.moment = host.moment) {view : View Leaf}
    (seen : ∀ path, layout.Canonical path → before.seen layout path =
      (Function.update system.worktree job.worktree view.worktree path,
        Function.update system.holder job.worktree view.holder path))
    {course : Course Leaf Dir} (matched : course.Matches layout (host.place run) view.phase) :
    (before.enter run course).later.Refines layout (system.show job run view) := by
  -- Both have changed the course of this run, and what is seen.
  refine ⟨pushes.trans refines.pushes, seen, fun other => ?_, fun other path found => ?_⟩
  · by_cases same : other = run
    · subst same
      simpa [Host.enter, Host.later, System.show, place] using matched
    · simpa [Host.enter, Host.later, System.show, place, others, Function.update_of_ne same]
        using refines.phase other
  · obtain ⟨earliest, spelled, earlier, known⟩ := refines.place other path (place ▸ found)
    refine ⟨earliest, spelled, Nat.lt_succ_of_lt ?_, known⟩
    exact moment ▸ earlier

/-- What is seen is unchanged when a run changes nothing that it sees. -/
private theorem Host.Refines.same (refines : host.Refines layout system) (phase : Phase Leaf) :
    ∀ path, layout.Canonical path → host.seen layout path =
      (Function.update system.worktree job.worktree
          ({ system.view job run with phase := phase } : View Leaf).worktree path,
        Function.update system.holder job.worktree
          ({ system.view job run with phase := phase } : View Leaf).holder path) := by
  intro path canonical
  simpa [System.view] using refines.seen path canonical

/-- A run that waits for a lock is ready to take it. -/
private theorem Course.Matches.waits {course : Course Leaf Dir} {place : Option Bytes}
    {phase : Phase Leaf} (waits : course.waits = some site)
    (matched : course.Matches layout place phase) :
    (∃ ticket, phase = .ready ticket ∧ ticket.tree = site.tree) ∧ site.Keyed layout place := by
  cases course <;> cases waits <;> exact matched

/-- A run that has not got the lock goes with an update that has not got it either. -/
private theorem Course.Matches.outside {course : Course Leaf Dir} {place : Option Bytes}
    {phase : Phase Leaf} (active : course.active = true) (outside : course.held = none)
    (matched : course.Matches layout place phase) :
    phase.active = true ∧ phase.holds = false := by
  -- Each course up to the lock goes with one phase.
  cases course with
  | start | discovered =>
    obtain ⟨rfl, -⟩ := matched
    exact ⟨rfl, rfl⟩
  | code tree =>
    obtain ⟨⟨codePush, began, rfl⟩, -⟩ := matched
    exact ⟨rfl, rfl⟩
  | resolved | created | canonical | indexed | located | opened | polling =>
    obtain ⟨⟨ticket, rfl, -⟩, -⟩ := matched
    exact ⟨rfl, rfl⟩
  | locked | measured | checkedOut | swept => cases outside
  | returned | failed | crashed => cases active

/-- A run that holds the lock goes with an update that holds it. -/
theorem Course.Matches.inside {course : Course Leaf Dir} {place : Option Bytes}
    {phase : Phase Leaf} (held : course.held = some site)
    (matched : course.Matches layout place phase) :
    phase.holds = true ∧ site.Keyed layout place := by
  -- Each course under the lock goes with one phase, and has its site.
  cases course with
  | locked found =>
    cases held
    obtain ⟨⟨ticket, unchanged, rfl, -⟩, keyed⟩ := matched
    exact ⟨rfl, keyed⟩
  | measured found unchanged | checkedOut found unchanged | swept found unchanged =>
    cases held
    obtain ⟨⟨ticket, rfl, -⟩, keyed⟩ := matched
    exact ⟨rfl, keyed⟩
  | start | discovered | code | resolved | created | canonical | indexed | located | opened
  | polling | returned | failed | crashed => cases held

/-- A run that has stopped goes with an update that is over without a report. -/
private theorem Course.Stopped.matches_crashed {course : Course Leaf Dir} {place : Option Bytes}
    (stopped : course.Stopped) : course.Matches layout place (.crashed : Phase Leaf) := by
  cases stopped <;> exact ⟨rfl, rfl⟩

/-- A state directory that is found again is the one of the canonical path. -/
private theorem Host.Refines.stateDir (refines : host.Refines layout system)
    (sound : layout.Sound) {path : Bytes} (placed : host.place run = some path) {made : Bool}
    {dir : Dir} (found : layout.worktreeStateDir host.moment path made = .ok dir) :
    dir = layout.stateDir path := by
  -- The path was canonical when it was found, and has stayed so.
  obtain ⟨moment, spelled, earlier, known⟩ := refines.place run path placed
  unfold Layout.worktreeStateDir at found
  split at found
  · cases found
  · rename_i again same
    rw [sound.stable _ _ _ known _ (Nat.le_of_lt earlier) _ same] at found
    cases made <;> cases found
    rfl

/-- A run that has a site sees there what the update of its path sees. -/
private theorem Host.Refines.view (refines : host.Refines layout system)
    (keyed : site.Keyed layout (host.place run)) (own : job.worktree = site.worktree) :
    system.view job run = ⟨system.phase run, host.worktree site, host.lock site.state⟩ := by
  -- The site is where the canonical path says it is.
  obtain ⟨moment, spelled, -, known⟩ := refines.place run _ keyed.place
  have seen := refines.seen site.worktree ⟨moment, spelled, known⟩
  rw [Host.worktree_seen keyed, seen, System.view, own, keyed.state]
  simp only [← (Prod.mk.inj seen).2]

/-- What is seen is what a run makes of its worktree and of the lock on it. -/
private theorem Host.Refines.made [DecidableEq Dir] (refines : host.Refines layout system)
    (sound : layout.Sound)
    (keyed : site.Keyed layout (host.place run)) (own : job.worktree = site.worktree)
    (after : Worktree Leaf) (holder : Option Nat) :
    ∀ path, layout.Canonical path → (host.leave site after holder).seen layout path =
      (Function.update system.worktree job.worktree after path,
        Function.update system.holder job.worktree holder path) := by
  -- One canonical path is changed alike, and the others are left alone.
  intro path canonical
  obtain ⟨moment, spelled, -, known⟩ := refines.place run _ keyed.place
  rw [Host.seen_leave sound keyed ⟨moment, spelled, known⟩ canonical, own]
  by_cases same : path = site.worktree
  · subst same
    simp
  · simp [same, refines.seen path canonical]

variable [DecidableEq Leaf] {rules : IgnoreRules Leaf} {jobs : Nat → Job}

/-- What a step of a run comes to on the server of canonical paths. -/
def System.advance (rules : IgnoreRules Leaf) (jobs : Nat → Job) (system : System Leaf)
    (run : Nat) (action : Action) : Option (View Leaf) :=
  GitFullSend.advance rules (jobs run) run (system.pushes (jobs run).stream) system.clock
    (system.view (jobs run) run) action

/-- A step that the server of canonical paths takes too. -/
private theorem System.advance_execute {action : Action} {view : View Leaf}
    (moved : system.advance rules jobs run action = some view) :
    execute rules jobs system [.act run action] = some (system.show (jobs run) run view) := by
  simp only [System.advance] at moved
  simp [execute, step, moved]

/-- A run that is gone has released its lock. -/
private theorem System.advance_crash (active : (system.phase run).active = true)
    (outside : (system.phase run).holds = false) :
    system.advance rules jobs run .crash =
      some { system.view (jobs run) run with phase := .crashed } := by
  -- Every phase without the lock has the same step.
  simp only [System.advance, System.view]
  cases found : system.phase run with
  | start | code | ready => rfl
  | holding | checkedOut | swept => rw [found] at outside; cases outside
  | returned | failed | crashed => rw [found] at active; cases active

/-- A step that changes nothing but the phase is taken by both. -/
private theorem Host.Refines.goes (refines : host.Refines layout system) {action : Action}
    {phase : Phase Leaf} {course : Course Leaf Dir}
    (moved : system.advance rules jobs run action =
      some { system.view (jobs run) run with phase := phase })
    (matched : course.Matches layout (host.place run) phase) :
    ∃ events next, execute rules jobs system events = some next ∧
      (host.enter run course).later.Refines layout next :=
  ⟨[.act run action], _, System.advance_execute moved,
    refines.paired host rfl rfl rfl rfl (refines.same phase) matched⟩

variable [DecidableEq Dir]

/-- A step on the worktree or its lock is taken by both. -/
private theorem Host.Refines.works (refines : host.Refines layout system) (sound : layout.Sound)
    (keyed : site.Keyed layout (host.place run)) (own : (jobs run).worktree = site.worktree)
    {action : Action} {phase : Phase Leaf} {after : Worktree Leaf} {holder : Option Nat}
    {course : Course Leaf Dir}
    (moved : system.advance rules jobs run action = some ⟨phase, after, holder⟩)
    (matched : course.Matches layout (host.place run) phase) :
    ∃ events next, execute rules jobs system events = some next ∧
      ((host.leave site after holder).enter run course).later.Refines layout next :=
  ⟨[.act run action], _, System.advance_execute moved,
    refines.paired (host.leave site after holder) rfl rfl rfl rfl
      (refines.made sound keyed own after holder) matched⟩

/-- A step of a run that has not got the lock is at most one step of the update of its path. -/
private theorem HostMoves.refines_outside {requests : Nat → Request} {after : Host Leaf Dir}
    (sound : layout.Sound) (refines : host.Refines layout system)
    (agrees : host.Agrees requests jobs)
    (moved : HostMoves layout rules (requests run) host run after)
    (outside : (host.course run).held = none) :
    ∃ events next, execute rules jobs system events = some next ∧
      after.later.Refines layout next := by
  -- Finding paths and waiting are no steps of the update; resolving and locking are.
  have matched := refines.phase run
  have stream := (agrees run).1
  have pushes := refines.pushes
  cases moved with
  | discovered found | created found | opened found =>
    rw [found] at matched
    exact ⟨[], system, rfl, refines.enter matched⟩
  | @code calls code found resolved =>
    rw [found] at matched
    obtain ⟨started, unplaced⟩ := matched
    rw [pushes, ← stream] at resolved
    have moved : system.advance rules jobs run (.resolveCode calls) = some
        { system.view (jobs run) run with
          phase := .code code (system.pushes (jobs run).stream).length system.clock } := by
      simp only [System.advance, advance, System.view, started, resolved]
    exact refines.goes moved ⟨⟨_, _, rfl⟩, unplaced⟩
  | @resolved calls code tree found resolved =>
    rw [found] at matched
    obtain ⟨⟨codePush, began, coded⟩, unplaced⟩ := matched
    rw [pushes, ← stream] at resolved
    have moved : system.advance rules jobs run (.resolveExtra calls) = some
        { system.view (jobs run) run with
          phase := .ready ⟨tree, codePush, (system.pushes (jobs run).stream).length, began,
            system.clock⟩ } := by
      simp only [System.advance, advance, System.view, coded, resolved]
    exact refines.goes moved ⟨⟨_, rfl, rfl⟩, unplaced⟩
  | @canonical tree path found known =>
    rw [found] at matched
    refine ⟨[], system, rfl, refines.pushes, refines.seen, fun other => ?_,
      fun other place placed => ?_⟩
    · by_cases same : other = run
      · subst same
        simpa [Host.enter, Host.later, Course.Matches] using matched.1
      · simpa [Host.enter, Host.later, Function.update_of_ne same] using refines.phase other
    · by_cases same : other = run
      · subst same
        obtain rfl : path = place := by simpa [Host.enter, Host.later] using placed
        exact ⟨host.moment, _, Nat.lt_succ_self _, known⟩
      · simp only [Host.enter, Host.later, Function.update_of_ne same] at placed
        obtain ⟨moment, spelled, earlier, before⟩ := refines.place other place placed
        exact ⟨moment, spelled, Nat.lt_succ_of_lt earlier, before⟩
  | @indexed tree path index made found known =>
    rw [found] at matched
    obtain ⟨ready, placed⟩ := matched
    exact ⟨[], system, rfl, refines.enter ⟨ready, placed, refines.stateDir sound placed known⟩⟩
  | @located tree path index state made found known =>
    rw [found] at matched
    obtain ⟨ready, placed, indexed⟩ := matched
    exact ⟨[], system, rfl,
      refines.enter ⟨ready, placed, indexed, refines.stateDir sound placed known⟩⟩
  | @polls site timeoutMs deadline waits =>
    obtain ⟨ready, keyed⟩ := Course.Matches.waits waits matched
    exact ⟨[], system, rfl, refines.enter ⟨ready, keyed⟩⟩
  | @locked site waits free =>
    obtain ⟨⟨ticket, ready, same⟩, keyed⟩ := Course.Matches.waits waits matched
    have own := (agrees run).2 site.worktree keyed.place
    have moved : system.advance rules jobs run .acquire = some ⟨.holding ticket
        (treeUnchanged ticket.tree (host.worktree site)), host.worktree site, some run⟩ := by
      simp only [System.advance, refines.view keyed own, ready, free, advance]
    rw [Host.take_leave]
    exact refines.works sound keyed own moved ⟨⟨_, _, rfl, same⟩, keyed⟩
  | stops active _ ended =>
    obtain ⟨going, outside⟩ := Course.Matches.outside active outside matched
    exact refines.goes (System.advance_crash going outside) ended.matches_crashed
  | measured found | read found | readFails found | clean found | cleanFails found
  | record _ found =>
    rw [found] at outside
    cases outside
  | dies held =>
    rw [held] at outside
    cases outside

/-- A run that is gone while it holds the lock has done so in the update of its path, too. -/
private theorem System.advance_dies {after : Worktree Leaf} {holder : Option Nat}
    (seen : system.view (jobs run) run = ⟨system.phase run, after, holder⟩)
    (inside : (system.phase run).holds = true) :
    system.advance rules jobs run .crash = some ⟨.crashed, after, none⟩ := by
  simp only [System.advance, seen]
  cases found : system.phase run <;> rw [found] at inside <;> first | rfl | cases inside

/-- A step of a run that holds the lock is at most one step of the update of its path. -/
private theorem HostMoves.refines_inside {requests : Nat → Request} {after : Host Leaf Dir}
    {start : Bytes → Worktree Leaf} (sound : layout.Sound) (refines : host.Refines layout system)
    (serialized : system.Serialized rules jobs start) (agrees : host.Agrees requests jobs)
    (moved : HostMoves layout rules (requests run) host run after)
    (held : (host.course run).held = some site) :
    ∃ events next, execute rules jobs system events = some next ∧
      after.later.Refines layout next := by
  have matched := refines.phase run
  obtain ⟨holds, keyed⟩ := Course.Matches.inside held matched
  have stream := (agrees run).1
  have own := (agrees run).2 site.worktree keyed.place
  cases moved with
  | @measured found' found =>
    rw [found] at matched held
    cases held
    obtain ⟨⟨ticket, unchanged, holding, same⟩, -⟩ := matched
    -- Nothing has happened to the worktree since the lock was taken.
    obtain ⟨before, -, under⟩ := serialized.under holds
    have now : (system.view (jobs run) run).worktree = host.worktree site :=
      congrArg View.worktree (refines.view keyed own)
    rw [holding] at under
    obtain ⟨rfl, untouched⟩ := under
    simp only [System.view, untouched] at now
    refine ⟨[], system, rfl, refines.enter ⟨⟨ticket, ?_, same⟩, keyed⟩⟩
    rw [holding, same, now]
  | @read found' unchanged after found left =>
    rw [found] at matched held
    cases held
    obtain ⟨⟨ticket, holding, same⟩, -⟩ := matched
    have moved : system.advance rules jobs run (.readTree .done) =
        some ⟨.checkedOut ticket unchanged, after, host.lock site.state⟩ := by
      rw [← same] at left
      simp only [System.advance, refines.view keyed own, holding, advance, left]
    rw [Host.put_leave]
    exact refines.works sound keyed own moved ⟨⟨_, rfl, same⟩, keyed⟩
  | @readFails found' unchanged outcome failure after found left =>
    rw [found] at matched held
    cases held
    obtain ⟨⟨ticket, holding, same⟩, -⟩ := matched
    have moved : system.advance rules jobs run (.readTree outcome) =
        some ⟨.failed failure, after, none⟩ := by
      rw [← same] at left
      simp only [System.advance, refines.view keyed own, holding, advance, left]
    exact refines.works sound keyed own moved ⟨rfl, rfl⟩
  | @clean found' unchanged after found left =>
    rw [found] at matched held
    cases held
    obtain ⟨⟨ticket, holding, same⟩, -⟩ := matched
    have moved : system.advance rules jobs run (.clean .done) =
        some ⟨.swept ticket unchanged, after, host.lock site.state⟩ := by
      simp only [System.advance, refines.view keyed own, holding, advance, left]
    rw [Host.put_leave]
    exact refines.works sound keyed own moved ⟨⟨_, rfl, same⟩, keyed⟩
  | @cleanFails found' unchanged outcome failure after found left =>
    rw [found] at matched held
    cases held
    obtain ⟨⟨ticket, holding, same⟩, -⟩ := matched
    have moved : system.advance rules jobs run (.clean outcome) =
        some ⟨.failed failure, after, none⟩ := by
      simp only [System.advance, refines.view keyed own, holding, advance, left]
    exact refines.works sound keyed own moved ⟨rfl, rfl⟩
  | @record found' unchanged outcome found =>
    rw [found] at matched held
    cases held
    obtain ⟨⟨ticket, holding, same⟩, -⟩ := matched
    have moved : system.advance rules jobs run (.record outcome) =
        some ⟨.returned ticket ⟨(requests run).stream, site.worktree, site.tree, unchanged⟩,
          recordTree outcome site.tree (host.worktree site), none⟩ := by
      simp only [System.advance, refines.view keyed own, holding, advance, same, stream, own]
    exact refines.works sound keyed own moved ⟨ticket, rfl⟩
  | @dies found held' =>
    obtain rfl : found = site := Option.some.inj (held'.symm.trans held)
    rw [Host.release_leave]
    exact refines.works sound keyed own
      (System.advance_dies (refines.view keyed own) holds) ⟨rfl, rfl⟩
  | discovered found | code found | resolved found | created found | canonical found
  | indexed found | located found | opened found =>
    rw [found] at held
    cases held
  | polls waits | locked waits =>
    cases found : host.course run <;> rw [found] at held waits <;> cases waits <;> cases held
  | stops active outside => rw [outside] at held; cases held

end Step

/-- The job on a canonical path that each request has come to. -/
def Host.jobs (requests : Nat → Request) (host : Host Leaf Dir) (run : Nat) : Job :=
  ⟨(requests run).stream, (host.place run).getD [], (requests run).mode⟩

/-- The jobs are on the canonical paths that the runs have found. -/
theorem Host.agrees_jobs (requests : Nat → Request) (host : Host Leaf Dir) :
    host.Agrees requests (host.jobs requests) := by
  intro run
  refine ⟨rfl, fun path placed => ?_⟩
  simp [Host.jobs, placed]

section Run

variable [DecidableEq Dir] [DecidableEq Leaf] {layout : Layout Dir} {rules : IgnoreRules Leaf}
  {requests : Nat → Request} {jobs : Nat → Job} {host after : Host Leaf Dir}
  {system : System Leaf} {event : HostEvent Leaf} {events : List (HostEvent Leaf)}

/-- A run that has found its canonical path keeps it. -/
private theorem hostStep_agrees (refines : host.Refines layout system)
    (stepped : hostStep layout rules requests host event = some after)
    (agrees : after.Agrees requests jobs) : host.Agrees requests jobs := by
  cases event with
  | push stream state =>
    cases stepped
    exact agrees
  | act run action =>
    obtain ⟨acted, moved, rfl⟩ := Option.map_eq_some_iff.mp stepped
    intro other
    refine ⟨(agrees other).1, fun path placed => (agrees other).2 path ?_⟩
    cases Host.act_moves moved with
    | canonical found known =>
      -- The path is looked for once, before it is known.
      have matched := refines.phase run
      rw [found] at matched
      have different : other ≠ run := by
        rintro rfl
        rw [matched.2] at placed
        cases placed
      simpa [Host.enter, Host.later, Function.update_of_ne different] using placed
    | discovered | code | resolved | created | indexed | located | opened | polls | locked
    | measured | read | readFails | clean | cleanFails | record | stops | dies => exact placed

/-- Every event on the host is at most one event on the server of canonical paths. -/
theorem hostStep_refines {start : Bytes → Worktree Leaf} (sound : layout.Sound)
    (refines : host.Refines layout system) (serialized : system.Serialized rules jobs start)
    (agrees : host.Agrees requests jobs)
    (stepped : hostStep layout rules requests host event = some after) :
    ∃ moves next, execute rules jobs system moves = some next ∧ after.Refines layout next := by
  -- A push is one on both, and a run moves with the lock or without it.
  cases event with
  | push stream state =>
    cases stepped
    refine ⟨[.push stream state], _, rfl, ?_, refines.seen, refines.phase, ?_⟩
    · simp [refines.pushes]
    · intro run path placed
      obtain ⟨moment, spelled, earlier, known⟩ := refines.place run path placed
      exact ⟨moment, spelled, Nat.lt_succ_of_lt earlier, known⟩
  | act run action =>
    obtain ⟨acted, moved, rfl⟩ := Option.map_eq_some_iff.mp stepped
    cases held : (host.course run).held with
    | none => exact (Host.act_moves moved).refines_outside sound refines agrees held
    | some site =>
      exact (Host.act_moves moved).refines_inside sound refines serialized agrees held

/-- Every run of events on the host is one on the server of canonical paths. -/
theorem executeHost_refines (sound : layout.Sound) {files : Bytes → Tree Leaf}
    {index lastTree : Dir → Option (Tree Leaf)}
    (ran : executeHost layout rules requests (.initial files index lastTree) events = some host)
    (agrees : host.Agrees requests jobs) :
    ∃ moves system, execute rules jobs (.initial fun path =>
        ⟨files path, index (layout.stateDir path), lastTree (layout.stateDir path)⟩) moves =
          some system ∧ host.Refines layout system := by
  -- The induction is from the end; the jobs are those that the last state knows of.
  induction events using List.reverseRecOn generalizing host jobs with
  | nil =>
    cases ran
    refine ⟨[], _, rfl, rfl, fun path canonical => rfl, fun run => ⟨rfl, rfl⟩, ?_⟩
    intro run path placed
    cases placed
  | append_singleton events event ih =>
    obtain ⟨middle, earlier, stepped⟩ := Folds.foldlM_concat.mp ran
    obtain ⟨_, _, _, known⟩ := ih earlier (middle.agrees_jobs requests)
    have before := hostStep_agrees known stepped agrees
    obtain ⟨moves, system, executed, refines⟩ := ih earlier before
    have serialized := (execute_serialized executed).1
    obtain ⟨more, next, went, refined⟩ :=
      hostStep_refines sound refines serialized before stepped
    refine ⟨moves ++ more, next, ?_, refined⟩
    rw [execute, List.foldlM_append]
    exact Option.bind_eq_some_iff.mpr ⟨system, executed, went⟩

end Run

end GitFullSend

import Mathlib.Logic.Function.Basic
import GitFullSend.Lib.Folds
import GitFullSend.Server.WorktreeRace

/-! Worktree updates with each of their calls, the lock file, and what is kept where. -/

namespace GitFullSend

open Utf8 (Bytes)

variable {Leaf Dir : Type}

/-- What one run is asked for: a stream into a worktree, as the caller spelled the two paths. -/
structure Request where
  repo : Bytes
  stream : StreamId
  path : Bytes
  mode : LockMode

/-- Where paths lead, where state directories are, and what the clock shows. -/
structure Layout (Dir : Type) where
  /-- The canonical form of a path at some moment, if it has one. -/
  canonicalize : Nat → Bytes → Option Bytes
  /-- The directory under the git dir that is named by the hash of a canonical path. -/
  stateDir : Bytes → Dir
  /-- What the clock shows at some moment, in milliseconds. -/
  now : Nat → Nat

/-- Some path has had this canonical form. -/
def Layout.Canonical (layout : Layout Dir) (path : Bytes) : Prop :=
  ∃ moment spelled, layout.canonicalize moment spelled = some path

/-- What the file system and the hash of paths are relied on for. -/
structure Layout.Sound (layout : Layout Dir) : Prop where
  /-- The canonical form of a path stays its own canonical form, while it has one. -/
  stable : ∀ moment spelled path, layout.canonicalize moment spelled = some path →
    ∀ later, moment ≤ later → ∀ again, layout.canonicalize later path = some again → again = path
  /-- Distinct canonical paths are hashed to distinct state directories. -/
  distinct : ∀ left right, layout.Canonical left → layout.Canonical right →
    layout.stateDir left = layout.stateDir right → left = right

/-- The state directory of a worktree, created if absent. -/
def Layout.worktreeStateDir (layout : Layout Dir) (moment : Nat) (worktree : Bytes)
    (made : Bool) : Except ServerError Dir :=
  match layout.canonicalize moment worktree with
  | none => .error .createWorktree
  | some canonical => if made then .ok (layout.stateDir canonical) else .error .createWorktree

/-- What a run goes by once it has both of its paths under the git dir. -/
structure Site (Leaf Dir : Type) where
  tree : Tree Leaf
  /-- The canonical path of the worktree. -/
  worktree : Bytes
  /-- The directory of the persistent index. -/
  index : Dir
  /-- The directory of the lock file and of the `last-tree` record. -/
  state : Dir

/-- How far a run has come. -/
inductive Course (Leaf Dir : Type) where
  | start
  | discovered
  | code (tree : Tree Leaf)
  | resolved (tree : Tree Leaf)
  /-- The worktree directory is there. -/
  | created (tree : Tree Leaf)
  | canonical (tree : Tree Leaf) (worktree : Bytes)
  | indexed (tree : Tree Leaf) (worktree : Bytes) (index : Dir)
  | located (site : Site Leaf Dir)
  /-- The lock file is open. -/
  | opened (site : Site Leaf Dir)
  /-- The run polls for the lock until the deadline. -/
  | polling (site : Site Leaf Dir) (timeoutMs deadline : Nat)
  | locked (site : Site Leaf Dir)
  | measured (site : Site Leaf Dir) (unchanged : Bool)
  | checkedOut (site : Site Leaf Dir) (unchanged : Bool)
  | swept (site : Site Leaf Dir) (unchanged : Bool)
  | returned (report : Report Leaf)
  | failed (failure : ServerError)
  | crashed

/-- Whether a run has steps left. -/
def Course.active : Course Leaf Dir → Bool
  | .returned _ | .failed _ | .crashed => false
  | _ => true

/-- The site of a run that is between getting the lock and its end. -/
def Course.held : Course Leaf Dir → Option (Site Leaf Dir)
  | .locked site | .measured site _ | .checkedOut site _ | .swept site _ => some site
  | _ => none

/-- The site of a run that is waiting for the lock of an open lock file. -/
def Course.waits : Course Leaf Dir → Option (Site Leaf Dir)
  | .opened site | .polling site _ _ => some site
  | _ => none

/-- The server's host: its streams, its files, its lock files and its runs. -/
structure Host (Leaf Dir : Type) where
  pushes : StreamId → List (Push Leaf)
  /-- The files below a canonical path. -/
  files : Bytes → Tree Leaf
  /-- The `index` file of a state directory. -/
  index : Dir → Option (Tree Leaf)
  /-- The `last-tree` file of a state directory. -/
  lastTree : Dir → Option (Tree Leaf)
  /-- The run that holds the lock on the `lock` file of a state directory. -/
  lock : Dir → Option Nat
  course : Nat → Course Leaf Dir
  /-- The canonical path a run has found for its worktree. -/
  place : Nat → Option Bytes
  /-- How many events there have been. -/
  moment : Nat

/-- Before the first event, with whatever there is on the disk. -/
def Host.initial (files : Bytes → Tree Leaf) (index lastTree : Dir → Option (Tree Leaf)) :
    Host Leaf Dir :=
  ⟨fun _ => [], files, index, lastTree, fun _ => none, fun _ => .start, fun _ => none, 0⟩

/-- A run goes over to where it is next. -/
def Host.enter (host : Host Leaf Dir) (run : Nat) (course : Course Leaf Dir) : Host Leaf Dir :=
  { host with course := Function.update host.course run course }

/-- The worktree a run works on, and what is kept about it under the git dir. -/
def Host.worktree (host : Host Leaf Dir) (site : Site Leaf Dir) : Worktree Leaf :=
  ⟨host.files site.worktree, host.index site.index, host.lastTree site.state⟩

variable [DecidableEq Dir]

/-- The run has the lock on the lock file. -/
def Host.take (host : Host Leaf Dir) (run : Nat) (site : Site Leaf Dir) : Host Leaf Dir :=
  { host with lock := Function.update host.lock site.state (some run) }

/-- The open lock file is closed, which releases the lock on it. -/
def Host.release (host : Host Leaf Dir) (site : Site Leaf Dir) : Host Leaf Dir :=
  { host with lock := Function.update host.lock site.state none }

/-- The worktree a run works on is as a step of it left it. -/
def Host.put (host : Host Leaf Dir) (site : Site Leaf Dir) (after : Worktree Leaf) :
    Host Leaf Dir :=
  { host with
    files := Function.update host.files site.worktree after.files
    index := Function.update host.index site.index after.index
    lastTree := Function.update host.lastTree site.state after.lastTree }

/-- The next thing a run does, with how it turns out where that is not up to the host. -/
inductive HostAction where
  | discover (found : Bool)
  | resolveCode (calls : TreeCalls)
  | resolveExtra (calls : TreeCalls)
  | createDir (made : Bool)
  | canonicalize
  /-- Find the state directory, for the index first and then for the lock. -/
  | stateDir (made : Bool)
  | openLock (opened : Bool)
  | startPolling
  | tryLock (sound : Bool)
  | measure
  | readTree (outcome : StepOutcome)
  | clean (outcome : StepOutcome)
  | record (outcome : RecordOutcome)
  | crash

variable [DecidableEq Leaf]

/-- One step of a run, or `none` when it cannot take that step now. -/
def Host.act (layout : Layout Dir) (rules : IgnoreRules Leaf) (request : Request)
    (host : Host Leaf Dir) (run : Nat) (action : HostAction) : Option (Host Leaf Dir) :=
  let pushed := stateAt (host.pushes request.stream) (host.pushes request.stream).length
  match host.course run, action with
  | .start, .discover found =>
    some (host.enter run (if found then .discovered else .failed (.notARepo request.repo)))
  | .discovered, .resolveCode calls =>
    match resolveCodeTree calls request.stream pushed.code with
    | .error failure => some (host.enter run (.failed failure))
    | .ok code => some (host.enter run (.code code))
  | .code code, .resolveExtra calls =>
    match (resolveExtraTree calls pushed.extra).bind (overlayExtraOntoCode calls code) with
    | .error failure => some (host.enter run (.failed failure))
    | .ok tree => some (host.enter run (.resolved tree))
  | .resolved tree, .createDir made =>
    some (host.enter run (if made then .created tree else .failed .createWorktree))
  | .created tree, .canonicalize =>
    match layout.canonicalize host.moment request.path with
    | none => some (host.enter run (.failed .createWorktree))
    | some path =>
      let found := { host with place := Function.update host.place run (some path) }
      some (found.enter run (.canonical tree path))
  | .canonical tree path, .stateDir made =>
    match layout.worktreeStateDir host.moment path made with
    | .error failure => some (host.enter run (.failed failure))
    | .ok index => some (host.enter run (.indexed tree path index))
  | .indexed tree path index, .stateDir made =>
    match layout.worktreeStateDir host.moment path made with
    | .error failure => some (host.enter run (.failed failure))
    | .ok state => some (host.enter run (.located ⟨tree, path, index, state⟩))
  | .located site, .openLock opened =>
    some (host.enter run (if opened then .opened site else .failed .lock))
  | .opened site, .startPolling =>
    match request.mode with
    | .wait (some timeoutMs) =>
      some (host.enter run (.polling site timeoutMs (layout.now host.moment + timeoutMs)))
    | _ => none
  | .opened site, .tryLock sound =>
    match request.mode with
    | .wait (some _) => none
    | mode =>
      if !sound then some (host.enter run (.failed .lock))
      else
        match host.lock site.state with
        | none => some ((host.take run site).enter run (.locked site))
        -- Without a refusal the call blocks until the lock is free.
        | some _ => (mode.refusal site.worktree).map fun failure => host.enter run (.failed failure)
  | .polling site timeoutMs deadline, .tryLock sound =>
    if !sound then some (host.enter run (.failed .lock))
    else
      match host.lock site.state with
      | none => some ((host.take run site).enter run (.locked site))
      | some _ =>
        if deadline ≤ layout.now host.moment then
          some (host.enter run (.failed (.lockTimeout site.worktree timeoutMs)))
        -- The run sleeps, and tries again.
        else some (host.enter run (.polling site timeoutMs deadline))
  | .locked site, .measure =>
    some (host.enter run (.measured site (treeUnchanged site.tree (host.worktree site))))
  | .measured site unchanged, .readTree outcome =>
    match readTree outcome site.tree (host.worktree site) with
    | (.ok (), after) => some ((host.put site after).enter run (.checkedOut site unchanged))
    | (.error failure, after) =>
      some (((host.put site after).release site).enter run (.failed failure))
  | .checkedOut site unchanged, .clean outcome =>
    match clean rules outcome (host.worktree site) with
    | (.ok (), after) => some ((host.put site after).enter run (.swept site unchanged))
    | (.error failure, after) =>
      some (((host.put site after).release site).enter run (.failed failure))
  | .swept site unchanged, .record outcome =>
    let after := recordTree outcome site.tree (host.worktree site)
    some (((host.put site after).release site).enter run
      (.returned ⟨request.stream, site.worktree, site.tree, unchanged⟩))
  | course, .crash =>
    -- The operating system releases the lock of a process that is gone.
    if course.active then
      match course.held with
      | some site => some ((host.release site).enter run .crashed)
      | none => some (host.enter run .crashed)
    else none
  | _, _ => none

/-- Something that happens on the server's host. -/
inductive HostEvent (Leaf : Type) where
  /-- A push to a stream lands. -/
  | push (stream : StreamId) (state : Push Leaf)
  /-- A run takes a step. -/
  | act (run : Nat) (action : HostAction)

/-- A moment later. -/
def Host.later (host : Host Leaf Dir) : Host Leaf Dir := { host with moment := host.moment + 1 }

/-- One event, or `none` when it cannot happen now. -/
def hostStep (layout : Layout Dir) (rules : IgnoreRules Leaf) (requests : Nat → Request)
    (host : Host Leaf Dir) : HostEvent Leaf → Option (Host Leaf Dir)
  | .push stream state => some { host with
      pushes := Function.update host.pushes stream (host.pushes stream ++ [state])
      moment := host.moment + 1 }
  | .act run action => (host.act layout rules (requests run) run action).map Host.later

/-- Events in their order. -/
def executeHost (layout : Layout Dir) (rules : IgnoreRules Leaf) (requests : Nat → Request)
    (host : Host Leaf Dir) (events : List (HostEvent Leaf)) : Option (Host Leaf Dir) :=
  events.foldlM (hostStep layout rules requests) host

/-- A run that is over without having checked anything out. -/
inductive Course.Stopped : Course Leaf Dir → Prop where
  | failed (failure : ServerError) : Stopped (.failed failure)
  | crashed : Stopped .crashed

/-- What a step of a run can do. -/
inductive HostMoves (layout : Layout Dir) (rules : IgnoreRules Leaf) (request : Request)
    (host : Host Leaf Dir) (run : Nat) : Host Leaf Dir → Prop where
  | discovered : host.course run = .start →
      HostMoves layout rules request host run (host.enter run .discovered)
  | code {calls code} : host.course run = .discovered →
      resolveCodeTree calls request.stream (stateAt (host.pushes request.stream)
        (host.pushes request.stream).length).code = .ok code →
      HostMoves layout rules request host run (host.enter run (.code code))
  | resolved {calls code tree} : host.course run = .code code →
      (resolveExtraTree calls (stateAt (host.pushes request.stream)
        (host.pushes request.stream).length).extra).bind (overlayExtraOntoCode calls code) =
          .ok tree →
      HostMoves layout rules request host run (host.enter run (.resolved tree))
  | created {tree} : host.course run = .resolved tree →
      HostMoves layout rules request host run (host.enter run (.created tree))
  | canonical {tree path} : host.course run = .created tree →
      layout.canonicalize host.moment request.path = some path →
      HostMoves layout rules request host run
        ({ host with place := Function.update host.place run (some path) }.enter run
          (.canonical tree path))
  | indexed {tree path index made} : host.course run = .canonical tree path →
      layout.worktreeStateDir host.moment path made = .ok index →
      HostMoves layout rules request host run (host.enter run (.indexed tree path index))
  | located {tree path index state made} : host.course run = .indexed tree path index →
      layout.worktreeStateDir host.moment path made = .ok state →
      HostMoves layout rules request host run
        (host.enter run (.located ⟨tree, path, index, state⟩))
  | opened {site} : host.course run = .located site →
      HostMoves layout rules request host run (host.enter run (.opened site))
  | polls {site timeoutMs deadline} : (host.course run).waits = some site →
      HostMoves layout rules request host run
        (host.enter run (.polling site timeoutMs deadline))
  | locked {site} : (host.course run).waits = some site → host.lock site.state = none →
      HostMoves layout rules request host run ((host.take run site).enter run (.locked site))
  | measured {site} : host.course run = .locked site →
      HostMoves layout rules request host run
        (host.enter run (.measured site (treeUnchanged site.tree (host.worktree site))))
  | read {site unchanged after} : host.course run = .measured site unchanged →
      readTree .done site.tree (host.worktree site) = (.ok (), after) →
      HostMoves layout rules request host run
        ((host.put site after).enter run (.checkedOut site unchanged))
  | readFails {site unchanged outcome failure after} : host.course run = .measured site unchanged →
      readTree outcome site.tree (host.worktree site) = (.error failure, after) →
      HostMoves layout rules request host run
        (((host.put site after).release site).enter run (.failed failure))
  | clean {site unchanged after} : host.course run = .checkedOut site unchanged →
      clean rules .done (host.worktree site) = (.ok (), after) →
      HostMoves layout rules request host run
        ((host.put site after).enter run (.swept site unchanged))
  | cleanFails {site unchanged outcome failure after} :
      host.course run = .checkedOut site unchanged →
      clean rules outcome (host.worktree site) = (.error failure, after) →
      HostMoves layout rules request host run
        (((host.put site after).release site).enter run (.failed failure))
  | record {site unchanged} (outcome : RecordOutcome) : host.course run = .swept site unchanged →
      HostMoves layout rules request host run
        (((host.put site (recordTree outcome site.tree (host.worktree site))).release site).enter
          run (.returned ⟨request.stream, site.worktree, site.tree, unchanged⟩))
  /-- It gives up, or is gone, without the lock. -/
  | stops {ended} : (host.course run).active = true → (host.course run).held = none →
      ended.Stopped → HostMoves layout rules request host run (host.enter run ended)
  /-- It is gone while it holds the lock. -/
  | dies {site} : (host.course run).held = some site →
      HostMoves layout rules request host run ((host.release site).enter run .crashed)

section Act

variable {layout : Layout Dir} {rules : IgnoreRules Leaf} {request : Request}
  {host after : Host Leaf Dir} {run : Nat} {action : HostAction}

/-- A run that gives up before it has the lock. -/
private theorem HostMoves.fails {course : Course Leaf Dir} (found : host.course run = course)
    (active : course.active = true) (outside : course.held = none) (failure : ServerError) :
    HostMoves layout rules request host run (host.enter run (.failed failure)) := by
  subst found
  exact .stops active outside (.failed failure)

/-- A run that is under way may be gone, and its lock goes with it. -/
private theorem Host.act_crash (layout : Layout Dir) (rules : IgnoreRules Leaf)
    (request : Request) (host : Host Leaf Dir) (run : Nat) :
    host.act layout rules request run .crash =
      if (host.course run).active then
        match (host.course run).held with
        | some site => some ((host.release site).enter run .crashed)
        | none => some (host.enter run .crashed)
      else none := by
  -- No phase has a crash of its own.
  cases found : host.course run <;> simp only [Host.act, found]

/-- A run that opened the lock file gets the lock, is refused, or waits. -/
private theorem Host.act_tryLock {sound : Bool}
    (acted : host.act layout rules request run (.tryLock sound) = some after) :
    HostMoves layout rules request host run after := by
  -- A run that fails fast is refused at once, and one that polls at its deadline.
  cases found : host.course run <;> simp only [Host.act, found, reduceCtorEq] at acted
  case opened site =>
    have waits : (host.course run).waits = some site := by rw [found]; rfl
    have fails := @HostMoves.fails _ _ _ _ layout rules request host run _ found rfl rfl
    split at acted
    · cases acted
    · split at acted
      · cases acted
        exact fails _
      · split at acted
        · cases acted
          exact .locked waits ‹_›
        · obtain ⟨failure, refused, rfl⟩ := Option.map_eq_some_iff.mp acted
          exact fails failure
  case polling site timeoutMs deadline =>
    have waits : (host.course run).waits = some site := by rw [found]; rfl
    have fails := @HostMoves.fails _ _ _ _ layout rules request host run _ found rfl rfl
    split at acted
    · cases acted
      exact fails _
    · split at acted
      · cases acted
        exact .locked waits ‹_›
      · split at acted <;> cases acted
        · exact fails _
        · exact .polls waits

/-- Every step of a run is one of these moves. -/
theorem Host.act_moves (acted : host.act layout rules request run action = some after) :
    HostMoves layout rules request host run after := by
  -- Every other action has a phase of its own, except that a run may be gone in any.
  cases action with
  | discover isRepo =>
    cases found : host.course run <;> simp only [Host.act, found, reduceCtorEq] at acted
    cases acted
    cases isRepo with
    | true => exact .discovered found
    | false => exact .fails found rfl rfl _
  | resolveCode calls =>
    cases found : host.course run <;> simp only [Host.act, found, reduceCtorEq] at acted
    split at acted <;> cases acted
    · exact .fails found rfl rfl _
    · exact .code found ‹_›
  | resolveExtra calls =>
    cases found : host.course run <;> simp only [Host.act, found, reduceCtorEq] at acted
    split at acted <;> cases acted
    · exact .fails found rfl rfl _
    · exact .resolved found ‹_›
  | createDir made =>
    cases found : host.course run <;> simp only [Host.act, found, reduceCtorEq] at acted
    cases acted
    cases made with
    | true => exact .created found
    | false => exact .fails found rfl rfl _
  | canonicalize =>
    cases found : host.course run <;> simp only [Host.act, found, reduceCtorEq] at acted
    split at acted <;> cases acted
    · exact .fails found rfl rfl _
    · exact .canonical found ‹_›
  | stateDir made =>
    cases found : host.course run <;> simp only [Host.act, found, reduceCtorEq] at acted
    case canonical tree path =>
      split at acted <;> cases acted
      · exact .fails found rfl rfl _
      · exact .indexed found ‹_›
    case indexed tree path index =>
      split at acted <;> cases acted
      · exact .fails found rfl rfl _
      · exact .located found ‹_›
  | openLock opened =>
    cases found : host.course run <;> simp only [Host.act, found, reduceCtorEq] at acted
    cases acted
    cases opened with
    | true => exact .opened found
    | false => exact .fails found rfl rfl _
  | startPolling =>
    cases found : host.course run <;> simp only [Host.act, found, reduceCtorEq] at acted
    split at acted <;> cases acted
    exact .polls (by rw [found]; rfl)
  | tryLock sound => exact Host.act_tryLock acted
  | measure =>
    cases found : host.course run <;> simp only [Host.act, found, reduceCtorEq] at acted
    cases acted
    exact .measured found
  | readTree outcome =>
    cases found : host.course run <;> simp only [Host.act, found, reduceCtorEq] at acted
    split at acted <;> rename_i left <;> cases acted
    · cases outcome with
      | done => exact .read found left
      | notSpawned | failed => cases left
    · exact .readFails found left
  | clean outcome =>
    cases found : host.course run <;> simp only [Host.act, found, reduceCtorEq] at acted
    split at acted <;> rename_i left <;> cases acted
    · cases outcome with
      | done => exact .clean found left
      | notSpawned | failed => cases left
    · exact .cleanFails found left
  | record outcome =>
    cases found : host.course run <;> simp only [Host.act, found, reduceCtorEq] at acted
    cases acted
    exact .record outcome found
  | crash =>
    rw [Host.act_crash] at acted
    split at acted
    · rename_i active
      split at acted <;> rename_i held <;> cases acted
      · exact .dies held
      · exact .stops active held .crashed
    · cases acted

end Act

end GitFullSend

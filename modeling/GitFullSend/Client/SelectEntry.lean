import GitFullSend.Lib.Lists
import GitFullSend.Client.SelectMeaning

/-! Where the include files of a selection are, and which patterns make it walk everything. -/

namespace GitFullSend

open Utf8 (Bytes ofText)

/-- The environment variable that names the per-user include file. -/
def userIncludeEnv : Bytes := ofText "GIT_FULL_SEND_USER_INCLUDE"

/-- What a selection reads: the environment, the pattern files, and what their bytes mean. -/
structure IncludeFiles where
  /-- The environment variables that are set. -/
  env : Bytes → Option Bytes
  read : Bytes → ReadResult
  /-- The ignore parser. -/
  parse : Bytes → List Pattern
  /-- Wildcard matching of a pattern text against a value. -/
  wild : Bytes → Bytes → Bool

/-- Join a path and a name; a path that is empty adds nothing. -/
def joinPath (path name : Bytes) : Bytes :=
  if path.isEmpty then name else childPath path name

/-- The per-user include file, or `none` when the environment names no place for it. -/
def userIncludePath (env : Bytes → Option Bytes) : Option Bytes :=
  match (env userIncludeEnv).filter (· ≠ []) with
  | some path => some path
  | none => do
    let base ← match (env (ofText "XDG_CONFIG_HOME")).filter (· ≠ []) with
      | some xdg => some xdg
      | none => (env (ofText "HOME")).map (joinPath · (ofText ".config"))
    some (joinPath (joinPath base (ofText "git-full-send")) (ofText "include"))

/-- Select the force-included files, with the per-user file given or looked up. -/
def selectExtraPathsMeasured (files : IncludeFiles) (workdir : Bytes) (root : Node)
    (userIncludeOverride : Option Bytes) (extraIncludes : List Bytes) :
    Except SelectError Selection :=
  match userIncludeOverride with
  | some path =>
    selectIn files.wild files.read files.parse workdir root (some path) extraIncludes
  | none =>
    selectIn files.wild files.read files.parse workdir root (userIncludePath files.env)
      extraIncludes

/-- What a directory is found to belong to. -/
inductive Discovered where
  /-- A repository with this working tree. -/
  | worktree (workdir : Bytes)
  /-- A repository without a working tree. -/
  | bare
  /-- No repository at or above the directory. -/
  | nowhere
  deriving DecidableEq, Repr

/-- Add the pattern to the list of those that may match anywhere, as it is written, once. -/
def addUnanchored (out : List Bytes) (pattern : Pattern) : List Bytes :=
  -- A carve-out only shrinks the selection.
  if pattern.negative || (prunablePrefix pattern).isSome then out
  else if out.contains pattern.display then out
  else out ++ [pattern.display]

/-- The patterns of a working tree and of the user that may match at any depth. -/
def unanchoredPatterns (files : IncludeFiles) (repoDir : Bytes) (found : Discovered) :
    Except SelectError (List Bytes) :=
  let list (workdir : Bytes) := do
    let search ← loadSearch files.read files.parse workdir (userIncludePath files.env) []
    pure (search.flatten.foldl addUnanchored [])
  match found with
  | .worktree workdir => list workdir
  | .bare => .ok []
  | .nowhere => list repoDir

section Unanchored

/-- The displays of the positive patterns that may match anywhere. -/
def unanchoredDisplays (search : Search) : List Bytes :=
  ((positivePatterns search).filter fun pattern =>
    (prunablePrefix pattern).isNone).map Pattern.display

/-- The patterns are listed as they are first met, each display once. -/
theorem foldl_addUnanchored (search : Search) :
    search.flatten.foldl addUnanchored [] = (unanchoredDisplays search).eraseDups := by
  -- Skipping a pattern is filtering it out, and what is left is pushed unless it is there.
  have step : addUnanchored = fun out pattern =>
      if !pattern.negative then
        if (prunablePrefix pattern).isNone then
          if out.contains pattern.display then out else out ++ [pattern.display]
        else out
      else out := by
    funext out pattern
    unfold addUnanchored
    cases pattern.negative <;> cases prunablePrefix pattern <;> rfl
  rw [unanchoredDisplays, positivePatterns, ← Lists.foldl_push, List.foldl_map, List.foldl_filter,
    List.foldl_filter, step]

/-- Patterns that are listed are patterns that keep the walk from pruning. -/
theorem canContainMatch_unanchoredDisplays {search : Search}
    (some : unanchoredDisplays search ≠ []) (rel : Bytes) :
    (buildPruneInfo search).canContainMatch rel = true := by
  -- One such pattern is enough.
  have any : (buildPruneInfo search).anyUnanchored = true := by
    obtain ⟨display, listed⟩ := List.exists_mem_of_ne_nil _ some
    obtain ⟨pattern, kept, -⟩ := List.mem_map.mp listed
    obtain ⟨positive, unanchored⟩ := List.mem_filter.mp kept
    exact List.any_eq_true.mpr ⟨pattern, positive, unanchored⟩
  simp [PruneInfo.canContainMatch, any]

/-- More layers have at least the patterns of the first ones. -/
theorem unanchoredDisplays_append (search more : Search) :
    unanchoredDisplays (search ++ more) = unanchoredDisplays search ++ unanchoredDisplays more := by
  simp [unanchoredDisplays, positivePatterns]

end Unanchored

section Audit

/--
A part of the walk accounts for itself.

Each entry it considered pays for at most one directory entered or skipped, or one path selected;
the number is what a caller has considered on its behalf.
-/
structure Walk.Accounts (paid : Nat) (before after : Walk) : Prop where
  unanchored : after.stats.unanchoredPatterns = before.stats.unanchoredPatterns
  entered : after.entered.length + before.stats.dirsEntered =
    before.entered.length + after.stats.dirsEntered
  spent : after.out.length + after.stats.dirsEntered + after.stats.dirsPruned +
      before.stats.pathsConsidered ≤
    before.out.length + before.stats.dirsEntered + before.stats.dirsPruned +
      after.stats.pathsConsidered + paid

/-- Two parts of a walk account for themselves together. -/
theorem Walk.Accounts.trans {first second : Nat} {before middle after : Walk}
    (left : Walk.Accounts first before middle) (right : Walk.Accounts second middle after) :
    Walk.Accounts (first + second) before after := by
  obtain ⟨patterns, dirs, spent⟩ := left
  obtain ⟨patterns', dirs', spent'⟩ := right
  exact ⟨patterns'.trans patterns, by omega, by omega⟩

/-- Whatever is done while nothing is recorded is accounted for. -/
theorem Walk.Accounts.refl (paid : Nat) (walk : Walk) : Walk.Accounts paid walk walk :=
  ⟨rfl, rfl, Nat.le_add_right _ _⟩

variable {wild : Bytes → Bytes → Bool} {search : Search} {prune : PruneInfo}

/-- Going through a directory accounts for itself when the visits of its entries do. -/
private theorem walkEntries_accounts {entries : List (FileName × Node)}
    (each : ∀ entry ∈ entries, ∀ dir path inherited before after,
      visit wild search prune entry.2 dir (relOf path) inherited before = .ok after →
      Walk.Accounts 1 before after) {dir : Bytes} {path : List FileName} {state : Bool}
    {before after : Walk}
    (done : walkEntries (visitAll wild search prune entries) dir (relOf path) state before =
      .ok after) : Walk.Accounts 0 before after := by
  -- Every entry that is visited has been considered, and that pays for its visit.
  rw [walkEntries_eq] at done
  have sorted : ∀ entry ∈ entries.insertionSort fun left right => left.1.bytes ≤ right.1.bytes,
      entry ∈ entries := fun entry listed => (List.mem_insertionSort _).mp listed
  generalize entries.insertionSort (fun left right => left.1.bytes ≤ right.1.bytes) = listed
    at done sorted
  induction listed generalizing before with
  | nil => cases done; exact .refl 0 _
  | cons entry rest ih =>
    obtain ⟨middle, stepped, done⟩ := Folds.foldlM_cons_ok.mp done
    have others := ih done fun other inside => sorted other (List.mem_cons_of_mem _ inside)
    split at stepped
    · cases stepped
      exact others
    · have visited := each entry (sorted entry List.mem_cons_self) _ _ _ _ _ stepped
      have first : Walk.Accounts 0 before middle := by
        obtain ⟨patterns, dirs, spent⟩ := visited
        refine ⟨patterns, dirs, ?_⟩
        simp only [Walk.consider] at spent
        omega
      exact first.trans others

/-- Selecting or not is accounted for. -/
private theorem select_accounts (chosen : Bool) (rel : Bytes) (before : Walk) :
    Walk.Accounts 1 before (if chosen then before.select rel else before) := by
  -- A selected path was considered, and what is not selected costs nothing more.
  cases chosen with
  | false => exact .refl 1 before
  | true =>
    refine ⟨rfl, rfl, ?_⟩
    simp only [Walk.select, List.length_append, List.length_singleton, if_true]
    omega

/-- Skipping a directory is accounted for. -/
private theorem skip_accounts (before : Walk) : Walk.Accounts 1 before before.skip := by
  refine ⟨rfl, rfl, ?_⟩
  simp only [Walk.skip]
  omega

/-- Entering a directory is accounted for. -/
private theorem enter_accounts (before : Walk) (rel : Bytes) :
    Walk.Accounts 1 before (before.enter rel) := by
  -- The directory joins those that were entered.
  refine ⟨rfl, ?_, ?_⟩
  · simp only [Walk.enter, List.length_append, List.length_singleton]
    omega
  · simp only [Walk.enter]
    omega

/-- A visit accounts for itself with what its entry paid. -/
private theorem visit_accounts (node : Node) :
    ∀ dir path inherited before after,
      visit wild search prune node dir (relOf path) inherited before = .ok after →
      Walk.Accounts 1 before after := by
  -- The induction is on the tree; a directory is entered once before its entries are visited.
  induction node using Node.induct with
  | file =>
    intro dir path inherited before after done
    cases done
    exact select_accounts _ _ before
  | symlink =>
    intro dir path inherited before after done
    cases done
    exact select_accounts _ _ before
  | other =>
    intro dir path inherited before after done
    cases done
    exact .refl 1 before
  | unstatable =>
    intro dir path inherited before after done
    cases done
  | unlistable =>
    intro dir path inherited before after done
    simp only [visit] at done
    split at done <;> cases done
    exact skip_accounts before
  | dir entries all =>
    intro dir path inherited before after done
    simp only [visit] at done
    split at done
    · exact (enter_accounts before _).trans (walkEntries_accounts all done)
    · cases done
      exact skip_accounts before

/-- A whole walk accounts for itself, but for the root, which is entered without a look at it. -/
theorem runWalk_accounts {workdir : Bytes} {root : Node} {before after : Walk}
    (done : runWalk wild search prune workdir root before = .ok after) :
    Walk.Accounts 1 before after := by
  -- The root is a directory, and its entries are gone through behind it.
  unfold runWalk at done
  split at done
  · have gone := @walkEntries_accounts _ _ _ _ (fun entry _ => visit_accounts entry.2) workdir [] _
      _ _ done
    exact (enter_accounts before []).trans gone
  · cases done

/-- Dropping repetitions makes no list longer. -/
theorem length_dedup_le : ∀ paths : List Bytes, (dedup paths).length ≤ paths.length
  | [] => Nat.le_refl _
  | [_] => Nat.le_refl _
  | first :: second :: rest => by
    -- One step looks at two neighbours and drops at most one of them.
    have shorter := length_dedup_le (second :: rest)
    unfold dedup
    split
    · exact Nat.le_succ_of_le shorter
    · simpa using shorter

/-- What a selection reports of its walk. -/
structure Selection.Truthful (search : Search) (selection : Selection) : Prop where
  /-- It has as many unanchored patterns as there are different ones. -/
  unanchored : selection.stats.unanchoredPatterns = (unanchoredDisplays search).eraseDups.length
  /-- With one of them, nothing was pruned. -/
  exhaustive : unanchoredDisplays search ≠ [] → selection.stats.dirsPruned = 0
  /-- All it reports to have selected, entered and pruned it has considered, but for the root. -/
  considered : selection.paths.length + selection.stats.dirsEntered + selection.stats.dirsPruned ≤
    selection.stats.pathsConsidered + 1

/-- Every selection reports its walk truthfully. -/
theorem selectIn_truthful {read : Bytes → ReadResult} {parse : Bytes → List Pattern}
    {workdir : Bytes} {root : Node} {userInclude : Option Bytes} {extraIncludes : List Bytes}
    {selection : Selection}
    (loaded : loadSearch read parse workdir userInclude extraIncludes = .ok search)
    (done : selectIn wild read parse workdir root userInclude extraIncludes = .ok selection) :
    selection.Truthful search := by
  -- The walk starts from counters at zero, and sorting its paths makes them no more.
  obtain ⟨walk, walked, rfl⟩ := (selectIn_ok_iff loaded).mp done
  obtain ⟨patterns, -, spent⟩ := runWalk_accounts walked
  obtain ⟨entries, -, adds⟩ := runWalk_adds walked
  refine ⟨patterns, fun some => ?_, ?_⟩
  · exact adds.skipped (canContainMatch_unanchoredDisplays some)
  · have fewer : (sortedPaths walk.out).length ≤ walk.out.length := by
      have kept := length_dedup_le (walk.out.insertionSort (· ≤ ·))
      rwa [List.length_insertionSort] at kept
    simp only [List.length_nil] at spent
    simp only
    omega

end Audit

/-- Extra layers come behind those of the project and of the user. -/
theorem loadSearch_extra {read : Bytes → ReadResult} {parse : Bytes → List Pattern}
    {workdir : Bytes} {userInclude : Option Bytes} {extraIncludes : List Bytes} {search : Search}
    (loaded : loadSearch read parse workdir userInclude extraIncludes = .ok search) :
    ∃ first more, loadSearch read parse workdir userInclude [] = .ok first ∧
      search = first ++ more ∧ (extraIncludes = [] → more = []) := by
  -- The first two layers are read alike, whatever comes behind them.
  obtain ⟨project, user, extras, files, rfl⟩ := loadSearch_ok_iff.mp loaded
  refine ⟨(project.toList ++ user.toList).map parse, extras.map parse, ?_, List.map_append, ?_⟩
  · exact loadSearch_ok_iff.mpr ⟨project, user, [], ⟨files.project, files.user, rfl⟩, by simp⟩
  · rintro rfl
    simpa using files.extras

/--
What `doctor` lists and what a sync reports about the same include files agree.

A sync may be given extra layers, which `doctor` does not know of. It counts at least the patterns
that are listed, and just them without such layers; and when any is listed, it prunes nothing.
-/
theorem unanchoredPatterns_agree {files : IncludeFiles} {repoDir workdir : Bytes} {root : Node}
    {names : List Bytes} {extraIncludes : List Bytes} {selection : Selection}
    (listed : unanchoredPatterns files repoDir (.worktree workdir) = .ok names)
    (selected : selectExtraPathsMeasured files workdir root none extraIncludes = .ok selection) :
    names.length ≤ selection.stats.unanchoredPatterns ∧
      (extraIncludes = [] → names.length = selection.stats.unanchoredPatterns) ∧
      (names ≠ [] → selection.stats.dirsPruned = 0) ∧
      selection.paths.length + selection.stats.dirsEntered + selection.stats.dirsPruned ≤
        selection.stats.pathsConsidered + 1 := by
  -- Both load the layers of the project and of the user, and the sync the extra ones behind them.
  obtain ⟨search, loaded, -⟩ := Folds.bind_ok.mp selected
  obtain ⟨first, more, first_loaded, rfl, none⟩ := loadSearch_extra loaded
  have truthful := selectIn_truthful loaded selected
  obtain ⟨search, again, collected⟩ := Folds.bind_ok.mp listed
  obtain rfl : first = search := Except.ok.inj (first_loaded.symm.trans again)
  obtain rfl : (unanchoredDisplays first).eraseDups = names := by
    rw [← foldl_addUnanchored]
    exact Except.ok.inj collected
  have counted := truthful.unanchored
  rw [unanchoredDisplays_append, List.eraseDups_append, List.length_append] at counted
  refine ⟨by omega, fun alone => ?_, fun some => truthful.exhaustive ?_, truthful.considered⟩
  · rw [none alone] at counted
    simpa [unanchoredDisplays, positivePatterns, List.removeAll] using counted.symm
  · rw [unanchoredDisplays_append]
    intro empty
    exact some (by rw [(List.append_eq_nil_iff.mp empty).1]; rfl)

/-- A pattern without a slash is listed, and the sync that it makes walk everything counts it. -/
theorem unanchoredPatterns_agree_dist :
    ∃ (files : IncludeFiles) (root : Node) (selection : Selection),
      unanchoredPatterns files (ofText "/work") (.worktree (ofText "/work")) =
        .ok [ofText "*.log"] ∧
      selectExtraPathsMeasured files (ofText "/work") root none [ofText "/more"] = .ok selection ∧
      selection.paths = [ofText "a.log", ofText "dist"] ∧
      1 ≤ selection.stats.unanchoredPatterns ∧ selection.stats.dirsPruned = 0 := by
  -- The project has the one pattern, and the extra file names a file that nothing else does.
  let files : IncludeFiles := ⟨fun _ => none,
    fun path => if path = ofText "/more" then .content (ofText "/dist\n")
      else .content (ofText "*.log\n"),
    fun bytes => if bytes = ofText "/dist\n" then [⟨ofText "dist", false, true, false⟩]
      else [⟨ofText "*.log", false, false, false⟩],
    fun _ value => value.getLast? = some 0x67⟩
  let root : Node := .dir [(⟨ofText "dist", by decide, by decide⟩, .file),
    (⟨ofText "a.log", by decide, by decide⟩, .file)]
  have listed : unanchoredPatterns files (ofText "/work") (.worktree (ofText "/work")) =
      .ok [ofText "*.log"] := by decide +kernel
  have selected : selectExtraPathsMeasured files (ofText "/work") root none [ofText "/more"] =
      .ok ⟨[ofText "a.log", ofText "dist"], ⟨1, 0, 2, 1⟩⟩ := by decide +kernel
  obtain ⟨counted, -, pruned, -⟩ := unanchoredPatterns_agree listed selected
  exact ⟨files, root, _, listed, selected, rfl, counted, pruned (by simp)⟩

end GitFullSend

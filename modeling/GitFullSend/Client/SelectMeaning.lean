import Mathlib.Data.List.Infix
import GitFullSend.Client.SelectPrune

/-! The declarative meaning of a selection, and how far a later layer has the final say. -/

namespace GitFullSend

open Utf8 (Bytes ofText)

/-- What stands at a path below a node. -/
def Node.At : Node → List FileName → Node → Prop
  | node, [], target => node = target
  | .dir entries, name :: path, target => ∃ child, (name, child) ∈ entries ∧ child.At path target
  | _, _ :: _, _ => False

/-- A path none of whose components is `.git`. -/
def GitFree (path : List FileName) : Prop := ∀ name ∈ path, name.bytes ≠ gitDirName

/-- The ancestor directories of a path below the root, the deepest first. -/
def ancestors (path : List FileName) : List (List FileName) := path.inits.tail.dropLast.reverse

/-- What a path is decided at: the path itself, then its ancestors as directories. -/
def levels (path : List FileName) : List (List FileName × Bool) :=
  (path, false) :: (ancestors path).map fun dir => (dir, true)

section Meaning

variable (wild : Bytes → Bytes → Bool) (search : Search)

/-- The polarity of the last matching line in the last matching layer. -/
def decision (level : List FileName × Bool) : Option Bool :=
  ((search.flatten.filter fun pattern =>
    pattern.matchesPath wild (relOf level.1) level.2).getLast?).map fun pattern => !pattern.negative

/-- The decision at the path itself or else at its deepest ancestor that has one. -/
def decided (path : List FileName) : Option Bool := (levels path).findSome? (decision wild search)

/-- Whether a path is included: excluded unless decided otherwise. -/
def verdict (path : List FileName) : Bool := (decided wild search path).getD false

/-- The state an entry of a directory inherits: the decision at the deepest directory that has one. -/
def stateOf (dir : List FileName) : Bool :=
  (dir.inits.tail.reverse.findSome? fun dir => decision wild search (dir, true)).getD false

end Meaning

section Levels

variable {wild : Bytes → Bytes → Bool} {search : Search}

private theorem patternMatching_eq_getLast (rel : Bytes) (isDir : Bool) :
    patternMatchingRelativePath wild search rel isDir =
      (search.flatten.filter fun pattern => pattern.matchesPath wild rel isDir).getLast? := by
  -- The induction takes the last layer off, which is scanned first.
  unfold patternMatchingRelativePath
  induction search using List.reverseRecOn with
  | nil => rfl
  | append_singleton earlier last ih =>
    have lines : (last.reverse.find? fun pattern => pattern.matchesPath wild rel isDir) =
        (last.filter fun pattern => pattern.matchesPath wild rel isDir).getLast? := by
      rw [← List.head?_filter, List.filter_reverse, List.head?_reverse]
    rw [List.reverse_append, List.reverse_singleton, List.singleton_append, List.findSome?_cons, ih,
      lines, List.flatten_append, List.filter_append, List.getLast?_append]
    simp only [List.flatten_cons, List.flatten_nil, List.append_nil]
    cases (last.filter fun pattern => pattern.matchesPath wild rel isDir).getLast? <;> rfl

/-- Classifying a path gives the decision at its level. -/
theorem classify_eq_decision (path : List FileName) (isDir : Bool) :
    classify wild search (relOf path) isDir = decision wild search (path, isDir) := by
  rw [classify, patternMatching_eq_getLast, decision]

/-- The last layer decides a level, and the earlier ones do where it has no matching line. -/
theorem decision_append (earlier : Search) (last : List Pattern) (level : List FileName × Bool) :
    decision wild (earlier ++ [last]) level =
      (decision wild [last] level).or (decision wild earlier level) := by
  -- The lines of the last layer come last in the flattened list.
  simp only [decision, List.flatten_append, List.flatten_cons, List.flatten_nil, List.append_nil,
    List.filter_append, List.getLast?_append, Option.map_or]

private theorem initials_concat (dir : List FileName) (name : FileName) :
    (dir ++ [name]).inits.tail = dir.inits.tail ++ [dir ++ [name]] := by
  -- The shortest prefix names nothing, and it is the one that is dropped.
  rw [List.inits_append, List.tail_append_of_ne_nil (by cases dir <;> simp)]
  simp

/-- The ancestors of an entry are its directory and the directories above it. -/
private theorem ancestors_concat (dir : List FileName) (name : FileName) :
    ancestors (dir ++ [name]) = dir.inits.tail.reverse := by
  rw [ancestors, initials_concat, List.dropLast_concat]

private theorem verdict_concat (dir : List FileName) (name : FileName) :
    verdict wild search (dir ++ [name]) =
      (classify wild search (relOf (dir ++ [name])) false).getD (stateOf wild search dir) := by
  -- The levels of an entry are its own one and then those its directory reads its state from.
  rw [verdict, decided, levels, ancestors_concat, List.findSome?_cons, classify_eq_decision,
    stateOf, List.findSome?_map]
  cases decision wild search (dir ++ [name], false) <;> rfl

private theorem stateOf_concat (dir : List FileName) (name : FileName) :
    stateOf wild search (dir ++ [name]) =
      dirState wild search (dir ++ [name]) (stateOf wild search dir) := by
  -- The deepest level comes first, and the others are those of the directory above.
  rw [stateOf, initials_concat, List.reverse_append, List.reverse_singleton, List.singleton_append,
    List.findSome?_cons, dirState, classify_eq_decision, stateOf]
  cases decision wild search (dir ++ [name], true) <;> rfl

/-- The exhaustive walk reaches what stands below a node, except through a Git directory. -/
theorem reaches_exhaustive_iff {node target : Node} {path last : List FileName} {inherited : Bool} :
    (∃ final, Reaches wild search exhaustive node path inherited target last final) ↔
      ∃ tail, last = path ++ tail ∧ node.At tail target ∧ GitFree tail := by
  -- The exhaustive walk descends everywhere, so only `.git` keeps it away.
  constructor
  · intro reached
    obtain ⟨final, reached⟩ := reached
    induction reached with
    | here => exact ⟨[], by simp, rfl, by simp [GitFree]⟩
    | @deeper entries path last inherited final name child target listed git down rest ih =>
      obtain ⟨tail, rfl, below, free⟩ := ih
      exact ⟨name :: tail, by simp, ⟨child, listed, below⟩, List.forall_mem_cons.mpr ⟨git, free⟩⟩
  · intro named
    obtain ⟨tail, rfl, below, free⟩ := named
    -- The induction follows the names down the tree.
    induction tail generalizing node path inherited with
    | nil =>
      obtain rfl : node = target := by simpa [Node.At] using below
      exact ⟨inherited, by simpa using .here⟩
    | cons name tail ih =>
      obtain ⟨git, free⟩ := List.forall_mem_cons.mp free
      cases node with
      | dir entries =>
        obtain ⟨child, listed, below⟩ := below
        obtain ⟨final, reached⟩ : ∃ final, Reaches wild search exhaustive child (path ++ [name])
          (dirState wild search path inherited) target (path ++ [name] ++ tail) final :=
          ih below free
        refine ⟨final, .deeper listed git (by simp [descends, canContainMatch_exhaustive]) ?_⟩
        simpa using reached
      | _ => exact below.elim

/-- Along the walk every entry inherits the state of its directory. -/
theorem Reaches.inherits {prune : PruneInfo} {node target : Node} {path last : List FileName}
    {inherited final : Bool}
    (reached : Reaches wild search prune node path inherited target last final)
    (dir : List FileName) {name : FileName} (entry : path = dir ++ [name])
    (handed : inherited = stateOf wild search dir) :
    ∃ dir name, last = dir ++ [name] ∧ final = stateOf wild search dir := by
  -- The induction is on the way down, and the state is handed on at each directory.
  induction reached generalizing dir name with
  | here => exact ⟨dir, name, entry, handed⟩
  | deeper listed git down rest ih =>
    -- The directory hands its own state to the entries below it.
    refine ih _ rfl ?_
    rw [handed, entry, stateOf_concat]

private theorem picks_root_iff {entries : List (FileName × Node)} {rel : Bytes} :
    (∃ entry ∈ entries, entry.1.bytes ≠ gitDirName ∧
        Picks wild search exhaustive entry.2 [entry.1] false rel) ↔
      ∃ path target, (Node.dir entries).At path target ∧ target.isLeaf = true ∧ GitFree path ∧
        verdict wild search path = true ∧ rel = relOf path := by
  -- The root starts excluded, which is the state of a path with no matching ancestor.
  constructor
  · intro picked
    obtain ⟨entry, listed, git, target, last, final, reached, leaf, selected, rfl⟩ := picked
    obtain ⟨tail, named, below, free⟩ := reaches_exhaustive_iff.mp ⟨final, reached⟩
    obtain ⟨dir, name, rfl, rfl⟩ := reached.inherits [] rfl rfl
    refine ⟨entry.1 :: tail, target, ⟨entry.2, listed, below⟩, leaf,
      List.forall_mem_cons.mpr ⟨git, free⟩, ?_, congrArg relOf (by simpa using named)⟩
    rw [show entry.1 :: tail = dir ++ [name] by simpa using named.symm, verdict_concat]
    exact selected
  · intro meant
    obtain ⟨path, target, below, leaf, free, included, rfl⟩ := meant
    cases path with
    | nil =>
      obtain rfl : Node.dir entries = target := below
      cases leaf
    | cons first tail =>
      obtain ⟨child, listed, below⟩ := below
      obtain ⟨git, free⟩ := List.forall_mem_cons.mp free
      obtain ⟨final, reached⟩ : ∃ final, Reaches wild search exhaustive child [first] false target
          ([first] ++ tail) final := reaches_exhaustive_iff.mpr ⟨tail, rfl, below, free⟩
      refine ⟨(first, child), listed, git, target, _, final, reached, leaf, ?_, rfl⟩
      obtain ⟨dir, name, named, rfl⟩ := reached.inherits [] rfl rfl
      rw [named, ← verdict_concat, ← named]
      exact included

end Levels

section Selection

variable {wild : Bytes → Bytes → Bool} {search : Search} {read : Bytes → ReadResult}
  {parse : Bytes → List Pattern} {workdir : Bytes} {root : Node} {userInclude : Option Bytes}
  {extraIncludes : List Bytes} {selection : Selection}

/-- What the pattern files of a selection hold, where a file that is not there makes no layer. -/
structure PatternFiles (read : Bytes → ReadResult) (workdir : Bytes) (userInclude : Option Bytes)
    (extraIncludes : List Bytes) (project user : Option Bytes) (extras : List Bytes) : Prop where
  project : read (childPath workdir projectIncludeFile) = project.elim .notFound .content
  user : userInclude.elim .notFound read = user.elim .notFound .content
  extras : extraIncludes.map read = extras.map .content

/-- Reading an optional file gives what it holds, if it is there. -/
private theorem readOptional_ok {path : Bytes} {found : Option Bytes} :
    readOptional read path = .ok found ↔ read path = found.elim .notFound .content := by
  unfold readOptional
  cases read path <;> cases found <;> simp

/-- Reading the required files gives what they hold, all of them being there. -/
private theorem readRequired_ok {paths extras : List Bytes} :
    paths.mapM (readRequired read) = .ok extras ↔ paths.map read = extras.map .content := by
  have single : ∀ path bytes, readRequired read path = .ok bytes ↔ read path = .content bytes := by
    intro path bytes
    unfold readRequired
    cases read path <;> simp
  -- The induction is on the files, which are read in their order.
  induction paths generalizing extras with
  | nil => cases extras <;> simp [pure, Except.pure]
  | cons path rest ih =>
    rw [List.mapM_cons, Folds.bind_ok]
    constructor
    · intro done
      obtain ⟨bytes, first, done⟩ := done
      obtain ⟨others, later, done⟩ := Folds.bind_ok.mp done
      cases done
      rw [List.map_cons, List.map_cons, (single _ _).mp first, ih.mp later]
    · intro held
      cases extras with
      | nil => cases held
      | cons bytes others =>
        obtain ⟨first, later⟩ := List.cons.inj held
        exact ⟨bytes, (single _ _).mpr first, Folds.bind_ok.mpr ⟨others, ih.mpr later, rfl⟩⟩

/-- Loading reads the layers of the project and of the user, and then the extra ones. -/
private theorem loadSearch_eq (read : Bytes → ReadResult) (parse : Bytes → List Pattern)
    (workdir : Bytes) (userInclude : Option Bytes) (extraIncludes : List Bytes) :
    loadSearch read parse workdir userInclude extraIncludes =
      readOptional read (childPath workdir projectIncludeFile) >>= fun project =>
      userInclude.elim (.ok none) (readOptional read) >>= fun user =>
      extraIncludes.mapM (readRequired read) >>= fun extras =>
      .ok (project.toList.map parse ++ user.toList.map parse ++ extras.map parse) := by
  cases userInclude <;> rfl

/-- The layers that are loaded are those of the project, of the user and of each extra file. -/
theorem loadSearch_ok_iff :
    loadSearch read parse workdir userInclude extraIncludes = .ok search ↔
      ∃ project user extras,
        PatternFiles read workdir userInclude extraIncludes project user extras ∧
        search = (project.toList ++ user.toList ++ extras).map parse := by
  have optional : ∀ user, userInclude.elim (.ok none) (readOptional read) = .ok user ↔
      userInclude.elim .notFound read = user.elim .notFound .content := by
    intro user
    cases userInclude with
    | none => cases user <;> simp
    | some path => exact readOptional_ok
  -- Each of the three loads succeeds in its own way, and the layers are what they return.
  rw [loadSearch_eq, Folds.bind_ok]
  constructor
  · intro loaded
    obtain ⟨project, first, loaded⟩ := loaded
    obtain ⟨user, second, loaded⟩ := Folds.bind_ok.mp loaded
    obtain ⟨extras, third, loaded⟩ := Folds.bind_ok.mp loaded
    cases loaded
    exact ⟨project, user, extras,
      ⟨readOptional_ok.mp first, (optional user).mp second, readRequired_ok.mp third⟩, by simp⟩
  · intro held
    obtain ⟨project, user, extras, files, rfl⟩ := held
    exact ⟨project, readOptional_ok.mpr files.project, Folds.bind_ok.mpr ⟨user,
      (optional user).mpr files.user, Folds.bind_ok.mpr ⟨extras,
      readRequired_ok.mpr files.extras, by simp⟩⟩⟩

/-- A selection is the pruned walk under the loaded layers, sorted. -/
theorem selectIn_ok_iff
    (loaded : loadSearch read parse workdir userInclude extraIncludes = .ok search) :
    selectIn wild read parse workdir root userInclude extraIncludes = .ok selection ↔
      ∃ walk, runWalk wild search (buildPruneInfo search) workdir root
          ⟨[], { unanchoredPatterns := (buildPruneInfo search).unanchoredCount }, []⟩ = .ok walk ∧
        ⟨sortedPaths walk.out, walk.stats⟩ = selection := by
  -- Once the patterns are loaded only the walk can fail.
  simp only [selectIn, loaded, Bind.bind, Except.bind, Pure.pure, Except.pure]
  cases runWalk wild search (buildPruneInfo search) workdir root
    ⟨[], { unanchoredPatterns := (buildPruneInfo search).unanchoredCount }, []⟩ <;> simp

/-- A selection lists the included files and symlinks of the tree. -/
theorem mem_selectIn {entries : List (FileName × Node)}
    (loaded : loadSearch read parse workdir userInclude extraIncludes = .ok search)
    (done : selectIn wild read parse workdir (.dir entries) userInclude extraIncludes = .ok selection)
    (rel : Bytes) :
    rel ∈ selection.paths ↔
      ∃ path target, (Node.dir entries).At path target ∧ target.isLeaf = true ∧ GitFree path ∧
        verdict wild search path = true ∧ rel = relOf path := by
  -- The pruned walk picks what the exhaustive one does, and that is the included files.
  obtain ⟨walk, walked, rfl⟩ := (selectIn_ok_iff loaded).mp done
  obtain ⟨_, same, added⟩ := runWalk_adds walked
  cases same
  rw [mem_sortedPaths, added.out, ← picks_root_iff]
  simp only [List.not_mem_nil, false_or,
    picks_sound_iff buildPruneInfo_sound (List.cons_ne_nil _ _)]

/-- Selecting from a readable tree succeeds. -/
theorem selectIn_complete {entries : List (FileName × Node)} (wild : Bytes → Bytes → Bool)
    (loaded : loadSearch read parse workdir userInclude extraIncludes = .ok search)
    (readable : (Node.dir entries).Readable) :
    ∃ selection, selectIn wild read parse workdir (.dir entries) userInclude extraIncludes =
      .ok selection := by
  -- The patterns are loaded, and a readable tree can be walked.
  obtain ⟨walk, walked⟩ := runWalk_complete wild search (buildPruneInfo search) readable workdir
    ⟨[], { unanchoredPatterns := (buildPruneInfo search).unanchoredCount }, []⟩
  exact ⟨_, (selectIn_ok_iff loaded).mpr ⟨walk, walked, rfl⟩⟩

/-- The paths of a selection strictly increase in byte order. -/
theorem selectIn_increasing
    (loaded : loadSearch read parse workdir userInclude extraIncludes = .ok search)
    (done : selectIn wild read parse workdir root userInclude extraIncludes = .ok selection) :
    selection.paths.Pairwise (· < ·) := by
  -- The list is sorted without repetitions, whatever the walk collected.
  obtain ⟨walk, walked, rfl⟩ := (selectIn_ok_iff loaded).mp done
  exact sortedPaths_increasing walk.out

/--
The selection of a readable tree is its included files and symlinks, in byte order.

The layers that decide are the project file, the user file and the extra files, in this order.
-/
theorem selectIn_meaning {entries : List (FileName × Node)} {project user : Option Bytes}
    {extras : List Bytes} (wild : Bytes → Bytes → Bool) (parse : Bytes → List Pattern)
    (files : PatternFiles read workdir userInclude extraIncludes project user extras)
    (readable : (Node.dir entries).Readable) :
    ∃ selection, selectIn wild read parse workdir (.dir entries) userInclude extraIncludes =
        .ok selection ∧ selection.paths.Pairwise (· < ·) ∧
      ∀ rel, rel ∈ selection.paths ↔
        ∃ path target, (Node.dir entries).At path target ∧ target.isLeaf = true ∧ GitFree path ∧
          verdict wild ((project.toList ++ user.toList ++ extras).map parse) path = true ∧
          rel = relOf path := by
  have loaded : loadSearch read parse workdir userInclude extraIncludes =
      .ok ((project.toList ++ user.toList ++ extras).map parse) :=
    loadSearch_ok_iff.mpr ⟨project, user, extras, files, rfl⟩
  obtain ⟨selection, done⟩ := selectIn_complete wild loaded readable
  exact ⟨selection, done, selectIn_increasing loaded done, mem_selectIn loaded done⟩

end Selection

/--
The project's `/dist/` and the user's `notes`, of which an extra file takes `/dist/secret` out.

Two files are selected, and the file that is taken out is left out like the one nobody names.
-/
theorem selectIn_meaning_dist :
    ∃ (entries : List (FileName × Node)) (parse : Bytes → List Pattern) (selection : Selection),
      entries.map (fun entry => entry.1.bytes) = [ofText "dist", ofText "notes", ofText "other"] ∧
      [ofText "/dist/", ofText "notes", ofText "!/dist/secret"].map parse =
        [[⟨ofText "dist", false, true, true⟩], [⟨ofText "notes", false, false, false⟩],
          [⟨ofText "dist/secret", true, true, false⟩]] ∧
      selectIn (fun _ _ => false)
        (fun path => if path = ofText "/mine" then .content (ofText "notes")
          else if path = ofText "/more" then .content (ofText "!/dist/secret")
          else .content (ofText "/dist/"))
        parse (ofText "/work") (.dir entries) (some (ofText "/mine")) [ofText "/more"] =
        .ok selection ∧
      selection.paths = [ofText "dist/app.js", ofText "notes"] ∧
      ∀ rel, rel ∈ selection.paths ↔
        ∃ path target, (Node.dir entries).At path target ∧ target.isLeaf = true ∧ GitFree path ∧
          verdict (fun _ _ => false)
            ([ofText "/dist/", ofText "notes", ofText "!/dist/secret"].map parse) path = true ∧
          rel = relOf path := by
  let read : Bytes → ReadResult := fun path =>
    if path = ofText "/mine" then .content (ofText "notes")
    else if path = ofText "/more" then .content (ofText "!/dist/secret")
    else .content (ofText "/dist/")
  let parse : Bytes → List Pattern := fun line =>
    if line = ofText "/dist/" then [⟨ofText "dist", false, true, true⟩]
    else if line = ofText "notes" then [⟨ofText "notes", false, false, false⟩]
    else [⟨ofText "dist/secret", true, true, false⟩]
  let entries : List (FileName × Node) := [
    (⟨ofText "dist", by decide, by decide⟩, .dir [
      (⟨ofText "app.js", by decide, by decide⟩, .file),
      (⟨ofText "secret", by decide, by decide⟩, .file)]),
    (⟨ofText "notes", by decide, by decide⟩, .file),
    (⟨ofText "other", by decide, by decide⟩, .file)]
  have files : PatternFiles read (ofText "/work") (some (ofText "/mine")) [ofText "/more"]
      (some (ofText "/dist/")) (some (ofText "notes")) [ofText "!/dist/secret"] :=
    ⟨by decide, by decide, by decide⟩
  have readable : (Node.dir entries).Readable := by
    have inside : ∀ left right : FileName, (Node.dir [(left, .file), (right, .file)]).Readable :=
      fun left right => .dir (by simp [Node.Readable.file])
    exact .dir (by simp [entries, inside, Node.Readable.file])
  obtain ⟨selection, done, -, paths⟩ := selectIn_meaning (fun _ _ => false) parse files readable
  refine ⟨entries, parse, selection, rfl, by decide, done, ?_, paths⟩
  -- The selection is the one that the walk computes.
  have found : (selectIn (fun _ _ => false) read parse (ofText "/work") (.dir entries)
      (some (ofText "/mine")) [ofText "/more"]).map Selection.paths =
      .ok [ofText "dist/app.js", ofText "notes"] := by decide
  rw [done] at found
  exact Except.ok.inj found

end GitFullSend

import GitFullSend.Client.SelectEntry
import GitFullSend.Client.WorkingTree

/-! Encoding the force-included files: the whole selection, as it stands on disk. -/

namespace GitFullSend

open Utf8 (Bytes ofText)

variable {Oid : Type}

/-- Size metadata for the full force-included set. -/
structure ExtraLayerStats where
  /-- Number of force-included files encoded. -/
  files : Nat
  /-- Total content bytes of those files. -/
  bytes : Nat
  /-- What the selection walk cost to find them. -/
  select : SelectStats
  deriving DecidableEq, Repr

/-- A synthetic commit, without the identity and the time it is stamped with. -/
structure SynthCommit (Oid : Type) where
  tree : Editor Oid
  parents : List Oid
  message : String

/-- The message of every `extra` commit. -/
def synthExtraMessage : String := "git-full-send: extra (force-included) snapshot"

/-- Errors of encoding the `extra` layer, without the texts other programs attach. -/
inductive ExtraError where
  /-- No Git repository could be found at or above the given path. -/
  | openRepo (path : Bytes)
  /-- The repository has no working tree. -/
  | noWorktree (path : Bytes)
  /-- Resolving the previous `extra` tip failed. -/
  | extraParent
  /-- Selecting the force-included files failed. -/
  | select (error : SelectError)
  /-- Reading a file, writing a blob or building the tree failed. -/
  | encode (error : EncodeError)
  /-- Updating the scratch ref failed. -/
  | updateRef (refName : Bytes)
  deriving DecidableEq, Repr

/-- What encoding the `extra` layer meets in the client repository. -/
structure ExtraSurroundings (Oid : Type) where
  found : Discovered
  files : IncludeFiles
  /-- What the walk finds in the working tree. -/
  root : Node
  /-- What the reads of the encoder find at each path of the working tree. -/
  entry : Bytes → DiskEntry
  calls : ObjectCalls Oid
  /-- What a ref leads to, if there is one, or an error where it cannot be resolved. -/
  peel : Bytes → Except Unit (Option Oid)
  /-- Whether the assembled tree can be written. -/
  writeTree : Bool
  /-- The id of a commit once it is written, or `none` when writing fails. -/
  writeCommit : SynthCommit Oid → Option Oid
  /-- Whether the transaction on a ref goes through. -/
  editReference : Bytes → Bool

/-- The result of encoding the `extra` layer. -/
structure ExtraOutcome (Oid : Type) where
  /-- The commit the stream's `extra` ref now points at. -/
  commit : Oid
  /-- The tree that commit holds. -/
  tree : Editor Oid
  /-- The ref that was written. -/
  extraRef : Bytes
  stats : ExtraLayerStats

/-- Overlay one selected path, and add what was read to the bytes so far. -/
def overlaySelected (calls : ObjectCalls Oid) (checkout : Checkout) (state : Editor Oid × Nat)
    (path : Bytes) : Except EncodeError (Editor Oid × Nat) := do
  let (editor, bytes) ← overlayFromDisk calls checkout state.1 path
  pure (editor, state.2 + bytes)

/-- The working tree of the repository that is found. -/
def Discovered.workdir (found : Discovered) (repoDir : Bytes) : Except ExtraError Bytes :=
  match found with
  | .nowhere => .error (.openRepo repoDir)
  | .bare => .error (.noWorktree repoDir)
  | .worktree workdir => .ok workdir

/-- Encode the force-included files of a repository into a commit under the stream's `extra` ref. -/
def encodeExtra (around : ExtraSurroundings Oid) (repoDir : Bytes) (stream : StreamId)
    (userInclude : Option Bytes) (extraIncludes : List Bytes) :
    Except ExtraError (ExtraOutcome Oid) := do
  let workdir ← around.found.workdir repoDir
  -- The parent is the tip that was pushed last, whatever the local `extra` ref names.
  let parent ← (around.peel (sentExtraRef stream)).mapError fun _ => .extraParent
  let selection ← (selectExtraPathsMeasured around.files workdir around.root userInclude
    extraIncludes).mapError .select
  let (tree, bytes) ← (selection.paths.foldlM
    (overlaySelected around.calls ⟨workdir, around.entry⟩) (Leaves.empty, 0)).mapError .encode
  if !around.writeTree then .error (.encode .buildTree)
  else
    match around.writeCommit ⟨tree, parent.toList, synthExtraMessage⟩ with
    | none => .error (.encode .writeObject)
    | some commit =>
      if !around.editReference (extraRef stream) then .error (.updateRef (extraRef stream))
      else .ok ⟨commit, tree, extraRef stream, ⟨selection.paths.length, bytes, selection.stats⟩⟩

section Selecting

/-- The walk sees the files and the symlinks of a working tree, and no others. -/
structure Node.Pictures (root : Node) (tree : WorkingTree) : Prop where
  file : ∀ path, path ≠ [] →
    (root.At path .file ↔ ∃ mode content, tree.standing (relOf path) = .file mode content)
  symlink : ∀ path, path ≠ [] →
    (root.At path .symlink ↔ ∃ target, tree.standing (relOf path) = .symlink target)

/-- A path is force-included: it is a file or a symlink, and the patterns include it. -/
def WorkingTree.Selects (tree : WorkingTree) (wild : Bytes → Bytes → Bool) (search : Search)
    (path : Bytes) : Prop :=
  (tree.standing path).content ≠ none ∧
    ∃ names, names ≠ [] ∧ GitFree names ∧ verdict wild search names = true ∧ path = relOf names

/-- A file or a symlink is what the walk sees where one stands. -/
theorem Node.Pictures.leaf_iff {root : Node} {tree : WorkingTree} (pictures : root.Pictures tree)
    {path : List FileName} (below : path ≠ []) :
    (∃ target, root.At path target ∧ target.isLeaf = true) ↔
      (tree.standing (relOf path)).content ≠ none := by
  -- Files and symlinks are the two kinds that have content, and the two that are leaves.
  constructor
  · intro seen
    obtain ⟨target, at_path, leaf⟩ := seen
    cases target with
    | file =>
      obtain ⟨mode, content, stands⟩ := (pictures.file path below).mp at_path
      simp [stands, Standing.content]
    | symlink =>
      obtain ⟨target, stands⟩ := (pictures.symlink path below).mp at_path
      simp [stands, Standing.content]
    | other | unstatable | unlistable | dir => cases leaf
  · intro content
    cases stands : tree.standing (relOf path) with
    | file mode bytes => exact ⟨.file, (pictures.file path below).mpr ⟨mode, bytes, stands⟩, rfl⟩
    | symlink target => exact ⟨.symlink, (pictures.symlink path below).mpr ⟨target, stands⟩, rfl⟩
    | missing | directory | special => simp [stands, Standing.content] at content

/-- The user layer is the one that is given, or else the one the environment names. -/
theorem selectExtraPathsMeasured_eq (files : IncludeFiles) (workdir : Bytes) (root : Node)
    (userInclude : Option Bytes) (extraIncludes : List Bytes) :
    selectExtraPathsMeasured files workdir root userInclude extraIncludes =
      selectIn files.wild files.read files.parse workdir root
        (userInclude.or (userIncludePath files.env)) extraIncludes := by
  cases userInclude <;> rfl

/-- The selection from a working tree is what is force-included there. -/
theorem mem_selection {tree : WorkingTree} {entries : List (FileName × Node)}
    {wild : Bytes → Bytes → Bool} {search : Search} {read : Bytes → ReadResult}
    {parse : Bytes → List Pattern} {workdir : Bytes} {userInclude : Option Bytes}
    {extraIncludes : List Bytes} {selection : Selection}
    (pictures : (Node.dir entries).Pictures tree)
    (loaded : loadSearch read parse workdir userInclude extraIncludes = .ok search)
    (done : selectIn wild read parse workdir (.dir entries) userInclude extraIncludes =
      .ok selection) (path : Bytes) :
    path ∈ selection.paths ↔ tree.Selects wild search path := by
  -- The walk selects leaves at paths with a name, and those are the files that stand.
  rw [mem_selectIn loaded done]
  constructor
  · intro chosen
    obtain ⟨names, target, at_path, leaf, free, included, rfl⟩ := chosen
    have below : names ≠ [] := by
      rintro rfl
      obtain rfl : Node.dir entries = target := by simpa [Node.At] using at_path
      cases leaf
    exact ⟨(pictures.leaf_iff below).mp ⟨target, at_path, leaf⟩, names, below, free, included, rfl⟩
  · intro selects
    obtain ⟨content, names, below, free, included, rfl⟩ := selects
    obtain ⟨target, at_path, leaf⟩ := (pictures.leaf_iff below).mpr content
    exact ⟨names, target, at_path, leaf, free, included, rfl⟩

end Selecting

section Overlaying

variable {calls : ObjectCalls Oid} {checkout : Checkout} {tree : WorkingTree}

/-- What overlaying a path writes: the leaf that stands there. -/
def WorkingTree.writes (calls : ObjectCalls Oid) (tree : WorkingTree) (path : Bytes) :
    Option (Edit Bytes (EntryKind × Oid)) :=
  ((tree.standing path).leaf calls).map (.upsert (segments path))

/-- Where something can be read and written, its leaf is put into the tree and its bytes counted. -/
theorem overlayFromDisk_standing (shown : tree.ShownBy checkout)
    (written : ∀ content, (calls.writeBlob content).isSome) {path content : Bytes}
    (stands : (tree.standing path).content = some content) (taken : calls.editable path = true)
    (editor : Editor Oid) :
    ∃ leaf, (tree.standing path).leaf calls = some leaf ∧
      overlayFromDisk calls checkout editor path =
        .ok (editor.upsert (segments path) leaf, content.length) := by
  -- The two kinds that have content are read alike, and differ in the kind of the leaf.
  have present : tree.standing path ≠ .missing := by
    intro missing
    simp [missing, Standing.content] at stands
  obtain ⟨id, stored⟩ := Option.isSome_iff_exists.mp (written content)
  have seen := shown path present
  unfold overlayFromDisk diskContent
  rw [seen]
  cases kind : tree.standing path with
  | missing | directory | special => simp [kind, Standing.content] at stands
  | symlink target =>
    obtain rfl : target = content := by simpa [kind, Standing.content] using stands
    refine ⟨(.link, id), by simp [Standing.leaf, stored], ?_⟩
    simp [Standing.seen, stored, Editor.put, taken, Bind.bind, Except.bind, Pure.pure, Except.pure]
  | file mode bytes =>
    obtain rfl : bytes = content := by simpa [kind, Standing.content] using stands
    refine ⟨(blobKind mode, id), by simp [Standing.leaf, stored], ?_⟩
    simp [Standing.seen, stored, Editor.put, taken, Bind.bind, Except.bind, Pure.pure, Except.pure]

/-- Overlaying files one after the other writes what stands there, and adds up their bytes. -/
theorem overlaySelected_run (shown : tree.ShownBy checkout)
    (written : ∀ content, (calls.writeBlob content).isSome) {paths : List Bytes}
    (stand : ∀ path ∈ paths, (tree.standing path).content ≠ none)
    (taken : ∀ path ∈ paths, calls.editable path = true) (editor : Editor Oid) (bytes : Nat) :
    paths.foldlM (overlaySelected calls checkout) (editor, bytes) =
      .ok (Edit.run editor (paths.filterMap (tree.writes calls)),
        bytes +
          ((paths.filterMap fun path => (tree.standing path).content).map List.length).sum) := by
  -- The induction is on the paths, and the tree grows by one leaf at each of them.
  induction paths generalizing editor bytes with
  | nil => rfl
  | cons path rest ih =>
    obtain ⟨here, others⟩ := List.forall_mem_cons.mp stand
    obtain ⟨first, more⟩ := List.forall_mem_cons.mp taken
    obtain ⟨content, stands⟩ := Option.ne_none_iff_exists'.mp here
    obtain ⟨leaf, found, read⟩ := overlayFromDisk_standing shown written stands first editor
    rw [Folds.foldlM_cons_ok]
    refine ⟨(editor.upsert (segments path) leaf, bytes + content.length), ?_, ?_⟩
    · simp [overlaySelected, read, Bind.bind, Except.bind, Pure.pure, Except.pure]
    · rw [ih others more]
      simp [WorkingTree.writes, found, stands, Edit.run, Edit.apply, Nat.add_assoc]

/-- Writing what stands at some paths leaves exactly that, in any order. -/
theorem run_writes (tree : WorkingTree) (paths : List Bytes) (spot : List Bytes)
    (leaf : EntryKind × Oid) :
    (Edit.run (Leaves.empty : Editor Oid) (paths.filterMap (tree.writes calls))).get spot =
        some leaf ↔
      ∃ path ∈ paths, spot = segments path ∧ (tree.standing path).leaf calls = some leaf := by
  -- Two files of one tree are never in each other's way.
  have settled : ∀ path ∈ paths, ∀ value, (tree.standing path).leaf calls = some value →
      (Edit.run (Leaves.empty : Editor Oid) (paths.filterMap (tree.writes calls))).get
        (segments path) = some value := by
    intro path member value found
    apply Edit.run_settles
    · intro edit inside result touched
      obtain ⟨other, -, wrote⟩ := List.mem_filterMap.mp inside
      obtain ⟨written, stands, rfl⟩ := Option.map_eq_some_iff.mp wrote
      obtain rfl := WorkingTree.leaf_apart stands found (Edit.comparable_of_touch touched)
      simp only [Edit.touch, if_true, Option.some.injEq] at touched
      rw [← touched, ← stands, found]
    · refine .inr ⟨.upsert (segments path) value, ?_, by simp [Edit.touch]⟩
      exact List.mem_filterMap.mpr ⟨path, member, by simp [WorkingTree.writes, found]⟩
  constructor
  · intro held
    by_contra missing
    rw [Edit.run_unwritten ?_ (by simp)] at held
    · cases held
    · intro value inside
      obtain ⟨path, member, wrote⟩ := List.mem_filterMap.mp inside
      obtain ⟨written, stands, same⟩ := Option.map_eq_some_iff.mp wrote
      obtain ⟨rfl, rfl⟩ := Edit.upsert.inj same
      rw [settled path member written stands] at held
      exact missing ⟨path, member, rfl, by rw [stands, held]⟩
  · intro stands
    obtain ⟨path, member, rfl, found⟩ := stands
    exact settled path member leaf found

end Overlaying

/-- The repository stands still, and its walk, its reads and its object store all work. -/
structure ExtraSurroundings.Serves (around : ExtraSurroundings Oid) (tree : WorkingTree)
    (search : Search) (workdir : Bytes) : Prop where
  found : around.found = .worktree workdir
  readable : ∃ entries, around.root = .dir entries ∧ (Node.dir entries).Readable
  pictures : around.root.Pictures tree
  shown : tree.ShownBy ⟨workdir, around.entry⟩
  written : ∀ content, (around.calls.writeBlob content).isSome
  taken : ∀ path, tree.Selects around.files.wild search path → around.calls.editable path = true

/-- An encoding of the force-included files has exactly what is selected, as it stands. -/
structure ExtraSnapshot (around : ExtraSurroundings Oid) (tree : WorkingTree) (search : Search)
    (parent : Option Oid) (outcome : ExtraOutcome Oid) : Prop where
  leaves : ∀ spot leaf, outcome.tree.get spot = some leaf ↔
    ∃ path, spot = segments path ∧ tree.Selects around.files.wild search path ∧
      (tree.standing path).leaf around.calls = some leaf
  /-- The commit holds that tree, and its only parent is the tip that was pushed last. -/
  commit : around.writeCommit ⟨outcome.tree, parent.toList, synthExtraMessage⟩ = some outcome.commit
  /-- The counters are those of the selected files. -/
  counted : ∃ paths : List Bytes, paths.Pairwise (· < ·) ∧
    (∀ path, path ∈ paths ↔ tree.Selects around.files.wild search path) ∧
    outcome.stats.files = paths.length ∧
    outcome.stats.bytes =
      ((paths.filterMap fun path => (tree.standing path).content).map List.length).sum

/-- An encoding that succeeds has resolved its parent, selected, overlaid and committed. -/
theorem encodeExtra_ok {around : ExtraSurroundings Oid} {repoDir : Bytes} {stream : StreamId}
    {userInclude : Option Bytes} {extraIncludes : List Bytes} {outcome : ExtraOutcome Oid}
    (done : encodeExtra around repoDir stream userInclude extraIncludes = .ok outcome) :
    ∃ workdir parent selection bytes, around.found = .worktree workdir ∧
      around.peel (sentExtraRef stream) = .ok parent ∧
      selectExtraPathsMeasured around.files workdir around.root userInclude extraIncludes =
        .ok selection ∧
      selection.paths.foldlM (overlaySelected around.calls ⟨workdir, around.entry⟩)
        (Leaves.empty, 0) = .ok (outcome.tree, bytes) ∧
      around.writeCommit ⟨outcome.tree, parent.toList, synthExtraMessage⟩ = some outcome.commit ∧
      outcome.stats = ⟨selection.paths.length, bytes, selection.stats⟩ := by
  -- Each of the calls succeeds on the way to an outcome.
  unfold encodeExtra at done
  obtain ⟨workdir, found, done⟩ := Folds.bind_ok.mp done
  obtain ⟨parent, peeled, done⟩ := Folds.bind_ok.mp done
  obtain ⟨selection, selected, done⟩ := Folds.bind_ok.mp done
  obtain ⟨⟨tree, bytes⟩, overlaid, done⟩ := Folds.bind_ok.mp done
  have place : around.found = .worktree workdir := by
    cases discovered : around.found <;> simp [discovered, Discovered.workdir] at found
    rw [found]
  simp only at done
  split at done
  · cases done
  · split at done <;> rename_i written
    · cases done
    · split at done
      · cases done
      · cases done
        exact ⟨workdir, parent, selection, bytes, place, Folds.mapError_ok.mp peeled,
          Folds.mapError_ok.mp selected, Folds.mapError_ok.mp overlaid, written, rfl⟩

section Exact

variable {around : ExtraSurroundings Oid} {tree : WorkingTree} {search : Search}
  {workdir repoDir : Bytes} {stream : StreamId} {userInclude : Option Bytes}
  {extraIncludes : List Bytes}

/-- Of a tree that stands still, an encoding that succeeds is a snapshot of the selected files. -/
theorem encodeExtra_snapshot (serves : around.Serves tree search workdir)
    (loaded : loadSearch around.files.read around.files.parse workdir
      (userInclude.or (userIncludePath around.files.env)) extraIncludes = .ok search)
    {outcome : ExtraOutcome Oid}
    (done : encodeExtra around repoDir stream userInclude extraIncludes = .ok outcome) :
    ∃ parent, around.peel (sentExtraRef stream) = .ok parent ∧
      ExtraSnapshot around tree search parent outcome := by
  obtain ⟨found, ⟨entries, root, -⟩, pictures, shown, written, taken⟩ := serves
  obtain ⟨place, parent, selection, bytes, found', peeled, selected, overlaid, committed, stats⟩ :=
    encodeExtra_ok done
  obtain rfl : workdir = place := Discovered.worktree.inj (found.symm.trans found')
  rw [selectExtraPathsMeasured_eq, root] at selected
  rw [root] at pictures
  have member := mem_selection pictures loaded selected
  -- Everything that is selected can be read and written, so the loop writes what stands there.
  have ran := overlaySelected_run shown written
    (fun path listed => ((member path).mp listed).1)
    (fun path listed => taken path ((member path).mp listed)) Leaves.empty 0
  obtain ⟨same, counted⟩ := Prod.mk.inj (Except.ok.inj (overlaid.symm.trans ran))
  refine ⟨parent, peeled, fun spot leaf => ?_, committed, selection.paths,
    selectIn_increasing loaded selected, member, by rw [stats],
    by rw [stats, counted, Nat.zero_add]⟩
  rw [same]
  refine (run_writes tree selection.paths spot leaf).trans (exists_congr fun path => ?_)
  rw [member, and_left_comm]

/--
Encoding the force-included files of a tree that stands still gives exactly the selected ones.

It succeeds when its repository can be written to, and neither the `extra` ref nor any earlier
encoding has a say in the tree.
-/
theorem encodeExtra_exact {parent : Option Oid} (serves : around.Serves tree search workdir)
    (loaded : loadSearch around.files.read around.files.parse workdir
      (userInclude.or (userIncludePath around.files.env)) extraIncludes = .ok search)
    (peeled : around.peel (sentExtraRef stream) = .ok parent) (assembled : around.writeTree = true)
    (committed : ∀ commit, (around.writeCommit commit).isSome)
    (moved : around.editReference (extraRef stream) = true) :
    ∃ outcome, encodeExtra around repoDir stream userInclude extraIncludes = .ok outcome ∧
      ExtraSnapshot around tree search parent outcome := by
  obtain ⟨found, ⟨entries, root, readable⟩, pictures, shown, written, taken⟩ := serves
  have pictured := pictures
  rw [root] at pictured
  -- The walk finds what is selected, and every one of these files can be read and written.
  obtain ⟨selection, selected⟩ := selectIn_complete around.files.wild loaded readable
  have member := mem_selection pictured loaded selected
  have overlaid := overlaySelected_run shown written
    (fun path listed => ((member path).mp listed).1)
    (fun path listed => taken path ((member path).mp listed)) Leaves.empty 0
  obtain ⟨commit, wrote⟩ := Option.isSome_iff_exists.mp (committed
    ⟨Edit.run Leaves.empty (selection.paths.filterMap (tree.writes around.calls)), parent.toList,
      synthExtraMessage⟩)
  have done : ∃ outcome, encodeExtra around repoDir stream userInclude extraIncludes =
      .ok outcome := by
    simp [encodeExtra, found, Discovered.workdir, peeled, selectExtraPathsMeasured_eq, root,
      selected, overlaid, assembled, wrote, moved, Bind.bind, Except.bind, Except.mapError]
  obtain ⟨outcome, done⟩ := done
  obtain ⟨tip, again, snapshot⟩ := encodeExtra_snapshot
    ⟨found, ⟨entries, root, readable⟩, pictures, shown, written, taken⟩ loaded done
  obtain rfl : parent = tip := Except.ok.inj (peeled.symm.trans again)
  exact ⟨outcome, done, snapshot⟩

end Exact

section Single

/-- A working tree with one file at its top, which is ignored. -/
def WorkingTree.single (name : FileName) (mode : Nat) (content : Bytes) : WorkingTree where
  standing path := if path = name.bytes then .file mode content else .missing
  nested := by
    have flat : ∀ path, (if path = name.bytes then Standing.file mode content else .missing) ≠
        .missing → segments path = [path] := by
      intro path present
      obtain rfl : path = name.bytes := by
        by_contra other
        simp [other] at present
      exact List.splitOn_eq_singleton name.plain
    exact fun _ _ => Standing.nested_of_flat flat
  excluded path := path = name.bytes

/-- Its listing shows all there is. -/
theorem WorkingTree.single_pictures (name : FileName) (mode : Nat) (content : Bytes) :
    (Node.dir [(name, .file)]).Pictures (single name mode content) := by
  -- Whatever is seen in the one directory there is, it is the file.
  have single : ∀ path, path ≠ [] → ((Node.dir [(name, .file)]).At path .file ↔
      relOf path = name.bytes) := by
    intro path below
    have own : relOf [name] = name.bytes := by simp [relOf]
    constructor
    · intro seen
      cases path with
      | nil => exact absurd rfl below
      | cons first rest =>
        obtain ⟨child, listed, deeper⟩ := seen
        obtain ⟨rfl, rfl⟩ := Prod.mk.inj (List.mem_singleton.mp listed)
        cases rest with
        | nil => exact own
        | cons second rest => exact deeper.elim
    · intro same
      obtain rfl := relOf_injective below (List.cons_ne_nil _ _) (same.trans own.symm)
      exact ⟨.file, List.mem_singleton_self _, rfl⟩
  refine ⟨fun path below => (single path below).trans ?_, fun path below => ?_⟩
  · by_cases same : relOf path = name.bytes <;> simp [WorkingTree.single, same]
  · have leaf : ¬ (Node.dir [(name, .file)]).At path .symlink := by
      intro seen
      cases path with
      | nil => exact absurd rfl below
      | cons first rest =>
        obtain ⟨child, listed, deeper⟩ := seen
        obtain ⟨rfl, rfl⟩ := Prod.mk.inj (List.mem_singleton.mp listed)
        cases rest <;> cases deeper
    by_cases same : relOf path = name.bytes <;> simp [WorkingTree.single, same, leaf]

/-- A repository with that working tree, in which a pattern names the file and every call works. -/
def ExtraSurroundings.single (name : FileName) (mode : Nat) (content : Bytes) :
    ExtraSurroundings Bytes where
  found := .worktree (ofText "/work")
  files := ⟨fun _ => none, fun _ => .content (slash :: name.bytes),
    fun line => [⟨line.tail, false, true, false⟩], fun _ _ => false⟩
  root := .dir [(name, .file)]
  entry path := ((WorkingTree.single name mode content).standing path).seen
  calls := ⟨some, fun _ => true⟩
  peel _ := .ok none
  writeTree := true
  writeCommit commit := some (ofText commit.message)
  editReference _ := true

/-- It serves the tree it was made for. -/
theorem ExtraSurroundings.single_serves (name : FileName) (mode : Nat) (content : Bytes) :
    (single name mode content).Serves (.single name mode content)
      [[⟨name.bytes, false, true, false⟩], [⟨name.bytes, false, true, false⟩]] (ofText "/work") :=
  ⟨rfl, ⟨_, rfl, .dir (by simpa using Node.Readable.file)⟩, WorkingTree.single_pictures _ _ _,
    fun _ _ => rfl, fun _ => rfl, fun _ _ => rfl⟩

end Single

/-- An ignored file that a pattern names is encoded as it stands, without a parent at first. -/
theorem encodeExtra_exact_single :
    ∃ (around : ExtraSurroundings Bytes) (tree : WorkingTree) (search : Search)
      (outcome : ExtraOutcome Bytes) (stream : StreamId),
      tree.standing (ofText "app") = .file 0o755 (ofText "bin") ∧
      search = [[⟨ofText "app", false, true, false⟩], [⟨ofText "app", false, true, false⟩]] ∧
      encodeExtra around (ofText "/work") stream (some (ofText "/mine")) [] = .ok outcome ∧
      ExtraSnapshot around tree search none outcome := by
  -- Every call works, so the encoding succeeds with what is selected.
  let name : FileName := ⟨ofText "app", by decide, by decide⟩
  let stream : StreamId := ⟨ofText "s", by decide, by decide, by decide⟩
  obtain ⟨outcome, encoded, snapshot⟩ := @encodeExtra_exact _ _ _ _ _ (ofText "/work") stream
    (some (ofText "/mine")) [] none (ExtraSurroundings.single_serves name 0o755 (ofText "bin"))
    rfl rfl rfl (fun _ => rfl) rfl
  exact ⟨_, _, _, outcome, _, by simp [WorkingTree.single, name], rfl, encoded, snapshot⟩

end GitFullSend

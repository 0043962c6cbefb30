import GitFullSend.Lib.Folds
import GitFullSend.Client.Select

/-! Which files the selection walk picks and which directories it enters. -/

namespace GitFullSend

open Utf8 (Bytes ofText)

/-- The repo-relative path spelled by the names leading to an entry. -/
def relOf (path : List FileName) : Bytes := [slash].intercalate (path.map FileName.bytes)

private theorem joinRel_relOf (path : List FileName) (name : FileName) :
    joinRel (relOf path) name.bytes = relOf (path ++ [name]) := by
  -- Only the root has an empty path, because no name is empty.
  cases path with
  | nil => simp [joinRel, relOf]
  | cons first rest =>
    have filled : relOf (first :: rest) ≠ [] := by
      cases rest <;> simp [relOf, List.intercalate_cons_cons, first.nonempty]
    have joined : [slash].intercalate ((first :: rest).map FileName.bytes ++ [name.bytes]) = _ :=
      Segments.intercalate_append (by simp) (by simp)
    simp only [joinRel, List.isEmpty_iff, filled, if_false]
    simpa [relOf] using joined.symm

/-- Splitting the path of an entry gives its names back. -/
theorem splitOn_relOf {path : List FileName} (below : path ≠ []) :
    (relOf path).splitOn slash = path.map FileName.bytes := by
  -- No name contains the separator, so joining the names loses nothing.
  refine List.splitOn_intercalate _ ?_ (by simpa using below)
  intro bytes member
  obtain ⟨name, _, rfl⟩ := List.mem_map.mp member
  exact name.plain

/-- Entries with the same repo-relative path are reached by the same names. -/
theorem relOf_injective {left right : List FileName} (here : left ≠ []) (there : right ≠ [])
    (same : relOf left = relOf right) : left = right := by
  -- Splitting both paths gives both lists of names back.
  have names := congrArg (List.splitOn slash) same
  rw [splitOn_relOf here, splitOn_relOf there] at names
  exact List.map_injective_iff.mpr (fun _ _ => FileName.ext_bytes) names

/-- Induction over a tree, with the property of every entry of a directory at hand. -/
theorem Node.induct {motive : Node → Prop} (file : motive .file) (symlink : motive .symlink)
    (other : motive .other) (unstatable : motive .unstatable) (unlistable : motive .unlistable)
    (dir : ∀ entries, (∀ entry ∈ entries, motive entry.2) → motive (.dir entries)) :
    ∀ node, motive node := by
  -- The recursor asks the same of a list of entries and of one entry.
  refine @Node.rec motive (fun entries => ∀ entry ∈ entries, motive entry.2)
    (fun entry => motive entry.2) file symlink other unstatable unlistable dir ?_ ?_ ?_
  · exact fun _ none => nomatch none
  · exact fun _ _ here others => List.forall_mem_cons.mpr ⟨here, others⟩
  · exact fun _ _ child => child

/-- A file or a symlink, which a tree can represent. -/
def Node.isLeaf : Node → Bool
  | .file | .symlink => true
  | _ => false

/-- A tree whose entries can all be inspected and whose directories can all be listed. -/
inductive Node.Readable : Node → Prop where
  | file : Readable .file
  | symlink : Readable .symlink
  | other : Readable .other
  | dir {entries : List (FileName × Node)} (all : ∀ entry ∈ entries, Readable entry.2) :
    Readable (.dir entries)

section Walking

variable (wild : Bytes → Bytes → Bool) (search : Search) (prune : PruneInfo)

/-- The state a directory hands down to its entries. -/
def dirState (path : List FileName) (inherited : Bool) : Bool :=
  (classify wild search (relOf path) true).getD inherited

/-- Whether the walk goes into a directory. -/
def descends (path : List FileName) (inherited : Bool) : Bool :=
  dirState wild search path inherited || prune.canContainMatch (relOf path)

/--
The walk looks at a node beneath another one.

Each of the two nodes comes with its path and with the state it inherits.
-/
inductive Reaches : Node → List FileName → Bool → Node → List FileName → Bool → Prop where
  /-- A node is beneath itself. -/
  | here {node : Node} {path : List FileName} {inherited : Bool} :
    Reaches node path inherited node path inherited
  /-- The walk goes on below the entries of a directory it descends into. -/
  | deeper {entries : List (FileName × Node)} {path last : List FileName} {inherited final : Bool}
      {name : FileName} {child target : Node} (listed : (name, child) ∈ entries)
      (other : name.bytes ≠ gitDirName) (down : descends wild search prune path inherited = true)
      (rest : Reaches child (path ++ [name]) (dirState wild search path inherited) target last final) :
    Reaches (.dir entries) path inherited target last final

/-- The paths that are selected at and beneath a node. -/
def Picks (node : Node) (path : List FileName) (inherited : Bool) (rel : Bytes) : Prop :=
  ∃ target last final, Reaches wild search prune node path inherited target last final ∧
    target.isLeaf = true ∧ (classify wild search (relOf last) false).getD final = true ∧
    rel = relOf last

/-- The directories that are entered at and beneath a node. -/
def Enters (node : Node) (path : List FileName) (inherited : Bool) (rel : Bytes) : Prop :=
  ∃ entries last final, Reaches wild search prune node path inherited (.dir entries) last final ∧
    descends wild search prune last final = true ∧ rel = relOf last

end Walking

/-- A part of the walk added these paths and these directories, and pruned nothing while idle. -/
structure Contributes (picks enters : Bytes → Prop) (idle : Prop) (before after : Walk) : Prop where
  out : ∀ rel, rel ∈ after.out ↔ rel ∈ before.out ∨ picks rel
  entered : ∀ rel, rel ∈ after.entered ↔ rel ∈ before.entered ∨ enters rel
  skipped : idle → after.stats.dirsPruned = before.stats.dirsPruned

/-- Going through a list adds what each of its members adds. -/
theorem Contributes.foldlM {α : Type} {step : Walk → α → Except SelectError Walk}
    {picks enters : α → Bytes → Prop} {idle : Prop} {members : List α}
    (each : ∀ member ∈ members, ∀ before after, step before member = .ok after →
      Contributes (picks member) (enters member) idle before after)
    {walk last : Walk} (done : members.foldlM step walk = .ok last) :
    Contributes (fun rel => ∃ member ∈ members, picks member rel)
      (fun rel => ∃ member ∈ members, enters member rel) idle walk last := by
  -- What is there after the first member is what the others start from.
  induction members generalizing walk with
  | nil => cases done; exact ⟨by simp, by simp, fun _ => rfl⟩
  | cons member rest ih =>
    obtain ⟨middle, stepped, done⟩ := Folds.foldlM_cons_ok.mp done
    have first := each member List.mem_cons_self walk middle stepped
    have others := ih (fun other listed => each other (List.mem_cons_of_mem _ listed)) done
    refine ⟨fun rel => ?_, fun rel => ?_, fun calm => ?_⟩
    · simp [others.out, first.out, or_assoc]
    · simp [others.entered, first.entered, or_assoc]
    · rw [others.skipped calm, first.skipped calm]

section Visiting

variable {wild : Bytes → Bytes → Bool} {search : Search} {prune : PruneInfo}

private theorem visitAll_eq_map (entries : List (FileName × Node)) :
    visitAll wild search prune entries =
      entries.map fun entry => (entry.1, visit wild search prune entry.2) := by
  -- The two recursions over the entries go side by side.
  induction entries with
  | nil => rfl
  | cons entry rest ih => rw [visitAll, ih]; rfl

/-- Going through a directory is going through its entries in the order of their names. -/
theorem walkEntries_eq (entries : List (FileName × Node)) (dir : Bytes) (path : List FileName)
    (state : Bool) (walk : Walk) :
    walkEntries (visitAll wild search prune entries) dir (relOf path) state walk =
      (entries.insertionSort fun left right => left.1.bytes ≤ right.1.bytes).foldlM
        (fun walk entry =>
          if entry.1.bytes = gitDirName then .ok walk
          else visit wild search prune entry.2 (childPath dir entry.1.bytes)
            (relOf (path ++ [entry.1])) state walk.consider) walk := by
  -- Sorting the visits is sorting the entries they come from.
  rw [walkEntries, visitAll_eq_map, ← List.map_insertionSort
    (fun left right : FileName × Node => left.1.bytes ≤ right.1.bytes) _ _ _ (by simp),
    List.foldlM_map]
  simp only [joinRel_relOf]

/-- What a visit adds: the picks and the entered directories at and beneath the node. -/
def VisitAdds (wild : Bytes → Bytes → Bool) (search : Search) (prune : PruneInfo)
    (node : Node) : Prop :=
  ∀ dir path inherited before after,
    visit wild search prune node dir (relOf path) inherited before = .ok after →
    Contributes (Picks wild search prune node path inherited)
      (Enters wild search prune node path inherited)
      (∀ rel, prune.canContainMatch rel = true) before after

/-- Going through a directory adds what the visits of its entries add. -/
theorem walkEntries_adds {entries : List (FileName × Node)}
    (each : ∀ entry ∈ entries, VisitAdds wild search prune entry.2) {dir : Bytes}
    (path : List FileName) {state : Bool} {before after : Walk}
    (done : walkEntries (visitAll wild search prune entries) dir (relOf path) state before =
      .ok after) :
    Contributes
      (fun rel => ∃ entry ∈ entries, entry.1.bytes ≠ gitDirName ∧
        Picks wild search prune entry.2 (path ++ [entry.1]) state rel)
      (fun rel => ∃ entry ∈ entries, entry.1.bytes ≠ gitDirName ∧
        Enters wild search prune entry.2 (path ++ [entry.1]) state rel)
      (∀ rel, prune.canContainMatch rel = true) before after := by
  -- Each entry adds what its visit adds, unless it is `.git`, which adds nothing.
  rw [walkEntries_eq] at done
  have step : ∀ entry ∈ entries.insertionSort fun left right => left.1.bytes ≤ right.1.bytes,
      ∀ before after, (if entry.1.bytes = gitDirName then .ok before
        else visit wild search prune entry.2 (childPath dir entry.1.bytes)
          (relOf (path ++ [entry.1])) state before.consider) = .ok after →
      Contributes
        (fun rel => entry.1.bytes ≠ gitDirName ∧
          Picks wild search prune entry.2 (path ++ [entry.1]) state rel)
        (fun rel => entry.1.bytes ≠ gitDirName ∧
          Enters wild search prune entry.2 (path ++ [entry.1]) state rel)
        (∀ rel, prune.canContainMatch rel = true) before after := by
    intro entry member before after stepped
    split at stepped <;> rename_i git
    · cases stepped
      exact ⟨by simp [git], by simp [git], fun _ => rfl⟩
    · have adds := each entry ((List.mem_insertionSort _).mp member) _ _ _ _ _ stepped
      exact ⟨by simpa [git] using adds.out, by simpa [git] using adds.entered, adds.skipped⟩
  -- Sorting by name neither adds nor drops an entry.
  have added := Contributes.foldlM step done
  exact ⟨by simpa [List.mem_insertionSort] using added.out,
    by simpa [List.mem_insertionSort] using added.entered, added.skipped⟩

/-- Beneath a directory the walk reaches the directory itself and what its entries lead to. -/
theorem reaches_dir_iff {entries : List (FileName × Node)} {path last : List FileName}
    {inherited final : Bool} {target : Node} :
    Reaches wild search prune (.dir entries) path inherited target last final ↔
      (target = .dir entries ∧ last = path ∧ final = inherited) ∨
      descends wild search prune path inherited = true ∧
        ∃ entry ∈ entries, entry.1.bytes ≠ gitDirName ∧
          Reaches wild search prune entry.2 (path ++ [entry.1])
            (dirState wild search path inherited) target last final := by
  -- A walk stays at the directory or goes on at one of its entries.
  constructor
  · intro reached
    cases reached with
    | here => exact .inl ⟨rfl, rfl, rfl⟩
    | deeper listed other down rest => exact .inr ⟨down, _, listed, other, rest⟩
  · intro reached
    rcases reached with ⟨rfl, rfl, rfl⟩ | ⟨down, entry, listed, other, rest⟩
    · exact .here
    · exact .deeper listed other down rest

/-- The picks at a directory are those of its entries, if the walk descends. -/
theorem picks_dir_iff {entries : List (FileName × Node)} {path : List FileName} {inherited : Bool}
    {rel : Bytes} :
    Picks wild search prune (.dir entries) path inherited rel ↔
      descends wild search prune path inherited = true ∧
        ∃ entry ∈ entries, entry.1.bytes ≠ gitDirName ∧
          Picks wild search prune entry.2 (path ++ [entry.1])
            (dirState wild search path inherited) rel := by
  -- A directory is never picked itself, so a pick is reached through an entry.
  constructor
  · intro picked
    obtain ⟨target, last, final, reached, leaf, selected, rfl⟩ := picked
    rcases reaches_dir_iff.mp reached with ⟨rfl, -⟩ | ⟨down, entry, listed, other, rest⟩
    · cases leaf
    · exact ⟨down, entry, listed, other, target, last, final, rest, leaf, selected, rfl⟩
  · intro below
    obtain ⟨down, entry, listed, other, target, last, final, rest, leaf, selected, rfl⟩ := below
    exact ⟨target, last, final, .deeper listed other down rest, leaf, selected, rfl⟩

/-- The directories entered at a directory are itself and those at its entries, or none. -/
theorem enters_dir_iff {entries : List (FileName × Node)} {path : List FileName} {inherited : Bool}
    {rel : Bytes} :
    Enters wild search prune (.dir entries) path inherited rel ↔
      descends wild search prune path inherited = true ∧ (rel = relOf path ∨
        ∃ entry ∈ entries, entry.1.bytes ≠ gitDirName ∧
          Enters wild search prune entry.2 (path ++ [entry.1])
            (dirState wild search path inherited) rel) := by
  -- The directory is reached at once, and any other one through an entry.
  constructor
  · intro entered
    obtain ⟨found, last, final, reached, here, rfl⟩ := entered
    rcases reaches_dir_iff.mp reached with ⟨-, rfl, rfl⟩ | ⟨down, entry, listed, other, rest⟩
    · exact ⟨here, .inl rfl⟩
    · exact ⟨down, .inr ⟨entry, listed, other, found, last, final, rest, here, rfl⟩⟩
  · intro below
    obtain ⟨down, rfl | ⟨entry, listed, other, found, last, final, rest, here, rfl⟩⟩ := below
    · exact ⟨entries, path, inherited, .here, down, rfl⟩
    · exact ⟨found, last, final, .deeper listed other down rest, here, rfl⟩

/-- Nothing lies beneath a node that is not a directory. -/
theorem reaches_leaf_iff {node target : Node} (flat : ∀ entries, node ≠ .dir entries)
    {path last : List FileName} {inherited final : Bool} :
    Reaches wild search prune node path inherited target last final ↔
      target = node ∧ last = path ∧ final = inherited := by
  -- Only a directory has anything beneath it.
  constructor
  · intro reached
    cases reached with
    | here => exact ⟨rfl, rfl, rfl⟩
    | deeper => exact absurd rfl (flat _)
  · intro ended
    obtain ⟨rfl, rfl, rfl⟩ := ended
    exact .here

/-- A node that is not a directory can only be picked itself. -/
theorem picks_leaf_iff {node : Node} (flat : ∀ entries, node ≠ .dir entries)
    {path : List FileName} {inherited : Bool} {rel : Bytes} :
    Picks wild search prune node path inherited rel ↔ node.isLeaf = true ∧
      (classify wild search (relOf path) false).getD inherited = true ∧ rel = relOf path := by
  -- The one node that is reached is the node itself.
  constructor
  · intro picked
    obtain ⟨target, last, final, reached, leaf, selected, rfl⟩ := picked
    obtain ⟨rfl, rfl, rfl⟩ := (reaches_leaf_iff flat).mp reached
    exact ⟨leaf, selected, rfl⟩
  · intro picked
    obtain ⟨leaf, selected, rfl⟩ := picked
    exact ⟨node, path, inherited, .here, leaf, selected, rfl⟩

/-- A node that is not a directory is not entered. -/
theorem not_enters_leaf {node : Node} (flat : ∀ entries, node ≠ .dir entries)
    {path : List FileName} {inherited : Bool} {rel : Bytes} :
    ¬ Enters wild search prune node path inherited rel := by
  intro entered
  obtain ⟨entries, last, final, reached, -⟩ := entered
  exact flat entries ((reaches_leaf_iff flat).mp reached).1.symm

private theorem select_adds {node : Node} (flat : ∀ entries, node ≠ .dir entries)
    (leaf : node.isLeaf = true) (path : List FileName) (inherited : Bool) (before : Walk) :
    Contributes (Picks wild search prune node path inherited)
      (Enters wild search prune node path inherited) (∀ rel, prune.canContainMatch rel = true)
      before (if (classify wild search (relOf path) false).getD inherited then
        before.select (relOf path) else before) := by
  -- The node is its own only pick, and it is entered by nobody.
  refine ⟨fun rel => ?_, fun rel => ?_, fun _ => ?_⟩
  · rw [picks_leaf_iff flat]
    split <;> rename_i selected <;> simp [leaf, selected]
  · have none : ¬ Enters wild search prune node path inherited rel := not_enters_leaf flat
    split <;> simp [none]
  · split <;> rfl

private theorem nothing_adds {node : Node} (flat : ∀ entries, node ≠ .dir entries)
    (unfit : node.isLeaf = false) (path : List FileName) (inherited : Bool) {idle : Prop}
    {before after : Walk} (out : after.out = before.out) (entered : after.entered = before.entered)
    (skipped : idle → after.stats.dirsPruned = before.stats.dirsPruned) :
    Contributes (Picks wild search prune node path inherited)
      (Enters wild search prune node path inherited) idle before after := by
  -- What is not a leaf is not picked, and what is not a directory is not entered.
  refine ⟨fun rel => ?_, fun rel => ?_, skipped⟩
  · simp [picks_leaf_iff flat, unfit, out]
  · simp [not_enters_leaf flat, entered]

private theorem visit_adds (node : Node) : VisitAdds wild search prune node := by
  -- The induction is on the tree; only a directory passes its state on.
  induction node using Node.induct with
  | file =>
    intro dir path inherited before after done
    cases done
    exact select_adds (by simp) rfl path inherited before
  | symlink =>
    intro dir path inherited before after done
    cases done
    exact select_adds (by simp) rfl path inherited before
  | other =>
    intro dir path inherited before after done
    cases done
    exact nothing_adds (by simp) rfl path inherited rfl rfl fun _ => rfl
  | unstatable =>
    intro dir path inherited before after done
    cases done
  | unlistable =>
    intro dir path inherited before after done
    simp only [visit] at done
    split at done <;> rename_i down
    · cases done
    · -- A walk that never prunes would have failed to list the directory.
      cases done
      refine nothing_adds (by simp) rfl path inherited rfl rfl fun never => ?_
      simp [never] at down
  | dir entries all =>
    intro dir path inherited before after done
    simp only [visit] at done
    split at done <;> rename_i down
    · have down : descends wild search prune path inherited = true := down
      have adds := walkEntries_adds all path done
      refine ⟨fun rel => ?_, fun rel => ?_, fun never => ?_⟩
      · rw [adds.out, picks_dir_iff]
        simp [down, dirState]
      · rw [adds.entered, enters_dir_iff]
        simp [down, dirState, or_assoc]
      · simpa using adds.skipped never
    · have down : descends wild search prune path inherited = false := by
        simpa [descends, dirState] using down
      cases done
      refine ⟨fun rel => ?_, fun rel => ?_, fun never => ?_⟩
      · simp [picks_dir_iff, down]
      · simp [enters_dir_iff, down]
      · simp [descends, never] at down

/-- A whole walk adds what the entries of the root lead to, and the root itself. -/
theorem runWalk_adds {workdir : Bytes} {root : Node} {before after : Walk}
    (done : runWalk wild search prune workdir root before = .ok after) :
    ∃ entries, root = .dir entries ∧ Contributes
      (fun rel => ∃ entry ∈ entries, entry.1.bytes ≠ gitDirName ∧
        Picks wild search prune entry.2 [entry.1] false rel)
      (fun rel => rel = [] ∨ ∃ entry ∈ entries, entry.1.bytes ≠ gitDirName ∧
        Enters wild search prune entry.2 [entry.1] false rel)
      (∀ rel, prune.canContainMatch rel = true) before after := by
  -- The root is entered and then gone through like any other directory.
  unfold runWalk at done
  split at done
  · rename_i entries
    have adds := walkEntries_adds (fun entry _ => visit_adds entry.2) [] done
    refine ⟨entries, rfl, fun rel => ?_, fun rel => ?_, fun never => ?_⟩
    · simpa using adds.out rel
    · simpa [or_assoc] using adds.entered rel
    · simpa using adds.skipped never
  · cases done

/-- Going through a directory succeeds when its entries can all be visited. -/
theorem walkEntries_complete {entries : List (FileName × Node)}
    (each : ∀ entry ∈ entries, ∀ dir path inherited before, ∃ after,
      visit wild search prune entry.2 dir (relOf path) inherited before = .ok after)
    (dir : Bytes) (path : List FileName) (state : Bool) (before : Walk) :
    ∃ after, walkEntries (visitAll wild search prune entries) dir (relOf path) state before =
      .ok after := by
  -- The loop succeeds because the visit of every entry does, or skips it.
  rw [walkEntries_eq]
  refine Folds.foldlM_complete (fun entry member before => ?_) before
  split
  · exact ⟨before, rfl⟩
  · exact each entry ((List.mem_insertionSort _).mp member) _ _ _ _

private theorem visit_complete {node : Node} (readable : node.Readable) (dir : Bytes)
    (path : List FileName) (inherited : Bool) (before : Walk) :
    ∃ after, visit wild search prune node dir (relOf path) inherited before = .ok after := by
  -- Only an entry without a type and an unlistable directory can fail.
  induction readable generalizing dir path inherited before with
  | file => exact ⟨_, rfl⟩
  | symlink => exact ⟨_, rfl⟩
  | other => exact ⟨_, rfl⟩
  | dir all ih =>
    simp only [visit]
    split
    · exact walkEntries_complete ih dir path _ _
    · exact ⟨_, rfl⟩

variable (wild search prune) in
/-- A readable working tree can be walked. -/
theorem runWalk_complete {entries : List (FileName × Node)} (readable : (Node.dir entries).Readable)
    (workdir : Bytes) (before : Walk) :
    ∃ after, runWalk wild search prune workdir (.dir entries) before = .ok after := by
  -- The root is a directory that can be listed.
  cases readable with
  | dir all =>
    exact walkEntries_complete (fun entry listed => visit_complete (all entry listed)) workdir []
      false _

end Visiting

end GitFullSend

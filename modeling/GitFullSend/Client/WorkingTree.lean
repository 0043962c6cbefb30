import GitFullSend.Lib.Segments
import GitFullSend.Client.EncodeReport

/-! A working tree that holds still, and the status passes that tell how an index differs. -/

namespace GitFullSend

open Utf8 (Bytes)

variable {Oid : Type}

/-- What stands at a path of a working tree. -/
inductive Standing where
  | missing
  | symlink (target : Bytes)
  | file (mode : Nat) (content : Bytes)
  | directory
  /-- A FIFO, a socket or a device. -/
  | special
  deriving DecidableEq, Repr

namespace Standing

/-- What the encoder makes of it. -/
def seen : Standing → DiskEntry
  | .missing => .absent
  | .symlink target => .symlink (some target)
  | .file mode content => .file mode (some content)
  | .directory | .special => .other

/-- The content of a file, or the target of a symlink. -/
def content : Standing → Option Bytes
  | .symlink target => some target
  | .file _ content => some content
  | .missing | .directory | .special => none

/-- The leaf for a file or a symlink: its mode on disk, and its content as a blob. -/
def leaf (calls : ObjectCalls Oid) : Standing → Option (EntryKind × Oid)
  | .symlink target => (calls.writeBlob target).map (.link, ·)
  | .file mode content => (calls.writeBlob content).map (blobKind mode, ·)
  | .missing | .directory | .special => none

/-- What the directory walk calls it. -/
def kind : Standing → Option DirKind
  | .missing => none
  | .symlink _ => some .symlink
  | .file _ _ => some .file
  | .directory => some .directory
  | .special => some .untrackable

/-- A file or a symlink is no gitlink. -/
theorem leaf_kind {calls : ObjectCalls Oid} {standing : Standing} {leaf : EntryKind × Oid}
    (found : standing.leaf calls = some leaf) : leaf.1 ≠ .commit := by
  -- A symlink becomes a link, and a file becomes a blob of either mode.
  unfold Standing.leaf at found
  split at found
  · obtain ⟨id, -, rfl⟩ := Option.map_eq_some_iff.mp found
    nofun
  · obtain ⟨id, -, rfl⟩ := Option.map_eq_some_iff.mp found
    simp only [blobKind]
    split <;> nofun
  all_goals cases found

end Standing

/-- A tree with nothing but its top level has nothing below a file. -/
theorem Standing.nested_of_flat {standing : Bytes → Standing}
    (flat : ∀ path, standing path ≠ .missing → segments path = [path]) {upper lower : Bytes}
    (below : segments upper <+: segments lower) (different : upper ≠ lower)
    (present : standing lower ≠ .missing) : standing upper = .directory := by
  -- A path that opens a single segment is that segment, and so it is the same path.
  rw [flat lower present] at below
  have single : segments upper = segments lower := by
    rw [flat lower present]
    have opening := (List.prefix_cons_iff.mp below).resolve_left (List.splitOn_ne_nil slash upper)
    obtain ⟨rest, whole, empty⟩ := opening
    rw [whole, List.prefix_nil.mp empty]
  exact absurd (Segments.splitOn_injective slash single) different

/-- A working tree with what Git leaves out of its untracked files. -/
structure WorkingTree where
  /-- What stands at each path. -/
  standing : Bytes → Standing
  /-- Whatever stands somewhere stands in directories. -/
  nested : ∀ upper lower, segments upper <+: segments lower → upper ≠ lower →
    standing lower ≠ .missing → standing upper = .directory
  /-- The paths that are ignored, or in a repository of their own. -/
  excluded : Bytes → Prop

namespace WorkingTree

/-- The encoder sees the tree as it stands, wherever something stands. -/
def ShownBy (tree : WorkingTree) (checkout : Checkout) : Prop :=
  ∀ path, tree.standing path ≠ .missing → checkout.entry path = (tree.standing path).seen

/-- A path in a working tree that Git calls untracked: in no submodule, and not ignored. -/
def Untracked (tree : WorkingTree) (index : List (IndexEntry Oid)) (path : Bytes) : Prop :=
  tree.standing path ≠ .missing ∧ ¬ tree.excluded path ∧
    ∀ entry ∈ index, entry.path ≠ path ∧
      (entry.mode = some .commit → ¬ segments entry.path <+: segments path)

/-- Two files are never at comparable paths. -/
theorem leaf_apart {tree : WorkingTree} {calls : ObjectCalls Oid} {left right : Bytes}
    {first second : EntryKind × Oid} (here : (tree.standing left).leaf calls = some first)
    (there : (tree.standing right).leaf calls = some second)
    (close : Comparable (segments left) (segments right)) : left = right := by
  -- The upper one of two different paths would be a directory.
  by_contra different
  have present : ∀ path leaf, (tree.standing path).leaf calls = some leaf →
      tree.standing path ≠ .missing := by
    intro path leaf found missing
    simp [missing, Standing.leaf] at found
  rcases close with below | above
  · have folder := tree.nested left right below different (present right second there)
    simp [folder, Standing.leaf] at here
  · have folder := tree.nested right left above (Ne.symm different) (present left first here)
    simp [folder, Standing.leaf] at there

end WorkingTree

/-- An index without conflicts: one entry a path, and none below another. -/
structure Merged (index : List (IndexEntry Oid)) : Prop where
  staged : ∀ entry ∈ index, entry.stage = .unconflicted
  apart : index.Pairwise fun left right => ¬ Comparable (segments left.path) (segments right.path)

/-- Two entries at comparable paths are one. -/
theorem Merged.unique {index : List (IndexEntry Oid)} (merged : Merged index)
    {left right : IndexEntry Oid} (here : left ∈ index) (there : right ∈ index)
    (close : Comparable (segments left.path) (segments right.path)) : left = right := by
  -- Of two different entries, whichever comes first, no path is comparable to the other.
  have : Std.Symm fun (left right : IndexEntry Oid) =>
      ¬ Comparable (segments left.path) (segments right.path) :=
    ⟨fun _ _ beside close => beside close.symm⟩
  by_contra different
  exact merged.apart.forall here there different close

/-- Two entries at one path are one. -/
theorem Merged.at_path {index : List (IndexEntry Oid)} (merged : Merged index)
    {left right : IndexEntry Oid} (here : left ∈ index) (there : right ∈ index)
    (same : left.path = right.path) : left = right := by
  apply merged.unique here there
  rw [same]
  exact .refl _

/-- What stands at the path of an index entry is what the entry says. -/
def IndexEntry.Holds (calls : ObjectCalls Oid) (entry : IndexEntry Oid) (standing : Standing) :
    Prop :=
  (entry.mode = some .commit ∧ standing = .directory) ∨
    ∃ kind, entry.mode = some kind ∧ standing.leaf calls = some (kind, entry.id)

/-- What the status pass may say about a tracked path, by what stands there. -/
def IndexEntry.Reported (calls : ObjectCalls Oid) (entry : IndexEntry Oid) (standing : Standing) :
    EntryStatus → Prop
  -- A directory in the place of a file means that the file is gone.
  | .change .removed =>
    standing = .missing ∨ (standing = .directory ∧ entry.mode ≠ some .commit)
  | .change .submoduleModification => standing = .directory ∧ entry.mode = some .commit
  | .change .modification => standing.content ≠ none
  | .change .type | .intentToAdd => standing ≠ .missing ∧ standing ≠ .directory
  | .needsUpdate => entry.Holds calls standing
  | .conflict => False

/-- The status passes that describe exactly how an index differs from a working tree. -/
structure Describes (calls : ObjectCalls Oid) (tree : WorkingTree) (index : List (IndexEntry Oid))
    (changes : List (Bytes × EntryStatus))
    (contents : List (Bytes × DirStatus × Option DirKind)) : Prop where
  /-- Every tracked path is reported at most once. -/
  once : (changes.map Prod.fst).Nodup
  /-- What is reported of a tracked path is so. -/
  reported : ∀ change ∈ changes, ∃ entry ∈ index,
    entry.path = change.1 ∧ entry.Reported calls (tree.standing entry.path) change.2
  /-- A tracked path that is not reported is as the index has it. -/
  silent : ∀ entry ∈ index, entry.path ∉ changes.map Prod.fst →
    entry.Holds calls (tree.standing entry.path)
  /-- What the walk calls untracked is so, and it is of the kind that the walk says. -/
  walked : ∀ found ∈ contents, found.2.1 = .untracked →
    tree.Untracked index found.1 ∧ found.2.2 = (tree.standing found.1).kind
  /-- Every untracked file and symlink is found, -/
  complete : ∀ path, tree.Untracked index path → (tree.standing path).content ≠ none →
    ∃ found ∈ contents, found.1 = path ∧ found.2.1 = .untracked
  /-- and none of them twice. -/
  distinct : (contents.map Prod.fst).Nodup

/-- The items for tracked paths. -/
def changeItems (changes : List (Bytes × EntryStatus)) : List (Option Item) :=
  changes.map fun change => some (.modification change.1 change.2)

/-- The items of the directory walk. -/
def contentItems (contents : List (Bytes × DirStatus × Option DirKind)) : List (Option Item) :=
  contents.map fun found => some (.directoryContents found.1 found.2.1 found.2.2)

/-- The deliveries of a status pass: all that come from the index before all that come from disk. -/
def deliveries (changes : List (Bytes × EntryStatus))
    (contents : List (Bytes × DirStatus × Option DirKind)) : List (Option Item) :=
  changeItems changes ++ contentItems contents

end GitFullSend

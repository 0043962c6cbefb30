import GitFullSend.Lib.DirTrees
import GitFullSend.Lib.LeafEdits
import GitFullSend.Lib.Segments
import GitFullSend.Server.Worktree

/-! Overlaying the `extra` tree onto the `code` tree, from entry to entry of the nested trees. -/

namespace GitFullSend

open Utf8 (Bytes ofText)

variable {Leaf : Type}

/-- What a tree object may call an entry. -/
def EntryName (name : Bytes) : Prop := name ≠ [] ∧ slash ∉ name

instance (name : Bytes) : Decidable (EntryName name) := inferInstanceAs (Decidable (_ ∧ _))

/-- A tree object with everything below it: every leaf has its mode and its object. -/
structure TreeObject (Leaf : Type) where
  entries : DirTree Bytes Leaf
  distinct : entries.Distinct
  named : entries.Names EntryName

/-- Which of the calls that overlay one tree object onto another succeed. -/
structure OverlayCalls where
  /-- Whether the id of the `code` tree is one. -/
  codeId : Bool
  /-- Whether the id of the `extra` tree is one. -/
  extraId : Bool
  /-- Whether an editor opens on the `code` tree. -/
  editTree : Bool
  /-- Whether the `extra` tree is found. -/
  findExtra : Bool
  /-- Whether every tree below it is found and can be read. -/
  traverse : Bool
  /-- Whether the editor finds the trees on the way to a path. -/
  upsert : Bytes → Bool
  /-- Whether the edited trees are written. -/
  write : Bool

/-- Calls that all succeed. -/
def OverlayCalls.sound : OverlayCalls := ⟨true, true, true, true, true, fun _ => true, true⟩

namespace TreeObject

/-- The path of an entry below a tree: the names on the way, with slashes between them. -/
def filepath (path : List Bytes) : Bytes := [slash].intercalate path

/-- An entry as the recorder keeps it. -/
def recorded (entry : List Bytes × DirTree.Node Leaf) : Bytes × DirTree.Node Leaf :=
  (filepath entry.1, entry.2)

/-- Every entry below a tree, in the order of a breadth-first traversal. -/
def records (tree : TreeObject Leaf) : List (Bytes × DirTree.Node Leaf) :=
  (DirTree.breadthfirst [([], tree.entries)]).map recorded

/-- Write a leaf at a path; the editor takes none with an empty component. -/
def upsert (tree : TreeObject Leaf) (path : Bytes) (leaf : Leaf) : Option (TreeObject Leaf) :=
  if filled : ∀ name ∈ path.splitOn slash, name ≠ [] then
    some ⟨tree.entries.write (path.splitOn slash, leaf), tree.distinct.write _,
      tree.named.write fun name member => ⟨filled name member, Segments.not_mem_segment member⟩⟩
  else none

/-- Take one recorded entry into the editor. -/
def upsertRecord (calls : OverlayCalls) (editor : TreeObject Leaf)
    (record : Bytes × DirTree.Node Leaf) : Except ServerError (TreeObject Leaf) :=
  match record.2 with
  -- Tree entries are implied by their leaves.
  | .dir => .ok editor
  | .leaf leaf =>
    match if calls.upsert record.1 then editor.upsert record.1 leaf else none with
    | some edited => .ok edited
    | none => .error .buildTree

/-- Overlay the `extra` tree onto the `code` tree at identity paths. -/
def overlayExtraOntoCode (calls : OverlayCalls) (code : TreeObject Leaf)
    (extra : Option (TreeObject Leaf)) : Except ServerError (TreeObject Leaf) :=
  match extra with
  | none => .ok code
  | some extra =>
    if !calls.codeId then .error .buildTree
    else if !calls.extraId then .error .resolveExtra
    else if !calls.editTree then .error .buildTree
    else if !calls.findExtra then .error .resolveExtra
    else if !calls.traverse then .error .resolveExtra
    else do
      let editor ← extra.records.foldlM (upsertRecord calls) code
      if calls.write then .ok editor else .error .buildTree

section Editing

variable {calls : OverlayCalls} {editor : TreeObject Leaf}

/-- An entry below the root, at a path of entry names. -/
def Placed (entry : List Bytes × DirTree.Node Leaf) : Prop :=
  entry.1 ≠ [] ∧ ∀ name ∈ entry.1, EntryName name

/-- The editor can take an entry: it is a tree, or the trees on the way to it are found. -/
def Taken (calls : OverlayCalls) (entry : List Bytes × DirTree.Node Leaf) : Prop :=
  ∀ leaf, entry.2 = .leaf leaf → calls.upsert (filepath entry.1) = true

/-- A recorded path is split into the names it was joined from. -/
theorem Placed.splitOn_filepath {entry : List Bytes × DirTree.Node Leaf} (placed : Placed entry) :
    (filepath entry.1).splitOn slash = entry.1 :=
  List.splitOn_intercalate _ (fun name member => (placed.2 name member).2) placed.1

/-- The editor takes a leaf at the path of an entry. -/
theorem upsert_placed {entry : List Bytes × DirTree.Node Leaf} (placed : Placed entry)
    (leaf : Leaf) :
    ∃ after, editor.upsert (filepath entry.1) leaf = some after ∧
      after.entries = editor.entries.write (entry.1, leaf) := by
  -- None of the names is empty, so the editor takes the path as it is.
  have split := placed.splitOn_filepath
  have filled : ∀ name ∈ (filepath entry.1).splitOn slash, name ≠ [] := by
    rw [split]
    exact fun name member => (placed.2 name member).1
  unfold upsert
  rw [dif_pos filled]
  exact ⟨_, rfl, congrArg (fun path => editor.entries.write (path, leaf)) split⟩

/-- An entry that can be taken is written if it is a leaf. -/
theorem upsertRecord_taken {entry : List Bytes × DirTree.Node Leaf} (placed : Placed entry)
    (taken : Taken calls entry) :
    ∃ after, upsertRecord calls editor (recorded entry) = .ok after ∧
      after.entries = editor.entries.writes (DirTree.leafOf entry).toList := by
  -- A tree changes nothing, and it is no leaf to be written.
  obtain ⟨path, node⟩ := entry
  cases node with
  | dir => exact ⟨editor, rfl, rfl⟩
  | leaf leaf =>
    obtain ⟨after, edited, written⟩ := @upsert_placed _ editor _ placed leaf
    exact ⟨after, by simp [upsertRecord, recorded, taken leaf rfl, edited], written⟩

/-- An entry that cannot be taken fails the overlay. -/
theorem upsertRecord_refused {entry : List Bytes × DirTree.Node Leaf}
    (refused : ¬ Taken calls entry) :
    upsertRecord calls editor (recorded entry) = .error .buildTree := by
  -- What cannot be taken is a leaf whose trees are not found.
  simp only [Taken, not_forall] at refused
  obtain ⟨leaf, shape, refused⟩ := refused
  simp [upsertRecord, recorded, shape, refused]

/-- Entries that can be taken are written from first to last. -/
theorem upsertRecords_taken {entries : List (List Bytes × DirTree.Node Leaf)}
    (placed : ∀ entry ∈ entries, Placed entry) (taken : ∀ entry ∈ entries, Taken calls entry) :
    ∃ after, (entries.map recorded).foldlM (upsertRecord calls) editor = .ok after ∧
      after.entries = editor.entries.writes (entries.filterMap DirTree.leafOf) := by
  -- The induction is on the entries, and the editor changes from one to the next.
  induction entries generalizing editor with
  | nil => exact ⟨editor, rfl, rfl⟩
  | cons entry rest ih =>
    obtain ⟨here, placed⟩ := List.forall_mem_cons.mp placed
    obtain ⟨first, taken⟩ := List.forall_mem_cons.mp taken
    obtain ⟨middle, stepped, moved⟩ := upsertRecord_taken here first
    obtain ⟨after, done, ended⟩ := ih placed taken
    refine ⟨after, Folds.foldlM_cons_ok.mpr ⟨middle, stepped, done⟩, ?_⟩
    rw [ended, moved]
    cases leaf : DirTree.leafOf entry with
    | none => simp [List.filterMap_cons_none leaf, DirTree.writes]
    | some value => simp [List.filterMap_cons_some leaf, DirTree.writes]

/-- An entry that cannot be taken fails the overlay, whatever comes before it. -/
theorem upsertRecords_refused {entries : List (List Bytes × DirTree.Node Leaf)}
    (placed : ∀ entry ∈ entries, Placed entry)
    (refused : ¬ ∀ entry ∈ entries, Taken calls entry) :
    (entries.map recorded).foldlM (upsertRecord calls) editor = .error .buildTree := by
  -- The first entry that cannot be taken ends the fold.
  induction entries generalizing editor with
  | nil => simp at refused
  | cons entry rest ih =>
    obtain ⟨here, placed⟩ := List.forall_mem_cons.mp placed
    rw [List.map_cons, List.foldlM_cons]
    by_cases first : Taken calls entry
    · obtain ⟨middle, stepped, -⟩ := upsertRecord_taken here first
      rw [stepped]
      exact ih placed fun all => refused (List.forall_mem_cons.mpr ⟨first, all⟩)
    · rw [upsertRecord_refused first]
      rfl

end Editing

/-- Every entry that is visited below a tree is placed. -/
theorem placed_of_visited {tree : TreeObject Leaf} {entry : List Bytes × DirTree.Node Leaf}
    (visited : entry ∈ DirTree.breadthfirst [([], tree.entries)]) : Placed entry := by
  obtain ⟨below, found⟩ := (DirTree.mem_breadthfirst tree.distinct).mp visited
  exact ⟨below, tree.named.of_find found⟩

section Overlay

variable {calls : OverlayCalls} {code extra result : TreeObject Leaf}

/-- What `overlay_extra_onto_code` needs to succeed, once there is a tree to overlay. -/
structure Sound (calls : OverlayCalls) (extra : TreeObject Leaf) : Prop where
  opened : calls.codeId = true ∧ calls.extraId = true ∧ calls.editTree = true
  visited : calls.findExtra = true ∧ calls.traverse = true
  taken : ∀ entry ∈ DirTree.breadthfirst [([], extra.entries)], Taken calls entry
  written : calls.write = true

/-- An overlay whose calls succeed writes every leaf of `extra` over `code`. -/
theorem overlayExtraOntoCode_sound (sound : Sound calls extra) (code : TreeObject Leaf) :
    ∃ result, overlayExtraOntoCode calls code (some extra) = .ok result ∧
      result.entries = code.entries.overlay extra.entries := by
  -- Every check passes, and the records are written one after the other.
  obtain ⟨⟨codeId, extraId, editTree⟩, ⟨findExtra, traverse⟩, taken, written⟩ := sound
  obtain ⟨after, done, ended⟩ := @upsertRecords_taken _ calls code _
    (fun _ visited => placed_of_visited visited) taken
  refine ⟨after, ?_, ended⟩
  simp [overlayExtraOntoCode, records, done, codeId, extraId, editTree, findExtra, traverse,
    written, Bind.bind, Except.bind]

/-- An overlay succeeds only when its calls do. -/
theorem sound_of_overlay (done : overlayExtraOntoCode calls code (some extra) = .ok result) :
    Sound calls extra := by
  -- Each way to fail leads to an error, in the order of the calls.
  unfold overlayExtraOntoCode at done
  simp only at done
  split at done
  · cases done
  split at done
  · cases done
  split at done
  · cases done
  split at done
  · cases done
  split at done
  · cases done
  rename_i codeId extraId editTree findExtra traverse
  obtain ⟨editor, folded, written⟩ := Folds.bind_ok.mp done
  refine ⟨by simp_all, by simp_all, ?_, ?_⟩
  · by_contra refused
    have failed := @upsertRecords_refused _ calls code _
      (fun _ visited => placed_of_visited visited) refused
    cases folded.symm.trans failed
  · by_contra unwritten
    simp [unwritten] at written

/-- An overlay that succeeds writes every leaf of `extra` over `code`. -/
theorem overlayExtraOntoCode_ok
    (done : overlayExtraOntoCode calls code (some extra) = .ok result) :
    result.entries = code.entries.overlay extra.entries := by
  -- What succeeds has made sound calls, and those lead to one result.
  obtain ⟨other, again, entries⟩ := overlayExtraOntoCode_sound (sound_of_overlay done) code
  cases done.symm.trans again
  exact entries

/-- The records of `extra` make the overlay in whatever order they are taken. -/
theorem upsertRecords_order (sound : Sound calls extra) (code : TreeObject Leaf)
    {order : List (Bytes × DirTree.Node Leaf)} (same : order.Perm extra.records) :
    ∃ other, order.foldlM (upsertRecord calls) code = .ok other ∧
      other.entries.Same (code.entries.overlay extra.entries) := by
  -- An order of the records is one of the entries that are visited.
  obtain ⟨visited, rfl, moved⟩ := (congrFun₂ (List.eq_map_comp_perm recorded) order _).mpr same
  obtain ⟨other, taken, entries⟩ := @upsertRecords_taken _ calls code visited
    (fun _ inside => placed_of_visited (moved.mem_iff.mp inside))
    (fun entry inside => sound.taken entry (moved.mem_iff.mp inside))
  refine ⟨other, taken, ?_⟩
  -- The same leaves are written, and no two of them collide.
  rw [entries]
  exact (DirTree.leaves_apart extra.distinct).writes_same fun _ => (moved.filterMap _).mem_iff

/-- A tree without leaves overlays nothing. -/
theorem overlay_bare (bare : ∀ path, extra.entries.leafAt path = none) (base : DirTree Bytes Leaf) :
    base.overlay extra.entries = base := by
  -- There is nothing to write.
  have nothing : extra.entries.leaves = [] := by
    refine List.eq_nil_iff_forall_not_mem.mpr fun entry inside => ?_
    cases (bare entry.1).symm.trans ((DirTree.mem_leaves extra.distinct).mp inside)
  rw [DirTree.overlay, nothing]
  rfl

end Overlay

/--
The leaves of an overlay.

All of `extra` is there, and of `code` what does not collide with it; nothing else is.
-/
structure Overlaid (code extra result : DirTree Bytes Leaf) : Prop where
  kept : ∀ path leaf, extra.leafAt path = some leaf → result.leafAt path = some leaf
  beside : ∀ path, (∀ other leaf, extra.leafAt other = some leaf → ¬ Comparable other path) →
    result.leafAt path = code.leafAt path
  collided : ∀ path other leaf, extra.leafAt other = some leaf → other ≠ path →
    Comparable other path → result.leafAt path = none

/-- An overlay keeps all of `extra` and everything of `code` that does not collide, in whatever order
the entries are taken, and however often. -/
theorem overlayExtraOntoCode_exact {calls : OverlayCalls} {code extra result : TreeObject Leaf}
    (done : overlayExtraOntoCode calls code (some extra) = .ok result) :
    Overlaid code.entries extra.entries result.entries ∧
      (∀ order : List (Bytes × DirTree.Node Leaf), order.Perm extra.records → ∃ other,
        order.foldlM (upsertRecord calls) code = .ok other ∧ other.entries.Same result.entries) ∧
      (∃ again, overlayExtraOntoCode calls result (some extra) = .ok again ∧
        again.entries.Same result.entries) ∧
      ((∀ path, extra.entries.leafAt path = none) → result.entries = code.entries) ∧
      overlayExtraOntoCode calls code none = .ok code := by
  -- What holds of the overlay of the nested trees holds of what is built.
  have sound := sound_of_overlay done
  have entries := overlayExtraOntoCode_ok done
  refine ⟨⟨?_, ?_, ?_⟩, ?_, ?_, ?_, rfl⟩
  · intro path leaf found
    rw [entries]
    exact DirTree.leafAt_overlay_top extra.distinct found
  · intro path beside
    rw [entries]
    exact DirTree.leafAt_overlay_beside extra.distinct beside
  · intro path other leaf found different close
    rw [entries]
    exact DirTree.leafAt_overlay_close extra.distinct found different close
  · intro order same
    rw [entries]
    exact upsertRecords_order sound code same
  · -- The leaves that are there already are written once more.
    obtain ⟨again, succeeded, entries'⟩ := overlayExtraOntoCode_sound sound result
    refine ⟨again, succeeded, ?_⟩
    rw [entries', entries]
    exact (DirTree.leaves_apart extra.distinct).writes_again
  · intro bare
    rw [entries, overlay_bare bare]

/-- A file under a directory of `code` replaces it, and a directory of `extra` replaces a file. -/
theorem overlayExtraOntoCode_collisions :
    ∃ (code extra result : TreeObject Nat),
      overlayExtraOntoCode .sound code (some extra) = .ok result ∧
      code.entries.leafAt [ofText "dist"] = some 1 ∧
      code.entries.leafAt [ofText "lib", ofText "a"] = some 2 ∧
      extra.entries.leafAt [ofText "dist", ofText "app.js"] = some 4 ∧
      extra.entries.leafAt [ofText "lib"] = some 5 ∧
      Overlaid code.entries extra.entries result.entries := by
  -- A file meets a directory at `dist`, and a directory meets a file at `lib`.
  let code : TreeObject Nat := ⟨.leaf (ofText "dist") 1 (.dir (ofText "lib")
    (.leaf (ofText "a") 2 .nil) (.leaf (ofText "sub") 3 .nil)), by decide, by decide⟩
  let extra : TreeObject Nat := ⟨.dir (ofText "dist") (.leaf (ofText "app.js") 4 .nil)
    (.leaf (ofText "lib") 5 .nil), by decide, by decide⟩
  have sound : Sound .sound extra := ⟨⟨rfl, rfl, rfl⟩, ⟨rfl, rfl⟩, fun _ _ _ _ => rfl, rfl⟩
  obtain ⟨result, done, -⟩ := overlayExtraOntoCode_sound sound code
  exact ⟨code, extra, result, done, by decide, by decide, by decide, by decide,
    (overlayExtraOntoCode_exact done).1⟩

/-- A tree object seen through its leaves. -/
def toTree (tree : TreeObject Leaf) : Tree Leaf :=
  Edit.run .empty (tree.entries.leaves.map fun entry => .upsert entry.1 entry.2)

/-- The leaves of a tree object are those that are found in it. -/
theorem get_toTree (tree : TreeObject Leaf) (path : List Bytes) :
    tree.toTree.get path = tree.entries.leafAt path := by
  have apart := DirTree.leaves_apart tree.distinct
  cases found : tree.entries.leafAt path with
  | some leaf =>
    -- No other leaf is at a comparable path.
    have member := (DirTree.mem_leaves tree.distinct).mpr found
    apply Edit.run_settles
    · intro edit written value touched
      obtain ⟨entry, inside, rfl⟩ := List.mem_map.mp written
      obtain rfl := apart.beside entry inside (path, leaf) member
        (Edit.comparable_of_touch touched)
      simpa [Edit.touch, eq_comm] using touched
    · exact .inr ⟨_, List.mem_map.mpr ⟨_, member, rfl⟩, by simp [Edit.touch]⟩
  | none =>
    refine Edit.run_unwritten (fun leaf written => ?_) rfl
    obtain ⟨entry, inside, same⟩ := List.mem_map.mp written
    cases same
    cases found.symm.trans ((DirTree.mem_leaves tree.distinct).mp inside)

/-- The overlay of tree objects is that of their leaves. -/
theorem overlayExtraOntoCode_refines {calls : OverlayCalls} {code result : TreeObject Leaf}
    {extra : Option (TreeObject Leaf)}
    (done : overlayExtraOntoCode calls code extra = .ok result) :
    (combined code.toTree (extra.map toTree)).Same result.toTree := by
  -- A path is a leaf on top, or it collides with one, or it lies beside them all.
  intro path
  cases extra with
  | none => cases done; rfl
  | some extra =>
    rw [Option.map_some, combined, Leaves.get_overlay, get_toTree, get_toTree, get_toTree,
      overlayExtraOntoCode_ok done]
    cases found : extra.entries.leafAt path with
    | some leaf => exact (DirTree.leafAt_overlay_top extra.distinct found).symm
    | none =>
      by_cases met : extra.toTree.Meets path
      · obtain ⟨entry, inside, close⟩ := met
        have held := (get_toTree extra entry.1).symm.trans (Leaves.get_eq_some.mpr inside)
        have different : entry.1 ≠ path := by
          rintro rfl
          cases found.symm.trans held
        rw [DirTree.leafAt_overlay_close extra.distinct held different close]
        exact if_pos ⟨entry, inside, close⟩
      · have beside : ∀ other leaf, extra.entries.leafAt other = some leaf →
            ¬ Comparable other path := by
          intro other leaf held close
          have inside := Leaves.get_eq_some.mp ((get_toTree extra other).trans held)
          exact met ⟨(other, leaf), inside, close⟩
        rw [DirTree.leafAt_overlay_beside extra.distinct beside]
        exact if_neg met

end TreeObject

end GitFullSend

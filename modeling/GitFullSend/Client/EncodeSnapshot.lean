import GitFullSend.Client.WorkingTree

/-! When the encoded tree is a faithful snapshot of the working tree. -/

namespace GitFullSend

open Utf8 (Bytes ofText)

variable {Oid : Type}

/-- The leaves of a faithful snapshot: gitlinks as the index has them, and files as the disk has. -/
def SnapshotLeaf (calls : ObjectCalls Oid) (tree : WorkingTree) (index : List (IndexEntry Oid))
    (path : Bytes) (leaf : EntryKind × Oid) : Prop :=
  (∃ entry ∈ index, entry.path = path ∧ entry.mode = some .commit ∧ leaf = (.commit, entry.id)) ∨
    (((∃ entry ∈ index, entry.path = path ∧ entry.mode ≠ some .commit) ∨
      tree.Untracked index path) ∧ (tree.standing path).leaf calls = some leaf)

/-- The contents that a status pass brings from disk. -/
def broughtFrom (tree : WorkingTree) (items : List (Option Item)) : List Bytes :=
  (overlaidPaths items).filterMap fun path => (tree.standing path).content

/-- An encoding has exactly the leaves of a faithful snapshot, and counts what it did. -/
structure Snapshot (calls : ObjectCalls Oid) (tree : WorkingTree) (index : List (IndexEntry Oid))
    (items : List (Option Item)) (after : Encoding Oid) : Prop where
  leaves : ∀ spot leaf, after.editor.get spot = some leaf ↔
    ∃ path, spot = segments path ∧ SnapshotLeaf calls tree index path leaf
  files : after.stats.filesOverlaid = (broughtFrom tree items).length
  bytes : after.stats.bytesOverlaid = ((broughtFrom tree items).map List.length).sum
  removed : after.stats.filesRemoved = (removedPaths items).length

/-- Nothing that is tracked has become something that no tree can hold. -/
def NothingSpecial (tree : WorkingTree) (index : List (IndexEntry Oid)) : Prop :=
  ∀ entry ∈ index, tree.standing entry.path ≠ .special

/-- Every submodule has its directory. -/
def SubmodulesPresent (tree : WorkingTree) (index : List (IndexEntry Oid)) : Prop :=
  ∀ entry ∈ index, entry.mode = some .commit → tree.standing entry.path = .directory

section Describes

variable {calls : ObjectCalls Oid} {checkout : Checkout} {tree : WorkingTree}
  {index : List (IndexEntry Oid)} {changes : List (Bytes × EntryStatus)}
  {contents : List (Bytes × DirStatus × Option DirKind)} {path : Bytes}

/-- What is shown of a path is read as it stands. -/
theorem WorkingTree.ShownBy.readable (shown : tree.ShownBy checkout)
    (present : tree.standing path ≠ .missing) : checkout.Readable path := by
  -- Whatever is seen there is an answer, and its content was read along with it.
  unfold Checkout.Readable diskContent
  rw [shown path present]
  cases stands : tree.standing path with
  | missing => exact absurd stands present
  | symlink target => exact ⟨_, rfl⟩
  | file mode content => exact ⟨_, rfl⟩
  | directory => exact ⟨_, rfl⟩
  | special => exact ⟨_, rfl⟩

/-- The leaf that is read off the disk is the one that stands there. -/
theorem WorkingTree.ShownBy.diskLeaf (shown : tree.ShownBy checkout)
    (present : tree.standing path ≠ .missing) :
    diskLeaf calls checkout path = (tree.standing path).leaf calls := by
  -- The checkout shows what stands there, so both sides look at the same thing.
  unfold GitFullSend.diskLeaf
  rw [shown path present]
  cases tree.standing path <;> rfl

/-- The content that is read off the disk is the one that stands there. -/
theorem WorkingTree.ShownBy.content (shown : tree.ShownBy checkout)
    (present : tree.standing path ≠ .missing) :
    checkout.content path = (tree.standing path).content := by
  -- The checkout shows what stands there, so both sides look at the same thing.
  unfold Checkout.content
  rw [shown path present]
  cases tree.standing path <;> rfl

/-- What is reported and taken from disk is neither missing nor a directory. -/
theorem IndexEntry.Reported.taken {entry : IndexEntry Oid} {standing : Standing}
    {status : EntryStatus} {place : Bytes} (told : entry.Reported calls standing status)
    (taken : (Item.modification place status).overlaid = some path) :
    place = path ∧ standing ≠ .missing ∧ standing ≠ .directory := by
  -- Only a modification, a change of type and an intent to add are taken from disk.
  cases status with
  | change change =>
    cases change with
    | removed => cases taken
    | submoduleModification => cases taken
    | modification =>
      cases taken
      refine ⟨rfl, ?_, ?_⟩ <;> rintro rfl <;> exact told rfl
    | type => cases taken; exact ⟨rfl, told⟩
  | intentToAdd => cases taken; exact ⟨rfl, told⟩
  | conflict => exact told.elim
  | needsUpdate => cases taken

/-- What the walk found and is taken from disk is an untracked file or symlink. -/
theorem Describes.walk_taken (describes : Describes calls tree index changes contents)
    {found : Bytes × DirStatus × Option DirKind} (inside : found ∈ contents)
    (taken : (Item.directoryContents found.1 found.2.1 found.2.2).overlaid = some path) :
    found.1 = path ∧ tree.Untracked index path ∧ (tree.standing path).content ≠ none := by
  -- Of what the walk finds, only untracked files and symlinks are taken from disk.
  obtain ⟨place, status, kind⟩ := found
  have shape : status = .untracked ∧ (kind = some .file ∨ kind = some .symlink) ∧ place = path := by
    unfold Item.overlaid at taken
    split at taken <;> simp_all
  obtain ⟨rfl, files, rfl⟩ := shape
  obtain ⟨untracked, same⟩ := describes.walked _ inside rfl
  refine ⟨rfl, untracked, fun nothing => ?_⟩
  -- Files and symlinks are the two kinds that have content.
  simp only at same
  cases stands : tree.standing place <;> simp_all [Standing.kind, Standing.content]

section Fits

variable (describes : Describes calls tree index changes contents) (shown : tree.ShownBy checkout)
  (serve : calls.Serve index (deliveries changes contents))
include describes

/-- What a status pass takes from disk is tracked, or it is an untracked file or symlink. -/
theorem Describes.taken {item : Item} (member : some item ∈ deliveries changes contents)
    (taken : item.overlaid = some path) :
    (∃ entry ∈ index, entry.path = path ∧
        tree.standing path ≠ .missing ∧ tree.standing path ≠ .directory) ∨
      (tree.Untracked index path ∧ (tree.standing path).content ≠ none) := by
  -- The deliveries are the changes to the index and then what the walk found.
  rcases List.mem_append.mp member with member | member
  · obtain ⟨change, inside, same⟩ := List.mem_map.mp member
    obtain ⟨entry, tracked, here, told⟩ := describes.reported change inside
    cases same
    obtain ⟨place, present⟩ := told.taken taken
    rw [here, place] at present
    exact .inl ⟨entry, tracked, here.trans place, present⟩
  · obtain ⟨found, inside, same⟩ := List.mem_map.mp member
    cases same
    exact .inr (describes.walk_taken inside taken).2

/-- What a status pass takes from disk is there. -/
theorem Describes.present {item : Item} (member : some item ∈ deliveries changes contents)
    (taken : item.overlaid = some path) : tree.standing path ≠ .missing := by
  -- Both a tracked path that is taken and an untracked one stand on disk.
  rcases describes.taken member taken with ⟨entry, -, -, present, -⟩ | ⟨untracked, -⟩
  · exact present
  · exact untracked.1

include shown serve

/-- Every delivery of a status pass that describes the tree fits into it. -/
theorem Describes.fits : ∀ item ∈ deliveries changes contents, Encodable calls checkout item := by
  -- What is taken from disk stands there, so it is read, and every blob is written.
  intro delivery member
  cases delivery with
  | none => simp [deliveries, changeItems, contentItems] at member
  | some item =>
    exact serve.encodable member fun path taken =>
      shown.readable (describes.present member taken)

/-- The edits that come from the index are about tracked paths. -/
theorem Describes.change_edit {edit : Edit Bytes (EntryKind × Oid)}
    (member : edit ∈ (changeItems changes).flatMap (editsOf calls checkout)) :
    ∃ entry ∈ index, ∃ status, (entry.path, status) ∈ changes ∧
      entry.Reported calls (tree.standing entry.path) status ∧
      ((status = .change .removed ∧ edit = .remove (segments entry.path)) ∨
        ∃ leaf, (tree.standing entry.path).leaf calls = some leaf ∧
          edit = .upsert (segments entry.path) leaf) := by
  -- Each edit comes from a change, and the change was reported of a tracked entry.
  obtain ⟨delivery, inside, from_⟩ := List.mem_flatMap.mp member
  have fits := describes.fits shown serve delivery (List.mem_append_left _ inside)
  obtain ⟨change, reported, rfl⟩ := List.mem_map.mp inside
  obtain ⟨entry, tracked, here, told⟩ := describes.reported change reported
  obtain ⟨place, status⟩ := change
  obtain rfl : entry.path = place := here
  refine ⟨entry, tracked, status, reported, told, ?_⟩
  rcases (mem_editsOf_item fits).mp from_ with ⟨path, gone, rfl⟩ | ⟨path, leaf, taken, found, rfl⟩
  · have status : status = .change .removed ∧ entry.path = path := by
      unfold Item.removed at gone
      split at gone <;> simp_all
    exact .inl ⟨status.1, by rw [status.2]⟩
  · obtain ⟨rfl, present, -⟩ := told.taken taken
    exact .inr ⟨leaf, (shown.diskLeaf present).symm.trans found, rfl⟩

/-- The edits that come from the walk write untracked files. -/
theorem Describes.content_edit {edit : Edit Bytes (EntryKind × Oid)}
    (member : edit ∈ (contentItems contents).flatMap (editsOf calls checkout)) :
    ∃ path leaf, tree.Untracked index path ∧ (tree.standing path).leaf calls = some leaf ∧
      edit = .upsert (segments path) leaf := by
  -- The walk removes nothing, and it takes only untracked files from disk.
  obtain ⟨delivery, inside, from_⟩ := List.mem_flatMap.mp member
  have fits := describes.fits shown serve delivery (List.mem_append_right _ inside)
  obtain ⟨found, walked, rfl⟩ := List.mem_map.mp inside
  rcases (mem_editsOf_item fits).mp from_ with ⟨path, gone, -⟩ | ⟨path, leaf, taken, read, rfl⟩
  · cases gone
  · obtain ⟨-, untracked, -⟩ := describes.walk_taken walked taken
    exact ⟨path, leaf, untracked, (shown.diskLeaf untracked.1).symm.trans read, rfl⟩

/-- A change that says that a path is gone removes it. -/
theorem Describes.change_removes {entry : IndexEntry Oid}
    (reported : (entry.path, .change .removed) ∈ changes) :
    Edit.remove (segments entry.path) ∈
      (changeItems changes).flatMap (editsOf calls checkout) := by
  -- The item of the change is delivered, and the path it removes is its own.
  have inside := List.mem_map_of_mem (f := fun change : Bytes × EntryStatus =>
    some (Item.modification change.1 change.2)) reported
  have fits := describes.fits shown serve _ (List.mem_append_left _ inside)
  exact List.mem_flatMap.mpr ⟨_, inside, (mem_editsOf_item fits).mpr (.inl ⟨_, rfl, rfl⟩)⟩

/-- A change that is taken from disk writes the leaf that stands there. -/
theorem Describes.change_writes {entry : IndexEntry Oid} {status : EntryStatus}
    {leaf : EntryKind × Oid} (reported : (entry.path, status) ∈ changes)
    (taken : (Item.modification entry.path status).overlaid = some entry.path)
    (found : (tree.standing entry.path).leaf calls = some leaf) :
    Edit.upsert (segments entry.path) leaf ∈
      (changeItems changes).flatMap (editsOf calls checkout) := by
  -- The item of the change is delivered, and the disk holds the leaf that stands there.
  have inside := List.mem_map_of_mem (f := fun change : Bytes × EntryStatus =>
    some (Item.modification change.1 change.2)) reported
  have member := List.mem_append_left (contentItems contents) inside
  have fits := describes.fits shown serve _ member
  have read := (shown.diskLeaf (describes.present member taken)).trans found
  exact List.mem_flatMap.mpr
    ⟨_, inside, (mem_editsOf_item fits).mpr (.inr ⟨_, leaf, taken, read, rfl⟩)⟩

/-- An untracked file or symlink is written as it stands. -/
theorem Describes.content_writes {leaf : EntryKind × Oid} (untracked : tree.Untracked index path)
    (found : (tree.standing path).leaf calls = some leaf) :
    Edit.upsert (segments path) leaf ∈
      (contentItems contents).flatMap (editsOf calls checkout) := by
  -- A leaf is written from content, so the walk did find the path.
  have content : (tree.standing path).content ≠ none := by
    intro nothing
    cases stands : tree.standing path <;> simp_all [Standing.leaf, Standing.content]
  obtain ⟨walked, inside, rfl, status⟩ := describes.complete path untracked content
  have same := (describes.walked walked inside status).2
  have taken : (Item.directoryContents walked.1 walked.2.1 walked.2.2).overlaid =
      some walked.1 := by
    rw [status, same]
    cases stands : tree.standing walked.1 <;> simp_all [Standing.kind, Standing.content] <;> rfl
  have member : some (Item.directoryContents walked.1 walked.2.1 walked.2.2) ∈
      contentItems contents := List.mem_map.mpr ⟨walked, inside, rfl⟩
  have fits := describes.fits shown serve _ (List.mem_append_right _ member)
  have read := (shown.diskLeaf untracked.1).trans found
  exact List.mem_flatMap.mpr
    ⟨_, member, (mem_editsOf_item fits).mpr (.inr ⟨_, leaf, taken, read, rfl⟩)⟩

end Fits

end Describes

/-- What the tree has at a tracked path in the end, by what stands there on disk. -/
def IndexEntry.outcome (calls : ObjectCalls Oid) (entry : IndexEntry Oid) :
    Standing → Option (EntryKind × Oid)
  | .missing => none
  | .directory => if entry.mode = some .commit then some (.commit, entry.id) else none
  -- What no tree can hold is skipped, and the index has the last word.
  | .special => entry.mode.map (·, entry.id)
  | standing => standing.leaf calls

section Lookups

variable {calls : ObjectCalls Oid} {checkout : Checkout} {tree : WorkingTree}
  {index : List (IndexEntry Oid)} {changes : List (Bytes × EntryStatus)}
  {contents : List (Bytes × DirStatus × Option DirKind)} {path : Bytes} {entry : IndexEntry Oid}

/-- The seed has every entry of an index without conflicts. -/
theorem Merged.seed_get (merged : Merged index) (tracked : entry ∈ index) :
    (Edit.run (Leaves.empty : Editor Oid) (index.flatMap seedEdits)).get (segments entry.path) =
      entry.mode.map (·, entry.id) := by
  -- No other entry is at a comparable path, so the own edit of the entry is all that touches it.
  apply Edit.run_settles
  · intro edit member value touched
    obtain ⟨other, inside, from_⟩ := List.mem_flatMap.mp member
    rw [seedEdits, if_neg (by simp [merged.staged other inside]), Option.mem_toList,
      Option.map_eq_some_iff] at from_
    obtain ⟨kind, mode, rfl⟩ := from_
    obtain rfl : other = entry :=
      merged.unique inside tracked (Edit.comparable_of_touch touched)
    simp only [Edit.touch, if_true, Option.some.injEq] at touched
    rw [← touched, mode, Option.map_some]
  · cases mode : entry.mode with
    | none => exact .inl rfl
    | some kind =>
      refine .inr ⟨.upsert (segments entry.path) (kind, entry.id), ?_, by simp [Edit.touch]⟩
      refine List.mem_flatMap.mpr ⟨entry, tracked, ?_⟩
      rw [seedEdits, if_neg (by simp [merged.staged entry tracked])]
      simp [mode]

/-- A file or a symlink ends as it stands. -/
theorem IndexEntry.outcome_of_leaf {standing : Standing} {leaf : EntryKind × Oid}
    (found : standing.leaf calls = some leaf) : entry.outcome calls standing = some leaf := by
  -- Where there is a leaf, the outcome is that leaf; elsewhere there is no leaf to have.
  cases standing <;> first | exact found | cases found

/-- Unless something special is there, a path ends as a gitlink only where a directory stands. -/
theorem IndexEntry.outcome_commit {standing : Standing} {id : Oid} (plain : standing ≠ .special)
    (outcome : entry.outcome calls standing = some (.commit, id)) : standing = .directory := by
  -- What is read from disk becomes a file or a link, so files and symlinks have no such leaf.
  have file : standing.leaf calls ≠ some (.commit, id) :=
    fun found => absurd rfl (Standing.leaf_kind found)
  cases standing with
  | missing => cases outcome
  | directory => rfl
  | special => exact absurd rfl plain
  | symlink target => exact absurd outcome file
  | file mode content => exact absurd outcome file

/-- What is as the index has it ends so. -/
theorem IndexEntry.Holds.outcome {standing : Standing} (holds : entry.Holds calls standing) :
    entry.outcome calls standing = entry.mode.map (·, entry.id) := by
  rcases holds with ⟨gitlink, rfl⟩ | ⟨kind, mode, found⟩
  · simp [IndexEntry.outcome, gitlink]
  · rw [outcome_of_leaf found, mode, Option.map_some]

/-- What is neither missing nor a directory has a leaf, or it is left as the index has it. -/
theorem IndexEntry.outcome_or_leaf (writes : ∀ content, (calls.writeBlob content).isSome)
    {standing : Standing} (present : standing ≠ .missing) (plain : standing ≠ .directory) :
    entry.mode.map (·, entry.id) = entry.outcome calls standing ∨
      ∃ leaf, standing.leaf calls = some leaf := by
  -- Every blob can be written, so a file and a symlink have their leaves.
  have written : ∀ (kind : EntryKind) (content : Bytes),
      ∃ leaf, (calls.writeBlob content).map (kind, ·) = some leaf := by
    intro kind content
    obtain ⟨id, written⟩ := Option.isSome_iff_exists.mp (writes content)
    exact ⟨(kind, id), by simp [written]⟩
  cases standing with
  | missing => exact absurd rfl present
  | directory => exact absurd rfl plain
  | special => exact .inl rfl
  | symlink target => exact .inr (written .link target)
  | file mode content => exact .inr (written (blobKind mode) content)

/-- What is reported of a path is as the index has it, or it is gone, or it is taken from disk. -/
theorem IndexEntry.Reported.leads (writes : ∀ content, (calls.writeBlob content).isSome)
    {standing : Standing} {status : EntryStatus} (told : entry.Reported calls standing status) :
    entry.mode.map (·, entry.id) = entry.outcome calls standing ∨
      (status = .change .removed ∧ entry.outcome calls standing = none) ∨
      ((Item.modification path status).overlaid = some path ∧
        ∃ leaf, standing.leaf calls = some leaf) := by
  -- One case for each status; those that are taken from disk share the last.
  have overlaid : (Item.modification path status).overlaid = some path →
      entry.mode.map (·, entry.id) = entry.outcome calls standing ∨
        ((Item.modification path status).overlaid = some path ∧
          ∃ leaf, standing.leaf calls = some leaf) := by
    intro taken
    obtain ⟨-, present, plain⟩ := told.taken taken
    exact (outcome_or_leaf writes present plain).imp_right (⟨taken, ·⟩)
  cases status with
  | change change =>
    cases change with
    | removed =>
      rcases told with rfl | ⟨rfl, file⟩
      · exact .inr (.inl ⟨rfl, rfl⟩)
      · exact .inr (.inl ⟨rfl, by simp [IndexEntry.outcome, file]⟩)
    | submoduleModification => exact .inl (Holds.outcome (.inl told.symm)).symm
    | modification => exact (overlaid rfl).imp_right .inr
    | type => exact (overlaid rfl).imp_right .inr
  | intentToAdd => exact (overlaid rfl).imp_right .inr
  | conflict => exact told.elim
  | needsUpdate => exact .inl (Holds.outcome told).symm

/-- A file stands neither above nor below what is tracked and there, submodules included. -/
theorem WorkingTree.outcome_beside (calls : ObjectCalls Oid) (tracked : entry ∈ index)
    {leaf : EntryKind × Oid} (untracked : tree.Untracked index path)
    (found : (tree.standing path).leaf calls = some leaf)
    (close : Comparable (segments path) (segments entry.path)) :
    entry.outcome calls (tree.standing entry.path) = none := by
  -- Of comparable paths one lies below the other, and only directories have something below.
  obtain ⟨present, -, beside⟩ := untracked
  obtain ⟨different, outside⟩ := beside entry tracked
  rcases close with above | below
  · -- Below a file there is nothing.
    by_cases missing : tree.standing entry.path = .missing
    · simp [missing, IndexEntry.outcome]
    · have folder := tree.nested path entry.path above (Ne.symm different) missing
      simp [folder, Standing.leaf] at found
  · -- Above a file there is a directory, and it is not one of a submodule.
    have folder := tree.nested entry.path path below different present
    have file : entry.mode ≠ some .commit := fun gitlink => outside gitlink below
    simp [folder, IndexEntry.outcome, file]

variable (describes : Describes calls tree index changes contents) (shown : tree.ShownBy checkout)
  (serve : calls.Serve index (deliveries changes contents)) (merged : Merged index)
include describes shown serve merged

omit shown serve in
/-- A change at the path of an entry is reported of that entry. -/
theorem Describes.reported_at (tracked : entry ∈ index)
    (reported : entry.path ∈ changes.map Prod.fst) :
    ∃ status, (entry.path, status) ∈ changes ∧
      entry.Reported calls (tree.standing entry.path) status := by
  -- The change is reported of some entry at the path, and that is this one.
  obtain ⟨⟨place, status⟩, inside, here⟩ := List.mem_map.mp reported
  obtain rfl : place = entry.path := here
  obtain ⟨other, member, same, told⟩ := describes.reported _ inside
  obtain rfl : other = entry := merged.at_path member tracked same
  exact ⟨status, inside, told⟩

/-- What the status pass says of a tracked path leads to its outcome, unless the index has it. -/
theorem Describes.tracked_reached (tracked : entry ∈ index) :
    entry.mode.map (·, entry.id) = entry.outcome calls (tree.standing entry.path) ∨
      ∃ edit ∈ (changeItems changes).flatMap (editsOf calls checkout),
        edit.touch (segments entry.path) ≠ none := by
  -- A path without a report is as the index has it, so its seed is the outcome.
  by_cases reported : entry.path ∈ changes.map Prod.fst
  · obtain ⟨status, inside, told⟩ := describes.reported_at merged tracked reported
    rcases told.leads serve.writes with holds | ⟨rfl, -⟩ | ⟨taken, leaf, found⟩
    · exact .inl holds
    · exact .inr ⟨_, describes.change_removes shown serve inside, by simp [Edit.touch]⟩
    · exact .inr ⟨_, describes.change_writes shown serve inside taken found, by simp [Edit.touch]⟩
  · exact .inl (describes.silent entry tracked reported).outcome.symm

/-- What a tracked path holds in the end is told by what stands there. -/
theorem Describes.tracked_get (tracked : entry ∈ index) :
    (Edit.run (Edit.run (Leaves.empty : Editor Oid) (index.flatMap seedEdits))
      ((deliveries changes contents).flatMap (editsOf calls checkout))).get
        (segments entry.path) = entry.outcome calls (tree.standing entry.path) := by
  -- Every edit that touches the path leaves the outcome, and some edit does touch it.
  rw [deliveries, List.flatMap_append]
  apply Edit.run_settles
  · intro edit member value touched
    rcases List.mem_append.mp member with member | member
    · -- Of the changes, only the one for the entry itself touches its path.
      obtain ⟨other, inside, status, -, told, shape⟩ := describes.change_edit shown serve member
      have close : Comparable (segments other.path) (segments entry.path) := by
        rcases shape with ⟨-, rfl⟩ | ⟨leaf, -, rfl⟩ <;> exact Edit.comparable_of_touch touched
      obtain rfl : other = entry := merged.unique inside tracked close
      rcases shape with ⟨rfl, rfl⟩ | ⟨leaf, found, rfl⟩
      · simp only [Edit.touch, List.prefix_rfl, if_true, Option.some.injEq] at touched
        rcases told with missing | ⟨folder, file⟩
        · simp [← touched, missing, IndexEntry.outcome]
        · simp [← touched, folder, file, IndexEntry.outcome]
      · simp only [Edit.touch, if_true, Option.some.injEq] at touched
        rw [← touched, IndexEntry.outcome_of_leaf found]
    · obtain ⟨path, leaf, untracked, found, rfl⟩ := describes.content_edit shown serve member
      have outcome := WorkingTree.outcome_beside calls tracked untracked found
        (Edit.comparable_of_touch touched)
      have apart : segments path ≠ segments entry.path := by
        intro same
        exact (untracked.2.2 entry tracked).1 (Segments.splitOn_injective slash same).symm
      simp only [Edit.touch, if_neg apart] at touched
      split at touched <;> cases touched
      exact outcome.symm
  · rw [merged.seed_get tracked]
    refine (describes.tracked_reached shown serve merged tracked).imp_right fun reached => ?_
    obtain ⟨edit, member, touched⟩ := reached
    exact ⟨edit, List.mem_append_left _ member, touched⟩

omit merged

/-- An untracked file or symlink ends as it stands. -/
theorem Describes.untracked_get {leaf : EntryKind × Oid} (untracked : tree.Untracked index path)
    (found : (tree.standing path).leaf calls = some leaf) (start : Editor Oid) :
    (Edit.run start ((deliveries changes contents).flatMap (editsOf calls checkout))).get
      (segments path) = some leaf := by
  -- Whatever the index says of what lies above or below, the walk comes last.
  rw [deliveries, List.flatMap_append, Edit.run, List.foldl_append]
  apply Edit.run_settles
  · intro edit member value touched
    obtain ⟨other, value, -, read, rfl⟩ := describes.content_edit shown serve member
    obtain rfl : other = path :=
      WorkingTree.leaf_apart read found (Edit.comparable_of_touch touched)
    simp only [Edit.touch, if_true, Option.some.injEq] at touched
    rw [← touched, ← read, found]
  · exact .inr ⟨_, describes.content_writes shown serve untracked found, by simp [Edit.touch]⟩

/-- Nothing is left where nothing is tracked and no untracked file stands. -/
theorem Describes.elsewhere_get {spot : List Bytes}
    (free : ∀ entry ∈ index, segments entry.path ≠ spot)
    (bare : ∀ path leaf, tree.Untracked index path →
      (tree.standing path).leaf calls = some leaf → segments path ≠ spot) :
    (Edit.run (Edit.run (Leaves.empty : Editor Oid) (index.flatMap seedEdits))
      ((deliveries changes contents).flatMap (editsOf calls checkout))).get spot = none := by
  -- Only writes put a leaf somewhere, and each is at a tracked path or an untracked file.
  rw [deliveries, List.flatMap_append]
  refine Edit.run_unwritten (fun leaf member => ?_) (Edit.run_unwritten (fun leaf member => ?_) rfl)
  · rcases List.mem_append.mp member with member | member
    · obtain ⟨entry, inside, status, -, -, shape⟩ := describes.change_edit shown serve member
      rcases shape with ⟨-, same⟩ | ⟨leaf, -, same⟩ <;> cases same
      exact free entry inside rfl
    · obtain ⟨path, value, untracked, found, same⟩ := describes.content_edit shown serve member
      cases same
      exact bare path _ untracked found rfl
  · obtain ⟨entry, inside, from_⟩ := List.mem_flatMap.mp member
    exact free entry inside (path_of_seedEdits from_).2

omit serve

/-- The contents that are read are those that stand there. -/
theorem Describes.brought : broughtFrom tree (deliveries changes contents) =
    (overlaidPaths (deliveries changes contents)).filterMap checkout.content := by
  -- Whatever is taken from disk stands there, so its content is read as it is.
  refine List.filterMap_congr fun path taken => ?_
  obtain ⟨item, member, taken⟩ := mem_overlaidPaths.mp taken
  exact (shown.content (describes.present member taken)).symm

omit shown

/-- Where nothing tracked has become special, all that is taken from disk has content. -/
theorem Describes.taken_content (plain : NothingSpecial tree index) {path : Bytes}
    (taken : path ∈ overlaidPaths (deliveries changes contents)) :
    (tree.standing path).content.isSome := by
  -- What stands there is neither missing nor a directory, and special things were ruled out.
  obtain ⟨item, member, taken⟩ := mem_overlaidPaths.mp taken
  rcases describes.taken member taken with ⟨entry, tracked, rfl, there, file⟩ | ⟨-, content⟩
  · have ordinary := plain entry tracked
    cases stands : tree.standing entry.path <;> simp_all [Standing.content]
  · exact Option.isSome_iff_ne_none.mpr content

include merged

/-- A tracked path with something special is among those that are taken from disk. -/
theorem Describes.special_taken (tracked : entry ∈ index)
    (special : tree.standing entry.path = .special) :
    entry.path ∈ overlaidPaths (deliveries changes contents) := by
  -- The index cannot hold what stands there, so the status pass reports the path.
  have bare : ¬ entry.Holds calls (tree.standing entry.path) := by
    rw [special]
    intro holds
    rcases holds with ⟨-, other⟩ | ⟨kind, -, other⟩ <;> cases other
  have reported : entry.path ∈ changes.map Prod.fst := by
    by_contra silent
    exact bare (describes.silent entry tracked silent)
  obtain ⟨status, inside, told⟩ := describes.reported_at merged tracked reported
  refine mem_overlaidPaths.mpr ⟨.modification entry.path status,
    List.mem_append_left _ (List.mem_map_of_mem inside), ?_⟩
  -- Only a change of type and an intent to add can be said of it.
  rw [special] at told bare
  cases status with
  | change change =>
    cases change with
    | removed => rcases told with other | ⟨other, -⟩ <;> cases other
    | submoduleModification => cases told.1
    | modification => exact absurd rfl told
    | type => rfl
  | intentToAdd => rfl
  | conflict => exact told.elim
  | needsUpdate => exact absurd told bare

end Lookups

section Leaves

variable {calls : ObjectCalls Oid} {tree : WorkingTree} {index : List (IndexEntry Oid)}
  {entry : IndexEntry Oid} {leaf : EntryKind × Oid}

/-- The snapshot has the gitlinks of the index. -/
theorem SnapshotLeaf.gitlink_iff (merged : Merged index) (tracked : entry ∈ index)
    (gitlink : entry.mode = some .commit) :
    SnapshotLeaf calls tree index entry.path leaf ↔ leaf = (.commit, entry.id) := by
  -- An index without conflicts has one entry at the path, and it is not untracked.
  constructor
  · intro held
    rcases held with ⟨other, member, same, -, rfl⟩ | ⟨⟨other, member, same, file⟩ | untracked, -⟩
    · obtain rfl : other = entry := merged.at_path member tracked same
      rfl
    · obtain rfl : other = entry := merged.at_path member tracked same
      exact absurd gitlink file
    · exact absurd rfl (untracked.2.2 entry tracked).1
  · rintro rfl
    exact .inl ⟨entry, tracked, rfl, gitlink, rfl⟩

/-- The snapshot has what else is tracked as it stands. -/
theorem SnapshotLeaf.file_iff (merged : Merged index) (tracked : entry ∈ index)
    (file : entry.mode ≠ some .commit) :
    SnapshotLeaf calls tree index entry.path leaf ↔
      (tree.standing entry.path).leaf calls = some leaf := by
  -- The entry at the path is no gitlink, so only the disk can say what is there.
  constructor
  · intro held
    rcases held with ⟨other, member, same, gitlink, -⟩ | ⟨-, found⟩
    · obtain rfl : other = entry := merged.at_path member tracked same
      exact absurd gitlink file
    · exact found
  · intro found
    exact .inr ⟨.inl ⟨entry, tracked, rfl, file⟩, found⟩

/-- The snapshot has untracked files as they stand. -/
theorem SnapshotLeaf.untracked_iff {path : Bytes} (untracked : tree.Untracked index path) :
    SnapshotLeaf calls tree index path leaf ↔ (tree.standing path).leaf calls = some leaf := by
  -- No entry is at an untracked path, so only the disk can say what is there.
  constructor
  · intro held
    rcases held with ⟨other, member, same, -, -⟩ | ⟨-, found⟩
    · exact absurd same (untracked.2.2 other member).1
    · exact found
  · exact fun found => .inr ⟨.inr untracked, found⟩

/-- What a tracked path ends with is in the snapshot, unless something special took its place or a
submodule lost its directory. -/
theorem IndexEntry.outcome_iff_snapshot (merged : Merged index) (tracked : entry ∈ index)
    (plain : tree.standing entry.path ≠ .special)
    (present : entry.mode = some .commit → tree.standing entry.path = .directory) :
    entry.outcome calls (tree.standing entry.path) = some leaf ↔
      SnapshotLeaf calls tree index entry.path leaf := by
  -- Gitlinks are as the index has them, and the rest is as it stands.
  by_cases gitlink : entry.mode = some .commit
  · rw [SnapshotLeaf.gitlink_iff merged tracked gitlink, present gitlink]
    simp [IndexEntry.outcome, gitlink, eq_comm]
  · rw [SnapshotLeaf.file_iff merged tracked gitlink]
    cases stands : tree.standing entry.path with
    | special => exact absurd stands plain
    | directory => simp [IndexEntry.outcome, Standing.leaf, gitlink]
    | missing => exact Iff.rfl
    | symlink target => exact Iff.rfl
    | file mode content => exact Iff.rfl

/-- A snapshot has nothing where nothing is tracked and no untracked file stands. -/
theorem not_snapshotLeaf {spot : List Bytes} (free : ∀ entry ∈ index, segments entry.path ≠ spot)
    (bare : ∀ path leaf, tree.Untracked index path →
      (tree.standing path).leaf calls = some leaf → segments path ≠ spot) :
    ¬ ∃ path, spot = segments path ∧ SnapshotLeaf calls tree index path leaf := by
  -- A leaf of the snapshot is at a tracked path, or it is an untracked file.
  rintro ⟨path, rfl, held⟩
  rcases held with ⟨entry, tracked, rfl, -⟩ | ⟨⟨entry, tracked, rfl, -⟩ | untracked, found⟩
  · exact free entry tracked rfl
  · exact free entry tracked rfl
  · exact bare path leaf untracked found rfl

/-- What stands at a path of a snapshot is told by that path alone. -/
theorem snapshotLeaf_named {path : Bytes} :
    (∃ other, segments path = segments other ∧ SnapshotLeaf calls tree index other leaf) ↔
      SnapshotLeaf calls tree index path leaf := by
  -- A path is told by its segments.
  constructor
  · intro held
    obtain ⟨other, same, held⟩ := held
    rwa [Segments.splitOn_injective slash same]
  · exact fun held => ⟨path, rfl, held⟩

end Leaves

/-- A finished encoding is the snapshot of a tree exactly when nothing tracked has become something
that no tree can hold, and every submodule has its directory. -/
theorem encodeTree_snapshot_iff {calls : ObjectCalls Oid} {checkout : Checkout}
    {tree : WorkingTree} {index : List (IndexEntry Oid)} {changes : List (Bytes × EntryStatus)}
    {contents : List (Bytes × DirStatus × Option DirKind)} (merged : Merged index)
    (describes : Describes calls tree index changes contents) (shown : tree.ShownBy checkout)
    (serve : calls.Serve index (deliveries changes contents)) :
    (∃ after, encodeTree calls checkout index (deliveries changes contents) = .ok after ∧
        Snapshot calls tree index (deliveries changes contents) after) ↔
      NothingSpecial tree index ∧ SubmodulesPresent tree index := by
  -- The encoding finishes, and its tree is the seed followed by the edits of the deliveries.
  have fits := describes.fits shown serve
  obtain ⟨after, encoded⟩ := encodeTree_complete serve.seeded fits
  have carried := (encodeTree_ok serve.seeded encoded).2
  have tracked_get : ∀ entry ∈ index, after.editor.get (segments entry.path) =
      entry.outcome calls (tree.standing entry.path) := by
    intro entry tracked
    rw [carried]
    exact describes.tracked_get shown serve merged tracked
  have counted := encodeTree_stats serve.seeded encoded
  have brought := describes.brought shown
  constructor
  · -- A special file would be counted without content, and a lost submodule would have no leaf.
    intro snapshot
    obtain ⟨same, again, snapshot⟩ := snapshot
    obtain rfl : after = same := Except.ok.inj (encoded.symm.trans again)
    have plain : NothingSpecial tree index := by
      intro entry tracked special
      -- It is counted as a file that was overlaid, and nothing was written for it.
      have files := snapshot.files
      rw [counted, broughtFrom, CodeLayerStats.counting, Nat.zero_add] at files
      have content := List.filterMap_length_eq_length.mp files.symm entry.path
        (describes.special_taken merged tracked special)
      simp [special, Standing.content] at content
    refine ⟨plain, fun entry tracked gitlink => ?_⟩
    have held := (snapshot.leaves _ _).mpr ⟨entry.path, rfl,
      (SnapshotLeaf.gitlink_iff merged tracked gitlink).mpr rfl⟩
    rw [tracked_get entry tracked] at held
    exact IndexEntry.outcome_commit (plain entry tracked) held
  · intro condition
    obtain ⟨plain, present⟩ := condition
    have content : ∀ path ∈ overlaidPaths (deliveries changes contents),
        (tree.standing path).content.isSome := fun path => describes.taken_content plain
    refine ⟨after, encoded, fun spot leaf => ?_, ?_, ?_, ?_⟩
    -- A spot is tracked, or an untracked file stands there, or it is free in both.
    · by_cases known : ∃ entry ∈ index, segments entry.path = spot
      · obtain ⟨entry, tracked, rfl⟩ := known
        rw [tracked_get entry tracked, snapshotLeaf_named]
        exact IndexEntry.outcome_iff_snapshot merged tracked (plain entry tracked)
          (present entry tracked)
      · by_cases new : ∃ path leaf, tree.Untracked index path ∧
            (tree.standing path).leaf calls = some leaf ∧ segments path = spot
        · obtain ⟨path, value, untracked, found, rfl⟩ := new
          rw [carried, describes.untracked_get shown serve untracked found, snapshotLeaf_named,
            SnapshotLeaf.untracked_iff untracked, found]
        · push Not at known new
          rw [carried, describes.elsewhere_get shown serve known new]
          exact ⟨by simp, fun held => absurd held (not_snapshotLeaf known new)⟩
    · rw [counted, broughtFrom, List.filterMap_length_eq_length.mpr content]
      exact Nat.zero_add _
    · rw [counted, brought]
      exact Nat.zero_add _
    · rw [counted]
      exact Nat.zero_add _

/-- An edited file, a removed one, a new one, an untouched one and a submodule make a snapshot. -/
theorem encodeTree_snapshot_mixed :
    ∃ (tree : WorkingTree) (index : List (IndexEntry Bytes)) (changes : List (Bytes × EntryStatus))
      (contents : List (Bytes × DirStatus × Option DirKind)) (checkout : Checkout)
      (after : Encoding Bytes),
      changes = [(ofText "edited", .change .modification), (ofText "gone", .change .removed)] ∧
      contents = [(ofText "new", .untracked, some .symlink)] ∧
      tree.standing (ofText "edited") = .file 0o755 (ofText "text") ∧
      tree.standing (ofText "sub") = .directory ∧
      encodeTree ⟨some, fun _ => true⟩ checkout index (deliveries changes contents) = .ok after ∧
      Snapshot ⟨some, fun _ => true⟩ tree index (deliveries changes contents) after := by
  let standing : Bytes → Standing := fun path =>
    if path = ofText "edited" then .file 0o755 (ofText "text")
    else if path = ofText "same" then .file 0o644 (ofText "same")
    else if path = ofText "new" then .symlink (ofText "same")
    else if path = ofText "sub" then .directory
    else .missing
  let index : List (IndexEntry Bytes) := [
    ⟨ofText "edited", .unconflicted, some .blob, ofText "old"⟩,
    ⟨ofText "gone", .unconflicted, some .blob, ofText "old"⟩,
    ⟨ofText "same", .unconflicted, some .blob, ofText "same"⟩,
    ⟨ofText "sub", .unconflicted, some .commit, ofText "tip"⟩]
  have edited : standing (ofText "edited") = .file 0o755 (ofText "text") := by decide
  have gone : standing (ofText "gone") = .missing := by decide
  have same : standing (ofText "same") = .file 0o644 (ofText "same") := by decide
  have new : standing (ofText "new") = .symlink (ofText "same") := by decide
  have sub : standing (ofText "sub") = .directory := by decide
  -- Nothing stands below a directory, so every path that is there has one segment.
  have named : ∀ path, standing path ≠ .missing →
      path ∈ [ofText "edited", ofText "same", ofText "new", ofText "sub"] := by
    intro path present
    by_contra other
    simp only [List.mem_cons, List.not_mem_nil, or_false, not_or] at other
    simp [standing, other] at present
  have flat : ∀ path, standing path ≠ .missing → segments path = [path] := by
    intro path present
    have single : ∀ name ∈ [ofText "edited", ofText "same", ofText "new", ofText "sub"],
        segments name = [name] := by decide
    exact single path (named path present)
  let tree : WorkingTree := ⟨standing, fun _ _ => Standing.nested_of_flat flat, fun _ => False⟩
  have untracked : ∀ path, tree.Untracked index path ↔ path = ofText "new" := by
    intro path
    have only : ∀ name ∈ [ofText "edited", ofText "same", ofText "new", ofText "sub"],
        (∀ entry ∈ index, entry.path ≠ name) → name = ofText "new" := by decide
    constructor
    · intro free
      exact only path (named path free.1) fun entry tracked => (free.2.2 entry tracked).1
    · rintro rfl
      refine ⟨(nomatch new.symm.trans ·), id, ?_⟩
      exact show ∀ entry ∈ index, entry.path ≠ ofText "new" ∧ (entry.mode = some .commit →
        ¬ segments entry.path <+: segments (ofText "new")) by decide
  -- The status pass says all of that: two changes, and one file that the walk finds.
  have describes : Describes ⟨some, fun _ => true⟩ tree index
      [(ofText "edited", .change .modification), (ofText "gone", .change .removed)]
      [(ofText "new", .untracked, some .symlink)] := by
    refine ⟨by decide, ?_, ?_, ?_, ?_, by decide⟩
    · intro change member
      rcases List.mem_cons.mp member with rfl | member
      · refine ⟨_, List.mem_cons_self, rfl, fun empty => ?_⟩
        simp [tree, edited, Standing.content] at empty
      · obtain rfl := List.mem_singleton.mp member
        exact ⟨_, List.mem_cons_of_mem _ List.mem_cons_self, rfl, .inl gone⟩
    · intro entry tracked silent
      have kept : entry = ⟨ofText "same", .unconflicted, some .blob, ofText "same"⟩ ∨
          entry = ⟨ofText "sub", .unconflicted, some .commit, ofText "tip"⟩ := by
        simp only [index, List.mem_cons, List.not_mem_nil, or_false] at tracked
        rcases tracked with rfl | rfl | rfl | rfl <;> simp at silent ⊢
      rcases kept with rfl | rfl
      · exact .inr ⟨.blob, rfl, by simp [tree, same, Standing.leaf, blobKind]⟩
      · exact .inl ⟨rfl, sub⟩
    · intro found member status
      obtain rfl := List.mem_singleton.mp member
      exact ⟨(untracked _).mpr rfl, by simp [tree, new, Standing.kind]⟩
    · intro path free content
      obtain rfl := (untracked path).mp free
      exact ⟨_, List.mem_singleton_self _, rfl, rfl⟩
  obtain ⟨after, encoded, snapshot⟩ := (@encodeTree_snapshot_iff _ _
      ⟨[], fun path => (standing path).seen⟩ _ _ _ _ ⟨by decide, by decide⟩ describes
      (fun _ _ => rfl) ⟨by simp, by simp, by simp⟩).mpr
    ⟨show ∀ entry ∈ index, standing entry.path ≠ .special by decide,
      show ∀ entry ∈ index, entry.mode = some .commit → standing entry.path = .directory by decide⟩
  exact ⟨tree, index, _, _, _, after, rfl, rfl, edited, sub, encoded, snapshot⟩

/-- A tracked file that became a FIFO stays in the tree as it was, and counts as written. -/
theorem encodeTree_snapshot_fifo :
    ∃ (tree : WorkingTree) (checkout : Checkout) (index : List (IndexEntry Bytes))
      (changes : List (Bytes × EntryStatus)),
      index = [⟨ofText "pipe", .unconflicted, some .blob, ofText "old"⟩] ∧
      tree.standing (ofText "pipe") = .special ∧ tree.ShownBy checkout ∧ Merged index ∧
      Describes ⟨some, fun _ => true⟩ tree index changes [] ∧
      (encodeTree ⟨some, fun _ => true⟩ checkout index (deliveries changes [])).map (fun after =>
        (after.editor.get (segments (ofText "pipe")), after.stats.filesOverlaid)) =
          .ok (some (.blob, ofText "old"), 1) ∧
      ¬ ∃ after, encodeTree ⟨some, fun _ => true⟩ checkout index (deliveries changes []) =
          .ok after ∧
        Snapshot ⟨some, fun _ => true⟩ tree index (deliveries changes []) after := by
  let standing : Bytes → Standing := fun path => if path = ofText "pipe" then .special else .missing
  have pipe : standing (ofText "pipe") = .special := by decide
  have only : ∀ path, standing path ≠ .missing → path = ofText "pipe" := by
    intro path present
    by_contra other
    simp [standing, other] at present
  have flat : ∀ path, standing path ≠ .missing → segments path = [path] := by
    intro path present
    rw [only path present]
    decide
  refine ⟨⟨standing, fun _ _ => Standing.nested_of_flat flat, fun _ => False⟩,
    ⟨[], fun path => (standing path).seen⟩, _, [(ofText "pipe", .change .type)], rfl,
    pipe, fun _ _ => rfl, ⟨by decide, by decide⟩, ?_, by decide, ?_⟩
  · refine ⟨by decide, ?_, ?_, nofun, ?_, by decide⟩
    · intro change member
      obtain rfl := List.mem_singleton.mp member
      refine ⟨_, List.mem_singleton_self _, rfl, fun missing => ?_, fun folder => ?_⟩
      · cases pipe.symm.trans missing
      · cases pipe.symm.trans folder
    · intro entry tracked silent
      obtain rfl := List.mem_singleton.mp tracked
      exact absurd (List.mem_singleton_self _) silent
    · intro path untracked content
      obtain rfl := only path untracked.1
      exact absurd rfl (untracked.2.2 _ (List.mem_singleton_self _)).1
  · intro snapshot
    obtain ⟨after, encoded, snapshot⟩ := snapshot
    -- One file is counted, and no content was brought from disk.
    cases encoded
    have files : (1 : Nat) =
        ([ofText "pipe"].filterMap fun path => (standing path).content).length := snapshot.files
    exact absurd files (by decide)

end GitFullSend

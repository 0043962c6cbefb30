import GitFullSend.Lib.LeafEdits
import GitFullSend.Lib.Folds
import GitFullSend.Common.StreamId

/-! Encoding the code state: the index as a base, and the status pass written over it. -/

namespace GitFullSend

open Utf8 (Bytes ofText)

variable {Oid : Type}

/-- The kinds of entry a tree can hold. -/
inductive EntryKind where
  | tree
  | blob
  | blobExecutable
  | link
  | commit
  deriving DecidableEq, Repr

/-- The stage of an index entry: none of the others when the path is not conflicted. -/
inductive Stage where
  | unconflicted
  | base
  | ours
  | theirs
  deriving DecidableEq, Repr

/-- One entry of the index. -/
structure IndexEntry (Oid : Type) where
  path : Bytes
  stage : Stage
  /-- The mode as a kind of tree entry, or `none` when it is the mode of none. -/
  mode : Option EntryKind
  id : Oid

/-- How a tracked path differs from the index. -/
inductive Change where
  | removed
  | modification
  | type
  | submoduleModification
  deriving DecidableEq, Repr

/-- What the status pass found out about a tracked path. -/
inductive EntryStatus where
  | change (change : Change)
  | intentToAdd
  | conflict
  | needsUpdate
  deriving DecidableEq, Repr

/-- What the directory walk found out about a path. -/
inductive DirStatus where
  | pruned
  | tracked
  | ignored
  | untracked
  deriving DecidableEq, Repr

/-- What the directory walk saw on disk. -/
inductive DirKind where
  | untrackable
  | file
  | symlink
  | directory
  | repository
  deriving DecidableEq, Repr

/-- One item of the status pass. -/
inductive Item where
  | modification (path : Bytes) (status : EntryStatus)
  | directoryContents (path : Bytes) (status : DirStatus) (diskKind : Option DirKind)
  | rewrite
  deriving DecidableEq, Repr

/-- What stands at a path on disk, and whether it can be read. -/
inductive DiskEntry where
  /-- Nothing whose metadata can be read. -/
  | absent
  /-- A symlink with its target, or `none` when reading the target fails. -/
  | symlink (target : Option Bytes)
  /-- A regular file with its permission bits and content, or `none` when reading it fails. -/
  | file (mode : Nat) (content : Option Bytes)
  /-- A directory, a FIFO or a socket. -/
  | other
  deriving DecidableEq, Repr

/-- A working tree, as the encoder reads it. -/
structure Checkout where
  /-- The directory of the working tree. -/
  workdir : Bytes
  /-- What stands at each path in it. -/
  entry : Bytes → DiskEntry

/-- The calls that write objects and assemble the tree. -/
structure ObjectCalls (Oid : Type) where
  /-- The id of a content once it is written, or `none` when writing fails. -/
  writeBlob : Bytes → Option Oid
  /-- Whether the tree editor takes a path. -/
  editable : Bytes → Bool

/-- Errors of the index seed and the status loop, without the texts other programs attach. -/
inductive EncodeError where
  /-- Reading a worktree file or symlink target failed. -/
  | readWorktree (path : Bytes)
  /-- Computing the index-vs-worktree status failed. -/
  | status
  /-- Building the tree failed. -/
  | buildTree
  /-- Writing a blob failed. -/
  | writeObject
  deriving DecidableEq, Repr

/-- Size metadata for the code layer's index-to-worktree delta. -/
structure CodeLayerStats where
  filesOverlaid : Nat := 0
  bytesOverlaid : Nat := 0
  filesRemoved : Nat := 0
  indexEntries : Nat := 0
  statusItems : Nat := 0
  deriving DecidableEq, Repr

/-- The tree under construction: every leaf with its mode and blob, by path segments. -/
abbrev Editor (Oid : Type) := Leaves Bytes (EntryKind × Oid)

/-- The tree editor and the statistics the loop carries. -/
structure Encoding (Oid : Type) where
  editor : Editor Oid
  stats : CodeLayerStats

/-- The segments of a path, which is how the editor reads it. -/
def segments (path : Bytes) : List Bytes := path.splitOn slash

/-- Write a leaf into the tree. -/
def Editor.put (calls : ObjectCalls Oid) (editor : Editor Oid) (path : Bytes)
    (leaf : EntryKind × Oid) : Except EncodeError (Editor Oid) :=
  if calls.editable path then .ok (editor.upsert (segments path) leaf) else .error .buildTree

/-- Drop a path from the tree. -/
def Editor.drop (calls : ObjectCalls Oid) (editor : Editor Oid) (path : Bytes) :
    Except EncodeError (Editor Oid) :=
  if calls.editable path then .ok (editor.remove (segments path)) else .error .buildTree

/-- Add one index entry to the tree from its own id and mode. -/
def seedEntry (calls : ObjectCalls Oid) (editor : Editor Oid) (entry : IndexEntry Oid) :
    Except EncodeError (Editor Oid) :=
  -- Conflicted paths come from disk later, when the status pass reports them.
  if entry.stage ≠ .unconflicted then .ok editor
  else
    match entry.mode with
    | none => .ok editor
    | some kind => editor.put calls entry.path (kind, entry.id)

/-- The base tree: the staged state, seeded from the empty tree. -/
def seedFromIndex (calls : ObjectCalls Oid) (index : List (IndexEntry Oid)) :
    Except EncodeError (Encoding Oid) := do
  let editor ← index.foldlM (seedEntry calls) Leaves.empty
  pure ⟨editor, { indexEntries := index.length }⟩

/-- Classify a regular file as an executable or plain blob by its owner-execute bit. -/
def blobKind (mode : Nat) : EntryKind :=
  if mode &&& 0o100 ≠ 0 then .blobExecutable else .blob

/-- Where a path of the working tree is on disk. -/
def Checkout.absolute (checkout : Checkout) (path : Bytes) : Bytes :=
  checkout.workdir ++ slash :: path

/-- The kind and content a path has on disk, or `none` for what no tree can represent. -/
def diskContent (checkout : Checkout) (path : Bytes) :
    Except EncodeError (Option (EntryKind × Bytes)) :=
  match checkout.entry path with
  | .absent => .error (.readWorktree (checkout.absolute path))
  | .symlink none => .error (.readWorktree (checkout.absolute path))
  | .symlink (some target) => .ok (some (.link, target))
  | .file _ none => .error (.readWorktree (checkout.absolute path))
  | .file mode (some content) => .ok (some (blobKind mode, content))
  | .other => .ok none

/-- Read what is on disk at a path, write it as a blob, and put it into the tree. -/
def overlayFromDisk (calls : ObjectCalls Oid) (checkout : Checkout) (editor : Editor Oid)
    (path : Bytes) : Except EncodeError (Editor Oid × Nat) := do
  match ← diskContent checkout path with
  | none => pure (editor, 0)
  | some (kind, content) =>
    match calls.writeBlob content with
    | none => .error .writeObject
    | some id => pure (← editor.put calls path (kind, id), content.length)

/-- Overlay one path and count it. -/
def overlayCounted (calls : ObjectCalls Oid) (checkout : Checkout) (state : Encoding Oid)
    (path : Bytes) : Except EncodeError (Encoding Oid) := do
  let (editor, bytes) ← overlayFromDisk calls checkout state.editor path
  pure ⟨editor, { state.stats with
    filesOverlaid := state.stats.filesOverlaid + 1
    bytesOverlaid := state.stats.bytesOverlaid + bytes }⟩

/-- Take one item of the status pass into the tree. -/
def encodeItem (calls : ObjectCalls Oid) (checkout : Checkout) (state : Encoding Oid) (item : Item) :
    Except EncodeError (Encoding Oid) :=
  match item with
  | .modification path (.change .removed) => do
    -- The file is gone from the worktree.
    let editor ← state.editor.drop calls path
    pure ⟨editor, { state.stats with filesRemoved := state.stats.filesRemoved + 1 }⟩
  | .modification _ (.change .submoduleModification) => .ok state
  | .modification path (.change .modification)
  | .modification path (.change .type)
  | .modification path .intentToAdd
  | .modification path .conflict => overlayCounted calls checkout state path
  | .modification _ .needsUpdate => .ok state
  | .directoryContents path .untracked (some .file)
  | .directoryContents path .untracked (some .symlink) => overlayCounted calls checkout state path
  | .directoryContents _ _ _ => .ok state
  | .rewrite => .ok state

/-- Count one delivery of the status pass and take it in; `none` is an item that failed. -/
def encodeDelivery (calls : ObjectCalls Oid) (checkout : Checkout) (state : Encoding Oid) :
    Option Item → Except EncodeError (Encoding Oid)
  | none => .error .status
  | some item =>
    encodeItem calls checkout
      { state with stats := { state.stats with statusItems := state.stats.statusItems + 1 } } item

/-- The tree of the `code` commit: the index, and everything the status pass delivers over it. -/
def encodeTree (calls : ObjectCalls Oid) (checkout : Checkout) (index : List (IndexEntry Oid))
    (items : List (Option Item)) : Except EncodeError (Encoding Oid) := do
  let state ← seedFromIndex calls index
  items.foldlM (encodeDelivery calls checkout) state

/-- The edit that overlaying a path comes to, if what is on disk fits into a tree. -/
def overlayEdit (calls : ObjectCalls Oid) (checkout : Checkout) (path : Bytes) :
    Except EncodeError (Option (Edit Bytes (EntryKind × Oid))) := do
  match ← diskContent checkout path with
  | none => pure none
  | some (kind, content) =>
    match calls.writeBlob content with
    | none => .error .writeObject
    | some id =>
      if calls.editable path then pure (some (.upsert (segments path) (kind, id)))
      else .error .buildTree

/-- The edit that one delivery of the status pass comes to, if it changes the tree at all. -/
def deliveryEdit (calls : ObjectCalls Oid) (checkout : Checkout) :
    Option Item → Except EncodeError (Option (Edit Bytes (EntryKind × Oid)))
  | none => .error .status
  | some (.modification path (.change .removed)) =>
    if calls.editable path then .ok (some (.remove (segments path))) else .error .buildTree
  | some (.modification path (.change .modification))
  | some (.modification path (.change .type))
  | some (.modification path .intentToAdd)
  | some (.modification path .conflict)
  | some (.directoryContents path .untracked (some .file))
  | some (.directoryContents path .untracked (some .symlink)) => overlayEdit calls checkout path
  | some _ => .ok none

private theorem overlayCounted_edit (calls : ObjectCalls Oid) (checkout : Checkout)
    (state : Encoding Oid) (path : Bytes) :
    (overlayCounted calls checkout state path).map Encoding.editor =
      (overlayEdit calls checkout path).map fun edit => Edit.run state.editor edit.toList := by
  -- Both sides read the disk, write the blob and ask the editor, in this order.
  simp only [overlayCounted, overlayFromDisk, overlayEdit, Editor.put]
  cases diskContent checkout path with
  | error failure => rfl
  | ok found =>
    cases found with
    | none => rfl
    | some content =>
      cases written : calls.writeBlob content.2 with
      | none => simp [written, Bind.bind, Except.bind, Except.map]
      | some id =>
        cases calls.editable path <;>
          simp [written, Bind.bind, Except.bind, Except.map, Pure.pure, Except.pure, Edit.run,
            Edit.apply]

/-- Taking one delivery into the tree carries out its edit. -/
theorem encodeDelivery_edit (calls : ObjectCalls Oid) (checkout : Checkout) (state : Encoding Oid)
    (delivery : Option Item) :
    (encodeDelivery calls checkout state delivery).map Encoding.editor =
      (deliveryEdit calls checkout delivery).map fun edit => Edit.run state.editor edit.toList := by
  -- One case for each kind of item; the counters never reach the tree.
  cases delivery with
  | none => rfl
  | some item =>
    simp only [encodeDelivery]
    cases item with
    | modification path status =>
      cases status with
      | change change =>
        cases change with
        | removed =>
          cases taken : calls.editable path <;>
            simp [encodeItem, deliveryEdit, Editor.drop, taken, Bind.bind, Except.bind, Except.map,
              Pure.pure, Except.pure, Edit.run, Edit.apply]
        | modification => exact overlayCounted_edit calls checkout _ path
        | type => exact overlayCounted_edit calls checkout _ path
        | submoduleModification => rfl
      | intentToAdd => exact overlayCounted_edit calls checkout _ path
      | conflict => exact overlayCounted_edit calls checkout _ path
      | needsUpdate => rfl
    | directoryContents path status diskKind =>
      cases status with
      | untracked =>
        cases diskKind with
        | none => rfl
        | some kind =>
          cases kind with
          | file => exact overlayCounted_edit calls checkout _ path
          | symlink => exact overlayCounted_edit calls checkout _ path
          | _ => rfl
      | _ => rfl
    | rewrite => rfl

/-- The edits a delivery comes to when it can be taken into the tree: one or none. -/
def editsOf (calls : ObjectCalls Oid) (checkout : Checkout) (delivery : Option Item) :
    List (Edit Bytes (EntryKind × Oid)) :=
  match deliveryEdit calls checkout delivery with
  | .ok edit => edit.toList
  | .error _ => []

/-- A delivery fits into the tree: it can be read, written and placed. -/
def Encodable (calls : ObjectCalls Oid) (checkout : Checkout) (delivery : Option Item) : Prop :=
  ∃ edit, deliveryEdit calls checkout delivery = .ok edit

/-- A delivery that is taken into the tree fits, and its edits are carried out. -/
theorem encodeDelivery_ok {calls : ObjectCalls Oid} {checkout : Checkout}
    {state after : Encoding Oid} {delivery : Option Item}
    (taken : encodeDelivery calls checkout state delivery = .ok after) :
    Encodable calls checkout delivery ∧
      after.editor = Edit.run state.editor (editsOf calls checkout delivery) := by
  -- The edit of the delivery is defined whenever taking it in succeeds.
  have step := encodeDelivery_edit calls checkout state delivery
  unfold Encodable editsOf
  cases edited : deliveryEdit calls checkout delivery with
  | error failure => simp [edited, taken, Except.map] at step
  | ok edit => exact ⟨⟨edit, rfl⟩, by simpa [edited, taken, Except.map] using step⟩

/-- A delivery that fits is taken into every tree. -/
theorem encodeDelivery_complete {calls : ObjectCalls Oid} {checkout : Checkout}
    {delivery : Option Item} (fits : Encodable calls checkout delivery) (state : Encoding Oid) :
    ∃ after, encodeDelivery calls checkout state delivery = .ok after := by
  -- Whether a delivery can be taken in does not depend on the tree.
  obtain ⟨edit, edited⟩ := fits
  have step := encodeDelivery_edit calls checkout state delivery
  cases taken : encodeDelivery calls checkout state delivery with
  | error failure => simp [edited, taken, Except.map] at step
  | ok after => exact ⟨after, rfl⟩

/-- A status loop that finishes has carried out the edits of its deliveries in their order. -/
theorem encodeLoop_ok {calls : ObjectCalls Oid} {checkout : Checkout} {items : List (Option Item)}
    {state after : Encoding Oid}
    (finished : items.foldlM (encodeDelivery calls checkout) state = .ok after) :
    (∀ item ∈ items, Encodable calls checkout item) ∧
      after.editor = Edit.run state.editor (items.flatMap (editsOf calls checkout)) := by
  -- The induction follows the loop, whose editor changes from item to item.
  induction items generalizing state with
  | nil => cases finished; exact ⟨by simp, rfl⟩
  | cons item rest ih =>
    obtain ⟨middle, taken, finished⟩ := Folds.foldlM_cons_ok.mp finished
    obtain ⟨fits, moved⟩ := encodeDelivery_ok taken
    obtain ⟨others, ended⟩ := ih finished
    exact ⟨List.forall_mem_cons.mpr ⟨fits, others⟩, by simp [ended, moved, Edit.run]⟩

/-- An encoding that finishes is the index with the edits of all deliveries carried out over it. -/
theorem encodeTree_ok {calls : ObjectCalls Oid} {checkout : Checkout}
    {index : List (IndexEntry Oid)} {items : List (Option Item)} {start after : Encoding Oid}
    (seeded : seedFromIndex calls index = .ok start)
    (finished : encodeTree calls checkout index items = .ok after) :
    (∀ item ∈ items, Encodable calls checkout item) ∧
      after.editor = Edit.run start.editor (items.flatMap (editsOf calls checkout)) := by
  exact encodeLoop_ok (by simpa [encodeTree, seeded, Bind.bind, Except.bind] using finished)

/-- An encoding finishes when the index seeds a tree and every delivery fits. -/
theorem encodeTree_complete {calls : ObjectCalls Oid} {checkout : Checkout}
    {index : List (IndexEntry Oid)} {items : List (Option Item)} {start : Encoding Oid}
    (seeded : seedFromIndex calls index = .ok start)
    (fits : ∀ item ∈ items, Encodable calls checkout item) :
    ∃ after, encodeTree calls checkout index items = .ok after := by
  -- The seed is given, and no step of the loop can fail.
  have loop : ∃ last, items.foldlM (encodeDelivery calls checkout) start = .ok last :=
    Folds.foldlM_complete (fun item member => encodeDelivery_complete (fits item member)) start
  simpa [encodeTree, seeded, Bind.bind, Except.bind] using loop

end GitFullSend

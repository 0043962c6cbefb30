import Mathlib.Algebra.Ring.Nat
import GitFullSend.Client.Encode

/-! What the items of a status pass are about, and what each of them leaves in the tree. -/

namespace GitFullSend

open Utf8 (Bytes)

variable {Oid : Type}

/-- The path an item is about. -/
def Item.path : Item → Option Bytes
  | .modification path _ => some path
  | .directoryContents path _ _ => some path
  | .rewrite => none

/-- The path whose file or symlink an item takes from disk. -/
def Item.overlaid : Item → Option Bytes
  | .modification path (.change .modification)
  | .modification path (.change .type)
  | .modification path .intentToAdd
  | .modification path .conflict
  | .directoryContents path .untracked (some .file)
  | .directoryContents path .untracked (some .symlink) => some path
  | _ => none

/-- The path an item reports as gone. -/
def Item.removed : Item → Option Bytes
  | .modification path (.change .removed) => some path
  | _ => none

/-- What an item takes from disk is what it is about. -/
theorem Item.path_of_overlaid {item : Item} {path : Bytes} (taken : item.overlaid = some path) :
    item.path = some path := by
  unfold overlaid at taken
  split at taken <;> first | exact taken | cases taken

/-- What an item reports as gone is what it is about. -/
theorem Item.path_of_removed {item : Item} {path : Bytes} (gone : item.removed = some path) :
    item.path = some path := by
  -- Only one item reports something as gone.
  unfold removed at gone
  split at gone
  · exact gone
  · cases gone

/-- What stands at a path can be read. -/
def Checkout.Readable (checkout : Checkout) (path : Bytes) : Prop :=
  ∃ found, diskContent checkout path = .ok found

/-- A regular file or a symlink stands at a path. -/
def Checkout.Regular (checkout : Checkout) (path : Bytes) : Prop :=
  match checkout.entry path with
  | .symlink _ | .file _ _ => True
  | .absent | .other => False

/-- Nothing can be read where nothing stands. -/
theorem Checkout.Readable.present {checkout : Checkout} {path : Bytes}
    (readable : checkout.Readable path) : checkout.entry path ≠ .absent := by
  intro absent
  obtain ⟨found, read⟩ := readable
  simp [diskContent, absent] at read

/-- The leaf for what stands at a path on disk: its own mode, and its content as a blob. -/
def diskLeaf (calls : ObjectCalls Oid) (checkout : Checkout) (path : Bytes) :
    Option (EntryKind × Oid) :=
  match checkout.entry path with
  | .symlink (some target) => (calls.writeBlob target).map (.link, ·)
  | .file mode (some content) => (calls.writeBlob content).map (blobKind mode, ·)
  | _ => none

/-- Every object that an encoding may need is written, and the editor takes every path it meets. -/
structure ObjectCalls.Serve (calls : ObjectCalls Oid) (index : List (IndexEntry Oid))
    (items : List (Option Item)) : Prop where
  writes : ∀ content, (calls.writeBlob content).isSome
  seeds : ∀ entry ∈ index, calls.editable entry.path = true
  takes : ∀ item, some item ∈ items → ∀ path, item.path = some path → calls.editable path = true

section Edits

variable {calls : ObjectCalls Oid} {checkout : Checkout} {item : Item} {path : Bytes}

private theorem deliveryEdit_removed (gone : item.removed = some path) :
    deliveryEdit calls checkout (some item) =
      if calls.editable path then .ok (some (.remove (segments path))) else .error .buildTree := by
  -- Only one kind of item removes a path, and it is tried first.
  unfold Item.removed at gone
  split at gone
  · cases gone; rfl
  · cases gone

private theorem deliveryEdit_overlaid (taken : item.overlaid = some path) :
    deliveryEdit calls checkout (some item) = overlayEdit calls checkout path := by
  unfold Item.overlaid at taken
  split at taken <;> first | (cases taken; rfl) | cases taken

private theorem deliveryEdit_neither (kept : item.removed = none) (skipped : item.overlaid = none) :
    deliveryEdit calls checkout (some item) = .ok none := by
  -- The items that say nothing about the tree are those that the two readings leave over.
  unfold Item.removed at kept
  unfold Item.overlaid at skipped
  unfold deliveryEdit
  split <;> simp_all

/-- Nothing is reported as gone and taken from disk at once. -/
theorem Item.removed_of_overlaid (taken : item.overlaid = some path) : item.removed = none := by
  unfold overlaid at taken
  split at taken <;> first | rfl | cases taken

/-- The leaf on disk is the content that is read there, as a blob. -/
theorem diskLeaf_of_content {found : Option (EntryKind × Bytes)}
    (read : diskContent checkout path = .ok found) :
    diskLeaf calls checkout path =
      found.bind fun content => (calls.writeBlob content.2).map (content.1, ·) := by
  unfold diskContent at read
  unfold diskLeaf
  split at read <;> cases read <;> rename_i stands <;> simp [stands]

/-- What has a leaf on disk is a regular file or a symlink. -/
theorem regular_of_diskLeaf {leaf : EntryKind × Oid}
    (found : diskLeaf calls checkout path = some leaf) : checkout.Regular path := by
  unfold diskLeaf at found
  unfold Checkout.Regular
  split at found <;> rename_i stands <;> simp_all

/-- A file or a symlink that can be read and written has its leaf. -/
theorem Checkout.Regular.diskLeaf (regular : checkout.Regular path)
    (readable : checkout.Readable path) (writes : ∀ content, (calls.writeBlob content).isSome) :
    ∃ leaf, diskLeaf calls checkout path = some leaf := by
  obtain ⟨found, read⟩ := readable
  rw [diskLeaf_of_content read]
  cases found with
  | none =>
    -- Only what no tree can represent is read as nothing.
    unfold Regular at regular
    unfold diskContent at read
    split at read <;> rename_i stands <;> simp_all
  | some content =>
    obtain ⟨id, written⟩ := Option.isSome_iff_exists.mp (writes content.2)
    exact ⟨(content.1, id), by simp [written]⟩

private theorem overlayEdit_ok {edit : Option (Edit Bytes (EntryKind × Oid))}
    (taken : overlayEdit calls checkout path = .ok edit) :
    checkout.Readable path ∧
      edit = (diskLeaf calls checkout path).map (Edit.upsert (segments path)) := by
  -- What is read is written as a blob and put at the path, unless no tree can hold it.
  unfold overlayEdit at taken
  cases read : diskContent checkout path with
  | error failure => simp [read, Bind.bind, Except.bind] at taken
  | ok found =>
    refine ⟨⟨found, read⟩, ?_⟩
    rw [diskLeaf_of_content read]
    cases found with
    | none =>
      obtain rfl : none = edit := by
        simpa [read, Bind.bind, Except.bind, Pure.pure, Except.pure] using taken
      rfl
    | some content =>
      simp only [read, Bind.bind, Except.bind, Pure.pure, Except.pure] at taken
      cases written : calls.writeBlob content.2 with
      | none => simp [written] at taken
      | some id =>
        simp only [written] at taken
        split at taken <;> cases taken
        simp [written]

private theorem overlayEdit_complete (writes : ∀ content, (calls.writeBlob content).isSome)
    (taken : calls.editable path = true) (readable : checkout.Readable path) :
    ∃ edit, overlayEdit calls checkout path = .ok edit := by
  -- What is read is written and taken, so nothing is left to fail.
  obtain ⟨found, read⟩ := readable
  unfold overlayEdit
  cases found with
  | none => exact ⟨none, by simp [read, Bind.bind, Except.bind, Pure.pure, Except.pure]⟩
  | some content =>
    obtain ⟨id, written⟩ := Option.isSome_iff_exists.mp (writes content.2)
    exact ⟨_, by simp [read, written, taken, Bind.bind, Except.bind, Pure.pure, Except.pure]; rfl⟩

/-- An item that fits comes to a removal, or to the leaf on disk, or to nothing. -/
theorem editsOf_item (fits : Encodable calls checkout (some item)) :
    editsOf calls checkout (some item) =
      (item.removed.map fun path => Edit.remove (segments path)).toList ++
        (item.overlaid.bind fun path =>
          (diskLeaf calls checkout path).map (Edit.upsert (segments path))).toList := by
  -- An item that takes a leaf from disk removes nothing, and most items do neither.
  obtain ⟨edit, edited⟩ := fits
  have one : editsOf calls checkout (some item) = edit.toList := by simp [editsOf, edited]
  rw [one]
  cases taken : item.overlaid with
  | some path =>
    rw [deliveryEdit_overlaid taken] at edited
    simp [Item.removed_of_overlaid taken, (overlayEdit_ok edited).2]
  | none =>
    cases gone : item.removed with
    | some path =>
      rw [deliveryEdit_removed gone] at edited
      split at edited <;> cases edited
      simp
    | none =>
      rw [deliveryEdit_neither gone taken] at edited
      cases edited
      rfl

/-- The edits of an item that fits, one by one. -/
theorem mem_editsOf_item (fits : Encodable calls checkout (some item))
    {edit : Edit Bytes (EntryKind × Oid)} :
    edit ∈ editsOf calls checkout (some item) ↔
      (∃ path, item.removed = some path ∧ edit = .remove (segments path)) ∨
        ∃ path leaf, item.overlaid = some path ∧ diskLeaf calls checkout path = some leaf ∧
          edit = .upsert (segments path) leaf := by
  rw [editsOf_item fits, List.mem_append, Option.mem_toList, Option.mem_toList,
    Option.map_eq_some_iff, Option.bind_eq_some_iff]
  simp only [Option.map_eq_some_iff, @eq_comm _ edit, exists_and_left]

/-- The edits of deliveries that fit come from items. -/
theorem mem_edits {items : List (Option Item)}
    (fits : ∀ item ∈ items, Encodable calls checkout item) {edit : Edit Bytes (EntryKind × Oid)}
    (member : edit ∈ items.flatMap (editsOf calls checkout)) :
    ∃ item, some item ∈ items ∧ Encodable calls checkout (some item) ∧
      edit ∈ editsOf calls checkout (some item) := by
  -- A delivery that failed has no edits.
  obtain ⟨delivery, inside, from_⟩ := List.mem_flatMap.mp member
  cases delivery with
  | none => simp [editsOf, deliveryEdit] at from_
  | some item => exact ⟨item, inside, fits _ inside, from_⟩

/-- What an item that fits takes from disk can be read. -/
theorem Encodable.readable (fits : Encodable calls checkout (some item))
    (taken : item.overlaid = some path) : checkout.Readable path := by
  obtain ⟨edit, edited⟩ := fits
  rw [deliveryEdit_overlaid taken] at edited
  exact (overlayEdit_ok edited).1

end Edits

/-- Where objects are written and paths are taken, an item fits as soon as its file can be read. -/
theorem ObjectCalls.Serve.encodable {calls : ObjectCalls Oid} {checkout : Checkout}
    {index : List (IndexEntry Oid)} {items : List (Option Item)} {item : Item}
    (serve : calls.Serve index items) (member : some item ∈ items)
    (readable : ∀ path, item.overlaid = some path → checkout.Readable path) :
    Encodable calls checkout (some item) := by
  -- An item that reads nothing fits wherever its path is taken.
  unfold Encodable
  cases taken : item.overlaid with
  | some path =>
    rw [deliveryEdit_overlaid taken]
    exact overlayEdit_complete serve.writes
      (serve.takes item member path (Item.path_of_overlaid taken)) (readable path taken)
  | none =>
    cases gone : item.removed with
    | some path =>
      rw [deliveryEdit_removed gone, serve.takes item member path (Item.path_of_removed gone)]
      exact ⟨_, rfl⟩
    | none => exact ⟨none, deliveryEdit_neither gone taken⟩

/-- The edit that seeding the tree with one index entry comes to. -/
def seedEdits (entry : IndexEntry Oid) : List (Edit Bytes (EntryKind × Oid)) :=
  if entry.stage ≠ .unconflicted then []
  else (entry.mode.map fun kind => Edit.upsert (segments entry.path) (kind, entry.id)).toList

/-- Seeding writes the entries without a conflict, each at its own path. -/
theorem path_of_seedEdits {entry : IndexEntry Oid} {spot : List Bytes} {leaf : EntryKind × Oid}
    (member : .upsert spot leaf ∈ seedEdits entry) :
    entry.stage = .unconflicted ∧ segments entry.path = spot := by
  -- An entry of a conflict seeds nothing, and any other writes one leaf.
  unfold seedEdits at member
  split at member
  · cases member
  · rename_i stage
    obtain ⟨kind, -, same⟩ := Option.map_eq_some_iff.mp (Option.mem_toList.mp member)
    cases same
    exact ⟨not_not.mp stage, rfl⟩

/-- Where the editor takes the paths of the index, it seeds a tree with the edits of its entries. -/
theorem ObjectCalls.Serve.seeded {calls : ObjectCalls Oid} {index : List (IndexEntry Oid)}
    {items : List (Option Item)} (serve : calls.Serve index items) :
    seedFromIndex calls index =
      .ok ⟨Edit.run Leaves.empty (index.flatMap seedEdits), { indexEntries := index.length }⟩ := by
  -- The induction is on the entries, and the editor grows from one to the next.
  have fold : ∀ (entries : List (IndexEntry Oid)) (editor : Editor Oid),
      (∀ entry ∈ entries, calls.editable entry.path = true) →
      entries.foldlM (seedEntry calls) editor =
        .ok (Edit.run editor (entries.flatMap seedEdits)) := by
    intro entries
    induction entries with
    | nil => intro editor _; rfl
    | cons entry rest ih =>
      intro editor taken
      obtain ⟨here, others⟩ := List.forall_mem_cons.mp taken
      have seeded : seedEntry calls editor entry = .ok (Edit.run editor (seedEdits entry)) := by
        unfold seedEntry seedEdits
        split
        · rfl
        · cases entry.mode <;> simp [Editor.put, here, Edit.run, Edit.apply]
      rw [List.foldlM_cons, seeded]
      simpa [Bind.bind, Except.bind, Edit.run] using ih _ others
  simp [seedFromIndex, fold index _ serve.seeds, Bind.bind, Except.bind, Pure.pure, Except.pure]

/-- The content of the file or symlink at a path. -/
def Checkout.content (checkout : Checkout) (path : Bytes) : Option Bytes :=
  match checkout.entry path with
  | .symlink target => target
  | .file _ content => content
  | .absent | .other => none

/-- The paths that the items of a status pass take from disk. -/
def overlaidPaths (items : List (Option Item)) : List Bytes :=
  items.filterMap (·.bind Item.overlaid)

/-- The paths that the items of a status pass report as gone. -/
def removedPaths (items : List (Option Item)) : List Bytes :=
  items.filterMap (·.bind Item.removed)

/-- The paths that are taken from disk are those of the items. -/
theorem mem_overlaidPaths {items : List (Option Item)} {path : Bytes} :
    path ∈ overlaidPaths items ↔ ∃ item, some item ∈ items ∧ item.overlaid = some path := by
  -- A delivery that failed takes nothing from disk.
  simp only [overlaidPaths, List.mem_filterMap]
  constructor
  · intro taken
    obtain ⟨delivery, member, taken⟩ := taken
    obtain ⟨item, rfl, taken⟩ := Option.bind_eq_some_iff.mp taken
    exact ⟨item, member, taken⟩
  · intro taken
    obtain ⟨item, member, taken⟩ := taken
    exact ⟨some item, member, taken⟩

/-- Statistics once some items are counted in. -/
def CodeLayerStats.counting (stats : CodeLayerStats) (checkout : Checkout)
    (items : List (Option Item)) : CodeLayerStats where
  filesOverlaid := stats.filesOverlaid + (overlaidPaths items).length
  bytesOverlaid := stats.bytesOverlaid +
    (((overlaidPaths items).filterMap checkout.content).map List.length).sum
  filesRemoved := stats.filesRemoved + (removedPaths items).length
  indexEntries := stats.indexEntries
  statusItems := stats.statusItems + items.length

section Counting

variable {calls : ObjectCalls Oid} {checkout : Checkout} {state after : Encoding Oid} {item : Item}
  {path : Bytes}

private theorem overlayCounted_stats
    (taken : overlayCounted calls checkout state path = .ok after) :
    after.stats = { state.stats with
      filesOverlaid := state.stats.filesOverlaid + 1
      bytesOverlaid := state.stats.bytesOverlaid +
        (([path].filterMap checkout.content).map List.length).sum } := by
  -- The bytes are those of the content that was read, and none where no tree can hold the entry.
  unfold overlayCounted overlayFromDisk at taken
  cases read : diskContent checkout path with
  | error failure => simp [read, Bind.bind, Except.bind] at taken
  | ok found =>
    have content : checkout.content path = found.map Prod.snd := by
      unfold diskContent at read
      unfold Checkout.content
      split at read <;> cases read <;> rename_i stands <;> simp [stands]
    cases found with
    | none =>
      simp only [read, Bind.bind, Except.bind, Pure.pure, Except.pure] at taken
      cases taken
      simp [content]
    | some entry =>
      simp only [read, Bind.bind, Except.bind, Pure.pure, Except.pure, Editor.put] at taken
      cases written : calls.writeBlob entry.2 with
      | none => simp [written] at taken
      | some id =>
        cases placed : calls.editable path with
        | false => simp [written, placed] at taken
        | true =>
          simp only [written, placed, if_true] at taken
          cases taken
          simp [content]

private theorem encodeItem_overlaid (taken : item.overlaid = some path) :
    encodeItem calls checkout state item = overlayCounted calls checkout state path := by
  unfold Item.overlaid at taken
  split at taken <;> first | (cases taken; rfl) | cases taken

private theorem encodeItem_neither (kept : item.removed = none) (skipped : item.overlaid = none) :
    encodeItem calls checkout state item = .ok state := by
  -- The items that are left over are those that encoding leaves out.
  unfold Item.removed at kept
  unfold Item.overlaid at skipped
  unfold encodeItem
  split <;> simp_all

/-- A delivery that is taken in is counted in. -/
theorem encodeDelivery_stats {delivery : Option Item}
    (taken : encodeDelivery calls checkout state delivery = .ok after) :
    after.stats = state.stats.counting checkout [delivery] := by
  -- One case for each reading of the item; an item that fails is not taken in.
  cases delivery with
  | none => cases taken
  | some item =>
    simp only [encodeDelivery] at taken
    cases overlaid : item.overlaid with
    | some path =>
      rw [encodeItem_overlaid overlaid] at taken
      simp [overlayCounted_stats taken, CodeLayerStats.counting, overlaidPaths, removedPaths,
        overlaid, Item.removed_of_overlaid overlaid]
    | none =>
      cases removed : item.removed with
      | none =>
        rw [encodeItem_neither removed overlaid] at taken
        cases taken
        simp [CodeLayerStats.counting, overlaidPaths, removedPaths, overlaid, removed]
      | some path =>
        have gone : item = .modification path (.change .removed) := by
          unfold Item.removed at removed
          split at removed <;> cases removed
          rfl
        subst gone
        simp only [encodeItem, Editor.drop] at taken
        split at taken
        · cases taken
          simp [CodeLayerStats.counting, overlaidPaths, removedPaths, overlaid, removed]
        · cases taken

/-- A status loop that finishes has counted its deliveries. -/
theorem encodeLoop_stats {items : List (Option Item)}
    (finished : items.foldlM (encodeDelivery calls checkout) state = .ok after) :
    after.stats = state.stats.counting checkout items := by
  -- The induction follows the loop, whose counters grow from item to item.
  induction items generalizing state with
  | nil => cases finished; rfl
  | cons item rest ih =>
    obtain ⟨middle, taken, finished⟩ := Folds.foldlM_cons_ok.mp finished
    rw [ih finished, encodeDelivery_stats taken]
    have overlaid : overlaidPaths (item :: rest) = overlaidPaths [item] ++ overlaidPaths rest :=
      List.filterMap_append (l := [item])
    have removed : removedPaths (item :: rest) = removedPaths [item] ++ removedPaths rest :=
      List.filterMap_append (l := [item])
    simp [CodeLayerStats.counting, overlaid, removed, Nat.add_assoc, Nat.add_comm 1]

/-- An encoding that finishes has counted the index and every delivery. -/
theorem encodeTree_stats {index : List (IndexEntry Oid)} {items : List (Option Item)}
    {start : Encoding Oid} (seeded : seedFromIndex calls index = .ok start)
    (finished : encodeTree calls checkout index items = .ok after) :
    after.stats = start.stats.counting checkout items :=
  encodeLoop_stats (by simpa [encodeTree, seeded, Bind.bind, Except.bind] using finished)

end Counting

end GitFullSend

import GitFullSend.Lib.Segments
import GitFullSend.Client.EncodeReport

/-! When unmerged paths are encoded from disk, whatever the conflict. -/

namespace GitFullSend

open Utf8 (Bytes ofText)

variable {Oid : Type}

/-- A path with an entry at one of the three stages of a conflict. -/
def Unmerged (index : List (IndexEntry Oid)) (path : Bytes) : Prop :=
  ∃ entry ∈ index, entry.path = path ∧ entry.stage ≠ .unconflicted

/-- The delivery of the status pass for an unmerged path. -/
def conflictAt (path : Bytes) : Option Item := some (.modification path .conflict)

/-- A status pass that tells of every unmerged path once, over files that can be read. -/
structure ConflictReport (checkout : Checkout) (index : List (IndexEntry Oid))
    (items : List (Option Item)) : Prop where
  /-- A path of a conflict is not also there without one. -/
  merged : ∀ entry ∈ index, entry.stage = .unconflicted → ¬ Unmerged index entry.path
  /-- No item fails. -/
  delivered : none ∉ items
  /-- The only item about an unmerged path is its conflict. -/
  once : ∀ path, Unmerged index path →
    items.filter (fun item => decide (item.bind Item.path = some path)) = [conflictAt path]
  /-- What an item takes from disk can be read, unless it is unmerged and nothing is there. -/
  readable : ∀ item, some item ∈ items → ∀ path, item.overlaid = some path →
    checkout.Readable path ∨ Unmerged index path ∧ checkout.entry path = .absent

/-- The encoding succeeds, and has every unmerged path as it is on disk. -/
def EncodesUnmerged (calls : ObjectCalls Oid) (checkout : Checkout) (index : List (IndexEntry Oid))
    (items : List (Option Item)) : Prop :=
  ∃ after, encodeTree calls checkout index items = .ok after ∧
    ∀ path, Unmerged index path →
      after.editor.get (segments path) = diskLeaf calls checkout path

/--
An item that would take a path out of the tree again.

It reports the path or a directory above it as gone, or brings a file that cannot stand beside it.
-/
def Item.Undoes (checkout : Checkout) (path : Bytes) (item : Item) : Prop :=
  (∃ upper, item.removed = some upper ∧ segments upper <+: segments path) ∨
    ∃ other, item.overlaid = some other ∧ checkout.Regular other ∧ other ≠ path ∧
      Comparable (segments other) (segments path)

/-- Behind the conflict of a path that is a file or a symlink, nothing undoes it. -/
def ConflictsLast (checkout : Checkout) (index : List (IndexEntry Oid))
    (items : List (Option Item)) : Prop :=
  ∀ path, Unmerged index path → checkout.Regular path →
    ∀ before later, items = before ++ conflictAt path :: later →
      ∀ item, some item ∈ later → ¬ item.Undoes checkout path

section Touches

variable {calls : ObjectCalls Oid} {checkout : Checkout} {item : Item} {path : Bytes}
  {edit : Edit Bytes (EntryKind × Oid)}

/-- An item that does not take a leaf at a path from disk puts nothing there. -/
theorem touch_elsewhere (fits : Encodable calls checkout (some item))
    (elsewhere : item.overlaid = some path → diskLeaf calls checkout path = none)
    (member : edit ∈ editsOf calls checkout (some item)) {value : Option (EntryKind × Oid)}
    (touched : edit.touch (segments path) = some value) : value = none := by
  -- A removal leaves nothing, and a leaf written elsewhere leaves nothing here.
  rcases (mem_editsOf_item fits).mp member with
    ⟨upper, -, rfl⟩ | ⟨other, leaf, taken, found, rfl⟩
  · simp only [Edit.touch] at touched
    split at touched <;> cases touched
    rfl
  · have different : segments other ≠ segments path := by
      intro same
      rw [Segments.splitOn_injective slash same] at taken found
      simp [elsewhere taken] at found
    simp only [Edit.touch, if_neg different] at touched
    split at touched <;> cases touched
    rfl

/-- An item touches a path that it does not take from disk exactly when it undoes it. -/
theorem touch_iff_undoes (fits : Encodable calls checkout (some item))
    (writes : ∀ content, (calls.writeBlob content).isSome) (elsewhere : item.overlaid ≠ some path) :
    (∃ edit ∈ editsOf calls checkout (some item), edit.touch (segments path) ≠ none) ↔
      item.Undoes checkout path := by
  -- The edits of an item are a removal or a leaf written elsewhere, and each undoes in its own way.
  constructor
  · intro touching
    obtain ⟨edit, member, touched⟩ := touching
    rcases (mem_editsOf_item fits).mp member with
      ⟨upper, gone, rfl⟩ | ⟨other, leaf, taken, found, rfl⟩
    · exact .inl ⟨upper, gone, by simpa [Edit.touch] using touched⟩
    · have different : other ≠ path := by rintro rfl; exact elsewhere taken
      have apart : segments other ≠ segments path :=
        fun same => different (Segments.splitOn_injective slash same)
      exact .inr ⟨other, taken, regular_of_diskLeaf found, different,
        by simpa [Edit.touch, apart] using touched⟩
  · intro undoes
    rcases undoes with ⟨upper, gone, below⟩ | ⟨other, taken, regular, different, close⟩
    · exact ⟨_, (mem_editsOf_item fits).mpr (.inl ⟨upper, gone, rfl⟩), by simp [Edit.touch, below]⟩
    · obtain ⟨leaf, found⟩ := regular.diskLeaf (fits.readable taken) writes
      have apart : segments other ≠ segments path :=
        fun same => different (Segments.splitOn_injective slash same)
      exact ⟨_, (mem_editsOf_item fits).mpr (.inr ⟨other, leaf, taken, found, rfl⟩),
        by simp [Edit.touch, apart, close]⟩

variable {later : List (Option Item)}

/-- A path stays as it is while nothing takes it from disk and nothing undoes it. -/
theorem run_spared (fits : ∀ item ∈ later, Encodable calls checkout item)
    (writes : ∀ content, (calls.writeBlob content).isSome)
    (elsewhere : ∀ item, some item ∈ later → item.overlaid ≠ some path)
    (spared : ∀ item, some item ∈ later → ¬ item.Undoes checkout path) (editor : Editor Oid) :
    (Edit.run editor (later.flatMap (editsOf calls checkout))).get (segments path) =
      editor.get (segments path) := by
  -- An edit that touched the path would come from an item that undoes it.
  refine Edit.run_settles ?_ (.inl rfl)
  intro edit member value touched
  obtain ⟨item, inside, fitting, from_⟩ := mem_edits fits member
  have untouched := mt (touch_iff_undoes fitting writes (elsewhere item inside)).mp
    (spared item inside)
  exact absurd ⟨edit, from_, by simp [touched]⟩ untouched

/-- A path is gone for good once it is undone and nothing takes it from disk again. -/
theorem run_undone (fits : ∀ item ∈ later, Encodable calls checkout item)
    (writes : ∀ content, (calls.writeBlob content).isSome)
    (elsewhere : ∀ item, some item ∈ later → item.overlaid ≠ some path)
    (inside : some item ∈ later) (undoes : item.Undoes checkout path) (editor : Editor Oid) :
    (Edit.run editor (later.flatMap (editsOf calls checkout))).get (segments path) = none := by
  -- The item that undoes the path touches it, and whatever else touches it leaves nothing there.
  apply Edit.run_settles
  · intro edit member value touched
    obtain ⟨item, inside, fitting, from_⟩ := mem_edits fits member
    exact touch_elsewhere fitting (fun taken => absurd taken (elsewhere item inside)) from_ touched
  · obtain ⟨edit, from_, touched⟩ :=
      (touch_iff_undoes (fits _ inside) writes (elsewhere item inside)).mpr undoes
    exact .inr ⟨edit, List.mem_flatMap.mpr ⟨_, inside, from_⟩, touched⟩

/-- A path stays empty when no leaf is there on disk. -/
theorem run_absent (fits : ∀ item ∈ later, Encodable calls checkout item)
    (nothing : diskLeaf calls checkout path = none) {editor : Editor Oid}
    (empty : editor.get (segments path) = none) :
    (Edit.run editor (later.flatMap (editsOf calls checkout))).get (segments path) = none := by
  -- No item has a leaf to put there, so whatever touches the path leaves it empty.
  refine Edit.run_settles ?_ (.inl empty)
  intro edit member value touched
  obtain ⟨item, -, fitting, from_⟩ := mem_edits fits member
  exact touch_elsewhere fitting (fun _ => nothing) from_ touched

end Touches

section Unmerged

variable {calls : ObjectCalls Oid} {checkout : Checkout} {index : List (IndexEntry Oid)}
  {items : List (Option Item)} {path : Bytes}

/-- The conflict of an unmerged path is delivered. -/
theorem ConflictReport.conflict_mem (report : ConflictReport checkout index items)
    (unmerged : Unmerged index path) : conflictAt path ∈ items := by
  have only : conflictAt path ∈ items.filter fun item => decide (item.bind Item.path = some path) :=
    by simp [report.once path unmerged]
  exact (List.mem_filter.mp only).1

/-- Every delivery before and behind the conflict of a path is about other paths. -/
theorem ConflictReport.alone (report : ConflictReport checkout index items)
    (unmerged : Unmerged index path) {before later : List (Option Item)}
    (split : items = before ++ conflictAt path :: later) {item : Item}
    (member : some item ∈ before ++ later) : item.path ≠ some path := by
  intro about
  have only := report.once path unmerged
  rw [split, List.filter_append, List.filter_cons_of_pos (by simp [conflictAt, Item.path])] at only
  -- One conflict is all the filter keeps, so nothing else passes it.
  have length := congrArg List.length only
  simp only [List.length_append, List.length_cons, List.length_nil] at length
  have passes : some item ∈ (before ++ later).filter
      fun item => decide (item.bind Item.path = some path) :=
    List.mem_filter.mpr ⟨member, by simp [about]⟩
  have some_ := List.length_pos_of_mem passes
  rw [List.filter_append, List.length_append] at some_
  omega

/-- The seed has no leaf at an unmerged path. -/
theorem ConflictReport.seed_empty (report : ConflictReport checkout index items)
    (unmerged : Unmerged index path) :
    (Edit.run (Leaves.empty : Editor Oid) (index.flatMap seedEdits)).get (segments path) =
      none := by
  refine Edit.run_unwritten (fun leaf member => ?_) rfl
  obtain ⟨entry, inside, from_⟩ := List.mem_flatMap.mp member
  obtain ⟨stage, same⟩ := path_of_seedEdits from_
  -- An entry at that very path would be one without a conflict.
  obtain rfl := Segments.splitOn_injective slash same
  exact report.merged entry inside stage unmerged

end Unmerged

/-- Encoding takes every unmerged path from disk exactly when something stands at each of them and
nothing that is delivered behind a conflict undoes it. -/
theorem encodeTree_unmerged_iff {calls : ObjectCalls Oid} {checkout : Checkout}
    {index : List (IndexEntry Oid)} {items : List (Option Item)} (serve : calls.Serve index items)
    (report : ConflictReport checkout index items) :
    EncodesUnmerged calls checkout index items ↔
      (∀ path, Unmerged index path → checkout.entry path ≠ .absent) ∧
        ConflictsLast checkout index items := by
  constructor
  · intro encodes
    obtain ⟨after, encoded, leaves⟩ := encodes
    obtain ⟨fits, carried⟩ := encodeTree_ok serve.seeded encoded
    have readable : ∀ path, Unmerged index path → checkout.Readable path := by
      intro path unmerged
      exact (fits _ (report.conflict_mem unmerged)).readable rfl
    refine ⟨fun path unmerged => (readable path unmerged).present, ?_⟩
    intro path unmerged regular before later split item member undoes
    have elsewhere : ∀ other, some other ∈ later → other.overlaid ≠ some path :=
      fun other inside taken => report.alone unmerged split
        (List.mem_append_right before inside) (Item.path_of_overlaid taken)
    obtain ⟨leaf, found⟩ := regular.diskLeaf (readable path unmerged) serve.writes
    have present := leaves path unmerged
    -- From the item that undoes the path on, nothing brings it back.
    rw [carried, split, found, List.flatMap_append, List.flatMap_cons, ← List.append_assoc,
      Edit.run, List.foldl_append] at present
    have gone := run_undone (fun other inside => fits other (by simp [split, inside]))
      serve.writes elsewhere member undoes
    exact absurd ((gone _).symm.trans present) (by simp)
  · intro condition
    obtain ⟨present, last⟩ := condition
    have fits : ∀ item ∈ items, Encodable calls checkout item := by
      intro delivery inside
      cases delivery with
      | none => exact absurd inside report.delivered
      | some item =>
        refine serve.encodable inside fun path taken => ?_
        refine (report.readable item inside path taken).resolve_right fun lost => ?_
        exact present path lost.1 lost.2
    obtain ⟨after, encoded⟩ := encodeTree_complete serve.seeded fits
    refine ⟨after, encoded, fun path unmerged => ?_⟩
    rw [(encodeTree_ok serve.seeded encoded).2]
    cases found : diskLeaf calls checkout path with
    | none =>
      exact run_absent fits found (report.seed_empty unmerged)
    | some leaf =>
      -- The conflict writes the leaf, and what comes behind it leaves the leaf alone.
      obtain ⟨before, later, split⟩ := List.append_of_mem (report.conflict_mem unmerged)
      have only : editsOf calls checkout (conflictAt path) = [.upsert (segments path) leaf] := by
        rw [conflictAt, editsOf_item (fits _ (report.conflict_mem unmerged))]
        simp [Item.removed, Item.overlaid, found]
      have spared := run_spared (fun other inside => fits other (by simp [split, inside]))
        serve.writes
        (fun other inside taken => report.alone unmerged split
          (List.mem_append_right before inside) (Item.path_of_overlaid taken))
        (last path unmerged (regular_of_diskLeaf found) before later split)
      rw [split, List.flatMap_append, List.flatMap_cons, only, Edit.run, List.foldl_append,
        List.foldl_append]
      exact (spared _).trans (by simp [Edit.apply, Leaves.get_upsert])

/-- Of two conflicts, a file is taken from disk and a directory leaves its path empty. -/
theorem encodeTree_unmerged_both :
    ∃ (checkout : Checkout) (index : List (IndexEntry Bytes)),
      checkout.entry (ofText "file") = .file 0o755 (some (ofText "mine")) ∧
      checkout.entry (ofText "dir") = .other ∧
      Unmerged index (ofText "file") ∧ Unmerged index (ofText "dir") ∧
      EncodesUnmerged ⟨some, fun _ => true⟩ checkout index
        [conflictAt (ofText "dir"), conflictAt (ofText "file")] := by
  let checkout : Checkout := ⟨ofText "/work", fun path =>
    if path = ofText "file" then .file 0o755 (some (ofText "mine")) else .other⟩
  let index : List (IndexEntry Bytes) := [⟨ofText "dir", .theirs, some .blob, ofText "old"⟩,
    ⟨ofText "file", .base, some .blob, ofText "old"⟩,
    ⟨ofText "file", .theirs, some .blob, ofText "new"⟩]
  have unmerged : ∀ path, Unmerged index path ↔ path = ofText "dir" ∨ path = ofText "file" := by
    intro path
    simp [Unmerged, index, @eq_comm _ _ path]
  have told : ∀ item, some item ∈ [conflictAt (ofText "dir"), conflictAt (ofText "file")] →
      item = .modification (ofText "dir") .conflict ∨
        item = .modification (ofText "file") .conflict := by simp [conflictAt]
  have report : ConflictReport checkout index
      [conflictAt (ofText "dir"), conflictAt (ofText "file")] := by
    refine ⟨?_, by decide, ?_, ?_⟩
    · simp [index]
    · intro path conflicted
      rcases (unmerged path).mp conflicted with rfl | rfl <;> decide
    · intro item member path taken
      rcases told item member with rfl | rfl <;> cases taken
      · exact .inl ⟨none, by decide⟩
      · exact .inl ⟨some (.blobExecutable, ofText "mine"), by decide⟩
  refine ⟨checkout, index, by decide, by decide, (unmerged _).mpr (.inr rfl),
    (unmerged _).mpr (.inl rfl), ?_⟩
  apply (encodeTree_unmerged_iff ⟨by simp, by simp, by simp⟩ report).mpr
  constructor
  · intro path conflicted
    rcases (unmerged path).mp conflicted with rfl | rfl <;> decide
  · intro path conflicted regular before later split item member undoes
    -- The two paths lie beside each other, and neither is reported as gone.
    rcases undoes with ⟨upper, gone, -⟩ | ⟨other, taken, -, different, close⟩
    · rcases told item (split ▸ by simp [member]) with rfl | rfl <;> cases gone
    · rcases told item (split ▸ by simp [member]) with rfl | rfl <;> cases taken <;>
        rcases (unmerged path).mp conflicted with rfl | rfl <;>
        revert different close <;> decide

/-- A file that was deleted while its conflict was resolved is reported, and aborts the encoding. -/
theorem encodeTree_unmerged_absent :
    ∃ (checkout : Checkout) (index : List (IndexEntry Bytes)),
      index = [⟨ofText "file", .base, some .blob, ofText "base"⟩,
        ⟨ofText "file", .ours, some .blob, ofText "ours"⟩] ∧
      checkout.entry (ofText "file") = .absent ∧
      ConflictReport checkout index [conflictAt (ofText "file")] ∧
      encodeTree ⟨some, fun _ => true⟩ checkout index [conflictAt (ofText "file")] =
        .error (.readWorktree (ofText "/work/file")) ∧
      ¬ EncodesUnmerged ⟨some, fun _ => true⟩ checkout index [conflictAt (ofText "file")] := by
  -- The only delivery is the conflict, whose file cannot be read.
  refine ⟨⟨ofText "/work", fun _ => .absent⟩, _, rfl, rfl, ⟨?_, by decide, ?_, ?_⟩, rfl, ?_⟩
  · simp
  · intro path conflicted
    obtain rfl : ofText "file" = path := by simpa [Unmerged] using conflicted
    decide
  · intro item member path taken
    obtain rfl : item = .modification (ofText "file") .conflict := by
      simpa [conflictAt] using member
    cases taken
    exact .inr ⟨by simp [Unmerged], rfl⟩
  · intro encodes
    obtain ⟨after, encoded, -⟩ := encodes
    cases encoded

end GitFullSend

import Mathlib.Logic.Function.Basic
import GitFullSend.Client.EncodeExtra
import GitFullSend.Client.EncodeSnapshot
import GitFullSend.Server.Worktree

/-! From a developer's working tree to a worktree on the server, after any history of both. -/

namespace GitFullSend

open Utf8 (Bytes ofText)

variable {Oid : Type}

/-- What a sync reads: the index, the status pass, and whatever the `extra` layer needs. -/
structure SyncInput (Oid : Type) where
  stream : StreamId
  repoDir : Bytes
  workdir : Bytes
  index : List (IndexEntry Oid)
  /-- The deliveries of the status pass. -/
  items : List (Option Item)
  extra : ExtraSurroundings Oid
  userInclude : Option Bytes
  extraIncludes : List Bytes

/-- Encode both layers, before anything is pushed. -/
def SyncInput.encode (input : SyncInput Oid) : Except ExtraError (Editor Oid × Editor Oid) := do
  let code ← (encodeTree input.extra.calls ⟨input.workdir, input.extra.entry⟩ input.index
    input.items).mapError .encode
  let extra ← encodeExtra input.extra input.repoDir input.stream input.userInclude
    input.extraIncludes
  pure (code.editor, extra.tree)

/-- Which pushes of a sync the server applies; the `extra` layer is pushed behind the other. -/
inductive Landed where
  | nothing
  | code
  | both
  deriving DecidableEq, Repr

/-- A server: what the refs of each stream lead to, and one worktree. -/
structure Service (Oid : Type) where
  code : StreamId → Option (Tree (EntryKind × Oid))
  extra : StreamId → Option (Tree (EntryKind × Oid))
  worktree : Worktree (EntryKind × Oid)

/-- A sync encodes both layers and then pushes them, as far as it comes. -/
def Service.sync (service : Service Oid) (input : SyncInput Oid) (landed : Landed) : Service Oid :=
  match input.encode with
  | .error _ => service
  | .ok (code, extra) =>
    match landed with
    | .nothing => service
    | .code => { service with code := Function.update service.code input.stream (some code) }
    | .both => { service with
        code := Function.update service.code input.stream (some code)
        extra := Function.update service.extra input.stream (some extra) }

/-- Every ref under the prefix of a stream is dropped, those of the streams below it included. -/
def Service.forget (service : Service Oid) (stream : StreamId) : Service Oid :=
  { service with
    code := fun other =>
      if streamPrefix stream <+: codeRef other then none else service.code other
    extra := fun other =>
      if streamPrefix stream <+: extraRef other then none else service.extra other }

variable [DecidableEq Oid]

/-- The worktree is updated to what the refs of a stream lead to. -/
def Service.update (rules : IgnoreRules (EntryKind × Oid)) (stream : StreamId) (path : Bytes)
    (around : Surroundings (EntryKind × Oid)) (service : Service Oid) :
    Except ServerError (Report (EntryKind × Oid)) × Service Oid :=
  let (result, after) := updateWorktree rules stream path
    { around with code := service.code stream, extra := service.extra stream } service.worktree
  (result, { service with worktree := after })

/-- Something that happens to a server. -/
inductive Episode (Oid : Type) where
  /-- A developer syncs. -/
  | sync (input : SyncInput Oid) (landed : Landed)
  /-- A stream is forgotten. -/
  | forget (stream : StreamId)
  /-- The remote side leaves the worktree with these files. -/
  | edit (files : Tree (EntryKind × Oid))
  /-- The worktree is updated, for any stream and under any circumstances. -/
  | update (stream : StreamId) (path : Bytes) (around : Surroundings (EntryKind × Oid))

/-- One more episode. -/
def Service.live (rules : IgnoreRules (EntryKind × Oid)) (service : Service Oid) :
    Episode Oid → Service Oid
  | .sync input landed => service.sync input landed
  | .forget stream => service.forget stream
  | .edit files => { service with worktree := { service.worktree with files := files } }
  | .update stream path around => (service.update rules stream path around).2

/-- What a server has become after some episodes. -/
def Service.after (rules : IgnoreRules (EntryKind × Oid)) (start : Service Oid)
    (episodes : List (Episode Oid)) : Service Oid :=
  episodes.foldl (Service.live rules) start

/-- The episode is a sync of the stream. -/
def Episode.Syncs (stream : StreamId) : Episode Oid → Prop
  | .sync input _ => input.stream = stream
  | .forget _ | .edit _ | .update .. => False

/-- No checkout is cut short in this episode. -/
def Episode.Whole : Episode Oid → Prop
  | .update _ _ around => ∀ touched, around.steps.readTree ≠ .failed touched
  | .sync .. | .forget _ | .edit _ => True

/-- The remote side leaves a path as it is in this episode. -/
def Episode.Spares (spot : List Bytes) (service : Service Oid) : Episode Oid → Prop
  | .edit files => files.get spot = service.worktree.files.get spot
  | .sync .. | .forget _ | .update .. => True

section Delivery

omit [DecidableEq Oid]

/-- The input is that of a working tree that stands still while the sync reads it. -/
structure SyncInput.AtRest (input : SyncInput Oid) (tree : WorkingTree) (search : Search) :
    Prop where
  merged : Merged input.index
  status : ∃ changes contents, input.items = deliveries changes contents ∧
    Describes input.extra.calls tree input.index changes contents
  serve : input.extra.calls.Serve input.index input.items
  serves : input.extra.Serves tree search input.workdir
  loaded : loadSearch input.extra.files.read input.extra.files.parse input.workdir
    (input.userInclude.or (userIncludePath input.extra.files.env)) input.extraIncludes = .ok search

/-- What the `code` layer is to have at a path. -/
def SyncInput.CodeLeaf (input : SyncInput Oid) (tree : WorkingTree) (path : Bytes)
    (leaf : EntryKind × Oid) : Prop :=
  (∃ entry ∈ input.index, entry.path = path ∧
      entry.outcome input.extra.calls (tree.standing path) = some leaf) ∨
    (tree.Untracked input.index path ∧ (tree.standing path).leaf input.extra.calls = some leaf)

/-- What a sync is to deliver at a path: what is tracked, untracked or force-included there. -/
def SyncInput.Delivers (input : SyncInput Oid) (tree : WorkingTree) (search : Search)
    (path : Bytes) (leaf : EntryKind × Oid) : Prop :=
  input.CodeLeaf tree path leaf ∨
    (tree.Selects input.extra.files.wild search path ∧
      (tree.standing path).leaf input.extra.calls = some leaf)

/-- A spot outside the submodules of the index. -/
def SyncInput.Outside (input : SyncInput Oid) (spot : List Bytes) : Prop :=
  ∀ entry ∈ input.index, entry.mode = some .commit → ¬ Comparable (segments entry.path) spot

variable {input : SyncInput Oid} {tree : WorkingTree} {search : Search}

/-- Of two things that stand and are no directories, neither is in the other's way. -/
theorem WorkingTree.beside {left right : Bytes} (here : tree.standing left ≠ .missing)
    (flat : tree.standing left ≠ .directory) (there : tree.standing right ≠ .missing)
    (flat' : tree.standing right ≠ .directory)
    (close : Comparable (segments left) (segments right)) : left = right := by
  -- The upper one of two different paths would be a directory.
  by_contra different
  rcases close with above | below
  · exact flat (tree.nested left right above different there)
  · exact flat' (tree.nested right left below (Ne.symm different) here)

/-- A file or a symlink is there, and is no directory. -/
theorem Standing.of_leaf {calls : ObjectCalls Oid} {standing : Standing} {leaf : EntryKind × Oid}
    (found : standing.leaf calls = some leaf) : standing ≠ .missing ∧ standing ≠ .directory := by
  constructor <;> rintro rfl <;> cases found

/-- Unless it is a gitlink, what the `code` layer has at a path stands there and is no directory. -/
theorem SyncInput.CodeLeaf.stands {path : Bytes} {leaf : EntryKind × Oid}
    (held : input.CodeLeaf tree path leaf) (outside : input.Outside (segments path)) :
    tree.standing path ≠ .missing ∧ tree.standing path ≠ .directory := by
  -- The layer has a tracked path by its outcome, and any other one as it stands.
  rcases held with ⟨entry, tracked, rfl, outcome⟩ | ⟨-, found⟩
  · -- A directory only has an outcome where the index has a submodule.
    constructor
    · intro missing
      simp [missing, IndexEntry.outcome] at outcome
    · intro folder
      simp only [folder, IndexEntry.outcome] at outcome
      split at outcome
      · rename_i gitlink
        exact outside entry tracked gitlink (.refl _)
      · cases outcome
  · exact Standing.of_leaf found

/-- What stands at a path and can be written is all that the `code` layer has there. -/
theorem SyncInput.CodeLeaf.unique {path : Bytes} {leaf value : EntryKind × Oid}
    (held : input.CodeLeaf tree path leaf)
    (found : (tree.standing path).leaf input.extra.calls = some value) : leaf = value := by
  -- A tracked path that stands as a leaf has that leaf as its outcome.
  rcases held with ⟨entry, -, -, outcome⟩ | ⟨-, stands⟩
  · rw [IndexEntry.outcome_of_leaf found] at outcome
    exact (Option.some.inj outcome).symm
  · exact Option.some.inj (stands.symm.trans found)

/-- The encoded `code` layer has at each path what it is to have, and nothing else. -/
theorem SyncInput.AtRest.code_get (rest : input.AtRest tree search) {after : Encoding Oid}
    (encoded : encodeTree input.extra.calls ⟨input.workdir, input.extra.entry⟩ input.index
      input.items = .ok after) (spot : List Bytes) (leaf : EntryKind × Oid) :
    after.editor.get spot = some leaf ↔
      ∃ path, spot = segments path ∧ input.CodeLeaf tree path leaf := by
  obtain ⟨merged, ⟨changes, contents, items, describes⟩, serve, serves, -⟩ := rest
  rw [items] at serve encoded
  have carried := (encodeTree_ok serve.seeded encoded).2
  have tracked_get : ∀ entry ∈ input.index, after.editor.get (segments entry.path) =
      entry.outcome input.extra.calls (tree.standing entry.path) := by
    intro entry tracked
    rw [carried]
    exact describes.tracked_get serves.shown serve merged tracked
  have untracked_get : ∀ path value, tree.Untracked input.index path →
      (tree.standing path).leaf input.extra.calls = some value →
      after.editor.get (segments path) = some value := by
    intro path value untracked found
    rw [carried]
    exact describes.untracked_get serves.shown serve untracked found _
  constructor
  · intro held
    -- A spot is tracked, or an untracked file stands there, or nothing was written to it.
    by_cases known : ∃ entry ∈ input.index, segments entry.path = spot
    · obtain ⟨entry, tracked, rfl⟩ := known
      exact ⟨entry.path, rfl,
        .inl ⟨entry, tracked, rfl, (tracked_get entry tracked).symm.trans held⟩⟩
    · by_cases new : ∃ path value, tree.Untracked input.index path ∧
          (tree.standing path).leaf input.extra.calls = some value ∧ segments path = spot
      · obtain ⟨path, value, untracked, found, rfl⟩ := new
        refine ⟨path, rfl, .inr ⟨untracked, found.trans ?_⟩⟩
        rw [← untracked_get path value untracked found, held]
      · push Not at known new
        rw [carried, describes.elsewhere_get serves.shown serve known new] at held
        cases held
  · intro stands
    obtain ⟨path, rfl, held⟩ := stands
    rcases held with ⟨entry, tracked, rfl, outcome⟩ | ⟨untracked, found⟩
    · exact (tracked_get entry tracked).trans outcome
    · exact untracked_get path leaf untracked found

/-- Outside the submodules, the two layers of a sync together have exactly what it is to deliver. -/
theorem SyncInput.AtRest.combined_get (rest : input.AtRest tree search) {code extra : Editor Oid}
    (encoded : input.encode = .ok (code, extra)) {spot : List Bytes} (outside : input.Outside spot)
    (leaf : EntryKind × Oid) :
    (combined code (some extra)).get spot = some leaf ↔
      ∃ path, spot = segments path ∧ input.Delivers tree search path leaf := by
  obtain ⟨after, first, encoded⟩ := Folds.bind_ok.mp encoded
  obtain ⟨outcome, second, encoded⟩ := Folds.bind_ok.mp encoded
  cases encoded
  have code_get := rest.code_get (Folds.mapError_ok.mp first)
  obtain ⟨parent, -, snapshot⟩ := encodeExtra_snapshot rest.serves rest.loaded second
  have extra_get := snapshot.leaves
  change (Leaves.overlay after.editor outcome.tree).get spot = some leaf ↔ _
  rw [Leaves.get_overlay]
  cases chosen : outcome.tree.get spot with
  | some value =>
    -- What is force-included is what stands there, and the `code` layer has nothing else.
    obtain ⟨path, rfl, selects, found⟩ := (extra_get spot value).mp chosen
    constructor
    · intro same
      cases same
      exact ⟨path, rfl, .inr ⟨selects, found⟩⟩
    · intro delivered
      obtain ⟨other, same, delivered⟩ := delivered
      obtain rfl := Segments.splitOn_injective slash same
      rcases delivered with held | ⟨-, stands⟩
      · rw [held.unique found]
      · rw [← found, stands]
  | none =>
    simp only
    split <;> rename_i met
    · -- Some file is force-included at a comparable path, so nothing else stands at the spot.
      refine ⟨fun held => absurd held (by simp), fun delivered => ?_⟩
      obtain ⟨path, rfl, delivered⟩ := delivered
      obtain ⟨⟨place, value⟩, member, close⟩ := met
      obtain ⟨other, rfl, selects, found⟩ :=
        (extra_get place value).mp (Leaves.get_eq_some.mpr member)
      obtain ⟨present, flat⟩ := Standing.of_leaf found
      have stands : tree.standing path ≠ .missing ∧ tree.standing path ≠ .directory := by
        rcases delivered with held | ⟨-, stands⟩
        · exact held.stands outside
        · exact Standing.of_leaf stands
      obtain rfl := WorkingTree.beside present flat stands.1 stands.2 close
      rw [(extra_get _ value).mpr ⟨other, rfl, selects, found⟩] at chosen
      cases chosen
    · rw [code_get]
      refine exists_congr fun path => and_congr_right fun same => ?_
      refine ⟨.inl, fun delivered => delivered.resolve_right fun chose => ?_⟩
      rw [(extra_get spot leaf).mpr ⟨path, same, chose⟩] at chosen
      cases chosen

end Delivery

section Worktrees

variable {Leaf : Type} [DecidableEq Leaf] {rules : IgnoreRules Leaf} {spot : List Bytes}

/-- What stands at a spot of a worktree is what was checked out there. -/
def Worktree.Owns {Leaf : Type} (worktree : Worktree Leaf) (spot : List Bytes) : Prop :=
  worktree.files.get spot ≠ none → worktree.recorded spot = true

/-- A checkout whose `read-tree` is not cut short leaves nothing at a spot but what it records. -/
theorem checkOut_owns {steps : GitSteps} {tree : Tree Leaf} {worktree : Worktree Leaf}
    (whole : ∀ touched, steps.readTree ≠ .failed touched) (owns : worktree.Owns spot) :
    (checkOut rules steps tree worktree).2.Owns spot := by
  -- What is not in the tree was recorded before, and so it is removed.
  have read : (Worktree.mk (worktree.checkedOut tree) (some tree) worktree.lastTree).Owns spot := by
    intro present
    change (tree.get spot).isSome = true
    simp only [get_checkedOut] at present
    cases held : tree.get spot with
    | some leaf => rfl
    | none =>
      simp only [held] at present
      split at present <;> rename_i spared
      · exact absurd rfl present
      · exact absurd (owns present) (not_or.mp spared).2
  rw [Worktree.checkedOut] at read
  -- Sweeping only removes, and recording the tree changes no file.
  have sweep : ∀ touched (swept : Worktree Leaf), swept.Owns spot →
      ({ swept with files := cleanFiles rules touched swept } : Worktree Leaf).Owns spot := by
    intro touched swept owned present
    apply owned
    intro gone
    rw [cleanFiles, Leaves.get_keep, gone] at present
    simp at present
  unfold checkOut
  cases first : steps.readTree with
  | notSpawned => simpa [readTree] using owns
  | failed touched => exact absurd first (whole touched)
  | done =>
    simp only [readTree]
    cases steps.clean with
    | notSpawned => simpa [clean] using read
    | failed touched => simpa [clean] using sweep touched _ read
    | done =>
      simp only [clean, recordTree]
      split <;> exact sweep (fun _ => true) _ read

/-- An update whose `read-tree` is not cut short leaves nothing at a spot but what it records. -/
theorem updateWorktree_owns {stream : StreamId} {path : Bytes} {around : Surroundings Leaf}
    {worktree : Worktree Leaf} (whole : ∀ touched, around.steps.readTree ≠ .failed touched)
    (owns : worktree.Owns spot) :
    (updateWorktree rules stream path around worktree).2.Owns spot := by
  -- A run that gets no further than the lock leaves the worktree alone.
  unfold updateWorktree
  split
  · exact owns
  · cases resolveTree around.calls stream around.code around.extra with
    | error failure => exact owns
    | ok tree =>
      simp only
      split
      · exact owns
      · cases around.lock with
        | error failure => exact owns
        | ok held =>
          have checked := @checkOut_owns _ _ rules _ _ tree _ whole owns
          simp only
          split <;> rename_i result <;> rw [result] at checked <;> exact checked

end Worktrees

section History

variable {rules : IgnoreRules (EntryKind × Oid)} {start : Service Oid} {spot : List Bytes}
  {stream : StreamId} {episodes : List (Episode Oid)}

/-- A whole episode that leaves a spot as it is keeps it a spot of the tool. -/
theorem Service.live_owns {service : Service Oid} {episode : Episode Oid}
    (owns : service.worktree.Owns spot) (whole : episode.Whole)
    (left : episode.Spares spot service) : (service.live rules episode).worktree.Owns spot := by
  -- Only an update and an edit write to the worktree, and the edit spares the spot.
  cases episode with
  | sync input landed =>
    have untouched : (service.sync input landed).worktree = service.worktree := by
      unfold Service.sync
      split
      · rfl
      · split <;> rfl
    rw [Service.live, untouched]
    exact owns
  | forget stream => exact owns
  | edit files =>
    intro present
    exact owns (left ▸ present)
  | update stream path around => exact updateWorktree_owns whole owns

/-- Until a stream is synced again its refs stay as they are, or the stream is forgotten. -/
theorem Service.after_refs (still : ∀ episode ∈ episodes, ¬ episode.Syncs stream) :
    (start.after rules episodes).code stream = none ∨
      (start.after rules episodes).code stream = start.code stream ∧
        (start.after rules episodes).extra stream = start.extra stream := by
  -- The induction is on the episodes; syncs of other streams write beside the refs of this one.
  unfold Service.after
  induction episodes generalizing start with
  | nil => exact .inr ⟨rfl, rfl⟩
  | cons episode rest ih =>
    obtain ⟨here, others⟩ := List.forall_mem_cons.mp still
    have later := @ih (start.live rules episode) others
    suffices kept : (start.live rules episode).code stream = none ∨
        (start.live rules episode).code stream = start.code stream ∧
          (start.live rules episode).extra stream = start.extra stream by
      rcases later with gone | ⟨code, extra⟩
      · exact .inl gone
      · rcases kept with gone | ⟨code', extra'⟩
        · exact .inl (code.trans gone)
        · exact .inr ⟨code.trans code', extra.trans extra'⟩
    cases episode with
    | sync input landed =>
      have apart : stream ≠ input.stream := fun same => here same.symm
      refine .inr ?_
      simp only [Service.live, Service.sync]
      split
      · exact ⟨rfl, rfl⟩
      · split <;> simp [Function.update_of_ne apart]
    | forget other =>
      -- The prefix covers both refs of the stream or neither of them.
      by_cases covered : streamPrefix other <+: codeRef stream
      · exact .inl (by simp [Service.live, Service.forget, covered])
      · have apart : ¬ streamPrefix other <+: extraRef stream := covered ∘ streamPrefix_extraRef.mp
        exact .inr (by simp [Service.live, Service.forget, covered, apart])
    | edit files => exact .inr ⟨rfl, rfl⟩
    | update other path around => exact .inr ⟨rfl, rfl⟩

end History

/-- A sync of one ignored file that a pattern names. -/
def singleInput (stream : StreamId) (name : FileName) (mode : Nat) (content : Bytes) :
    SyncInput Bytes :=
  ⟨stream, ofText "/work", ofText "/work", [], [], .single name mode content,
    some (ofText "/mine"), []⟩

/-- The file is at rest while it is synced. -/
theorem singleInput_atRest (stream : StreamId) (name : FileName) (mode : Nat) (content : Bytes) :
    (singleInput stream name mode content).AtRest (.single name mode content)
      [[⟨name.bytes, false, true, false⟩], [⟨name.bytes, false, true, false⟩]] := by
  -- Nothing is tracked, and the one file is ignored, so the status pass has nothing to say.
  have ignored : ∀ path, ¬ (WorkingTree.single name mode content).Untracked
      ([] : List (IndexEntry Bytes)) path := by
    intro path untracked
    obtain ⟨present, free, -⟩ := untracked
    have other : path ≠ name.bytes := free
    simp [WorkingTree.single, other] at present
  refine ⟨⟨by simp [singleInput], .nil⟩, ⟨[], [], rfl, ⟨.nil, by simp, by simp [singleInput], by simp,
    ?_, .nil⟩⟩, ⟨fun _ => rfl, by simp [singleInput], by simp [singleInput]⟩,
    ExtraSurroundings.single_serves name mode content, rfl⟩
  exact fun path untracked => absurd untracked (ignored path)

end GitFullSend

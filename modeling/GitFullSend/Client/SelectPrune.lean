import Mathlib.Data.List.TakeWhile
import GitFullSend.Client.SelectWalk

/-! Pruning the selection walk never changes what it selects. -/

namespace GitFullSend

open Utf8 (Bytes ofText)
open Segments (Above AtOrAbove)

/-- The prune under which every directory but `.git` is entered. -/
def exhaustive : PruneInfo := ⟨true, 1, []⟩

private theorem mem_dedup {rel : Bytes} (paths : List Bytes) : rel ∈ dedup paths ↔ rel ∈ paths := by
  -- A repetition is dropped only when the path is kept right after it.
  fun_induction dedup paths with
  | case1 first rest ih => simp [ih]
  | case2 first second rest different ih => simp [ih]
  | case3 short => rfl

private theorem dedup_pairwise {paths : List Bytes} (sorted : paths.Pairwise (· ≤ ·)) :
    (dedup paths).Pairwise (· < ·) := by
  -- A path differs from the one after it, so the order becomes strict.
  fun_induction dedup paths with
  | case1 first rest ih => exact ih sorted.of_cons
  | case2 first second rest different ih =>
    -- The first path is below the second one, and that one is below all others.
    obtain ⟨below, others⟩ := List.pairwise_cons.mp sorted
    refine List.pairwise_cons.mpr ⟨fun rel member => ?_, ih others⟩
    have next : first < second :=
      (List.le_iff_lt_or_eq.mp (below second List.mem_cons_self)).resolve_right different
    rcases List.mem_cons.mp ((mem_dedup _).mp member) with rfl | later
    · exact next
    · by_contra back
      exact List.le_trans ((List.pairwise_cons.mp others).1 rel later) back next
  | case3 short single =>
    match short, single with
    | [], _ => exact .nil
    | [only], _ => simp
    | first :: second :: rest, single => exact absurd rfl (single first second rest)

/-- The paths of a selection are those the walk collected. -/
@[simp] theorem mem_sortedPaths {rel : Bytes} {out : List Bytes} :
    rel ∈ sortedPaths out ↔ rel ∈ out := by
  -- Neither sorting nor dropping repetitions adds or loses a path.
  rw [sortedPaths, mem_dedup, List.mem_insertionSort]

/-- The paths of a selection strictly increase in byte order. -/
theorem sortedPaths_increasing (out : List Bytes) : (sortedPaths out).Pairwise (· < ·) :=
  dedup_pairwise (List.pairwise_insertionSort _ _)

/-- Walks that collect the same paths select the same list. -/
private theorem sortedPaths_congr {left right : List Bytes} (same : ∀ rel, rel ∈ left ↔ rel ∈ right) :
    sortedPaths left = sortedPaths right :=
  (sortedPaths_increasing left).eq_of_mem_iff (sortedPaths_increasing right) (by simpa using same)

private theorem beforeLastSlash_opens {text : Bytes} (inside : slash ∈ text) :
    beforeLastSlash text ++ [slash] <+: text := by
  -- Read backwards, the text runs up to its first slash and goes on from there.
  cases found : text.reverse.dropWhile (· ≠ slash) with
  | nil =>
    have all := List.dropWhile_eq_nil_iff.mp found
    simpa using all slash (by simpa using inside)
  | cons byte rest =>
    have halts := List.head_dropWhile_not (fun byte => decide (byte ≠ slash)) (l := text.reverse)
      (by rw [found]; simp)
    simp only [found, List.head_cons] at halts
    obtain rfl : byte = slash := by simpa using halts
    have whole := List.takeWhile_append_dropWhile (p := (· ≠ slash)) (l := text.reverse)
    rw [found] at whole
    refine ⟨(text.reverse.takeWhile (· ≠ slash)).reverse, ?_⟩
    have back := congrArg List.reverse whole
    rw [beforeLastSlash, found]
    simpa using back

private theorem beforeLastSlash_plain {text : Bytes} (plain : slash ∉ text) :
    beforeLastSlash text = [] := by
  -- Read backwards, the text never comes to a slash.
  have none : text.reverse.dropWhile (· ≠ slash) = [] := by
    rw [List.dropWhile_eq_nil_iff]
    intro byte member
    simpa using fun same : byte = slash => plain (same ▸ by simpa using member)
  rw [beforeLastSlash, none]
  rfl

private theorem segments_filter {segments : List Bytes} {path : List FileName}
    (opens : segments <+: path.map FileName.bytes) :
    segments.filter (· ≠ []) = segments := by
  -- The segments are names, and no name is empty.
  apply List.filter_eq_self.mpr
  intro segment member
  obtain ⟨name, _, rfl⟩ := List.mem_map.mp (opens.subset member)
  simpa using name.nonempty

section Soundness

variable {wild : Bytes → Bytes → Bool} {search : Search} {prune : PruneInfo}

private theorem prunablePrefix_opens {pattern : Pattern} {opening : List Bytes}
    (anchored : prunablePrefix pattern = some opening) {path : List FileName} (below : path ≠ [])
    {isDir : Bool} (matched : pattern.matchesPath wild (relOf path) isDir = true) :
    opening <+: path.map FileName.bytes := by
  -- A pattern with a literal directory is compared with the whole path.
  unfold prunablePrefix at anchored
  split at anchored
  · cases anchored
  · rename_i whole
    have text : pattern.matchesText wild (relOf path) = true := by
      unfold Pattern.matchesPath at matched
      split at matched
      · cases matched
      · simpa [whole] using matched
    -- The literal text of the pattern opens the path, up to its last whole segment.
    have opens : ∀ literal : Bytes, literal.splitOn slash <+: path.map FileName.bytes →
        (if ((literal.splitOn slash).filter (· ≠ [])).isEmpty then none
          else some ((literal.splitOn slash).filter (· ≠ []))) = some opening →
        opening <+: path.map FileName.bytes := by
      intro literal start found
      rw [segments_filter start] at found
      split at found
      · cases found
      · exact Option.some.inj found ▸ start
    unfold Pattern.matchesText at text
    cases wildcard : pattern.firstWildcardPos with
    | none =>
      simp only [wildcard, beq_iff_eq] at text anchored
      have whole := splitOn_relOf below
      rw [text] at whole
      exact opens pattern.text (whole ▸ List.prefix_rfl) anchored
    | some pos =>
      simp only [wildcard, Bool.and_eq_true, List.isPrefixOf_iff_prefix] at text anchored
      by_cases inside : slash ∈ pattern.text.take pos
      · have above : AtOrAbove slash (beforeLastSlash (pattern.text.take pos)) (relOf path) :=
          .inr ((beforeLastSlash_opens inside).trans text.1)
        refine opens _ ?_ anchored
        rw [← splitOn_relOf below]
        exact Segments.atOrAbove_iff.mp above
      · simp [beforeLastSlash_plain inside] at anchored

private theorem classify_positive {rel : Bytes} {isDir : Bool}
    (included : classify wild search rel isDir = some true) :
    ∃ pattern ∈ positivePatterns search, pattern.matchesPath wild rel isDir = true := by
  -- The deciding pattern is found in one of the lists, and it is not negated.
  obtain ⟨pattern, decided, positive⟩ := Option.map_eq_some_iff.mp included
  obtain ⟨list, listed, found⟩ := List.exists_of_findSome?_eq_some decided
  refine ⟨pattern, List.mem_filter.mpr ⟨List.mem_flatten.mpr ⟨list, ?_, ?_⟩, positive⟩, ?_⟩
  · exact List.mem_reverse.mp listed
  · exact List.mem_reverse.mp (List.mem_of_find?_eq_some found)
  · simpa using List.find?_some found

/-- Skipping a directory is sound when nothing at or below it is included by a pattern. -/
def PruneInfo.Sound (wild : Bytes → Bytes → Bool) (search : Search) (prune : PruneInfo) : Prop :=
  ∀ dir tail isDir, dir ≠ [] → prune.canContainMatch (relOf dir) = false →
    classify wild search (relOf (dir ++ tail)) isDir ≠ some true

/-- The prune derived from the allow-list is sound. -/
theorem buildPruneInfo_sound : (buildPruneInfo search).Sound wild search := by
  -- An include below the directory comes from a positive pattern, whose prefix would be kept.
  intro dir tail isDir below apart included
  obtain ⟨pattern, positive, matched⟩ := classify_positive included
  unfold PruneInfo.canContainMatch at apart
  cases anchored : (buildPruneInfo search).anyUnanchored with
  | true => simp [anchored] at apart
  | false =>
    simp only [anchored, Bool.false_eq_true, if_false, List.any_eq_false] at apart
    cases opening : prunablePrefix pattern with
    | none =>
      have open_ := List.any_eq_false.mp anchored pattern positive
      simp [opening] at open_
    | some segments =>
      -- The pattern's segments and the directory's both open the path that matched.
      obtain ⟨more, whole⟩ := prunablePrefix_opens opening (by simp [below]) matched
      refine apart segments (List.mem_filterMap.mpr ⟨pattern, positive, opening⟩) ?_
      rw [splitOn_relOf below, beq_iff_eq,
        ← @List.take_append_of_le_length _ segments more _ (by simp), whole, List.map_append,
        List.take_append_of_le_length (by simp)]

/-- A walk that prunes less reaches whatever the other one reaches, in the same state. -/
theorem Reaches.wider {other : PruneInfo}
    (wider : ∀ rel, prune.canContainMatch rel = true → other.canContainMatch rel = true)
    {node target : Node} {path last : List FileName} {inherited final : Bool}
    (reached : Reaches wild search prune node path inherited target last final) :
    Reaches wild search other node path inherited target last final := by
  -- Each directory on the way is also entered by the other walk.
  induction reached with
  | here => exact .here
  | deeper listed git down _ ih =>
    refine .deeper listed git ?_ ih
    unfold descends at down ⊢
    rw [Bool.or_eq_true] at down ⊢
    exact down.imp_right (wider _)

/-- Where nothing is included by a pattern, the excluded state is handed down unchanged. -/
theorem Reaches.dark {node target : Node} {path last : List FileName} {inherited final : Bool}
    (reached : Reaches wild search prune node path inherited target last final)
    (dark : ∀ tail isDir, classify wild search (relOf (path ++ tail)) isDir ≠ some true)
    (excluded : inherited = false) :
    final = false ∧ classify wild search (relOf last) false ≠ some true := by
  -- The state stays excluded from directory to directory.
  induction reached with
  | here => exact ⟨excluded, by simpa using dark [] false⟩
  | deeper listed git down _ ih =>
    refine ih (fun tail isDir => ?_) ?_
    · rw [List.append_assoc]
      exact dark _ isDir
    · have here := dark [] true
      rw [List.append_nil] at here
      unfold dirState
      cases decision : classify wild search (relOf _) true with
      | none => exact excluded
      | some included => cases included <;> simp_all

/-- What the exhaustive walk selects, a walk with a sound prune reaches as well. -/
theorem Reaches.narrow (sound : prune.Sound wild search) {node target : Node}
    {path last : List FileName} {inherited final : Bool} (below : path ≠ [])
    (reached : Reaches wild search exhaustive node path inherited target last final)
    (selected : (classify wild search (relOf last) false).getD final = true) :
    Reaches wild search prune node path inherited target last final := by
  -- Along the way the first directory that would be skipped leads to a contradiction.
  induction reached with
  | here => exact .here
  | @deeper entries path last inherited final name child target listed git down rest ih =>
    by_cases open_ : descends wild search prune path inherited = true
    · exact .deeper listed git open_ (ih (by simp) selected)
    · -- A skipped directory is excluded and has no include below it, so nothing was selected.
      simp only [descends, Bool.not_eq_true, Bool.or_eq_false_iff] at open_
      obtain ⟨rfl, unmatched⟩ := rest.dark (fun tail isDir => by
        rw [List.append_assoc]
        exact sound path _ isDir below open_.2) open_.1
      cases decision : classify wild search (relOf last) false with
      | none => simp [decision] at selected
      | some included => cases included <;> simp_all

/-- The exhaustive walk goes into every directory. -/
theorem canContainMatch_exhaustive (rel : Bytes) : exhaustive.canContainMatch rel = true := rfl

/-- With a sound prune the walk picks what the exhaustive walk picks. -/
theorem picks_sound_iff (sound : prune.Sound wild search) {node : Node} {path : List FileName}
    (below : path ≠ []) {inherited : Bool} {rel : Bytes} :
    Picks wild search prune node path inherited rel ↔
      Picks wild search exhaustive node path inherited rel := by
  -- One inclusion is the wider walk, the other one is the soundness of the prune.
  constructor
  · intro picked
    obtain ⟨target, last, final, reached, leaf, selected, rfl⟩ := picked
    exact ⟨target, last, final, reached.wider fun rel _ => canContainMatch_exhaustive rel, leaf,
      selected, rfl⟩
  · intro picked
    obtain ⟨target, last, final, reached, leaf, selected, rfl⟩ := picked
    exact ⟨target, last, final, reached.narrow sound below selected, leaf, selected, rfl⟩

/-- A walk that prunes less enters whatever the other one enters. -/
theorem Enters.wider {other : PruneInfo}
    (wider : ∀ rel, prune.canContainMatch rel = true → other.canContainMatch rel = true)
    {node : Node} {path : List FileName} {inherited : Bool} {rel : Bytes}
    (entered : Enters wild search prune node path inherited rel) :
    Enters wild search other node path inherited rel := by
  -- The directory is reached and descended into by the other walk as well.
  obtain ⟨entries, last, final, reached, down, rfl⟩ := entered
  refine ⟨entries, last, final, reached.wider wider, ?_, rfl⟩
  unfold descends at down ⊢
  rw [Bool.or_eq_true] at down ⊢
  exact down.imp_right (wider _)

private theorem canContainMatch_unanchored {pattern : Pattern}
    (positive : pattern ∈ positivePatterns search) (unanchored : prunablePrefix pattern = none)
    (rel : Bytes) :
    (buildPruneInfo search).canContainMatch rel = true := by
  -- The pattern itself makes the flag that turns pruning off.
  have any : (buildPruneInfo search).anyUnanchored = true :=
    List.any_eq_true.mpr ⟨pattern, positive, by simp [unanchored]⟩
  simp [PruneInfo.canContainMatch, any]

/--
Pruning selects what the exhaustive walk selects and enters no directory the other one does not.

With an unanchored positive pattern it skips no directory at all.
-/
theorem runWalk_prune (wild : Bytes → Bytes → Bool) (search : Search) (workdir : Bytes)
    {entries : List (FileName × Node)} (readable : (Node.dir entries).Readable) (start : Walk) :
    ∃ pruned full,
      runWalk wild search (buildPruneInfo search) workdir (.dir entries) start = .ok pruned ∧
      runWalk wild search exhaustive workdir (.dir entries) start = .ok full ∧
      sortedPaths pruned.out = sortedPaths full.out ∧
      (∀ dir ∈ pruned.entered, dir ∈ full.entered) ∧
      ((∃ pattern ∈ positivePatterns search, prunablePrefix pattern = none) →
        pruned.stats.dirsPruned = start.stats.dirsPruned ∧
          ∀ dir ∈ full.entered, dir ∈ pruned.entered) := by
  -- Both walks are described by what they pick and enter at the entries of the root.
  obtain ⟨pruned, walked⟩ := runWalk_complete wild search (buildPruneInfo search) readable
    workdir start
  obtain ⟨full, walked'⟩ := runWalk_complete wild search exhaustive readable workdir start
  obtain ⟨_, same, added⟩ := runWalk_adds walked
  obtain ⟨_, same', added'⟩ := runWalk_adds walked'
  cases same
  cases same'
  refine ⟨pruned, full, walked, walked', sortedPaths_congr fun rel => ?_, ?_, ?_⟩
  · simp only [added.out, added'.out, picks_sound_iff buildPruneInfo_sound (List.cons_ne_nil _ _)]
  · intro dir entered
    rcases (added.entered dir).mp entered with before | root | ⟨entry, listed, git, below⟩
    · exact (added'.entered dir).mpr (.inl before)
    · exact (added'.entered dir).mpr (.inr (.inl root))
    · exact (added'.entered dir).mpr (.inr (.inr ⟨entry, listed, git, below.wider fun _ _ => rfl⟩))
  · intro unbound
    obtain ⟨pattern, positive, unanchored⟩ := unbound
    have never := canContainMatch_unanchored positive unanchored
    refine ⟨added.skipped never, fun dir entered => ?_⟩
    rcases (added'.entered dir).mp entered with before | root | ⟨entry, listed, git, below⟩
    · exact (added.entered dir).mpr (.inl before)
    · exact (added.entered dir).mpr (.inr (.inl root))
    · exact (added.entered dir).mpr
        (.inr (.inr ⟨entry, listed, git, below.wider fun rel _ => never rel⟩))

end Soundness

/-- A pattern anchored at `dist` leaves `node_modules` out of a walk that selects all of `dist`. -/
theorem runWalk_prune_dist :
    ∃ (entries : List (FileName × Node)) (search : Search) (pruned full : Walk),
      (entries.map fun entry => entry.1.bytes) = [ofText "node_modules", ofText "dist"] ∧
      search = [[⟨ofText "dist", false, true, true⟩]] ∧
      runWalk (fun _ _ => false) search (buildPruneInfo search) [] (.dir entries) ⟨[], {}, []⟩ =
        .ok pruned ∧
      runWalk (fun _ _ => false) search exhaustive [] (.dir entries) ⟨[], {}, []⟩ = .ok full ∧
      sortedPaths pruned.out = sortedPaths full.out ∧ ∀ dir ∈ pruned.entered, dir ∈ full.entered := by
  have readable : (Node.dir [
      (⟨ofText "node_modules", by decide, by decide⟩, .dir [(⟨ofText "x", by decide, by decide⟩, .file)]),
      (⟨ofText "dist", by decide, by decide⟩, .dir [(⟨ofText "app.js", by decide, by decide⟩, .file)])
      ]).Readable := by
    refine .dir (List.forall_mem_cons.mpr ⟨.dir ?_, List.forall_mem_cons.mpr ⟨.dir ?_, nofun⟩⟩)
    · exact List.forall_mem_cons.mpr ⟨.file, nofun⟩
    · exact List.forall_mem_cons.mpr ⟨.file, nofun⟩
  obtain ⟨pruned, full, walked, walked', paths, dirs, -⟩ := runWalk_prune (fun _ _ => false)
    [[⟨ofText "dist", false, true, true⟩]] [] readable ⟨[], {}, []⟩
  exact ⟨_, _, pruned, full, rfl, rfl, walked, walked', paths, dirs⟩

end GitFullSend

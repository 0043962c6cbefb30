import Mathlib.Data.List.DropRight
import GitFullSend.Server.RefStore

/-! The ref advertisement of a connection: the anchors derived for it, and what hiding leaves visible. -/

namespace GitFullSend

open Utf8 (Bytes ofText)
open Segments (Above AtOrAbove)

variable {Oid : Type}

/-- A ref name that Git accepts. -/
structure FullName where
  /-- The name of the ref. -/
  name : Bytes
  /-- Git accepts the name. -/
  wellFormed : refNameWellFormed name = true

/-- What a ref points at. -/
inductive RefTarget (Oid : Type) where
  /-- An object. -/
  | object (id : Oid)
  /-- Another ref, which need not exist. -/
  | symbolic (name : FullName)

/-- What of a repository an advertisement is derived from. -/
structure Repository (Oid : Type) where
  refs : RefStore (RefTarget Oid)
  /-- The configured remotes, by their names. -/
  remotes : List Bytes
  /-- Which calls into the Git library succeed. -/
  gix : Gix

/-- The target of the ref of a name, when there is such a ref and it can be read. -/
def Repository.tryFindReference (repo : Repository Oid) (name : Bytes) : Option (RefTarget Oid) :=
  if repo.gix.readable name then repo.refs.get name else none

/-- The ref of a remote that names its default branch. -/
def remoteHead (remote : Bytes) : Bytes := ofText "refs/remotes/" ++ remote ++ ofText "/HEAD"

/-- The tracking ref of a branch of a remote. -/
def remoteBranch (remote branch : Bytes) : Bytes :=
  ofText "refs/remotes/" ++ remote ++ slash :: branch

/--
The anchor ref for one remote.

It is the target of its `HEAD`, else whichever conventional default branch exists.
-/
def remoteAnchor (repo : Repository Oid) (remote : Bytes) : Option Bytes :=
  match repo.tryFindReference (remoteHead remote) with
  -- The target is not looked up, and is printed as text.
  | some (.symbolic target) => some (Utf8.lossy target.name)
  | some (.object _) | none =>
    ([ofText "main", ofText "master"].map (remoteBranch remote)).find? fun name =>
      (repo.tryFindReference name).isSome

/-- The patterns that are advertised for every repository. -/
def staticPatterns : List Bytes := [refNamespace, ofText "refs/heads/"]

/-- Advertise the anchor of a remote that yields one, once. -/
def advertise (repo : Repository Oid) (advertised : List Bytes) (remote : Bytes) : List Bytes :=
  match remoteAnchor repo remote with
  | some anchor => if advertised.contains anchor then advertised else advertised ++ [anchor]
  | none => advertised

/-- The ref patterns a connection advertises when hiding is on. -/
def advertisedRefs (repo : Repository Oid) : List Bytes :=
  (repo.remotes.map Utf8.lossy).foldl (advertise repo) staticPatterns

/-- The patterns of one connection, which are the static ones where the repository does not open. -/
def connectionPatterns (opened : Option (Repository Oid)) : List Bytes :=
  opened.elim staticPatterns advertisedRefs

/-- The `receive.hideRefs` values for one connection: hide everything, then unhide the patterns. -/
def hideRefsValues (opened : Option (Repository Oid)) (extra : List Bytes) : List Bytes :=
  ofText "refs/" :: (connectionPatterns opened ++ extra).map fun pattern => 0x21 :: pattern

/-- The `receive.hideRefs` values of a connection's `receive-pack`, behind those of its own. -/
def receiveHideRefs (hideRefs : Bool) (own : List Bytes) (opened : Option (Repository Oid))
    (advertise : List Bytes) : List Bytes :=
  own ++ if hideRefs then hideRefsValues opened advertise else []

/-- A pattern without the slashes it ends with. -/
def withoutSlashes (pattern : Bytes) : Bytes := pattern.rdropWhile (· = slash)

/-- One value of `receive.hideRefs`, as Git reads it. -/
structure HideEntry where
  /-- A leading `!` unhides what matches. -/
  unhides : Bool
  pattern : Bytes
  deriving DecidableEq

/-- Read a value of `receive.hideRefs`. -/
def HideEntry.parse (value : Bytes) : HideEntry :=
  let kept := withoutSlashes value
  let unhides := decide (kept.head? = some 0x21)
  let rest := if unhides then kept.tail else kept
  -- A `^` asks for the name with its namespace, and a connection has none.
  ⟨unhides, if rest.head? = some 0x5E then rest.tail else rest⟩

/-- Whether Git hides a ref: the last value that matches it decides. -/
def refIsHidden (hideRefs : List Bytes) (name : Bytes) : Bool :=
  ((hideRefs.map HideEntry.parse).reverse.find? fun entry =>
    decide (AtOrAbove slash entry.pattern name)).elim false fun entry => !entry.unhides

/-- Every pattern that is advertised is a static one or the anchor of a remote. -/
theorem mem_advertisedRefs {repo : Repository Oid} {pattern : Bytes} :
    pattern ∈ advertisedRefs repo ↔
      pattern ∈ staticPatterns ∨
        ∃ remote ∈ repo.remotes, remoteAnchor repo (Utf8.lossy remote) = some pattern := by
  -- The induction is on the remotes, each of which adds its anchor unless that is there already.
  unfold advertisedRefs
  generalize staticPatterns = advertised
  induction repo.remotes generalizing advertised with
  | nil => simp
  | cons remote rest ih =>
    have added : pattern ∈ advertise repo advertised (Utf8.lossy remote) ↔
        pattern ∈ advertised ∨ remoteAnchor repo (Utf8.lossy remote) = some pattern := by
      unfold advertise
      cases remoteAnchor repo (Utf8.lossy remote) with
      | none => simp
      | some anchor =>
        simp only [Option.some.injEq]
        split
        · rename_i present
          have within : anchor ∈ advertised := List.contains_iff_mem.mp present
          exact ⟨.inl, fun either => either.elim id fun same => same ▸ within⟩
        · simp [eq_comm]
    rw [List.map_cons, List.foldl_cons, ih, added, or_assoc, List.exists_mem_cons_iff]

/-- A name below `refs/` does not begin with the mark that asks for a whole name. -/
theorem rooted_plain {name : Bytes} (rooted : ofText "refs/" <+: name) :
    name.head? ≠ some 0x5E := by
  obtain ⟨rest, rfl⟩ := rooted
  have opening : ofText "refs/" = 0x72 :: ofText "efs/" := by decide
  simp [opening]

/-- An anchor does not begin with the mark that asks for a whole name. -/
private theorem remoteAnchor_plain {repo : Repository Oid} {remote anchor : Bytes}
    (derived : remoteAnchor repo remote = some anchor) : anchor.head? ≠ some 0x5E := by
  -- No ref name contains the mark, and printing a name adds none.
  unfold remoteAnchor at derived
  split at derived
  · rename_i target _
    obtain rfl := Option.some.inj derived
    intro marked
    have printed : [0x5E] <+: Utf8.lossy target.name := by
      obtain ⟨rest, same⟩ := List.head?_eq_some_iff.mp marked
      exact same ▸ ⟨rest, rfl⟩
    have within := (Utf8.prefix_of_lossy (by simp) printed).mem List.mem_cons_self
    exact absurd (refByte_of_wellFormed target.wellFormed within) (by decide)
  all_goals
    have listed := List.mem_of_find?_eq_some derived
    obtain ⟨branch, -, rfl⟩ := List.mem_map.mp listed
    have opening : ofText "refs/remotes/" = ofText "refs/" ++ ofText "remotes/" := by decide
    apply rooted_plain
    simp [remoteBranch, opening]

/-- Dropping the slashes a pattern ends with keeps what stands in front of them. -/
private theorem withoutSlashes_cons {first : UInt8} (other : first ≠ slash) (rest : Bytes) :
    withoutSlashes (first :: rest) = first :: withoutSlashes rest := by
  -- The slashes are dropped from the end, and never reach the first byte.
  unfold withoutSlashes
  induction rest using List.reverseRecOn with
  | nil => simp [List.rdropWhile_singleton, other]
  | append_singleton front last ih =>
    rw [← List.cons_append, List.rdropWhile_concat, List.rdropWhile_concat, ih]
    split <;> rfl

/-- A pattern behind a `!` unhides. -/
private theorem parse_unhide {pattern : Bytes} (plain : pattern.head? ≠ some 0x5E) :
    HideEntry.parse (0x21 :: pattern) = ⟨true, withoutSlashes pattern⟩ := by
  -- The first mark is taken off, and the pattern has no second one.
  have kept : (withoutSlashes pattern).head? ≠ some 0x5E := by
    intro marked
    obtain ⟨rest, same⟩ := List.head?_eq_some_iff.mp marked
    obtain ⟨dropped, split⟩ := List.rdropWhile_prefix (fun byte => decide (byte = slash)) pattern
    exact plain (by rw [← split, ← withoutSlashes, same]; rfl)
  simp [HideEntry.parse, withoutSlashes_cons (show (0x21 : UInt8) ≠ slash by decide), kept]

/-- Behind any values, hiding everything leaves visible what a pattern behind it unhides. -/
theorem refIsHidden_unhiding (own : List Bytes) {patterns : List Bytes}
    (plain : ∀ pattern ∈ patterns, pattern.head? ≠ some 0x5E) {name : Bytes}
    (rooted : ofText "refs/" <+: name) :
    refIsHidden (own ++ ofText "refs/" :: patterns.map (0x21 :: ·)) name = false ↔
      ∃ pattern ∈ patterns, AtOrAbove slash (withoutSlashes pattern) name := by
  -- Read from the end, the patterns come first, and then the value that matches every ref.
  have read : (patterns.map (0x21 :: ·)).map HideEntry.parse =
      patterns.map fun pattern => ⟨true, withoutSlashes pattern⟩ := by
    rw [List.map_map]
    exact List.map_congr_left fun pattern listed => parse_unhide (plain pattern listed)
  have all : HideEntry.parse (ofText "refs/") = ⟨false, ofText "refs"⟩ := by decide
  have everything : AtOrAbove slash (ofText "refs") name := by
    obtain ⟨rest, rfl⟩ := rooted
    exact .inr ⟨rest, rfl⟩
  simp only [refIsHidden, List.map_append, List.map_cons, read, all, List.reverse_append,
    List.reverse_cons, List.append_assoc, List.find?_append, List.find?_singleton]
  cases found : (patterns.map fun pattern => (⟨true, withoutSlashes pattern⟩ : HideEntry)).reverse.find?
      fun entry => decide (AtOrAbove slash entry.pattern name) with
  | none =>
    -- No pattern matches, so the ref is hidden with all the others.
    have unmatched := List.find?_eq_none.mp found
    simp only [decide_eq_true everything, Option.none_or, Option.some_or, if_true,
      Option.elim_some, Bool.not_false, Bool.true_eq_false, false_iff, not_exists, not_and]
    intro pattern listed covers
    have unlisted := unmatched ⟨true, withoutSlashes pattern⟩
      (List.mem_reverse.mpr (List.mem_map_of_mem listed))
    exact unlisted (decide_eq_true covers)
  | some entry =>
    -- The last pattern that matches decides, and every pattern unhides.
    have covers : AtOrAbove slash entry.pattern name := by simpa using List.find?_some found
    have member := List.mem_reverse.mp (List.mem_of_find?_eq_some found)
    obtain ⟨pattern, listed, rfl⟩ := List.mem_map.mp member
    simp only [Option.some_or, Option.elim_some, Bool.not_true, true_iff]
    exact ⟨pattern, listed, covers⟩

/-- No pattern of a connection begins with the mark that asks for a whole name. -/
theorem connectionPatterns_plain {opened : Option (Repository Oid)} {pattern : Bytes}
    (listed : pattern ∈ connectionPatterns opened) : pattern.head? ≠ some 0x5E := by
  -- A pattern is a static one, or an anchor.
  have fixed : ∀ pattern ∈ staticPatterns, pattern.head? ≠ some 0x5E := by decide
  cases opened with
  | none => exact fixed pattern listed
  | some repo =>
    rcases mem_advertisedRefs.mp listed with static | ⟨remote, -, derived⟩
    · exact fixed pattern static
    · exact remoteAnchor_plain derived

/--
The curated advertisement is exactly the anchor set.

With hiding on, a ref is visible and updatable exactly when it is at or below a pattern that is
advertised, whatever the repository's own configuration hides.
-/
theorem refIsHidden_curated (own : List Bytes) (opened : Option (Repository Oid))
    {extra : List Bytes} (prefixes : ∀ pattern ∈ extra, ofText "refs/" <+: pattern) {name : Bytes}
    (rooted : ofText "refs/" <+: name) :
    (refIsHidden (receiveHideRefs true own opened extra) name = false ↔
      ∃ pattern ∈ connectionPatterns opened ++ extra,
        AtOrAbove slash (withoutSlashes pattern) name) ∧
    (refNamespace <+: name →
      refIsHidden (receiveHideRefs true own opened extra) name = false) := by
  have plain : ∀ pattern ∈ connectionPatterns opened ++ extra, pattern.head? ≠ some 0x5E := by
    intro pattern listed
    rcases List.mem_append.mp listed with listed | listed
    · exact connectionPatterns_plain listed
    · exact rooted_plain (prefixes pattern listed)
  have visible := refIsHidden_unhiding own plain rooted
  refine ⟨visible, ?_⟩
  -- The namespace of the tool is advertised in any case.
  intro ours
  have advertised : refNamespace ∈ connectionPatterns opened := by
    cases opened with
    | none => exact List.mem_cons_self
    | some repo => exact mem_advertisedRefs.mpr (.inl List.mem_cons_self)
  refine visible.mpr ⟨refNamespace, List.mem_append_left _ advertised, .inr ?_⟩
  have ended : withoutSlashes refNamespace ++ [slash] = refNamespace := by decide
  rwa [Above, ended]

/-- Own values hide both, and still the remote's default branch is visible and another is not. -/
theorem refIsHidden_curated_remote :
    ∃ repo : Repository Unit, repo.remotes = [ofText "origin"] ∧
      let values := receiveHideRefs true [ofText "refs/remotes", ofText "!refs/remotes/origin/wip"]
        (some repo) [ofText "refs/tags/v1/"]
      refIsHidden values (ofText "refs/remotes/origin/trunk") = false ∧
        refIsHidden values (ofText "refs/remotes/origin/wip") ≠ false := by
  -- The branch is hidden with the rest of the remotes, but for the one anchor.
  let trunk : FullName := ⟨ofText "refs/remotes/origin/trunk", by decide⟩
  let repo : Repository Unit :=
    ⟨⟨[(trunk.name, .object ()), (ofText "refs/remotes/origin/HEAD", .symbolic trunk)],
      by decide, by decide⟩, [ofText "origin"], .sound⟩
  have patterns : connectionPatterns (some repo) ++ [ofText "refs/tags/v1/"] =
      [refNamespace, ofText "refs/heads/", trunk.name, ofText "refs/tags/v1/"] := by decide +kernel
  have prefixes : ∀ pattern ∈ [ofText "refs/tags/v1/"], ofText "refs/" <+: pattern := by decide
  have trunks := @refIsHidden_curated _ [ofText "refs/remotes", ofText "!refs/remotes/origin/wip"]
    (some repo) _ prefixes trunk.name (by decide)
  have others := @refIsHidden_curated _ [ofText "refs/remotes", ofText "!refs/remotes/origin/wip"]
    (some repo) _ prefixes (ofText "refs/remotes/origin/wip") (by decide)
  rw [patterns] at trunks others
  exact ⟨repo, rfl, trunks.1.mpr (by decide), fun visible => absurd (others.1.mp visible) (by decide)⟩

end GitFullSend

import GitFullSend.Server.Anchors
import GitFullSend.Server.Streams

/-! What `doctor` reports about the anchors of a repository. -/

namespace GitFullSend

open Utf8 (Bytes ofText)

variable {Oid : Type}

/-- How a check turned out. -/
inductive CheckStatus where
  | ok
  /-- This will cost something. -/
  | warn
  /-- Something is broken. -/
  | error
  deriving DecidableEq, Repr

/-- The numbers behind the check of the anchors. -/
structure AnchorDetail where
  advertised : List Bytes
  /-- The age of the freshest anchor in days, when there is one with a commit. -/
  freshestAnchorAgeDays : Option Int
  remotesWithoutAnchor : List Bytes
  deriving DecidableEq

/-- One thing `doctor` looked at. -/
structure Check (Detail : Type) where
  /-- Stable identifier. -/
  name : String
  status : CheckStatus
  /-- What was found, in one line. -/
  summary : Bytes
  /-- What to do about it, when there is something to do. -/
  remedy : Option Bytes
  detail : Detail
  deriving DecidableEq

/-- Anchors older than this make a cold sync pay for the staleness, in seconds. -/
def anchorStaleSecs : Int := 14 * 24 * 60 * 60

/-- The names a list of anchors stands for: exact refs, and every ref below a pattern. -/
def anchorRefs (repo : Repository Oid) (name : Bytes) : List Bytes :=
  -- The tool's own refs are no bases that a first sync could use.
  if refNamespace <+: name then []
  else
    match stripSuffix [slash] name with
    | some opening =>
      if !repo.gix.references || !repo.gix.prefixed then []
      else ((repo.refs.prefixed (opening ++ [slash])).map Prod.fst).filter repo.gix.readable
    | none => if (repo.tryFindReference name).isSome then [name] else []

/--
The most recent committer time among the advertised anchors.

A ref that does not peel to a commit has no committer time.
-/
def freshestAdvertisedSecs (repo : Repository Oid) (committerSecs : Bytes → Option Int)
    (advertised : List Bytes) : Option Int :=
  ((advertised.flatMap (anchorRefs repo)).filterMap committerSecs).foldl
    (fun freshest secs => some (freshest.elim secs (max · secs))) none

/-- The command that records the default branch of a remote. -/
def setHead (remote : Bytes) : Bytes :=
  ofText "`git remote set-head " ++ remote ++ ofText " --auto`"

/-- The anchor set that will be advertised, and whether it is any good. -/
def checkAnchors (repo : Repository Oid) (committerSecs : Bytes → Option Int) (now : Int) :
    Check AnchorDetail :=
  let advertised := advertisedRefs repo
  let remotes := repo.remotes.map Utf8.lossy
  let missing := remotes.filter fun remote => (remoteAnchor repo remote).isNone
  let freshest := freshestAdvertisedSecs repo committerSecs advertised
  let ageDays := freshest.map fun secs => max (now - secs) 0 / (24 * 60 * 60)
  let check status summary remedy : Check AnchorDetail :=
    ⟨"anchors", status, summary, remedy, ⟨advertised, ageDays, missing⟩⟩
  let advertising := ofText "advertising " ++ ofText (toString advertised.length) ++
    ofText " pattern(s); "
  if missing ≠ [] then
    check .warn
      (ofText "remote(s) contribute no advertisement anchor: " ++
        (ofText ", ").intercalate missing)
      (some (ofText "without an anchor the curated advertisement (ADR-0020) offers a cold sync no " ++
        ofText "fresh delta base, so its first push sends a near-full pack. Run " ++
        (ofText ", ").intercalate (missing.map setHead) ++
        ofText " to record the remote's default branch"))
  else
    match ageDays with
    | some days =>
      if 0 < now && anchorStaleSecs ≤ days * 24 * 60 * 60 then
        check .warn
          (ofText "the freshest advertised anchor is " ++ ofText (toString days) ++
            ofText " day(s) old — a cold sync will delta against a stale base")
          (some (ofText "the cold-sync pack size is governed by how fresh the best advertised ref " ++
            ofText "is; `git fetch` in this repo to freshen its anchors"))
      else
        check .ok
          (advertising ++ ofText "freshest anchor " ++ ofText (toString days) ++
            ofText " day(s) old")
          none
    | none =>
      check .ok (advertising ++ ofText "no anchor commits yet to judge freshness by") none

/-- A remote yields an anchor that exists and is advertised. -/
def Anchored (repo : Repository Oid) (remote : Bytes) : Prop :=
  ∃ name, remoteAnchor repo remote = some name ∧ (repo.refs.get name).isSome ∧
    name ∈ advertisedRefs repo

/-- A check warns of a remote that has no anchor. -/
def Check.Reports (check : Check AnchorDetail) (remote : Bytes) : Prop :=
  remote ∈ check.detail.remotesWithoutAnchor ∧ check.status = .warn

/-- A check warns of exactly the remotes that yield no anchor. -/
theorem checkAnchors_reports_iff {repo : Repository Oid} {committerSecs : Bytes → Option Int}
    {now : Int} {remote : Bytes} :
    (checkAnchors repo committerSecs now).Reports remote ↔
      remote ∈ repo.remotes.map Utf8.lossy ∧ remoteAnchor repo remote = none := by
  -- Every branch lists the same remotes, and one that lists any warns.
  have listed : (checkAnchors repo committerSecs now).detail.remotesWithoutAnchor =
      (repo.remotes.map Utf8.lossy).filter fun remote => (remoteAnchor repo remote).isNone := by
    unfold checkAnchors
    simp only
    split
    · rfl
    · split
      · split <;> rfl
      · rfl
  rw [Check.Reports, listed, List.mem_filter, Option.isNone_iff_eq_none, and_iff_left_iff_imp]
  intro missing
  have some : ((repo.remotes.map Utf8.lossy).filter fun remote =>
      (remoteAnchor repo remote).isNone) ≠ [] := by
    apply List.ne_nil_of_mem (a := remote)
    simpa using missing
  unfold checkAnchors
  simp only
  rw [if_pos some]

/-- The anchor a remote yields exists, unless it is the target of its `HEAD`. -/
theorem remoteAnchor_exists {repo : Repository Oid} {remote anchor : Bytes}
    (derived : remoteAnchor repo remote = some anchor) :
    (repo.refs.get anchor).isSome ∨
      ∃ target, repo.tryFindReference (remoteHead remote) = some (.symbolic target) ∧
        anchor = Utf8.lossy target.name := by
  -- A conventional default branch is only taken after it was found.
  unfold remoteAnchor at derived
  split at derived
  · rename_i target symbolic
    exact .inr ⟨target, symbolic, (Option.some.inj derived).symm⟩
  all_goals
    left
    have found : (repo.tryFindReference anchor).isSome := by simpa using List.find?_some derived
    unfold Repository.tryFindReference at found
    split at found
    · exact found
    · cases found

/--
Every remote contributes a real anchor or is reported, exactly when every `HEAD` of a remote that
is symbolic names, as it is printed, a ref that exists.
-/
theorem remotes_anchored_or_reported_iff (repo : Repository Oid)
    (committerSecs : Bytes → Option Int) (now : Int) :
    (∀ remote ∈ repo.remotes, Anchored repo (Utf8.lossy remote) ∨
        (checkAnchors repo committerSecs now).Reports (Utf8.lossy remote)) ↔
      ∀ remote ∈ repo.remotes, ∀ target,
        repo.tryFindReference (remoteHead (Utf8.lossy remote)) = some (.symbolic target) →
          (repo.refs.get (Utf8.lossy target.name)).isSome := by
  constructor
  · -- A symbolic `HEAD` yields its target, so the remote is not reported.
    intro every remote configured target symbolic
    have derived : remoteAnchor repo (Utf8.lossy remote) = some (Utf8.lossy target.name) := by
      rw [remoteAnchor, symbolic]
    rcases every remote configured with ⟨name, yields, present, -⟩ | reported
    · rw [derived, Option.some.injEq] at yields
      exact yields ▸ present
    · have missing := (checkAnchors_reports_iff.mp reported).2
      rw [derived] at missing
      cases missing
  · intro resolves remote configured
    cases derived : remoteAnchor repo (Utf8.lossy remote) with
    | none =>
      exact .inr (checkAnchors_reports_iff.mpr ⟨List.mem_map_of_mem configured, derived⟩)
    | some name =>
      refine .inl ⟨name, derived, ?_, mem_advertisedRefs.mpr (.inr ⟨remote, configured, derived⟩)⟩
      rcases remoteAnchor_exists derived with present | ⟨target, symbolic, rfl⟩
      · exact present
      · exact resolves remote configured target symbolic

/-- A `HEAD` that names a branch that was pruned yields that branch, and nothing is reported. -/
theorem pruned_default_branch_unreported :
    ∃ (repo : Repository Unit) (target : FullName),
      repo.refs.refs = [(ofText "refs/remotes/origin/HEAD", .symbolic target)] ∧
      target.name = ofText "refs/remotes/origin/trunk" ∧ repo.remotes = [ofText "origin"] ∧
      ¬ ∀ remote ∈ repo.remotes, Anchored repo (Utf8.lossy remote) ∨
        (checkAnchors repo (fun _ => none) 0).Reports (Utf8.lossy remote) := by
  let target : FullName := ⟨ofText "refs/remotes/origin/trunk", by decide⟩
  let repo : Repository Unit :=
    ⟨⟨[(ofText "refs/remotes/origin/HEAD", .symbolic target)], by decide, by decide⟩,
      [ofText "origin"], .sound⟩
  have derived : remoteAnchor repo (Utf8.lossy (ofText "origin")) = some target.name := by
    decide +kernel
  have pruned : (repo.refs.get target.name).isSome = false := by decide +kernel
  refine ⟨repo, target, rfl, rfl, rfl, fun every => ?_⟩
  rcases every (ofText "origin") List.mem_cons_self with ⟨name, yields, present, -⟩ | reported
  · rw [derived, Option.some.injEq] at yields
    rw [← yields, pruned] at present
    cases present
  · have missing := (checkAnchors_reports_iff.mp reported).2
    rw [derived] at missing
    cases missing

end GitFullSend

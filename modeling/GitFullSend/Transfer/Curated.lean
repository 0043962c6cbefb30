import GitFullSend.Server.Anchors
import GitFullSend.Transfer.Estimate

/-! What a probe measures of a server that collapses its advertisement to the anchors. -/

namespace GitFullSend

open Utf8 (Bytes ofText)
open Arrivals (delivered)
open Segments (Above AtOrAbove)

variable {Oid : Type}

/-- The names of a repository's refs. -/
def Repository.names (repo : Repository Oid) : List Bytes := repo.refs.refs.map Prod.fst

/-- Git accepts the names of the refs, and all of them lie below `refs/`. -/
def Repository.Rooted (repo : Repository Oid) : Prop :=
  ∀ name ∈ repo.names, refNameWellFormed name = true ∧ ofText "refs/" <+: name

/-- The refs that a pattern matches. -/
def Repository.matched (repo : Repository Oid) (pattern : Bytes) : List Bytes :=
  repo.names.filter fun name => AtOrAbove slash (withoutSlashes pattern) name

/-- The anchors of the remotes, at most one for each. -/
def anchors (opened : Option (Repository Oid)) : List Bytes :=
  opened.elim [] fun repo => (repo.remotes.map Utf8.lossy).filterMap (remoteAnchor repo)

/-- A pattern of a connection is a static one or an anchor. -/
theorem mem_connectionPatterns {opened : Option (Repository Oid)} {pattern : Bytes} :
    pattern ∈ connectionPatterns opened ↔ pattern ∈ staticPatterns ∨ pattern ∈ anchors opened := by
  cases opened with
  | none => simp [connectionPatterns, anchors]
  | some repo => simp [connectionPatterns, anchors, mem_advertisedRefs]

/-- A name that Git accepts has no slash at its end. -/
theorem withoutSlashes_wellFormed {name : Bytes} (wellFormed : refNameWellFormed name = true) :
    withoutSlashes name = name := by
  -- Behind a slash at the end there is one more component, which is empty.
  refine List.rdropWhile_eq_self_iff.mpr fun some ended => ?_
  have last : name.getLast some = slash := by simpa using ended
  have split : name.splitOn slash = name.dropLast.splitOn slash ++ [[]] := by
    conv_lhs => rw [← List.dropLast_concat_getLast some, last]
    rw [List.splitOn_append_cons_self]
    rfl
  have empty : componentWellFormed [] = false := by decide
  simp [refNameWellFormed, split, empty] at wellFormed

/-- A ref is matched by the name of another ref only if it is that one. -/
theorem matched_name {repo : Repository Oid} (rooted : repo.Rooted) {anchor : Bytes}
    (present : anchor ∈ repo.names) {name : Bytes} :
    name ∈ repo.matched anchor ↔ name = anchor := by
  -- The name has no slash at its end, so the pattern is the name itself.
  rw [Repository.matched, List.mem_filter, decide_eq_true_eq,
    withoutSlashes_wellFormed (rooted anchor present).1]
  constructor
  · rintro ⟨listed, same | above⟩
    · exact same.symm
    · -- No ref stands below another one.
      obtain ⟨upper, here, rfl⟩ := List.mem_map.mp present
      obtain ⟨lower, there, rfl⟩ := List.mem_map.mp listed
      exact absurd above (repo.refs.beside upper here lower there)
  · rintro rfl
    exact ⟨present, .inl rfl⟩

/-- The refs that the collapsed advertisement is left with. -/
def Repository.curated (repo : Repository Oid) (opened : Option (Repository Oid))
    (extra : List Bytes) : List Bytes :=
  ((connectionPatterns opened ++ extra).flatMap repo.matched).dedup

/-- What is not hidden are the refs that the patterns match. -/
theorem shown_perm {repo : Repository Oid} (rooted : repo.Rooted) (own : List Bytes)
    {opened : Option (Repository Oid)} {extra : List Bytes}
    (prefixes : ∀ pattern ∈ extra, ofText "refs/" <+: pattern) :
    (repo.names.filter fun name => !refIsHidden (receiveHideRefs true own opened extra) name).Perm
      (repo.curated opened extra) := by
  -- Neither list has a name twice, so it is enough to compare their members.
  refine (List.perm_ext_iff_of_nodup (repo.refs.distinct.filter _) (List.nodup_dedup _)).mpr
    fun name => ?_
  have plain : ∀ pattern ∈ connectionPatterns opened ++ extra, pattern.head? ≠ some 0x5E := by
    intro pattern listed
    rcases List.mem_append.mp listed with listed | listed
    · exact connectionPatterns_plain listed
    · exact rooted_plain (prefixes pattern listed)
  rw [List.mem_filter, Bool.not_eq_true', List.mem_dedup, List.mem_flatMap]
  constructor
  · rintro ⟨listed, shown⟩
    obtain ⟨pattern, advertised, covers⟩ :=
      (refIsHidden_unhiding own plain (rooted name listed).2).mp shown
    exact ⟨pattern, advertised, List.mem_filter.mpr ⟨listed, decide_eq_true covers⟩⟩
  · rintro ⟨pattern, advertised, matched⟩
    obtain ⟨listed, covers⟩ := List.mem_filter.mp matched
    exact ⟨listed, (refIsHidden_unhiding own plain (rooted name listed).2).mpr
      ⟨pattern, advertised, of_decide_eq_true covers⟩⟩

/-- Where the anchors are refs, each remote adds one at most to what the other patterns match. -/
theorem length_curated {repo : Repository Oid} (rooted : repo.Rooted)
    {opened : Option (Repository Oid)} (present : ∀ anchor ∈ anchors opened, anchor ∈ repo.names)
    (extra : List Bytes) : (repo.curated opened extra).length ≤
      ((staticPatterns ++ extra).flatMap repo.matched).length +
        (opened.elim [] Repository.remotes).length := by
  -- An anchor matches itself only, and no name is there twice.
  have within : repo.curated opened extra ⊆
      (staticPatterns ++ extra).flatMap repo.matched ++ anchors opened := by
    intro name kept
    obtain ⟨pattern, advertised, covers⟩ := List.mem_flatMap.mp (List.mem_dedup.mp kept)
    simp only [List.mem_append, mem_connectionPatterns, List.mem_flatMap] at advertised ⊢
    rcases advertised with (fixed | anchor) | added
    · exact .inl ⟨pattern, .inl fixed, covers⟩
    · exact .inr ((matched_name rooted (present pattern anchor)).mp covers ▸ anchor)
    · exact .inl ⟨pattern, .inr added, covers⟩
  have fewer : (repo.curated opened extra).length ≤ _ :=
    (List.subperm_of_subset (List.nodup_dedup _) within).length_le
  have one : (anchors opened).length ≤ (opened.elim [] Repository.remotes).length := by
    cases opened with
    | none => exact Nat.le_refl 0
    | some repo => exact (List.length_filterMap_le _ _).trans_eq (List.length_map _)
  rw [List.length_append] at fewer
  omega

/--
A connection that collapses its advertisement pays for what its patterns match, and no more.

The patterns are derived from the repository as it was opened, which may have changed since, or are
the static ones when it did not open. Whatever the configuration hides of its own, a probe counts
and measures exactly the refs that a pattern matches, and it reports all refs of the tool. Where the
anchors are refs still, each remote adds one ref at most.
-/
theorem probe_curated {repo : Repository Oid} (rooted : repo.Rooted) (own : List Bytes)
    {opened : Option (Repository Oid)} {extra : List Bytes}
    (prefixes : ∀ pattern ∈ extra, ofText "refs/" <+: pattern) {pack : Advertiser}
    (advertises : pack.Advertises repo fun name =>
      !refIsHidden (receiveHideRefs true own opened extra) name)
    (forty : pack.Sha1) (fits : ∀ payload ∈ pack.payloads, payload.length + 4 ≤ 0xFFFF)
    {sock : Socket} {tail : Bytes} (arrives : delivered sock.incoming = pack.wire ++ tail)
    {remote : String} {auth : Option Token} {report : ProbeReport}
    (probed : probe remote (some sock) auth = .ok report) :
    report.refsAdvertised =
        (repo.curated opened extra).length + pack.alternates + pack.shallows.length ∧
      report.advertisementBytes = linesCost (repo.curated opened extra) + pack.overhead ∧
      report.refsOurs = repo.names.countP (refNamespace <+: ·) ∧
      ((∀ anchor ∈ anchors opened, anchor ∈ repo.names) →
        report.refsAdvertised ≤ ((staticPatterns ++ extra).flatMap repo.matched).length +
          (opened.elim [] Repository.remotes).length + pack.alternates + pack.shallows.length) := by
  -- The advertised refs are those that are not hidden, which are those that are matched.
  have shown := advertises.trans (shown_perm rooted own prefixes)
  have number := shown.length_eq
  rw [List.length_map] at number
  rw [probe_ok fits arrives probed]
  refine ⟨?_, ?_, ?_, fun present => ?_⟩
  · rw [length_heads, number]
  · have size : linesCost (pack.refs.map RootedRef.name) = linesCost (repo.curated opened extra) :=
      (shown.map _).sum_eq
    rw [length_wire fits forty, size]
  · -- The namespace is a static pattern, so none of its refs is hidden.
    have fixed : refNamespace ∈ connectionPatterns opened ++ extra :=
      List.mem_append_left _ (mem_connectionPatterns.mpr (.inl List.mem_cons_self))
    have visible : ∀ name ∈ repo.names, refNamespace <+: name →
        refIsHidden (receiveHideRefs true own opened extra) name = false := by
      intro name listed ours
      have ended : withoutSlashes refNamespace ++ [slash] = refNamespace := by decide
      have covers : name ∈ repo.matched refNamespace :=
        List.mem_filter.mpr ⟨listed, decide_eq_true (.inr (by rwa [Above, ended]))⟩
      have kept := (shown_perm rooted own prefixes).mem_iff.mpr
        (List.mem_dedup.mpr (List.mem_flatMap.mpr ⟨refNamespace, fixed, covers⟩))
      simpa using List.of_mem_filter kept
    have counted := advertises.countP_eq (refNamespace <+: ·)
    rw [List.countP_map, List.countP_filter] at counted
    refine counted.trans (List.countP_congr fun name listed => ?_)
    simpa using visible name listed
  · have fewer := length_curated rooted present extra
    simp only [length_heads, number]
    omega

/-- Of four refs, only the default branch of the remote and the ref of the tool are paid for. -/
theorem probe_curated_remote :
    ∃ (repo : Repository Unit) (pack : Advertiser) (sock : Socket) (report : ProbeReport),
      repo.names.length = 4 ∧ delivered sock.incoming = pack.wire ∧
      probe "host:9418" (some sock) none = .ok report ∧ report.refsAdvertised = 2 ∧
      report.refsOurs = 1 := by
  -- The anchor is the target of the remote's `HEAD`, which is itself hidden with the other branch.
  let id : ObjectName := ⟨"5a5a5a5a5a5a5a5a5a5a5a5a5a5a5a5a5a5a5a5a", by decide, by simp⟩
  let trunk : FullName := ⟨ofText "refs/remotes/origin/trunk", by decide⟩
  let code : Bytes := ofText "refs/git-full-send/streams/a/code"
  let repo : Repository Unit :=
    ⟨⟨[(trunk.name, .object ()), (ofText "refs/remotes/origin/HEAD", .symbolic trunk),
      (ofText "refs/remotes/origin/wip", .object ()), (code, .object ())],
      by decide, by decide⟩, [ofText "origin"], .sound⟩
  let pack : Advertiser := ⟨[.ref id ⟨code, by decide, by decide⟩,
    .ref id ⟨trunk.name, trunk.wellFormed, by decide⟩], [], ofText "report-status", id⟩
  have rooted : ∀ name ∈ repo.names, refNameWellFormed name = true ∧ ofText "refs/" <+: name := by
    decide
  have prefixes : ∀ pattern ∈ ([] : List Bytes), ofText "refs/" <+: pattern := by simp
  have forty : pack.Sha1 := ⟨by decide, by decide, by decide⟩
  have fits : ∀ payload ∈ pack.payloads, payload.length + 4 ≤ 0xFFFF := by decide +kernel
  let sock : Socket := ⟨[.data 0x30 (pack.wire.drop 1)], fun _ => none⟩
  have arrives : delivered sock.incoming = pack.wire ++ [] := by decide +kernel
  have kept : (repo.names.filter fun name =>
      !refIsHidden (receiveHideRefs true [] (some repo) []) name) = [trunk.name, code] := by
    decide +kernel
  have advertises : pack.Advertises repo fun name =>
      !refIsHidden (receiveHideRefs true [] (some repo) []) name := by
    rw [Advertiser.Advertises, show repo.refs.refs.map Prod.fst = repo.names from rfl, kept]
    exact .swap _ _ _
  obtain ⟨report, probed⟩ := probe_answered fits arrives (fun _ => rfl) "host:9418" none
  obtain ⟨refs, -, ours, -⟩ :=
    probe_curated rooted [] prefixes advertises forty fits arrives probed
  have curated : (repo.curated (some repo) []).length = 2 := by decide +kernel
  have own : repo.names.countP (refNamespace <+: ·) = 1 := by decide
  rw [curated] at refs
  exact ⟨repo, pack, sock, report, rfl, by simpa using arrives, probed, refs, ours.trans own⟩

end GitFullSend

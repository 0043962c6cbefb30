import GitFullSend.Client.ProbeReport
import GitFullSend.Server.Doctor

/-! What `doctor` estimates of a ref advertisement, against what a probe measures of it. -/

namespace GitFullSend

open Utf8 (Bytes ofText)
open Arrivals (delivered)
open PktLines (frame flush length_flush length_frames)

variable {Oid : Type}

/-- The wire cost of advertising one ref: the length, the object id, a space and a newline. -/
def refAdvertisementOverhead : Nat := 4 + 40 + 1 + 1

/-- Advertisement size at which the overhead is worth an operator's attention. -/
def advertisementWarnBytes : Nat := 256 * 1024

/-- The tenths of a size in a unit, with a half rounded to the even neighbour. -/
def tenths (size unit : Nat) : Nat :=
  let down := 10 * size / unit
  let rest := 2 * (10 * size % unit)
  if unit < rest ∨ (rest = unit ∧ down % 2 = 1) then down + 1 else down

/-- The binary unit of a size, among those from here on, with its name. -/
def unitOf (size unit : Nat) : List String → Nat × String
  | [] => (unit, "")
  | [last] => (unit, last)
  | name :: rest => if 1024 * unit ≤ size then unitOf size (1024 * unit) rest else (unit, name)

/-- Format a byte count with binary units. -/
def formatBytes (size : Nat) : String :=
  if size < 1024 then toString size ++ " B"
  else
    let (unit, name) := unitOf size 1 ["B", "KiB", "MiB", "GiB", "TiB"]
    let shown := tenths size unit
    toString (shown / 10) ++ "." ++ toString (shown % 10) ++ " " ++ name

/-- The numbers behind the check of the refs. -/
structure RefsDetail where
  refs : Nat
  refsOurs : Nat
  advertisementBytesEstimate : Nat
  deriving DecidableEq

/-- One more ref, by its name. -/
def RefsDetail.count (detail : RefsDetail) (name : Bytes) : RefsDetail where
  refs := detail.refs + 1
  refsOurs := if refNamespace <+: name then detail.refsOurs + 1 else detail.refsOurs
  advertisementBytesEstimate :=
    detail.advertisementBytesEstimate + refAdvertisementOverhead + name.length

/-- A repository whose refs cannot be enumerated at all. -/
def refsUnreadable (failure : Bytes) : Check (Option RefsDetail) where
  name := "refs"
  status := .error
  summary := ofText "could not enumerate refs: " ++ failure
  remedy := some (ofText "check the repository is readable and not corrupt")
  detail := none

/-- Ref count, and the advertisement that every single connection pays for it. -/
def checkRefs (repo : Repository Oid) (failure : Bytes) : Check (Option RefsDetail) :=
  if !repo.gix.references || !repo.gix.prefixed then refsUnreadable failure
  else
    -- A ref that cannot be read is passed over.
    let readable := repo.refs.refs.filter fun entry => repo.gix.readable entry.1
    let detail := (readable.map fun entry => Utf8.lossy entry.1).foldl RefsDetail.count ⟨0, 0, 0⟩
    let warn := advertisementWarnBytes ≤ detail.advertisementBytesEstimate
    { name := "refs"
      status := if warn then .warn else .ok
      summary := ofText (toString detail.refs ++ " ref(s) (" ++ toString detail.refsOurs ++
        " git-full-send's) — about " ++ formatBytes detail.advertisementBytesEstimate ++
        " of ref advertisement on every connection")
      remedy := if warn then some (ofText ("`listen` collapses this advertisement to a curated " ++
        "anchor set by default (ADR-0020), so git-full-send connections do not pay it unless " ++
        "`--no-hide-refs` is given — see the `anchors` check for what gets advertised instead. " ++
        "For the cost every *other* git client of this repo still pays, sync into a dedicated " ++
        "repository whose objects/info/alternates points at this one's object store.")) else none
      detail := some detail }

example : formatBytes (3 * 1024 * 1024) = "3.0 MiB" := by decide

/-- The object whose name opens a line. -/
def HeadLine.id : HeadLine → ObjectName
  | ref id _ => id
  | alternate id => id

namespace Advertiser

/-- The lines for objects of alternate stores. -/
def alternates (pack : Advertiser) : Nat := pack.heads.countP (·.ref?.isNone)

/-- What is sent beside the refs: other lines, the capabilities and the flush-pkt. -/
def overhead (pack : Advertiser) : Nat :=
  -- The capabilities stand behind a NUL, and without a line to follow there is a placeholder.
  4 + (1 + pack.capabilities.length) + 51 * pack.alternates + 53 * pack.shallows.length +
    if pack.heads = [] then 61 else 0

/-- The objects are named by forty digits. -/
def Sha1 (pack : Advertiser) : Prop :=
  (∀ line ∈ pack.heads, (ofText line.id.text).length = 40) ∧
    (∀ id ∈ pack.shallows, (ofText id.text).length = 40) ∧ (ofText pack.null.text).length = 40

/-- A server advertises the refs of a repository that are shown, in any order. -/
def Advertises (pack : Advertiser) (repo : Repository Oid) (shown : Bytes → Bool) : Prop :=
  (pack.refs.map RootedRef.name).Perm ((repo.refs.refs.map Prod.fst).filter shown)

end Advertiser

/-- What the lines of some refs cost. -/
def linesCost (names : List Bytes) : Nat :=
  (names.map fun name => refAdvertisementOverhead + name.length).sum

/-- The refs are counted, those of the tool among them, and the cost of their lines is added up. -/
theorem foldl_count (names : List Bytes) (start : RefsDetail) :
    names.foldl RefsDetail.count start = ⟨start.refs + names.length,
      start.refsOurs + names.countP (refNamespace <+: ·),
      start.advertisementBytesEstimate + linesCost names⟩ := by
  -- The induction is on the names, behind whatever has been counted before.
  induction names generalizing start with
  | nil => rfl
  | cons name rest ih =>
    rw [List.foldl_cons, ih, RefsDetail.count]
    by_cases own : refNamespace <+: name <;>
      simp [own, linesCost, Nat.add_assoc, Nat.add_comm 1]

/-- The detail of a check of refs that can all be read, and whose names are text. -/
theorem checkRefs_detail {repo : Repository Oid} (works : repo.gix = .sound)
    (text : ∀ name ∈ repo.refs.refs.map Prod.fst, Utf8.valid name = true) (failure : Bytes) :
    let names := repo.refs.refs.map Prod.fst
    (checkRefs repo failure).detail = some ⟨names.length, names.countP (refNamespace <+: ·),
      linesCost names⟩ ∧
    ((checkRefs repo failure).status = .warn ↔ advertisementWarnBytes ≤ linesCost names) := by
  -- Every ref is readable, and a name that is text is printed as it is.
  intro names
  have same : (repo.refs.refs.map fun entry => Utf8.lossy entry.1) = names := by
    rw [show names = repo.refs.refs.map Prod.fst from rfl]
    apply List.map_congr_left
    intro entry listed
    exact Utf8.lossy_valid (text entry.1 (List.mem_map_of_mem listed))
  unfold checkRefs
  simp only [works, Gix.sound, Bool.not_true, Bool.or_self, Bool.false_eq_true, if_false,
    List.filter_true, same, foldl_count, Nat.zero_add, true_and]
  split <;> simp_all

/-- What the lines of refs and of alternate stores cost together. -/
theorem sum_heads {heads : List HeadLine}
    (forty : ∀ line ∈ heads, (ofText line.id.text).length = 40) :
    (heads.map fun line => 4 + (line.text.length + 1)).sum =
      linesCost ((heads.filterMap HeadLine.ref?).map RootedRef.name) +
        51 * heads.countP (·.ref?.isNone) := by
  -- The induction adds the cost of one line.
  induction heads with
  | nil => rfl
  | cons line rest ih =>
    obtain ⟨here, others⟩ := List.forall_mem_cons.mp forty
    rw [List.map_cons, List.sum_cons, ih others]
    cases line with
    | ref id name =>
      have long : (HeadLine.ref id name).text.length = 41 + name.name.length := by
        simp only [HeadLine.text, HeadLine.id, List.length_append, List.length_cons] at here ⊢
        omega
      rw [long]
      simp [HeadLine.ref?, linesCost, refAdvertisementOverhead]
      omega
    | alternate id =>
      have long : (HeadLine.alternate id).text.length = 46 := by
        have word : (ofText ".have").length = 5 := by decide
        simp only [HeadLine.text, HeadLine.id, List.length_append, List.length_cons] at here ⊢
        omega
      have none : (HeadLine.alternate id).ref? = none := rfl
      rw [long, List.filterMap_cons_none none, List.countP_cons_of_pos (by rw [none]; rfl)]
      omega

/-- The size of an advertisement is the cost of its refs and what is sent beside them. -/
theorem length_wire {pack : Advertiser}
    (fits : ∀ payload ∈ pack.payloads, payload.length + 4 ≤ 0xFFFF) (forty : pack.Sha1) :
    pack.wire.length = linesCost (pack.refs.map RootedRef.name) + pack.overhead := by
  -- The `shallow` lines are counted apart from those in front, and the flush-pkt has four bytes.
  obtain ⟨heads, shallows, null⟩ := forty
  have cut : (pack.shallows.map fun id => 4 + (Advertiser.shallowLine id).length).sum =
      53 * pack.shallows.length := by
    have word : (ofText "shallow").length = 7 := by decide
    have each : ∀ id ∈ pack.shallows, 4 + (Advertiser.shallowLine id).length = 53 := by
      intro id listed
      have here := shallows id listed
      simp only [Advertiser.shallowLine, List.length_append, List.length_cons, List.length_nil]
      omega
    rw [List.map_congr_left each, List.map_const', List.sum_replicate]
    simp [Nat.mul_comm]
  have lines := sum_heads heads
  rw [Advertiser.wire, List.length_append, length_frames fits, length_flush, Advertiser.overhead,
    Advertiser.refs, Advertiser.alternates]
  unfold Advertiser.payloads
  cases first : pack.heads with
  | nil =>
    have word : (ofText "capabilities^{}").length = 15 := by decide
    simp [linesCost, Function.comp_def, cut]
    omega
  | cons first others =>
    rw [first] at lines
    simp [Function.comp_def, cut] at lines ⊢
    omega

/-- A line in front of the `shallow` ones is for a ref, or for an object of an alternate store. -/
theorem length_heads (pack : Advertiser) :
    pack.heads.length = pack.refs.length + pack.alternates := by
  -- A line of an alternate store is one that has no ref.
  rw [Advertiser.refs, Advertiser.alternates, List.length_filterMap_eq_countP,
    List.length_eq_countP_add_countP (·.ref?.isSome)]
  congr 1
  refine List.countP_congr fun line _ => ?_
  cases line.ref? <;> simp

/-- The cost of lines is that of some and of the others. -/
theorem linesCost_filter (shown : Bytes → Bool) (names : List Bytes) : linesCost names =
    linesCost (names.filter shown) + linesCost (names.filter fun name => !shown name) := by
  rw [linesCost, linesCost, linesCost, ← List.sum_append, ← List.map_append]
  exact ((List.filter_append_perm shown names).map _).sum_eq.symm

/--
What `doctor` estimates of a repository is what a probe of it measures.

The server advertises the refs that are shown, in any order, with object names of forty digits. Then
the estimate is exact up to the refs that are not shown, and to what is sent beside the refs; the
counts of refs are too. So where all refs are shown, a check that warns is right.
-/
theorem checkRefs_probed {repo : Repository Oid} (works : repo.gix = .sound)
    (text : ∀ name ∈ repo.refs.refs.map Prod.fst, Utf8.valid name = true) {pack : Advertiser}
    {shown : Bytes → Bool} (advertises : pack.Advertises repo shown) (forty : pack.Sha1)
    (fits : ∀ payload ∈ pack.payloads, payload.length + 4 ≤ 0xFFFF) {sock : Socket} {tail : Bytes}
    (arrives : delivered sock.incoming = pack.wire ++ tail) {remote : String}
    {auth : Option Token} {report : ProbeReport}
    (probed : probe remote (some sock) auth = .ok report) (failure : Bytes) :
    let hidden := (repo.refs.refs.map Prod.fst).filter fun name => !shown name
    ∃ detail, (checkRefs repo failure).detail = some detail ∧
      report.advertisementBytes + linesCost hidden =
        detail.advertisementBytesEstimate + pack.overhead ∧
      report.refsAdvertised + hidden.length =
        detail.refs + pack.alternates + pack.shallows.length ∧
      report.refsOurs + hidden.countP (refNamespace <+: ·) = detail.refsOurs ∧
      ((checkRefs repo failure).status = .warn →
        advertisementWarnBytes < report.advertisementBytes + linesCost hidden) := by
  intro hidden
  obtain ⟨told, warns⟩ := checkRefs_detail works text failure
  refine ⟨_, told, ?_⟩
  rw [probe_ok fits arrives probed, warns]
  -- Each ref of the repository is either shown or hidden, and the shown ones are advertised.
  have length := length_wire fits forty
  have lines := length_heads pack
  have cost := linesCost_filter shown (repo.refs.refs.map Prod.fst)
  have number := List.length_eq_length_filter_add shown (l := repo.refs.refs.map Prod.fst)
  have own := List.countP_eq_countP_filter_add (repo.refs.refs.map Prod.fst)
    (refNamespace <+: ·) shown
  have ours := advertises.countP_eq (refNamespace <+: ·)
  rw [List.countP_map] at ours
  have size : linesCost (pack.refs.map RootedRef.name) =
      linesCost ((repo.refs.refs.map Prod.fst).filter shown) := (advertises.map _).sum_eq
  have listed := advertises.length_eq
  rw [List.length_map] at listed
  have beside : 0 < pack.overhead := by
    unfold Advertiser.overhead
    omega
  refine ⟨?_, ?_, ?_, fun warn => ?_⟩
  · simp only [hidden]
    omega
  · simp only [hidden]
    omega
  · exact (congrArg (· + _) ours).trans own.symm
  · simp only [hidden]
    omega

/-- A repository with one ref that is shown: the estimate lacks what is sent beside the ref. -/
theorem checkRefs_probed_one :
    ∃ (repo : Repository Unit) (pack : Advertiser) (sock : Socket) (report : ProbeReport)
      (detail : RefsDetail), delivered sock.incoming = pack.wire ∧
      probe "host:9418" (some sock) none = .ok report ∧
      (checkRefs repo []).detail = some detail ∧ detail.refs = 1 ∧
      report.advertisementBytes = detail.advertisementBytesEstimate + pack.overhead := by
  -- The one ref is shown, and the peer answers with it.
  let id : ObjectName := ⟨"5a5a5a5a5a5a5a5a5a5a5a5a5a5a5a5a5a5a5a5a", by decide, by simp⟩
  let ref : RootedRef := ⟨ofText "refs/heads/main", by decide, by decide⟩
  let repo : Repository Unit :=
    ⟨⟨[(ref.name, .object ())], by decide, by decide⟩, [], .sound⟩
  let pack : Advertiser := ⟨[.ref id ref], [], ofText "report-status", id⟩
  have text : ∀ name ∈ repo.refs.refs.map Prod.fst, Utf8.valid name = true := by decide
  have forty : pack.Sha1 := ⟨by decide, by decide, by decide⟩
  have fits : ∀ payload ∈ pack.payloads, payload.length + 4 ≤ 0xFFFF := by decide +kernel
  let sock : Socket := ⟨[.data 0x30 (pack.wire.drop 1)], fun _ => none⟩
  have arrives : delivered sock.incoming = pack.wire ++ [] := by decide +kernel
  have advertises : pack.Advertises repo fun _ => true := .refl _
  obtain ⟨report, probed⟩ := probe_answered fits arrives (fun _ => rfl) "host:9418" none
  obtain ⟨detail, told, bytes, number, -, -⟩ :=
    checkRefs_probed rfl text advertises forty fits arrives probed []
  have counted : detail.refs = 1 := by
    have known := (checkRefs_detail (show repo.gix = .sound from rfl) text []).1
    rw [told] at known
    exact congrArg RefsDetail.refs (Option.some.inj known)
  refine ⟨repo, pack, sock, report, detail, by simpa using arrives, probed, told, counted, ?_⟩
  simpa [linesCost] using bytes

end GitFullSend

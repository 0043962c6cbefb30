import GitFullSend.Client.ProbeAgrees
import GitFullSend.Lib.Folds

/-! What a probe reports of a ref advertisement, against the lines the server sent. -/

namespace GitFullSend

open Utf8 (Bytes ofText)
open Text (Graphic splitWhitespace whitespace)
open Arrivals (Arrival delivered)
open PktLines (frame flush length_flush)

/-- The name of an object, as it is printed. -/
structure ObjectName where
  /-- The printed digits. -/
  text : String
  /-- There is at least one digit. -/
  nonempty : text ≠ ""
  /-- The digits are hexadecimal, in lower case. -/
  hex : ∀ character ∈ text.toList, character ∈ "0123456789abcdef".toList

/-- A well-formed ref name below `refs/`. -/
structure RootedRef where
  /-- The name of the ref. -/
  name : Bytes
  /-- Git accepts the name. -/
  wellFormed : refNameWellFormed name = true
  /-- Every ref that is pushed to lies below `refs/`. -/
  rooted : ofText "refs/" <+: name

/-- A line in front of the `shallow` ones of an advertisement. -/
inductive HeadLine where
  /-- A ref of the repository. -/
  | ref (id : ObjectName) (name : RootedRef)
  /-- The `.have` of an object of an alternate store. -/
  | alternate (id : ObjectName)

/-- The line as it is sent, up to its end or the capabilities. -/
def HeadLine.text : HeadLine → Bytes
  | ref id name => ofText id.text ++ 0x20 :: name.name
  | alternate id => ofText id.text ++ 0x20 :: ofText ".have"

/-- The ref a line is for. -/
def HeadLine.ref? : HeadLine → Option RootedRef
  | ref _ name => some name
  | alternate _ => none

/-- What `git receive-pack` advertises in protocol version 0. -/
structure Advertiser where
  /-- Its refs, and the objects of its alternate stores. -/
  heads : List HeadLine
  /-- The commits its history is cut off at. -/
  shallows : List ObjectName
  capabilities : Bytes
  /-- The name that stands for no object. -/
  null : ObjectName

namespace Advertiser

/-- The `shallow` line of a commit. -/
def shallowLine (id : ObjectName) : Bytes := ofText "shallow" ++ 0x20 :: (ofText id.text ++ [0x0A])

/-- The pkt-lines in front of the flush-pkt; the first one carries the capabilities. -/
def payloads (pack : Advertiser) : List Bytes :=
  let capabilities := 0 :: (pack.capabilities ++ [0x0A])
  let shallows := pack.shallows.map shallowLine
  match pack.heads with
  | [] => (ofText pack.null.text ++ 0x20 :: ofText "capabilities^{}" ++ capabilities) :: shallows
  | first :: others =>
    (first.text ++ capabilities) :: (others.map fun line => line.text ++ [0x0A]) ++ shallows

/-- The advertisement on the wire, up to and including the flush-pkt. -/
def wire (pack : Advertiser) : Bytes := pack.payloads.flatMap frame ++ flush

/-- The refs advertised. -/
def refs (pack : Advertiser) : List RootedRef := pack.heads.filterMap HeadLine.ref?

/-- No object of an alternate store is advertised, and no end of a shallow history. -/
def OnlyRefs (pack : Advertiser) : Prop :=
  (∀ line ∈ pack.heads, line.ref?.isSome) ∧ pack.shallows = []

end Advertiser

/-- A report counts the refs advertised, those of the tool, and every byte. -/
structure ProbeReport.Counts (report : ProbeReport) (pack : Advertiser) : Prop where
  refsAdvertised : report.refsAdvertised = pack.refs.length
  refsOurs : report.refsOurs = pack.refs.countP fun ref => decide (refNamespace <+: ref.name)
  advertisementBytes : report.advertisementBytes = pack.wire.length

/-- The digits of an object name are visible characters. -/
private theorem ObjectName.graphic (id : ObjectName) : Graphic id.text := by
  -- All sixteen digits are.
  have digits : "0123456789abcdef".toList.all (fun digit =>
      decide (0x21 ≤ digit.toNat ∧ digit.toNat ≤ 0x7E)) = true := by decide
  exact ⟨id.nonempty, fun character member =>
    of_decide_eq_true (List.all_eq_true.mp digits character (id.hex character member))⟩

/-- The bytes of a visible word are ASCII. -/
private theorem ascii_graphic {word : String} (graphic : Graphic word) :
    ∀ byte ∈ ofText word, byte ≤ 0x7F := by
  intro byte member
  have high := (graphic.bytes member).2
  exact UInt8.le_iff_toNat_le.mpr (Nat.le_succ_of_le high)

/-- The second word of a line, with all that follows up to white space. -/
private def secondWord (second : String) (ending : Bytes) : String :=
  second ++ .ofList ((Text.lossy ending).toList.takeWhile fun character => !whitespace character)

/-- The second word is what is taken up to white space. -/
private theorem toList_secondWord {second : String} (named : Graphic second) (ending : Bytes) :
    (secondWord second ending).toList =
      (second.toList ++ (Text.lossy ending).toList).takeWhile
        fun character => !whitespace character := by
  rw [List.takeWhile_append_of_pos fun character member => by simp [named.whole member]]
  simp [secondWord]

/-- A line of two words has the second one as its name, up to the white space behind it. -/
private theorem refName_words {first second : String} (opened : Graphic first)
    (named : Graphic second) {rest ending : Bytes}
    (cut : rest.takeWhile (· ≠ 0) = ofText second ++ ending) :
    refName (ofText first ++ 0x20 :: rest) =
      (some (secondWord second ending)).filter (· ≠ "capabilities^{}") := by
  -- Up to the NUL, the words are ASCII, and are read as themselves.
  have whole : ∀ byte ∈ ofText first, decide (byte ≠ 0) = true := by
    intro byte member
    apply decide_eq_true
    rintro rfl
    exact absurd (opened.bytes member).1 (by decide)
  have space : ofText " " = [0x20] := by decide
  have read : Text.lossy ((ofText first ++ 0x20 :: rest).takeWhile (· ≠ 0)) =
      .ofList (first.toList ++ ' ' :: (second.toList ++ (Text.lossy ending).toList)) := by
    have joined : (ofText first ++ 0x20 :: rest).takeWhile (· ≠ 0) =
        ofText first ++ (ofText " " ++ (ofText second ++ ending)) := by
      rw [List.takeWhile_append_of_pos whole, List.takeWhile_cons_of_pos (by decide), cut, space]
      rfl
    rw [joined, Text.lossy_append (ascii_graphic opened), Text.lossy_append (by simp [space]),
      Text.lossy_append (ascii_graphic named)]
    simp [String.ofList_append]
  -- The first word ends at the space, and the second one begins behind it.
  obtain ⟨head, tail, spelled⟩ := named.exists_cons
  have field : (fields (ofText first ++ 0x20 :: rest))[1]? = some (secondWord second ending) := by
    rw [fields, read, Text.splitWhitespace_word (mt String.toList_eq_nil_iff.mp opened.1)
      (fun character member => opened.whole member) (by decide), List.getElem?_cons_succ]
    have first := Text.splitWhitespace_first
      (named.whole (spelled ▸ List.mem_cons_self : head ∈ second.toList))
      (tail ++ (Text.lossy ending).toList)
    rw [← List.cons_append, ← spelled, ← toList_secondWord named, String.ofList_toList] at first
    exact first
  rw [refName_eq, field]

/-- A word of ASCII stands in front of the second word exactly when it does in the bytes. -/
private theorem prefix_secondWord {opening second : String} (graphic : Graphic opening)
    (named : Graphic second) (ending : Bytes) :
    ofText opening <+: ofText (secondWord second ending) ↔
      ofText opening <+: ofText second ++ ending := by
  -- The opening has no white space, so it stands in front of the white space behind the word.
  rw [Text.prefix_ofText_iff graphic.ascii, ← Text.prefix_lossy_iff (ascii_graphic graphic),
    Text.lossy_append (ascii_graphic named), String.toList_append, toList_secondWord named]
  refine ⟨fun begins => begins.trans (List.takeWhile_prefix _), fun begins => ?_⟩
  obtain ⟨rest, same⟩ := begins
  rw [← same, List.takeWhile_append_of_pos fun character member => by simp [graphic.whole member]]
  exact List.prefix_append _ _

/-- What stands behind a line: its end, or the capabilities. -/
private def Ends (tail : Bytes) : Prop :=
  tail.takeWhile (· ≠ 0) = [] ∨ tail.takeWhile (· ≠ 0) = [0x0A]

/-- The second word of a line with nothing behind it is that word. -/
private theorem secondWord_end {second : String} {ending : Bytes}
    (ends : ending = [] ∨ ending = [0x0A]) : secondWord second ending = second := by
  -- The line feed is white space.
  have nothing : (Text.lossy []).toList.takeWhile (fun character => !whitespace character) = [] := by
    decide +kernel
  have feed : (Text.lossy [0x0A]).toList.takeWhile (fun character => !whitespace character) = [] := by
    decide +kernel
  rcases ends with rfl | rfl <;> simp [secondWord, nothing, feed]

/-- A line whose second word ends it has that word as its name. -/
private theorem refName_word {first second : String} (opened : Graphic first)
    (named : Graphic second) {tail : Bytes} (ends : Ends tail) :
    refName (ofText first ++ 0x20 :: (ofText second ++ tail)) =
      (some second).filter (· ≠ "capabilities^{}") := by
  -- The word has no NUL in it, so what is cut off stands behind it.
  have whole : ∀ byte ∈ ofText second, decide (byte ≠ 0) = true := by
    intro byte member
    apply decide_eq_true
    rintro rfl
    exact absurd (named.bytes member).1 (by decide)
  rw [refName_words opened named (List.takeWhile_append_of_pos whole), secondWord_end ends]

/-- The name read of a line for a ref is the tool's own exactly when the ref is. -/
private theorem refName_ref (id : ObjectName) (ref : RootedRef) {tail : Bytes} (ends : Ends tail) :
    ∃ name, refName (ofText id.text ++ 0x20 :: (ref.name ++ tail)) = some name ∧
      (refNamespace <+: ofText name ↔ refNamespace <+: ref.name) := by
  -- The name goes on behind its root, without a NUL.
  obtain ⟨more, rooted⟩ := ref.rooted
  have root : Graphic "refs/" := by decide
  have whole : ∀ byte ∈ ref.name, decide (byte ≠ 0) = true := by
    intro byte member
    apply decide_eq_true
    rintro rfl
    exact absurd (refByte_of_wellFormed ref.wellFormed member) (by decide)
  have cut : (ref.name ++ tail).takeWhile (· ≠ 0) =
      ofText "refs/" ++ (more ++ tail.takeWhile (· ≠ 0)) := by
    rw [List.takeWhile_append_of_pos whole, ← rooted, List.append_assoc]
  refine ⟨_, (refName_words id.graphic root cut).trans (Option.filter_some_pos ?_), ?_⟩
  · -- The placeholder does not begin like a ref.
    apply decide_eq_true
    intro same
    have heads := congrArg (fun text : String => text.toList.head?) same
    rw [secondWord] at heads
    simp at heads
  · rw [refNamespace, prefix_secondWord (by decide) root, ← List.append_assoc, rooted]
    rcases ends with nothing | feed
    · rw [nothing, List.append_nil]
    · -- A prefix with the line feed in it would be the whole line.
      rw [feed, List.prefix_concat_iff, or_iff_right]
      intro same
      have member : (0x0A : UInt8) ∈ ofText "refs/git-full-send/" := by simp [same]
      exact absurd member (by decide)

/-- The name read of a line of an alternate store is no ref of the tool. -/
private theorem refName_alternate (id : ObjectName) {tail : Bytes} (ends : Ends tail) :
    refName (ofText id.text ++ 0x20 :: (ofText ".have" ++ tail)) = some ".have" :=
  (refName_word id.graphic (by decide) ends).trans (by decide)

/-- The name read of the line of a shallow commit is its object's. -/
private theorem refName_shallow (id : ObjectName) :
    refName (Advertiser.shallowLine id) = some id.text := by
  -- The placeholder is no object name.
  rw [Advertiser.shallowLine, refName_word (by decide) id.graphic (.inr (by decide))]
  apply Option.filter_some_pos
  apply decide_eq_true
  intro same
  have digit := id.hex 'p' (same ▸ by decide)
  exact absurd digit (by decide)

/-- Nothing is read of the placeholder. -/
private theorem refName_placeholder (id : ObjectName) {tail : Bytes} (ends : Ends tail) :
    refName (ofText id.text ++ 0x20 :: (ofText "capabilities^{}" ++ tail)) = none :=
  (refName_word id.graphic (by decide) ends).trans (by decide)

/-- Each line in front of the `shallow` ones has a name read of it, the tool's own for its refs. -/
private theorem refName_head (line : HeadLine) {tail : Bytes} (ends : Ends tail) :
    ∃ name, refName (line.text ++ tail) = some name ∧
      (refNamespace <+: ofText name ↔ ∃ ref, line.ref? = some ref ∧ refNamespace <+: ref.name) := by
  -- The two kinds of line differ in their second word.
  cases line with
  | ref id ref =>
    obtain ⟨name, read, ours⟩ := refName_ref id ref ends
    exact ⟨name, by simpa [HeadLine.text] using read, by simpa [HeadLine.ref?] using ours⟩
  | alternate id =>
    refine ⟨".have", by simpa [HeadLine.text] using refName_alternate id ends, ?_⟩
    have other : ¬ refNamespace <+: ofText ".have" := by decide
    simp [HeadLine.ref?, other]

/-- The names read of lines in front of the `shallow` ones are as many as the lines. -/
private theorem names_heads {lines : List (HeadLine × Bytes)} (ends : ∀ line ∈ lines, Ends line.2) :
    let names := (lines.map fun line => line.1.text ++ line.2).filterMap refName
    names.length = lines.length ∧
      names.countP (fun name => decide (refNamespace <+: ofText name)) =
        ((lines.map Prod.fst).filterMap HeadLine.ref?).countP
          fun ref => decide (refNamespace <+: ref.name) := by
  -- The induction is on the lines, each of which adds one name, and one ref at most.
  induction lines with
  | nil => exact ⟨rfl, rfl⟩
  | cons line rest ih =>
    obtain ⟨here, others⟩ := List.forall_mem_cons.mp ends
    obtain ⟨name, read, ours⟩ := refName_head line.1 here
    obtain ⟨count, own⟩ := ih others
    simp only at count own ⊢
    rw [List.map_cons, List.filterMap_cons_some read, List.length_cons, List.length_cons, count,
      List.countP_cons, own, List.map_cons]
    refine ⟨rfl, ?_⟩
    cases kind : line.1.ref? with
    | none =>
      have other : ¬ refNamespace <+: ofText name := by simpa [kind] using ours
      rw [List.filterMap_cons_none kind]
      simp [other]
    | some ref =>
      have same : refNamespace <+: ofText name ↔ refNamespace <+: ref.name := by
        simpa [kind] using ours
      rw [List.filterMap_cons_some kind, List.countP_cons]
      simp [same]

/-- The names read of `shallow` lines are as many as the lines, and none is the tool's own. -/
private theorem names_shallows (shallows : List ObjectName) :
    let names := (shallows.map Advertiser.shallowLine).filterMap refName
    names.length = shallows.length ∧
      names.countP (fun name => decide (refNamespace <+: ofText name)) = 0 := by
  -- An object name begins with a digit, and the namespace does not.
  have read : (shallows.map Advertiser.shallowLine).filterMap refName =
      shallows.map ObjectName.text := by
    simp only [List.filterMap_map, Function.comp_def, refName_shallow, List.filterMap_eq_map']
  refine ⟨by rw [read, List.length_map], ?_⟩
  rw [read, List.countP_eq_zero]
  intro name listed
  obtain ⟨id, -, rfl⟩ := List.mem_map.mp listed
  intro own
  have graphic : Graphic "refs/git-full-send/" := by decide
  have begins := (Text.prefix_ofText_iff graphic.ascii).mp (of_decide_eq_true own)
  have first : 'r' ∈ id.text.toList := begins.subset (by simp)
  exact absurd (id.hex 'r' first) (by decide)

/-- What is read of all lines: one name for each but the placeholder, and the tool's own refs. -/
private theorem names_payloads (pack : Advertiser) :
    let names := pack.payloads.filterMap refName
    names.length = pack.heads.length + pack.shallows.length ∧
      names.countP (fun name => decide (refNamespace <+: ofText name)) =
        pack.refs.countP fun ref => decide (refNamespace <+: ref.name) := by
  -- The first line differs from the others in what stands behind it.
  obtain ⟨count, none⟩ := names_shallows pack.shallows
  have capable : Ends (0 :: (pack.capabilities ++ [0x0A])) := .inl rfl
  unfold Advertiser.payloads Advertiser.refs
  cases pack.heads with
  | nil =>
    have placeholder := refName_placeholder pack.null capable
    simp only [List.append_assoc, List.cons_append] at placeholder ⊢
    rw [List.filterMap_cons_none placeholder]
    exact ⟨by simpa using count, none⟩
  | cons first others =>
    obtain ⟨length, own⟩ := @names_heads
      ((first, 0 :: (pack.capabilities ++ [0x0A])) :: others.map fun line => (line, [0x0A])) (by
        intro line listed
        rcases List.mem_cons.mp listed with rfl | listed
        · exact capable
        · obtain ⟨other, -, rfl⟩ := List.mem_map.mp listed
          exact .inr rfl)
    simp only [List.map_cons, List.map_map, Function.comp_def, List.map_id', List.length_cons,
      List.length_map] at length own ⊢
    rw [List.filterMap_append, List.length_append, List.countP_append, none, length, own, count]
    exact ⟨rfl, rfl⟩

/-- A line that opens with a word in lower case is no refusal. -/
private theorem not_refusal {word : String} (graphic : Graphic word)
    (lower : 'E' ∉ word.toList) (rest : Bytes) : ¬ ofText "ERR " <+: ofText word ++ 0x20 :: rest := by
  -- The first byte of the line is the first character of the word.
  intro begins
  obtain ⟨first, more, spelled⟩ := graphic.exists_cons
  have small := graphic.ascii first (spelled ▸ List.mem_cons_self)
  have mark : ofText "ERR " = [0x45, 0x52, 0x52, 0x20] := by decide
  rw [mark, Text.ofText_eq, spelled, List.flatMap_cons, Text.encode_ascii small,
    List.append_assoc, List.singleton_append] at begins
  have same := congrArg UInt8.toNat (List.cons_prefix_cons.mp begins).1
  rw [UInt8.toNat_ofNat_of_lt' (Nat.lt_trans small (by decide))] at same
  have letter : first = 'E' := Char.toNat_inj.mp same.symm
  exact lower (spelled ▸ letter ▸ List.mem_cons_self)

/-- No line of an advertisement is a refusal. -/
private theorem payloads_plain (pack : Advertiser) :
    ∀ payload ∈ pack.payloads, ¬ ofText "ERR " <+: payload := by
  -- Every line opens with an object name or with `shallow`.
  have digits : ∀ id : ObjectName, 'E' ∉ id.text.toList :=
    fun id member => absurd (id.hex 'E' member) (by decide)
  have headed : ∀ (line : HeadLine) (tail : Bytes), ¬ ofText "ERR " <+: line.text ++ tail := by
    intro line tail
    cases line with
    | ref id name => simpa [HeadLine.text] using not_refusal id.graphic (digits id) (name.name ++ tail)
    | alternate id =>
      simpa [HeadLine.text] using not_refusal id.graphic (digits id) (ofText ".have" ++ tail)
  have cut : ∀ payload ∈ pack.shallows.map Advertiser.shallowLine, ¬ ofText "ERR " <+: payload := by
    intro payload listed
    obtain ⟨id, -, rfl⟩ := List.mem_map.mp listed
    exact not_refusal (by decide) (by decide) _
  unfold Advertiser.payloads
  cases pack.heads with
  | nil =>
    refine List.forall_mem_cons.mpr ⟨?_, cut⟩
    simpa using not_refusal pack.null.graphic (digits pack.null)
      (ofText "capabilities^{}" ++ 0 :: (pack.capabilities ++ [0x0A]))
  | cons first others =>
    refine List.forall_mem_cons.mpr ⟨headed first _, ?_⟩
    intro payload listed
    rcases List.mem_append.mp listed with listed | listed
    · obtain ⟨line, -, rfl⟩ := List.mem_map.mp listed
      exact headed line _
    · exact cut payload listed

/-- What is read of an advertisement is its size, and the names on its lines. -/
private theorem readAdvertisement_pack {pack : Advertiser}
    (fits : ∀ payload ∈ pack.payloads, payload.length + 4 ≤ 0xFFFF) {sock : List Arrival}
    {tail : Bytes} (arrives : delivered sock = pack.wire ++ tail) :
    (readAdvertisement 0 [] sock).1 =
      .ok ⟨pack.wire.length, pack.payloads.filterMap refName, none⟩ := by
  -- The lines are read one after the other, and the flush-pkt behind them ends the reading.
  rw [Advertiser.wire, List.append_assoc] at arrives
  obtain ⟨left, behind, run⟩ := readAdvertisement_frames 0 [] fits (payloads_plain pack) arrives
  obtain ⟨left', -, stop⟩ := readAdvertisement_flush
    (0 + (pack.payloads.map fun payload => 4 + payload.length).sum)
    ([] ++ pack.payloads.filterMap refName) behind
  rw [run, stop, Advertiser.wire, List.length_append, PktLines.length_frames fits, length_flush]
  simp

/-- A probe that is answered with an advertisement reports its size and the names on its lines. -/
theorem probe_ok {pack : Advertiser}
    (fits : ∀ payload ∈ pack.payloads, payload.length + 4 ≤ 0xFFFF) {sock : Socket} {tail : Bytes}
    (arrives : delivered sock.incoming = pack.wire ++ tail) {remote : String}
    {auth : Option Token} {report : ProbeReport}
    (probed : probe remote (some sock) auth = .ok report) :
    report = ⟨remote, pack.wire.length, pack.heads.length + pack.shallows.length,
      pack.refs.countP fun ref => decide (refNamespace <+: ref.name)⟩ := by
  -- The preamble takes nothing of what arrives, and the advertisement is no refusal.
  obtain ⟨count, own⟩ := names_payloads pack
  obtain ⟨first, connected, probed⟩ := Folds.bind_ok.mp probed
  cases connected
  obtain ⟨authed, presented, probed⟩ := Folds.bind_ok.mp probed
  obtain ⟨advertisement, read, probed⟩ := Folds.bind_ok.mp probed
  rw [present_incoming presented, readAdvertisement_pack fits arrives] at read
  cases read
  simp only at probed
  split at probed
  · cases probed
  · obtain ⟨after, -, reported⟩ := Folds.bind_ok.mp probed
    cases reported
    rw [count, own]

/-- A peer that takes everything and answers with an advertisement is reported on. -/
theorem probe_answered {pack : Advertiser}
    (fits : ∀ payload ∈ pack.payloads, payload.length + 4 ≤ 0xFFFF) {sock : Socket} {tail : Bytes}
    (arrives : delivered sock.incoming = pack.wire ++ tail)
    (writable : ∀ call, sock.outgoing call = none) (remote : String) (auth : Option Token) :
    ∃ report, probe remote (some sock) auth = .ok report := by
  -- Neither of the two writes fails, and the flush-pkt alone already has a size.
  obtain ⟨authed, presented, taking⟩ : ∃ authed, present remote auth sock = .ok authed ∧
      ∀ call, authed.outgoing call = none := by
    cases auth with
    | none => exact ⟨sock, rfl, writable⟩
    | some token =>
      obtain ⟨after, sent, still⟩ := Socket.send_open writable (authPkt token)
      exact ⟨after, by simp [present, sent], still⟩
  obtain ⟨after, sent, -⟩ := Socket.send_open taking flush
  have sized : pack.wire.length ≠ 0 := by
    rw [Advertiser.wire, List.length_append, length_flush]
    omega
  let names := pack.payloads.filterMap refName
  refine ⟨⟨remote, pack.wire.length, names.length,
    names.countP fun name => decide (refNamespace <+: ofText name)⟩, ?_⟩
  simp only [probe, Option.elim_some, presented, present_incoming presented,
    readAdvertisement_pack fits arrives, Except.mapError, Bind.bind, Except.bind, sent]
  rw [if_neg (by simp [sized])]

/--
A probe reports the exact size of an advertisement and the tool's own refs in it.

It counts the refs exactly when neither alternate stores nor a shallow history add lines to them.
-/
theorem probe_counts_iff {pack : Advertiser}
    (fits : ∀ payload ∈ pack.payloads, payload.length + 4 ≤ 0xFFFF) {sock : Socket} {tail : Bytes}
    (arrives : delivered sock.incoming = pack.wire ++ tail) (remote : String)
    (auth : Option Token) :
    ((∀ call, sock.outgoing call = none) →
      ∃ report, probe remote (some sock) auth = .ok report) ∧
    ∀ report, probe remote (some sock) auth = .ok report →
      (report.Counts pack ↔ pack.OnlyRefs) := by
  -- The lines that are no refs are counted with them, so there must be none.
  refine ⟨fun writable => probe_answered fits arrives writable remote auth, ?_⟩
  intro report probed
  rw [probe_ok fits arrives probed]
  have fewer : pack.refs.length ≤ pack.heads.length := List.length_filterMap_le ..
  have every : pack.refs.length = pack.heads.length ↔ ∀ line ∈ pack.heads, line.ref?.isSome :=
    List.filterMap_length_eq_length
  constructor
  · intro counts
    have total : pack.heads.length + pack.shallows.length = pack.refs.length :=
      counts.refsAdvertised
    exact ⟨every.mp (by omega), List.length_eq_zero_iff.mp (by omega)⟩
  · intro only
    refine ⟨?_, rfl, rfl⟩
    simp only [only.2, List.length_nil, Nat.add_zero]
    exact (every.mpr only.1).symm

/-- A repository with one ref of the tool, and with no alternate store, is counted right. -/
theorem probe_counts_own_ref :
    ∃ (pack : Advertiser) (sock : Socket), pack.OnlyRefs ∧ pack.refs.length = 1 ∧
      delivered sock.incoming = pack.wire ∧
      ∃ report, probe "host:9418" (some sock) none = .ok report ∧ report.Counts pack := by
  -- The one line is for the ref.
  let id : ObjectName := ⟨"5a", by decide, by simp⟩
  let ref : RootedRef := ⟨ofText "refs/git-full-send/streams/a/code", by decide, by decide⟩
  let pack : Advertiser := ⟨[.ref id ref], [], ofText "report-status", id⟩
  have only : pack.OnlyRefs := ⟨by simp [pack, HeadLine.ref?], rfl⟩
  have fits : ∀ payload ∈ pack.payloads, payload.length + 4 ≤ 0xFFFF := by decide +kernel
  let sock : Socket := ⟨[.data 0x30 (pack.wire.drop 1)], fun _ => none⟩
  have arrives : delivered sock.incoming = pack.wire ++ [] := by decide +kernel
  obtain ⟨answered, counted⟩ := probe_counts_iff fits arrives "host:9418" none
  obtain ⟨report, probed⟩ := answered fun _ => rfl
  exact ⟨pack, sock, only, rfl, by simpa using arrives, report, probed,
    (counted report probed).mpr only⟩

/-- The object of an alternate store is counted as a ref of a repository that has one ref. -/
theorem probe_counts_alternate :
    ∃ (pack : Advertiser) (sock : Socket), pack.refs.length = 1 ∧
      delivered sock.incoming = pack.wire ∧
      ∃ report, probe "host:9418" (some sock) none = .ok report ∧ report.refsAdvertised = 2 ∧
        ¬ report.Counts pack := by
  -- The second line is for no ref, and is counted like the first.
  let id : ObjectName := ⟨"5a", by decide, by simp⟩
  let ref : RootedRef := ⟨ofText "refs/heads/main", by decide, by decide⟩
  let pack : Advertiser := ⟨[.ref id ref, .alternate id], [], ofText "report-status", id⟩
  have fits : ∀ payload ∈ pack.payloads, payload.length + 4 ≤ 0xFFFF := by decide +kernel
  let sock : Socket := ⟨[.data 0x30 (pack.wire.drop 1)], fun _ => none⟩
  have arrives : delivered sock.incoming = pack.wire ++ [] := by decide +kernel
  obtain ⟨report, probed⟩ := probe_answered fits arrives (fun _ => rfl) "host:9418" none
  have reported := probe_ok fits arrives probed
  refine ⟨pack, sock, rfl, by simpa using arrives, report, probed, by rw [reported]; rfl, ?_⟩
  intro counts
  have two := counts.refsAdvertised
  rw [reported] at two
  exact absurd two (by decide)

end GitFullSend

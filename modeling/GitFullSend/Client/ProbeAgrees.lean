import GitFullSend.Client.Probe
import GitFullSend.Common.FlushFraming

/-! What a probe makes of an advertisement, against what is counted of it. -/

namespace GitFullSend

open Utf8 (Bytes ofText)
open Text (splitWhitespace trim)
open Arrivals (Arrival delivered readWhole_append)
open FlushSplit (feed_flatten feed_frames new_sound)
open PktLines (frame flush length_flush length_frame)

/-- The fields of an advertisement line, up to the first NUL. -/
def fields (payload : Bytes) : List String :=
  splitWhitespace (Text.lossy (payload.takeWhile (· ≠ 0)))

/-- A line has fewer than two fields, or git's placeholder as the second. -/
def Nameless (payload : Bytes) : Prop :=
  (fields payload).length < 2 ∨ (fields payload)[1]? = some "capabilities^{}"

instance : DecidablePred Nameless := fun _ => inferInstanceAs (Decidable (_ ∨ _))

/-- The characters of a refusal are ASCII. -/
private theorem refusal_ascii : ∀ byte ∈ ofText "ERR ", byte ≤ 0x7F := by
  have bytes : ofText "ERR " = [0x45, 0x52, 0x52, 0x20] := by decide
  simp [bytes]

/-- A refusal is read as what stands behind its mark, without the white space around it. -/
theorem errMessage_refusal (message : Bytes) :
    errMessage (ofText "ERR " ++ message) = some (trim (Text.lossy message)) := by
  -- The mark is ASCII, so the text behind it is read on its own.
  have read : Text.lossy (ofText "ERR " ++ message) = "ERR " ++ Text.lossy message :=
    Text.lossy_append refusal_ascii message
  have behind : ("ERR ".toList ++ (Text.lossy message).toList).dropPrefix? "ERR ".toList =
      some (Text.lossy message).toList :=
    List.dropPrefix?_eq_some_iff.mpr ⟨_, rfl, beq_self_eq_true _⟩
  simp only [errMessage]
  rw [read, String.toList_append, behind, Option.map_some, String.ofList_toList]

/-- Any other line is no refusal. -/
theorem errMessage_eq_none {payload : Bytes} (other : ¬ ofText "ERR " <+: payload) :
    errMessage payload = none := by
  -- The mark would be read in front of the text, and so stand in front of the bytes.
  rw [errMessage, Option.map_eq_none_iff, Option.eq_none_iff_forall_ne_some]
  intro message dropped
  obtain ⟨mark, split, same⟩ := List.dropPrefix?_eq_some_iff.mp dropped
  rw [eq_of_beq same] at split
  exact other ((Text.prefix_lossy_iff refusal_ascii).mp ⟨message, split.symm⟩)

/-- The name of a ref is the second field, unless that is git's placeholder. -/
theorem refName_eq (payload : Bytes) :
    refName payload = (fields payload)[1]?.filter (· ≠ "capabilities^{}") := by
  simp only [refName, fields]
  rw [Text.lossy_takeWhile]

/-- A line names a ref unless it is nameless. -/
theorem isSome_refName (payload : Bytes) :
    (refName payload).isSome = true ↔ ¬ Nameless payload := by
  -- A second field is there from the length two on, and the placeholder is not kept.
  rw [refName_eq, Nameless]
  cases second : (fields payload)[1]? with
  | none =>
    have short : (fields payload).length < 2 := by
      have beyond := List.getElem?_eq_none_iff.mp second
      omega
    simp [short]
  | some name =>
    obtain ⟨long, -⟩ := List.getElem?_eq_some_iff.mp second
    simp
    omega

/-- Every line that is not nameless names one ref. -/
theorem length_refNames (payloads : List Bytes) :
    (payloads.filterMap refName).length +
        payloads.countP (fun payload => decide (Nameless payload)) = payloads.length := by
  -- The lines that name a ref and the others make up the list.
  have others : payloads.countP (fun payload => decide (Nameless payload)) =
      payloads.countP (fun payload => decide (¬ (refName payload).isSome = true)) := by
    apply List.countP_congr
    intro payload _
    rw [decide_eq_true_iff, decide_eq_true_iff, isSome_refName, not_not]
  rw [List.length_filterMap_eq_countP, others]
  exact (List.length_eq_countP_add_countP _).symm

/-- A framed line is read whole, and what arrives behind it is left. -/
theorem readAdvertisement_frame (bytes : Nat) (refs : List String) {sock : List Arrival}
    {payload rest : Bytes} (fits : payload.length + 4 ≤ 0xFFFF)
    (arrives : delivered sock = frame payload ++ rest) :
    ∃ left, delivered left = rest ∧
      readAdvertisement bytes refs sock =
        match errMessage payload with
        | some message => (.ok ⟨bytes + 4 + payload.length, refs, some message⟩, left)
        | none =>
          readAdvertisement (bytes + 4 + payload.length) (refs ++ (refName payload).toList)
            left := by
  -- The header is read first, and then as much as it says.
  have four : (Hex.padded 4 (payload.length + 4)).length = 4 := Hex.length_padded (by omega)
  rw [frame, List.append_assoc] at arrives
  obtain ⟨left, opened, behind⟩ := readWhole_append arrives
  rw [four] at opened
  obtain ⟨left', followed, behind'⟩ := readWhole_append behind
  have spelled : parseLength (Hex.padded 4 (payload.length + 4)) = some (payload.length + 4) :=
    (parseLength_iff four).mpr (.inl (Hex.value_padded ..))
  refine ⟨left', behind', ?_⟩
  rw [readAdvertisement.eq_def]
  split
  all_goals
    rename_i read
    cases opened.symm.trans read
  simp only [spelled]
  split
  all_goals
    rename_i read
    cases followed.symm.trans read
  rfl

/-- A flush-pkt ends the advertisement, and what arrives behind it is left. -/
theorem readAdvertisement_flush (bytes : Nat) (refs : List String) {sock : List Arrival}
    {tail : Bytes} (arrives : delivered sock = flush ++ tail) :
    ∃ left, delivered left = tail ∧
      readAdvertisement bytes refs sock = (.ok ⟨bytes + 4, refs, none⟩, left) := by
  -- The header says that nothing is framed.
  obtain ⟨left, opened, behind⟩ := readWhole_append arrives
  rw [length_flush] at opened
  have spelled : parseLength flush = some 0 :=
    (parseLength_iff length_flush).mpr (.inl (Hex.value_padded ..))
  refine ⟨left, behind, ?_⟩
  rw [readAdvertisement.eq_def]
  split
  all_goals
    rename_i read
    cases opened.symm.trans read
  simp only [spelled]

/-- Framed lines that are no refusals are read one after the other. -/
theorem readAdvertisement_frames (bytes : Nat) (refs : List String) {sock : List Arrival}
    {payloads : List Bytes} {rest : Bytes}
    (fits : ∀ payload ∈ payloads, payload.length + 4 ≤ 0xFFFF)
    (lines : ∀ payload ∈ payloads, ¬ ofText "ERR " <+: payload)
    (arrives : delivered sock = payloads.flatMap frame ++ rest) :
    ∃ left, delivered left = rest ∧
      readAdvertisement bytes refs sock =
        readAdvertisement (bytes + (payloads.map fun payload => 4 + payload.length).sum)
          (refs ++ payloads.filterMap refName) left := by
  -- The induction is on the lines, each of which adds its size and its name to those read before.
  induction payloads generalizing bytes refs sock with
  | nil => exact ⟨sock, by simpa using arrives, by simp⟩
  | cons payload others ih =>
    obtain ⟨here, fits⟩ := List.forall_mem_cons.mp fits
    obtain ⟨line, lines⟩ := List.forall_mem_cons.mp lines
    rw [List.flatMap_cons, List.append_assoc] at arrives
    obtain ⟨left, behind, step⟩ := readAdvertisement_frame bytes refs here arrives
    obtain ⟨left', ending, run⟩ := ih (bytes + 4 + payload.length)
      (refs ++ (refName payload).toList) fits lines behind
    refine ⟨left', ending, ?_⟩
    have names : refs ++ (refName payload).toList ++ others.filterMap refName =
        refs ++ (payload :: others).filterMap refName := by
      cases name : refName payload <;> simp [name]
    have size : bytes + 4 + payload.length + (others.map fun payload => 4 + payload.length).sum =
        bytes + ((payload :: others).map fun payload => 4 + payload.length).sum := by
      rw [List.map_cons, List.sum_cons]
      omega
    rw [step, errMessage_eq_none line, ← names, ← size]
    exact run

/--
A probe measures the advertisement that is counted, and stops at the first refusal.

Each line is a packet, and names a ref unless it is nameless.
-/
theorem readAdvertisement_agrees {payloads : List Bytes}
    (fits : ∀ payload ∈ payloads, payload.length + 4 ≤ 0xFFFF) (tail : Bytes)
    {sock : List Arrival} {chunks : List Bytes}
    (arrives : delivered sock = payloads.flatMap frame ++ flush ++ tail)
    (fed : chunks.flatten = payloads.flatMap frame ++ flush ++ tail) :
    let counts := (chunks.foldl FlushSplit.feed .new).counts
    ((∀ payload ∈ payloads, ¬ ofText "ERR " <+: payload) →
      ∃ refs left, readAdvertisement 0 [] sock = (.ok ⟨counts.preFlush, refs, none⟩, left) ∧
        delivered left = tail ∧ (delivered sock).drop counts.preFlush = tail ∧
        refs.length + payloads.countP (fun payload => decide (Nameless payload)) =
          counts.preFlushPkts) ∧
    ∀ before message after, payloads = before ++ (ofText "ERR " ++ message) :: after →
      (∀ payload ∈ before, ¬ ofText "ERR " <+: payload) →
      ∃ bytes refs left,
        readAdvertisement 0 [] sock =
          (.ok ⟨bytes, refs, some (trim (Text.lossy message))⟩, left) ∧
        delivered left = after.flatMap frame ++ flush ++ tail ∧
        (delivered sock).drop bytes = delivered left := by
  -- The lines in front of the flush, or of a refusal, are read first.
  intro counts
  have counted : counts = ⟨(payloads.map fun payload => 4 + payload.length).sum + 4 + tail.length,
      (payloads.map fun payload => 4 + payload.length).sum + 4, payloads.length, tail.length⟩ := by
    simp only [counts]
    rw [feed_flatten new_sound, fed]
    exact feed_frames fits tail
  constructor
  -- Without a refusal the flush is reached.
  · intro lines
    rw [List.append_assoc] at arrives
    obtain ⟨left, behind, run⟩ := readAdvertisement_frames 0 [] fits lines arrives
    obtain ⟨left', ending, stop⟩ := readAdvertisement_flush
      (0 + (payloads.map fun payload => 4 + payload.length).sum) ([] ++ payloads.filterMap refName)
      behind
    refine ⟨payloads.filterMap refName, left', ?_, ending, ?_, ?_⟩
    · rw [run, stop, counted]
      simp
    · have size : (payloads.flatMap frame ++ flush).length = counts.preFlush := by
        rw [List.length_append, PktLines.length_frames fits, length_flush, counted]
      rw [arrives, ← List.append_assoc, List.drop_left' size]
    · rw [length_refNames, counted]
  -- The first refusal is read like any other line, and then the probe stops.
  · intro before message after split lines
    subst split
    have fits' : ∀ payload ∈ before, payload.length + 4 ≤ 0xFFFF :=
      fun payload member => fits payload (List.mem_append_left _ member)
    have here := fits (ofText "ERR " ++ message) (by simp)
    have framed : (before ++ (ofText "ERR " ++ message) :: after).flatMap frame ++ flush ++ tail =
        before.flatMap frame ++ (frame (ofText "ERR " ++ message) ++
          (after.flatMap frame ++ flush ++ tail)) := by
      simp
    rw [framed] at arrives
    obtain ⟨left, behind, run⟩ := readAdvertisement_frames 0 [] fits' lines arrives
    obtain ⟨left', ending, stop⟩ := readAdvertisement_frame
      (0 + (before.map fun payload => 4 + payload.length).sum) ([] ++ before.filterMap refName)
      here behind
    rw [errMessage_refusal] at stop
    refine ⟨_, _, left', run.trans stop, ending, ?_⟩
    have size : (before.flatMap frame ++ frame (ofText "ERR " ++ message)).length =
        0 + (before.map fun payload => 4 + payload.length).sum + 4 +
          (ofText "ERR " ++ message).length := by
      rw [List.length_append, PktLines.length_frames fits', length_frame here]
      omega
    rw [ending, arrives, ← List.append_assoc, List.drop_left' size]

/-- One ref is read of three lines, and behind a line of another advertisement a refusal. -/
theorem readAdvertisement_agrees_refused :
    (∃ refs left,
      readAdvertisement 0 []
          [.data 0x30 (ofText "0071 a000"), .interrupted,
            .data 0x34 (ofText "00150 capabilities^{}0000!")] =
        (.ok ⟨36, refs, none⟩, left) ∧ delivered left = ofText "!" ∧ refs.length = 1) ∧
    ∃ bytes refs left,
      readAdvertisement 0 []
          [.data 0x30 (ofText "0071 a000cERR"), .data 0x20 (ofText "no \n0000")] =
        (.ok ⟨bytes, refs, some "no"⟩, left) ∧ delivered left = ofText "0000" := by
  -- Both streams are cut inside of a header, and are read the same as the uncut ones.
  constructor
  · have fits : ∀ payload ∈ [ofText "1 a", [], ofText "0 capabilities^{}"],
        payload.length + 4 ≤ 0xFFFF := by decide
    have agrees := @readAdvertisement_agrees _ fits (ofText "!")
      [.data 0x30 (ofText "0071 a000"), .interrupted,
        .data 0x34 (ofText "00150 capabilities^{}0000!")]
      [ofText "00071 a000400150 capabilities^{}0000!"] (by decide) (by decide)
    obtain ⟨refs, left, read, behind, -, names⟩ := agrees.1 (by decide)
    have nameless : [ofText "1 a", [], ofText "0 capabilities^{}"].countP
        (fun payload => decide (Nameless payload)) = 2 := by decide +kernel
    have counted : ([ofText "00071 a000400150 capabilities^{}0000!"].foldl FlushSplit.feed
        .new).counts = ⟨37, 36, 3, 1⟩ := by decide +kernel
    rw [counted] at read names
    rw [nameless] at names
    exact ⟨refs, left, read, behind, Nat.add_right_cancel names⟩
  · have fits : ∀ payload ∈ [ofText "1 a", ofText "ERR " ++ ofText "no \n"],
        payload.length + 4 ≤ 0xFFFF := by decide
    have agrees := @readAdvertisement_agrees _ fits []
      [.data 0x30 (ofText "0071 a000cERR"), .data 0x20 (ofText "no \n0000")]
      [ofText "00071 a000cERR no \n0000"] (by decide) (by decide)
    obtain ⟨bytes, refs, left, read, behind, -⟩ :=
      agrees.2 [ofText "1 a"] (ofText "no \n") [] rfl (by decide)
    have message : trim (Text.lossy (ofText "no \n")) = "no" := by decide +kernel
    rw [message] at read
    exact ⟨bytes, refs, left, read, behind.trans (by decide)⟩

end GitFullSend

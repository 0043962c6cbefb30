import GitFullSend.Common.Auth
import GitFullSend.Common.FlushMeaning

/-! What is framed as pkt-lines is counted as them. -/

namespace GitFullSend

open Utf8 (Bytes ofText)
open PktLines (frame flush headersWithin length_flush length_frames parse parse_cut parse_frames)

/-- A pkt-line frames the bytes of its text. -/
theorem pktLine_eq (payload : String) : pktLine payload = frame (ofText payload) := rfl

/-- A flush-pkt is four zeros. -/
theorem flush_eq : flush = ofText "0000" := by decide

namespace FlushSplit

/-- A stream whose first section does not break is split where the format splits it. -/
theorem feed_parsed {stream : Bytes}
    (sections : (parse stream).ending = .over ∨ (parse stream).ending = .flush) :
    (new.feed stream).counts =
      ⟨stream.length, (parse stream).framed, (parse stream).packets, (parse stream).rest⟩ := by
  -- No header is broken, so none is broken at a sign.
  have unsigned : Unsigned (parse stream) := by
    intro digits length malformed
    rcases sections with short | flushed
    · cases short.symm.trans malformed
    · cases flushed.symm.trans malformed
  have start := (scan_agrees new_sound rfl rfl stream).counts unsigned
  have none : new.counts = ⟨0, 0, 0, 0⟩ := rfl
  rw [feed_eq new_sound]
  simp only [passing]
  rw [start, none]
  simp [WireCounts.onto]

/-- Framed payloads with a flush behind them are counted apart from the rest of the stream. -/
theorem feed_frames {payloads : List Bytes}
    (fits : ∀ payload ∈ payloads, payload.length + 4 ≤ 0xFFFF) (tail : Bytes) :
    let preFlush := (payloads.map fun payload => 4 + payload.length).sum + 4
    (new.feed (payloads.flatMap frame ++ flush ++ tail)).counts =
      ⟨preFlush + tail.length, preFlush, payloads.length, tail.length⟩ := by
  -- The format splits the stream at the flush, and every byte is on one side of it.
  intro preFlush
  have parsed := parse_frames fits tail
  have size : (payloads.flatMap frame ++ flush ++ tail).length = preFlush + tail.length := by
    rw [List.length_append, List.length_append, length_frames fits, length_flush]
  rw [feed_parsed (.inr (congrArg _ parsed)), parsed, size]

/-- The beginning of framed payloads with a flush behind them is counted as such. -/
theorem feed_cut {payloads : List Bytes}
    (fits : ∀ payload ∈ payloads, payload.length + 4 ≤ 0xFFFF) {received : Bytes}
    (within : received <+: payloads.flatMap frame ++ flush) :
    (new.feed received).counts.postFlush = 0 ∧
      (new.feed received).counts.preFlushPkts = headersWithin payloads received.length := by
  -- A prefix is a cut at its own length.
  obtain ⟨outside, packets, sections⟩ := parse_cut fits within.length_le
  rw [← List.prefix_iff_eq_take.mp within] at outside packets sections
  rw [feed_parsed sections]
  exact ⟨outside, packets⟩

/--
What is framed as pkt-lines is counted as them, however the stream is cut.

Each payload is one packet, and what follows the flush is not framed, whatever it looks like.
A stream that is cut off before the flush is over has no other bytes than framed ones, and as many
packets as headers.
-/
theorem feed_pktLines {payloads : List String}
    (fits : ∀ payload ∈ payloads, (ofText payload).length + 4 ≤ 0xFFFF) (tail : Bytes)
    (chunks : List Bytes) :
    let framed := payloads.flatMap pktLine ++ ofText "0000"
    let preFlush := (payloads.map fun payload => 4 + (ofText payload).length).sum + 4
    let counts := (chunks.foldl feed new).counts
    (chunks.flatten = framed ++ tail →
      counts = ⟨preFlush + tail.length, preFlush, payloads.length, tail.length⟩) ∧
    (chunks.flatten <+: framed ++ tail → chunks.flatten.length ≤ framed.length →
      counts.postFlush = 0 ∧
      counts.preFlushPkts = headersWithin (payloads.map ofText) chunks.flatten.length) := by
  -- The texts are framed as their bytes are, and the cuts between the pieces do not count.
  intro framed preFlush counts
  have fits' : ∀ payload ∈ payloads.map ofText, payload.length + 4 ≤ 0xFFFF := by
    simpa using fits
  have framed_eq : framed = (payloads.map ofText).flatMap frame ++ flush := by
    rw [flush_eq, List.flatMap_map]
    exact congrArg (· ++ _) (List.flatMap_congr fun payload _ => pktLine_eq payload)
  have whole : counts = (new.feed chunks.flatten).counts := by
    rw [← feed_flatten new_sound chunks]
  rw [whole, framed_eq]
  constructor
  · intro sent
    have counted := feed_frames fits' tail
    rw [List.map_map, List.length_map] at counted
    rw [sent]
    exact counted
  · intro received inside
    exact feed_cut fits' (List.prefix_of_prefix_length_le received (List.prefix_append _ _) inside)

/-- An empty packet and a short one are counted before bytes that look like a third. -/
theorem feed_pktLines_lookalike :
    ([ofText "00", ofText "040", ofText "005a000", ofText "00005b"].foldl feed new).counts =
        ⟨18, 13, 2, 5⟩ ∧
      ([ofText "0004000"].foldl feed new).counts.preFlushPkts = 1 := by
  -- The stream is cut inside of a header, and the second one ends inside of it.
  have fits : ∀ payload ∈ ["", "a"], (ofText payload).length + 4 ≤ 0xFFFF := by decide
  constructor
  · have counted := feed_pktLines fits (ofText "0005b")
      [ofText "00", ofText "040", ofText "005a000", ofText "00005b"]
    exact counted.1 (by decide)
  · have counted := feed_pktLines fits [] [ofText "0004000"]
    have first : headersWithin (["", "a"].map ofText) 7 = 1 := by decide
    exact (counted.2 (by decide) (by decide)).2.trans first

end FlushSplit

end GitFullSend

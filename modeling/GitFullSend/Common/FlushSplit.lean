import GitFullSend.Common.PktLine

/-! The counter does not depend on how the stream is cut, and loses no byte of it. -/

namespace GitFullSend

open Utf8 (Bytes)
open Arrivals (Arrival delivered)

namespace FlushSplit

/-- One pass over a single byte. -/
def step (split : FlushSplit) (byte : UInt8) : FlushSplit := (split.pass [byte]).1

/-- Bytes gathered in two goes are gathered as one. -/
theorem gather_gather {split : FlushSplit} {first second : Bytes}
    (four : split.header.length = 4)
    (fits : split.headerLen + first.length + second.length ≤ 4) :
    (split.gather first).gather second = split.gather (first ++ second) := by
  -- The second go keeps what the first has gathered and replaces what is behind it.
  have kept : ((split.header.take split.headerLen ++ first) ++
      split.header.drop (split.headerLen + first.length)).take (split.headerLen + first.length) =
      split.header.take split.headerLen ++ first := by
    apply List.take_left'
    simp only [List.length_append, List.length_take]
    omega
  have behind : ((split.header.take split.headerLen ++ first) ++
      split.header.drop (split.headerLen + first.length)).drop
        (split.headerLen + first.length + second.length) =
      split.header.drop (split.headerLen + (first.length + second.length)) := by
    rw [List.drop_append, List.drop_drop, List.drop_eq_nil_of_le, List.nil_append]
    · simp only [List.length_append, List.length_take]
      congr 1
      omega
    · simp only [List.length_append, List.length_take]
      omega
  simp only [gather]
  rw [kept, behind, List.append_assoc (split.header.take _), List.length_append, Nat.add_assoc]

/-- The header stays four bytes long while it is gathered. -/
theorem gather_four {split : FlushSplit} {bytes : Bytes} (four : split.header.length = 4)
    (fits : split.headerLen + bytes.length ≤ 4) : (split.gather bytes).header.length = 4 := by
  simp only [gather, List.length_append, List.length_take, List.length_drop]
  omega

/-- Behind the section nothing is framed any more. -/
theorem pass_idle {split : FlushSplit} (state : split.state = .afterFlush ∨ split.state = .unframed)
    (rest : Bytes) : split.pass rest = (split.behind rest.length, []) := by
  unfold pass
  rcases state with state | state <;> rw [state]

/-- Too few bytes for a header are gathered for later. -/
theorem pass_gathering {split : FlushSplit} {rest : Bytes} (state : split.state = .header)
    (short : split.headerLen + rest.length < 4) :
    split.pass rest = ((split.gather rest).before rest.length, []) := by
  -- The pass takes all there is, and that does not complete the header.
  have all : min (4 - split.headerLen) rest.length = rest.length := by omega
  have short : ((split.gather rest).before rest.length).headerLen < 4 := short
  simp only [pass, state, all, List.take_length]
  rw [if_pos short]

/-- The bytes that complete a header settle what comes behind it. -/
theorem pass_complete {split : FlushSplit} {first : Bytes} (state : split.state = .header)
    (complete : split.headerLen + first.length = 4) (rest : Bytes) :
    split.pass (first ++ rest) =
      (settle { (split.gather first).before first.length with headerLen := 0 }, rest) := by
  -- The pass takes as many bytes as the header lacks.
  have all : min (4 - split.headerLen) (first ++ rest).length = first.length := by
    rw [List.length_append]
    omega
  have full : ¬ ((split.gather first).before first.length).headerLen < 4 := by
    simp only [before, gather]
    omega
  simp only [pass, state, all, List.take_left, List.drop_left]
  rw [if_neg full]

/-- Bytes within a payload are skipped. -/
theorem pass_within {split : FlushSplit} {rest : Bytes} (state : split.state = .payload)
    (short : rest.length < split.remaining) :
    split.pass rest =
      ({ split.before rest.length with remaining := split.remaining - rest.length }, []) := by
  -- The pass takes all there is, and more of the payload is to come.
  have all : min split.remaining rest.length = rest.length := by omega
  have more : split.remaining - rest.length ≠ 0 := by omega
  simp only [pass, state, all, List.drop_length]
  rw [if_neg more]

/-- Behind a payload comes a header. -/
theorem pass_skipped {split : FlushSplit} {first : Bytes} (state : split.state = .payload)
    (complete : first.length = split.remaining) (rest : Bytes) :
    split.pass (first ++ rest) =
      ({ split.before first.length with remaining := 0, state := .header }, rest) := by
  -- The pass takes as many bytes as the payload lacks.
  have all : min split.remaining (first ++ rest).length = first.length := by
    rw [List.length_append]
    omega
  have done : split.remaining - first.length = 0 := by omega
  simp only [pass, state, all, List.drop_left, done]
  rw [if_pos trivial]

/-- What holds of a counter survives what a complete header says about the stream. -/
theorem settle_sound {split : FlushSplit} (four : split.header.length = 4)
    (empty : split.headerLen = 0) (whole : split.remaining = 0) : split.settle.Sound := by
  -- Only a length above four leaves payload to skip.
  unfold settle
  split <;> exact ⟨four, by simp [packet, empty], by simp [packet, empty], by simp [packet, whole]⟩

/-- Counts are taken together with what was gathered in between. -/
private theorem gather_before {split : FlushSplit} {first second : Bytes}
    (four : split.header.length = 4)
    (fits : split.headerLen + first.length + second.length ≤ 4) :
    (((split.gather first).before first.length).gather second).before second.length =
      (split.gather (first ++ second)).before (first ++ second).length := by
  -- The two bookings are about different fields, so they change places.
  have joined := gather_gather four fits
  calc (((split.gather first).before first.length).gather second).before second.length
    _ = (((split.gather first).gather second).before first.length).before second.length := rfl
    _ = (split.gather (first ++ second)).before (first ++ second).length := by
      rw [joined, List.length_append]
      simp [before, Nat.add_assoc]

/-- The counter at the start is sound. -/
theorem new_sound : new.Sound := ⟨rfl, by decide, by decide, by decide⟩

namespace Sound

variable {split : FlushSplit}

/-- Nothing is left to skip while a header is read. -/
theorem whole (sound : split.Sound) (state : split.state = .header) : split.remaining = 0 := by
  have outside := mt sound.skipping.mp (by simp [state])
  omega

/-- No header is pending within a payload. -/
theorem idle (sound : split.Sound) (state : split.state = .payload) : split.headerLen = 0 := by
  by_contra busy
  have reading := sound.reading busy
  simp [state] at reading

/-- The next pass, with the rest that is left, by what the counter waits for. -/
theorem cases (sound : split.Sound) (rest : Bytes) :
    (split.state = .afterFlush ∨ split.state = .unframed) ∨
    (split.state = .header ∧ split.headerLen + rest.length < 4) ∨
    (split.state = .header ∧ ∃ first others, rest = first ++ others ∧
      split.headerLen + first.length = 4) ∨
    (split.state = .payload ∧ rest.length < split.remaining) ∨
    (split.state = .payload ∧ ∃ first others, rest = first ++ others ∧
      first.length = split.remaining) := by
  -- A header or a payload is cut off the rest when there are bytes enough.
  have pending := sound.pending
  cases state : split.state with
  | afterFlush => simp
  | unframed => simp
  | header =>
    by_cases short : split.headerLen + rest.length < 4
    · simp [short]
    · have complete : split.headerLen + (rest.take (4 - split.headerLen)).length = 4 := by
        rw [List.length_take]
        omega
      have cut := (List.take_append_drop (4 - split.headerLen) rest).symm
      exact .inr (.inr (.inl ⟨rfl, _, _, cut, complete⟩))
  | payload =>
    by_cases short : rest.length < split.remaining
    · simp [short]
    · have complete : (rest.take split.remaining).length = split.remaining := by
        rw [List.length_take]
        omega
      have cut := (List.take_append_drop split.remaining rest).symm
      exact .inr (.inr (.inr (.inr ⟨rfl, _, _, cut, complete⟩)))

end Sound

/-- Every pass leaves the counter sound. -/
theorem pass_sound {split : FlushSplit} (sound : split.Sound) (rest : Bytes) :
    (split.pass rest).1.Sound := by
  -- The cases are what the counter waits for.
  have ⟨four, pending, reading, skipping⟩ := sound
  rcases sound.cases rest with state | ⟨state, short⟩ | ⟨state, first, others, rfl, complete⟩ |
    ⟨state, short⟩ | ⟨state, first, others, rfl, complete⟩
  · rw [pass_idle state]
    exact ⟨four, pending, reading, skipping⟩
  · rw [pass_gathering state short]
    exact ⟨gather_four four (by omega), short, fun _ => state, skipping⟩
  · rw [pass_complete state complete]
    apply settle_sound
    · exact gather_four four (by omega)
    · rfl
    · exact sound.whole state
  · rw [pass_within state short]
    have more : split.remaining - rest.length ≠ 0 := by omega
    exact ⟨four, pending, reading, ⟨fun _ => state, fun _ => more⟩⟩
  · rw [pass_skipped state complete]
    exact ⟨four, pending, fun _ => rfl, by simp⟩

/-- Behind bytes gathered before, the rest of a header is read as if it came with them. -/
theorem pass_gathered {split : FlushSplit} {first : Bytes} (sound : split.Sound)
    (state : split.state = .header) (short : split.headerLen + first.length < 4) (rest : Bytes) :
    ((split.gather first).before first.length).pass rest = split.pass (first ++ rest) := by
  -- The rest completes the header or it does not.
  have four := sound.four
  have header : ((split.gather first).before first.length).state = .header := state
  have pending : ((split.gather first).before first.length).headerLen =
    split.headerLen + first.length := rfl
  by_cases few : split.headerLen + first.length + rest.length < 4
  · have joined := gather_before four few.le
    have few' : split.headerLen + (first ++ rest).length < 4 := by
      rw [List.length_append]
      omega
    rw [pass_gathering header (pending ▸ few), pass_gathering state few', joined]
  · obtain ⟨ending, others, rfl, complete⟩ :
        ∃ ending others, rest = ending ++ others ∧
          split.headerLen + first.length + ending.length = 4 := by
      have cut := (List.take_append_drop (4 - (split.headerLen + first.length)) rest).symm
      refine ⟨_, _, cut, ?_⟩
      rw [List.length_take]
      omega
    have joined := gather_before four complete.le
    have complete' : split.headerLen + (first ++ ending).length = 4 := by
      rw [List.length_append]
      omega
    rw [pass_complete header (pending ▸ complete), ← List.append_assoc,
      pass_complete state complete', ← joined]

/-- Behind bytes skipped before, the rest of a payload is skipped as if it came with them. -/
theorem pass_passed {split : FlushSplit} {first : Bytes} (state : split.state = .payload)
    (short : first.length < split.remaining) (rest : Bytes) :
    ({ split.before first.length with remaining := split.remaining - first.length }).pass rest =
      split.pass (first ++ rest) := by
  -- The rest completes the payload or it does not.
  let passed : FlushSplit :=
    { split.before first.length with remaining := split.remaining - first.length }
  have payload : passed.state = .payload := state
  have skip : passed.remaining = split.remaining - first.length := rfl
  change passed.pass rest = _
  by_cases few : first.length + rest.length < split.remaining
  · have few' : (first ++ rest).length < split.remaining := by
      rw [List.length_append]
      exact few
    rw [pass_within payload (by omega), pass_within state few', skip, List.length_append,
      Nat.sub_sub]
    simp [passed, before, Nat.add_assoc]
  · obtain ⟨ending, others, rfl, complete⟩ :
        ∃ ending others, rest = ending ++ others ∧
          first.length + ending.length = split.remaining := by
      have cut := (List.take_append_drop (split.remaining - first.length) rest).symm
      refine ⟨_, _, cut, ?_⟩
      rw [List.length_take]
      omega
    have complete' : (first ++ ending).length = split.remaining := by
      rw [List.length_append]
      exact complete
    rw [pass_skipped payload (by omega), ← List.append_assoc, pass_skipped state complete']
    simp [passed, before, Nat.add_assoc]

/-- What a single byte does, by what the counter waits for. -/
theorem step_cases {split : FlushSplit} (sound : split.Sound) (byte : UInt8) :
    ((split.state = .afterFlush ∨ split.state = .unframed) ∧ split.step byte = split.behind 1) ∨
    (split.state = .header ∧ split.headerLen + 1 < 4 ∧
      split.step byte = (split.gather [byte]).before 1) ∨
    (split.state = .header ∧ split.headerLen + 1 = 4 ∧
      split.step byte = settle { (split.gather [byte]).before 1 with headerLen := 0 }) ∨
    (split.state = .payload ∧ 1 < split.remaining ∧
      split.step byte = { split.before 1 with remaining := split.remaining - 1 }) ∨
    (split.state = .payload ∧ split.remaining = 1 ∧
      split.step byte = { split.before 1 with remaining := 0, state := .header }) := by
  -- There is always a byte to take, so nothing is left of a single one.
  have pending := sound.pending
  have skipping := sound.skipping
  unfold step
  rcases sound.cases [byte] with state | ⟨state, short⟩ | ⟨state, first, others, cut, complete⟩ |
    ⟨state, short⟩ | ⟨state, first, others, cut, complete⟩
  · exact .inl ⟨state, by rw [pass_idle state]; rfl⟩
  · exact .inr (.inl ⟨state, short, by rw [pass_gathering state short]; rfl⟩)
  · rcases List.singleton_eq_append_iff.mp cut with ⟨rfl, -⟩ | ⟨rfl, -⟩
    · simp only [List.length_nil] at complete
      omega
    · have whole := pass_complete state complete []
      rw [List.append_nil] at whole
      exact .inr (.inr (.inl ⟨state, complete, by rw [whole]; rfl⟩))
  · exact .inr (.inr (.inr (.inl ⟨state, short, by rw [pass_within state short]; rfl⟩)))
  · rcases List.singleton_eq_append_iff.mp cut with ⟨rfl, -⟩ | ⟨rfl, -⟩
    · exact absurd complete.symm (skipping.mpr state)
    · have whole := pass_skipped state complete []
      rw [List.append_nil] at whole
      exact .inr (.inr (.inr (.inr ⟨state, complete.symm, by rw [whole]; rfl⟩)))

/-- A byte in front of others is used up first. -/
theorem pass_cons {split : FlushSplit} (sound : split.Sound) (byte : UInt8) (rest : Bytes) :
    split.pass (byte :: rest) = (split.step byte, rest) ∨
      split.pass (byte :: rest) = (split.step byte).pass rest := by
  -- The byte completes the header or the payload, or leaves the counter where it is.
  rcases step_cases sound byte with ⟨state, done⟩ | ⟨state, short, done⟩ | ⟨state, full, done⟩ |
    ⟨state, short, done⟩ | ⟨state, last, done⟩
  · have same : (split.behind 1).state = split.state := rfl
    rw [done, pass_idle state, pass_idle (same ▸ state)]
    simp [behind, Nat.add_assoc, Nat.add_comm 1]
  · have short : split.headerLen + [byte].length < 4 := short
    exact .inr (done ▸ (pass_gathered sound state short rest).symm)
  · have full : split.headerLen + [byte].length = 4 := full
    exact .inl (done ▸ pass_complete state full rest)
  · have short : [byte].length < split.remaining := short
    exact .inr (done ▸ (pass_passed state short rest).symm)
  · have last : [byte].length = split.remaining := last.symm
    exact .inl (done ▸ pass_skipped state last rest)

/-- No byte is left of none. -/
theorem pass_nil (split : FlushSplit) : (split.pass []).2 = [] := by
  -- Each state takes as much as there is.
  unfold pass
  split
  · rfl
  · rfl
  · simp only
    split <;> simp
  · simp

/-- A pass and then the bytes it leaves come to the same as all of them one by one. -/
theorem pass_scan {split : FlushSplit} (sound : split.Sound) {rest : Bytes} (some : rest ≠ []) :
    (split.pass rest).2.foldl step (split.pass rest).1 = rest.foldl step split ∧
      (split.pass rest).2.length < rest.length := by
  -- The induction is on the bytes; the first is used up, or the pass goes on over the others.
  induction rest generalizing split with
  | nil => exact absurd rfl some
  | cons byte rest ih =>
    rcases pass_cons sound byte rest with whole | joined
    · rw [whole]
      exact ⟨rfl, Nat.lt_succ_self _⟩
    · by_cases last : rest = []
      · have used : (split.pass [byte]).2 = [] := by
          rw [last] at joined
          rw [joined, pass_nil]
        rw [last, used]
        exact ⟨rfl, Nat.zero_lt_one⟩
      · have after : (split.step byte).Sound := pass_sound sound [byte]
        obtain ⟨same, shorter⟩ := ih after last
        rw [joined]
        exact ⟨same, Nat.lt_succ_of_lt shorter⟩

/-- With as many passes as bytes the loop comes to its end, one byte after the other. -/
theorem passes_eq {split : FlushSplit} (sound : split.Sound) {fuel : Nat} {rest : Bytes}
    (enough : rest.length ≤ fuel) : passes fuel split rest = (rest.foldl step split, []) := by
  -- Every pass leaves fewer bytes for the passes that are left.
  induction fuel generalizing split rest with
  | zero =>
    obtain rfl := List.length_eq_zero_iff.mp (Nat.le_zero.mp enough)
    rfl
  | succ fuel ih =>
    cases rest with
    | nil => rfl
    | cons byte rest =>
      obtain ⟨same, shorter⟩ := pass_scan sound (List.cons_ne_nil byte rest)
      simp only [passes]
      rw [ih (pass_sound sound _) (by omega), same]

/-- How many bytes are counted at all has no part in what a header says. -/
theorem settle_passing (split : FlushSplit) (count : Nat) :
    (split.passing count).settle = split.settle.passing count := by
  -- What comes next is decided by the header alone.
  have header : (split.passing count).header = split.header := rfl
  unfold settle
  rw [header]
  cases parseLength split.header with
  | none => rfl
  | some length =>
    match length with
    | 0 | 1 | 2 | 3 | 4 | _ + 5 => rfl

/-- What holds of a counter holds whatever is counted at all. -/
theorem Sound.passing {split : FlushSplit} (sound : split.Sound) (count : Nat) :
    (split.passing count).Sound :=
  ⟨sound.four, sound.pending, sound.reading, sound.skipping⟩

/-- How many bytes are counted at all has no part in what a byte does. -/
theorem step_passing {split : FlushSplit} (sound : split.Sound) (count : Nat) (byte : UInt8) :
    (split.passing count).step byte = (split.step byte).passing count := by
  -- Both counters wait for the same bytes.
  have same : (split.passing count).state = split.state := rfl
  unfold step
  rcases sound.cases [byte] with state | ⟨state, short⟩ | ⟨state, first, others, cut, complete⟩ |
    ⟨state, short⟩ | ⟨state, first, others, cut, complete⟩
  · rw [pass_idle state, pass_idle (same ▸ state)]
    rfl
  · rw [pass_gathering state short, pass_gathering (same.trans state) short]
    rfl
  · rw [cut, pass_complete state complete, pass_complete (same.trans state) complete]
    exact settle_passing { (split.gather first).before first.length with headerLen := 0 } count
  · rw [pass_within state short, pass_within (same.trans state) short]
    rfl
  · rw [cut, pass_skipped state complete, pass_skipped (same.trans state) complete]
    rfl

/-- Going through bytes leaves the counter sound. -/
theorem scan_sound {split : FlushSplit} (sound : split.Sound) (bytes : Bytes) :
    (bytes.foldl step split).Sound := by
  induction bytes generalizing split with
  | nil => exact sound
  | cons byte rest ih => exact ih (pass_sound sound [byte])

/-- Bytes counted at all are added before or after the others are gone through. -/
theorem scan_passing {split : FlushSplit} (sound : split.Sound) (count : Nat) (bytes : Bytes) :
    bytes.foldl step (split.passing count) = (bytes.foldl step split).passing count := by
  -- The induction is on the bytes, and one byte keeps the difference.
  induction bytes generalizing split with
  | nil => rfl
  | cons byte rest ih =>
    have after : (split.step byte).Sound := pass_sound sound [byte]
    rw [List.foldl_cons, step_passing sound, ih after, List.foldl_cons]

/-- A feed goes through its bytes one by one, and counts them all. -/
theorem feed_eq {split : FlushSplit} (sound : split.Sound) (bytes : Bytes) :
    split.feed bytes = (bytes.foldl step split).passing bytes.length := by
  rw [feed, passes_eq (sound.passing _) le_rfl, scan_passing sound]

/-- Nothing that is fed changes nothing. -/
theorem feed_nil (split : FlushSplit) : split.feed [] = split := rfl

/-- Every feed leaves the counter sound. -/
theorem feed_sound {split : FlushSplit} (sound : split.Sound) (bytes : Bytes) :
    (split.feed bytes).Sound := by
  rw [feed_eq sound]
  exact (scan_sound sound bytes).passing _

/-- Two feeds come to the same as one of both together. -/
theorem feed_append {split : FlushSplit} (sound : split.Sound) (first second : Bytes) :
    (split.feed first).feed second = split.feed (first ++ second) := by
  -- Both go through the same bytes, and count as many.
  have sound' := feed_sound sound first
  rw [feed_eq sound', feed_eq sound, feed_eq sound, scan_passing (scan_sound sound first),
    List.foldl_append, List.length_append]
  simp [passing, Nat.add_assoc]

/-- A stream fed in pieces leaves the counter where the whole stream does. -/
theorem feed_flatten {split : FlushSplit} (sound : split.Sound) (chunks : List Bytes) :
    chunks.foldl feed split = split.feed chunks.flatten := by
  -- The first piece is joined to the others.
  induction chunks generalizing split with
  | nil => simp [feed, passes, passing]
  | cons chunk rest ih =>
    rw [List.foldl_cons, ih (feed_sound sound chunk), feed_append sound, List.flatten_cons]

/-- What a complete header says moves no byte. -/
theorem settle_counts (split : FlushSplit) :
    split.settle.counts.preFlush = split.counts.preFlush ∧
      split.settle.counts.postFlush = split.counts.postFlush ∧
      split.settle.counts.total = split.counts.total := by
  unfold settle
  split <;> exact ⟨rfl, rfl, rfl⟩

/-- A single byte is counted before the flush or after it. -/
theorem step_counts {split : FlushSplit} (sound : split.Sound) (byte : UInt8) :
    (split.step byte).counts.preFlush + (split.step byte).counts.postFlush =
        split.counts.preFlush + split.counts.postFlush + 1 ∧
      (split.step byte).counts.total = split.counts.total := by
  -- Behind the section it is counted after the flush, elsewhere before it.
  rcases step_cases sound byte with ⟨-, done⟩ | ⟨-, -, done⟩ | ⟨-, -, done⟩ | ⟨-, -, done⟩ |
    ⟨-, -, done⟩
  · exact done ▸ ⟨rfl, rfl⟩
  · exact done ▸ ⟨Nat.add_right_comm _ 1 _, rfl⟩
  · have ⟨inside, outside, total⟩ :=
      settle_counts { (split.gather [byte]).before 1 with headerLen := 0 }
    rw [done, inside, outside, total]
    exact ⟨Nat.add_right_comm _ 1 _, rfl⟩
  · exact done ▸ ⟨Nat.add_right_comm _ 1 _, rfl⟩
  · exact done ▸ ⟨Nat.add_right_comm _ 1 _, rfl⟩

/-- Every byte gone through is counted before the flush or after it. -/
theorem scan_counts {split : FlushSplit} (sound : split.Sound) (bytes : Bytes) :
    (bytes.foldl step split).counts.preFlush + (bytes.foldl step split).counts.postFlush =
        split.counts.preFlush + split.counts.postFlush + bytes.length ∧
      (bytes.foldl step split).counts.total = split.counts.total := by
  -- The induction is on the bytes, and each is booked on one side.
  induction bytes generalizing split with
  | nil => exact ⟨rfl, rfl⟩
  | cons byte rest ih =>
    have after : (split.step byte).Sound := pass_sound sound [byte]
    obtain ⟨here, still⟩ := step_counts sound byte
    obtain ⟨there, same⟩ := ih after
    rw [List.foldl_cons, there, here, same, still, List.length_cons]
    exact ⟨by omega, rfl⟩

/-- Every byte fed is counted, and counted before the flush or after it. -/
theorem feed_counts {split : FlushSplit} (sound : split.Sound) (bytes : Bytes) :
    (split.feed bytes).counts.total = split.counts.total + bytes.length ∧
      (split.feed bytes).counts.preFlush + (split.feed bytes).counts.postFlush =
        split.counts.preFlush + split.counts.postFlush + bytes.length := by
  obtain ⟨sum, total⟩ := scan_counts sound bytes
  rw [feed_eq sound]
  exact ⟨congrArg (· + bytes.length) total, sum⟩

/-- A pump reads the stream from its beginning. -/
theorem pump_read (room : Nat → Option Nat) (call : Nat) (split : FlushSplit)
    (arrivals : List Arrival) : (pump room call split arrivals).read <+: delivered arrivals := by
  -- The induction is on the pieces; a write that fails is the last.
  induction arrivals generalizing call split with
  | nil => exact List.prefix_rfl
  | cons arrival rest ih =>
    cases arrival with
    | interrupted => exact ih call split
    | failed => exact List.nil_prefix
    | data first more =>
      have onward := (List.prefix_append_right_inj (first :: more)).mpr
        (ih (call + 1) (split.feed (first :: more)))
      have alone : first :: more <+: first :: more ++ delivered rest := List.prefix_append _ _
      simp only [pump, delivered]
      split
      · exact onward
      · split
        · exact onward
        · exact alone

/-- A pump that writes all that it reads has counted it. -/
theorem pump_whole {room : Nat → Option Nat} {call : Nat} {split : FlushSplit}
    (sound : split.Sound) {arrivals : List Arrival}
    (whole : (pump room call split arrivals).written = (pump room call split arrivals).read) :
    (pump room call split arrivals).split =
      split.feed (pump room call split arrivals).read := by
  -- Each piece is fed when it was written, and fed together with what follows it.
  induction arrivals generalizing call split with
  | nil => exact (feed_nil split).symm
  | cons arrival rest ih =>
    cases arrival with
    | interrupted => exact ih sound whole
    | failed => exact (feed_nil split).symm
    | data first more =>
      have fed := feed_sound sound (first :: more)
      simp only [pump] at whole ⊢
      split at whole
      · have same := ih fed (List.append_cancel_left whole)
        rw [feed_append sound] at same
        exact same
      · split at whole
        · have same := ih fed (List.append_cancel_left whole)
          rw [feed_append sound] at same
          rename_i room enough
          rw [if_pos enough]
          exact same
        · rename_i room short
          have lengths := congrArg List.length whole
          simp only [List.length_take] at lengths
          omega

/--
However a stream is cut, the counter ends where it does over the whole stream.

It has counted every byte on one side of the flush, gathers less than a header, has payload to skip
exactly within a payload, and comes to the end of whatever it is fed next.
-/
theorem feed_chunks (chunks : List Bytes) :
    let split := chunks.foldl feed new
    split = new.feed chunks.flatten ∧
    split.counts.total = chunks.flatten.length ∧
    split.counts.total = split.counts.preFlush + split.counts.postFlush ∧
    split.headerLen < 4 ∧
    (split.remaining ≠ 0 ↔ split.state = .payload) ∧
    ∀ bytes, (passes bytes.length (split.passing bytes.length) bytes).2 = [] := by
  -- Feeding in pieces is feeding their join, and a sound counter uses up what it is fed.
  intro split
  have whole : split = new.feed chunks.flatten := feed_flatten new_sound chunks
  have sound : split.Sound := whole ▸ feed_sound new_sound chunks.flatten
  obtain ⟨total, sum⟩ := feed_counts new_sound chunks.flatten
  have none : new.counts = ⟨0, 0, 0, 0⟩ := rfl
  simp only [none, Nat.zero_add] at total sum
  refine ⟨whole, whole ▸ total, ?_, sound.pending, sound.skipping, ?_⟩
  · rw [whole, total, sum]
  · intro bytes
    rw [passes_eq (sound.passing _) le_rfl]

end FlushSplit

end GitFullSend

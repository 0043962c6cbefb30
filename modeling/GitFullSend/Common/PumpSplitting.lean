import GitFullSend.Common.FlushSplit

/-! The byte pump hands on what it reads, and counts what it has handed on. -/

namespace GitFullSend

open Utf8 (Bytes)
open Arrivals (Arrival)
open FlushSplit (feed_append feed_counts feed_nil feed_sound new_sound)

/-- The bytes that one call of the reader has room for. -/
def bufferSize : Nat := 64 * 1024

/-- What one call of the reader comes to. -/
inductive ReaderResult where
  /-- Bytes, of which there are none at the end of the file. -/
  | ok (bytes : Bytes) (fits : bytes.length ≤ bufferSize)
  | interrupted
  /-- Any other error. -/
  | failed

/-- Why a copy stopped. -/
inductive Stop where
  | endOfFile
  | readFailed
  | writeFailed
  /-- It did not: the next call of the reader has not returned. -/
  | reading
  deriving DecidableEq

/-- What a copy comes to. -/
structure Copied where
  /-- The counter behind the last chunk that was handed on whole. -/
  split : FlushSplit
  /-- The bytes that the writer took. -/
  written : Bytes
  stop : Stop
  /-- The results of the reader that were not asked for. -/
  left : List ReaderResult

/-- What a writer with so much room takes of a chunk, and whether that is the whole chunk. -/
def writeAll (room : Option Nat) (chunk : Bytes) : Bytes × Bool :=
  match room with
  | none => (chunk, true)
  | some room => (chunk.take room, decide (chunk.length ≤ room))

/-- Copy from one result of the reader to the next; the writer's calls are numbered. -/
def pumpFrom (room : Nat → Option Nat) (call : Nat) (split : FlushSplit) :
    List ReaderResult → Copied
  | [] => ⟨split, [], .reading, []⟩
  | .ok [] _ :: rest => ⟨split, [], .endOfFile, rest⟩
  | .ok (first :: more) _ :: rest =>
    let chunk := first :: more
    let (taken, whole) := writeAll (room call) chunk
    if whole = false then ⟨split, taken, .writeFailed, rest⟩
    else
      let copied := pumpFrom room (call + 1) (split.feed chunk) rest
      { copied with written := taken ++ copied.written }
  | .interrupted :: rest => pumpFrom room call split rest
  | .failed :: rest => ⟨split, [], .readFailed, rest⟩

/-- Copy to the end of the file. -/
def pumpResults (room : Nat → Option Nat) (results : List ReaderResult) : Copied :=
  pumpFrom room 0 .new results

namespace ReaderResult

/-- A result behind which nothing is read any more. -/
def ends : ReaderResult → Bool
  | ok bytes _ => bytes.isEmpty
  | interrupted => false
  | failed => true

/-- The bytes of a result. -/
def chunk : ReaderResult → Option Bytes
  | ok bytes _ => some bytes
  | _ => none

/-- Why a copy stops at a result that ends it. -/
def stop : ReaderResult → Stop
  | failed => .readFailed
  | _ => .endOfFile

/-- The result of a call that was not interrupted. -/
def returned : ReaderResult → Bool
  | interrupted => false
  | _ => true

end ReaderResult

open ReaderResult (ends chunk returned)

/-- The chunks that a reader gives before a result that ends the copy. -/
def chunksOf (results : List ReaderResult) : List Bytes :=
  (results.takeWhile fun result => !result.ends).filterMap chunk

/-- Every chunk was handed on, and the copy stopped where the reader ended it. -/
structure ReadOut (results : List ReaderResult) (whole : List Bytes) (copied : Copied) : Prop where
  chunks : chunksOf results = whole
  written : copied.written = whole.flatten
  stopped : match results.dropWhile fun result => !result.ends with
    | [] => copied.stop = .reading ∧ copied.left = []
    | last :: rest => copied.stop = last.stop ∧ copied.left = rest

/-- A chunk was taken in part only, and the copy stopped right behind it. -/
structure BrokenOff (results : List ReaderResult) (whole : List Bytes) (room : Option Nat)
    (failing : Bytes) (copied : Copied) : Prop where
  read : ∃ before fits, (∀ result ∈ before, result.ends = false) ∧ chunksOf before = whole ∧
    results = before ++ .ok failing fits :: copied.left
  refused : (writeAll room failing).2 = false
  written : copied.written = whole.flatten ++ (writeAll room failing).1
  stopped : copied.stop = .writeFailed

/-- A result that does not end the copy leaves its chunk in front of the others. -/
theorem chunksOf_cons {result : ReaderResult} (more : result.ends = false)
    (rest : List ReaderResult) :
    chunksOf (result :: rest) = result.chunk.toList ++ chunksOf rest := by
  cases given : result.chunk <;> simp [chunksOf, more, given]

/-- What a writer takes of a chunk that it does not take whole is less than the chunk. -/
theorem writeAll_refused {room : Option Nat} {chunk : Bytes}
    (refused : (writeAll room chunk).2 = false) :
    (writeAll room chunk).1 <+: chunk ∧ (writeAll room chunk).1.length < chunk.length := by
  -- Only a writer with too little room takes a part.
  cases room with
  | none => cases refused
  | some room =>
    have short : ¬ chunk.length ≤ room := of_decide_eq_false refused
    refine ⟨List.take_prefix _ _, ?_⟩
    simp only [writeAll, List.length_take]
    omega

/-- What a writer takes of a chunk that it takes whole is the chunk. -/
theorem writeAll_whole {room : Option Nat} {chunk : Bytes}
    (whole : (writeAll room chunk).2 = true) : (writeAll room chunk).1 = chunk := by
  cases room with
  | none => rfl
  | some room => exact List.take_of_length_le (of_decide_eq_true whole)

/-- A result in front, of which the chunk was handed on. -/
def Copied.behind (result : ReaderResult) (copied : Copied) : Copied :=
  { copied with written := result.chunk.toList.flatten ++ copied.written }

/-- A copy goes on behind a result whose chunk is handed on, and reads out what is left. -/
theorem ReadOut.behind {result : ReaderResult} (more : result.ends = false)
    {rest : List ReaderResult} {whole : List Bytes} {copied : Copied}
    (out : ReadOut rest whole copied) :
    ReadOut (result :: rest) (result.chunk.toList ++ whole) (copied.behind result) where
  chunks := by rw [chunksOf_cons more, out.chunks]
  written := by rw [List.flatten_append, ← out.written, Copied.behind]
  stopped := by
    -- The result in front ends nothing, so the copy stops where it did.
    have dropped : (result :: rest).dropWhile (fun result => !result.ends) =
        rest.dropWhile fun result => !result.ends := List.dropWhile_cons_of_pos (by simp [more])
    rw [dropped]
    exact out.stopped

/-- A copy goes on behind a result whose chunk is handed on, and breaks off where it did. -/
theorem BrokenOff.behind {result : ReaderResult} (more : result.ends = false)
    {rest : List ReaderResult} {whole : List Bytes} {room : Option Nat} {failing : Bytes}
    {copied : Copied} (broken : BrokenOff rest whole room failing copied) :
    BrokenOff (result :: rest) (result.chunk.toList ++ whole) room failing
      (copied.behind result) where
  read := by
    -- The result is one more in front of the chunk that failed.
    obtain ⟨before, fits, going, chunks, split⟩ := broken.read
    refine ⟨result :: before, fits, List.forall_mem_cons.mpr ⟨more, going⟩, ?_, ?_⟩
    · rw [chunksOf_cons more, chunks]
    · rw [split]
      rfl
  refused := broken.refused
  written := by
    rw [List.flatten_append, List.append_assoc, ← broken.written, Copied.behind]
  stopped := broken.stopped

/-- The first chunks are handed on whole and counted, and the copy stops where it has to. -/
theorem pumpFrom_exact (room : Nat → Option Nat) (call : Nat) {split : FlushSplit}
    (sound : split.Sound) (results : List ReaderResult) :
    ∃ whole : List Bytes,
      (∀ index chunk, whole[index]? = some chunk →
        (writeAll (room (call + index)) chunk).2 = true) ∧
      (pumpFrom room call split results).split = split.feed whole.flatten ∧
      (ReadOut results whole (pumpFrom room call split results) ∨
        ∃ failing, BrokenOff results whole (room (call + whole.length)) failing
          (pumpFrom room call split results)) := by
  -- The induction follows the results, and a chunk that is handed on is fed in front of the others.
  fun_induction pumpFrom room call split results with
  | case1 call split =>
    exact ⟨[], by simp, (feed_nil split).symm, .inl ⟨rfl, rfl, rfl, rfl⟩⟩
  | case2 call split fits rest =>
    exact ⟨[], by simp, (feed_nil split).symm, .inl ⟨rfl, rfl, rfl, rfl⟩⟩
  | case3 call split first more fits rest chunk taken partly =>
    -- The writer fails within the first chunk.
    refine ⟨[], by simp, (feed_nil split).symm, .inr ⟨chunk, ?_⟩⟩
    have partly : writeAll (room (call + 0)) chunk = (taken, false) := partly
    constructor
    · exact ⟨[], fits, by simp, rfl, rfl⟩
    · exact congrArg Prod.snd partly
    · exact (congrArg Prod.fst partly).symm
    · rfl
  | case4 call split first more fits rest chunk taken taking written accepted copied ih =>
    have all : (writeAll (room call) chunk).2 = true := by
      rw [written]
      simpa using accepted
    obtain rfl : taken = chunk := by
      rw [← writeAll_whole all, written]
    obtain ⟨whole, others, fed, ended⟩ := ih (feed_sound sound chunk)
    have gives : (ReaderResult.ok chunk fits).chunk.toList = [chunk] := rfl
    have handed : ({ copied with written := chunk ++ copied.written } : Copied) =
        copied.behind (.ok chunk fits) := by
      rw [Copied.behind, gives, List.flatten_singleton]
    rw [handed]
    refine ⟨chunk :: whole, ?_, ?_, ?_⟩
    · intro index handed member
      cases index with
      | zero =>
        obtain rfl := Option.some.inj member
        exact all
      | succ index =>
        have later := others index handed member
        rwa [Nat.add_assoc, Nat.add_comm 1] at later
    · rw [List.flatten_cons, ← feed_append sound]
      exact fed
    · rcases ended with out | ⟨failing, broken⟩
      · exact .inl (out.behind rfl)
      · have later := @BrokenOff.behind (.ok chunk fits) rfl _ _ _ _ _ broken
        rw [Nat.add_assoc, Nat.add_comm 1] at later
        exact .inr ⟨failing, later⟩
  | case5 call split rest ih =>
    obtain ⟨whole, accepted, fed, ended⟩ := ih sound
    refine ⟨whole, accepted, fed, ?_⟩
    rcases ended with out | ⟨failing, broken⟩
    · exact .inl (@ReadOut.behind .interrupted rfl _ _ _ out)
    · exact .inr ⟨failing, @BrokenOff.behind .interrupted rfl _ _ _ _ _ broken⟩
  | case6 call split rest =>
    exact ⟨[], by simp, (feed_nil split).symm, .inl ⟨rfl, rfl, rfl, rfl⟩⟩

/-- A call that was interrupted has no effect on the copy. -/
theorem pumpFrom_returned (room : Nat → Option Nat) (call : Nat) (split : FlushSplit)
    (results : List ReaderResult) :
    pumpFrom room call split (results.filter returned) =
      { pumpFrom room call split results with
        left := (pumpFrom room call split results).left.filter returned } := by
  -- The induction follows the results, and the filter drops those the loop goes on behind.
  fun_induction pumpFrom room call split results with
  | case1 call split => rfl
  | case2 call split fits rest => rfl
  | case3 call split first more fits rest chunk taken partly =>
    have kept : (ReaderResult.ok chunk fits :: rest).filter returned =
        .ok chunk fits :: rest.filter returned := rfl
    rw [kept, pumpFrom, partly]
    rfl
  | case4 call split first more fits rest chunk taken whole written accepted copied ih =>
    have kept : (ReaderResult.ok chunk fits :: rest).filter returned =
        .ok chunk fits :: rest.filter returned := rfl
    rw [kept, pumpFrom, written]
    simp only
    rw [if_neg accepted, ih]
  | case5 call split rest ih => exact ih
  | case6 call split rest => rfl

/-- What arrives in the results of a reader. -/
def arrivalsOf : List ReaderResult → List Arrival
  | [] => []
  | .ok [] _ :: _ => []
  | .ok (first :: more) _ :: rest => .data first more :: arrivalsOf rest
  | .interrupted :: rest => .interrupted :: arrivalsOf rest
  | .failed :: rest => .failed :: arrivalsOf rest

/-- Copying from one result to the next is copying what arrives in them. -/
theorem pumpFrom_arrivals (room : Nat → Option Nat) (call : Nat) (split : FlushSplit)
    (results : List ReaderResult) :
    (pumpFrom room call split results).split = (pump room call split (arrivalsOf results)).split ∧
      (pumpFrom room call split results).written =
        (pump room call split (arrivalsOf results)).written := by
  -- Both loops take a piece at a time, and stop at the same ones.
  fun_induction pumpFrom room call split results with
  | case1 call split => exact ⟨rfl, rfl⟩
  | case2 call split fits rest => exact ⟨rfl, rfl⟩
  | case3 call split first more fits rest chunk taken partly =>
    simp only [arrivalsOf, pump]
    cases limit : room call with
    | none =>
      rw [limit] at partly
      cases partly
    | some most =>
      rw [limit] at partly
      have short : ¬ chunk.length ≤ most := of_decide_eq_false (congrArg Prod.snd partly)
      have taken : chunk.take most = taken := congrArg Prod.fst partly
      simp only
      rw [if_neg short]
      exact ⟨rfl, taken.symm⟩
  | case4 call split first more fits rest chunk taken whole written accepted copied ih =>
    have all : (writeAll (room call) chunk).2 = true := by
      rw [written]
      simpa using accepted
    have handed : taken = chunk := by
      rw [← writeAll_whole all, written]
    obtain ⟨same, others⟩ := ih
    simp only [arrivalsOf, pump]
    cases limit : room call with
    | none => exact ⟨same, by rw [handed, others]⟩
    | some most =>
      rw [limit] at all
      have enough : chunk.length ≤ most := of_decide_eq_true all
      simp only
      rw [if_pos enough]
      exact ⟨same, by rw [handed, others]⟩
  | case5 call split rest ih => exact ih
  | case6 call split rest => exact ⟨rfl, rfl⟩

/-- A stream is counted and written alike when it is copied from one result to the next. -/
theorem pumpSplitting_arrivals (room : Nat → Option Nat) (results : List ReaderResult) :
    (pumpResults room results).split = (pumpSplitting room (arrivalsOf results)).split ∧
      (pumpResults room results).written = (pumpSplitting room (arrivalsOf results)).written :=
  pumpFrom_arrivals room 0 .new results

/--
The pump delivers what it reads, in order, and counts what it has handed on whole.

It stops where the reader ends the stream or fails, or within the first chunk that the writer does
not take whole, of which it has delivered a part and counted nothing.
A call of the reader that was interrupted has no effect.
-/
theorem pumpResults_exact (room : Nat → Option Nat) (results : List ReaderResult) :
    let copied := pumpResults room results
    let total := copied.split.counts.total
    (∃ whole : List Bytes,
      (∀ index chunk, whole[index]? = some chunk → (writeAll (room index) chunk).2 = true) ∧
      copied.split.counts = (FlushSplit.new.feed whole.flatten).counts ∧
      total = whole.flatten.length ∧
      (ReadOut results whole copied ∧ copied.written.length = total ∨
        ∃ failing, BrokenOff results whole (room whole.length) failing copied ∧
          copied.written.length < total + failing.length)) ∧
    total ≤ copied.written.length ∧ copied.written.length < total + bufferSize ∧
    pumpResults room (results.filter returned) =
      { copied with left := copied.left.filter returned } := by
  -- Both ways of stopping have delivered the counted chunks, the second a part of one more.
  intro copied total
  obtain ⟨whole, accepted, fed, ended⟩ := pumpFrom_exact room 0 new_sound results
  have counted : total = whole.flatten.length := by
    have counts := (feed_counts new_sound whole.flatten).1
    have none : FlushSplit.new.counts.total = 0 := rfl
    rw [none, Nat.zero_add] at counts
    rw [← counts]
    exact congrArg (fun split => split.counts.total) fed
  have accepted : ∀ index chunk, whole[index]? = some chunk →
      (writeAll (room index) chunk).2 = true := by
    intro index chunk member
    rw [← Nat.zero_add index]
    exact accepted index chunk member
  rw [Nat.zero_add] at ended
  rcases ended with out | ⟨failing, broken⟩
  · have length : copied.written.length = total := (congrArg _ out.written).trans counted.symm
    refine ⟨⟨whole, accepted, congrArg _ fed, counted, .inl ⟨out, length⟩⟩, length.ge, ?_,
      pumpFrom_returned ..⟩
    have room : 0 < bufferSize := by decide
    omega
  · have partly := (writeAll_refused broken.refused).2
    have length : copied.written.length =
        total + (writeAll (room whole.length) failing).1.length := by
      rw [counted, ← List.length_append]
      exact congrArg List.length broken.written
    have short : copied.written.length < total + failing.length := by omega
    refine ⟨⟨whole, accepted, congrArg _ fed, counted, .inr ⟨failing, broken, short⟩⟩, by omega, ?_,
      pumpFrom_returned ..⟩
    obtain ⟨before, fits, -⟩ := broken.read
    omega

end GitFullSend

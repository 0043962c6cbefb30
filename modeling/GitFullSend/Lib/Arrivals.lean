import GitFullSend.Lib.Utf8

/-! Bytes that arrive in pieces, and reading an exact number of them. -/

namespace Arrivals

open Utf8 (Bytes)

/-- What one call of a reader meets. -/
inductive Arrival where
  /-- At least one byte; a call takes as many of them as it has room for. -/
  | data (first : UInt8) (more : Bytes)
  /-- The call was interrupted, and is made again. -/
  | interrupted
  /-- An error that ends the reading, such as a timeout. -/
  | failed

/-- The bytes that arrive before the end of the stream, or before the first failure. -/
def delivered : List Arrival → Bytes
  | [] => []
  | .data first more :: rest => first :: more ++ delivered rest
  | .interrupted :: rest => delivered rest
  | .failed :: _ => []

/-- What is left to arrive when a call has taken only the beginning of a piece. -/
def putBack (bytes : Bytes) (rest : List Arrival) : List Arrival :=
  match bytes with
  | [] => rest
  | first :: more => .data first more :: rest

/--
Read until so many bytes are there, giving the bytes taken and what is left to arrive.

Fewer bytes are taken where the stream ends or fails before that.
-/
def readExact : Nat → List Arrival → Bytes × List Arrival
  | 0, arrivals => ([], arrivals)
  | _, [] => ([], [])
  | want, .interrupted :: rest => readExact want rest
  | _, .failed :: rest => ([], rest)
  | want, .data first more :: rest =>
    let piece := first :: more
    if want ≤ piece.length then (piece.take want, putBack (piece.drop want) rest)
    else
      let (taken, left) := readExact (want - piece.length) rest
      (piece ++ taken, left)

/-- Bytes that are put back arrive before the others. -/
@[simp] theorem delivered_putBack (bytes : Bytes) (rest : List Arrival) :
    delivered (putBack bytes rest) = bytes ++ delivered rest := by
  cases bytes <;> rfl

/-- The bytes taken are the first ones of the stream, however they arrive. -/
theorem readExact_taken (want : Nat) (arrivals : List Arrival) :
    (readExact want arrivals).1 = (delivered arrivals).take want := by
  -- The induction is on the pieces; a short piece leaves the others less to fill.
  induction arrivals generalizing want with
  | nil => cases want <;> simp [readExact, delivered]
  | cons arrival rest ih =>
    cases want with
    | zero => simp [readExact]
    | succ want =>
      cases arrival with
      | interrupted => exact ih _
      | failed => simp [readExact, delivered]
      | data first more =>
        simp only [readExact, delivered]
        split
        · rename_i enough
          rw [List.take_append_of_le_length enough]
        · rename_i short
          -- The whole piece is taken, and the rest from the pieces behind it.
          have whole : (first :: more).length ≤ want + 1 := by omega
          change first :: more ++ (readExact _ rest).1 = _
          rw [ih, List.take_append, List.take_of_length_le whole]

/-- When the stream has enough bytes, the reader is left right behind those it took. -/
theorem readExact_left {want : Nat} {arrivals : List Arrival}
    (enough : want ≤ (delivered arrivals).length) :
    delivered (readExact want arrivals).2 = (delivered arrivals).drop want := by
  -- No failure is met, because it would end the stream before enough bytes are there.
  induction arrivals generalizing want with
  | nil => cases want <;> simp_all [readExact, delivered]
  | cons arrival rest ih =>
    cases want with
    | zero => simp [readExact]
    | succ want =>
      cases arrival with
      | interrupted => exact ih enough
      | failed => simp [delivered] at enough
      | data first more =>
        simp only [readExact, delivered, List.length_append] at enough ⊢
        split
        · rename_i whole
          rw [delivered_putBack, List.drop_append_of_le_length whole]
        · rename_i short
          have whole : (first :: more).length ≤ want + 1 := by omega
          change delivered (readExact _ rest).2 = _
          rw [ih (by omega), List.drop_append, List.drop_eq_nil_of_le whole, List.nil_append]

/-- Why a reader does not get the bytes that it wants. -/
inductive ReadError where
  /-- The stream ends before that. -/
  | unexpectedEof
  /-- A call fails before that. -/
  | failed
  deriving DecidableEq

/-- Why no more bytes arrive. -/
def shortfall : List Arrival → ReadError
  | [] => .unexpectedEof
  | .failed :: _ => .failed
  | _ :: rest => shortfall rest

/-- Read exactly so many bytes, or none of use. -/
def readWhole (want : Nat) (arrivals : List Arrival) : Except ReadError Bytes × List Arrival :=
  let read := readExact want arrivals
  (if read.1.length = want then .ok read.1 else .error (shortfall arrivals), read.2)

/-- When the stream has enough bytes, they are read, and the others are left. -/
theorem readWhole_enough {want : Nat} {arrivals : List Arrival}
    (enough : want ≤ (delivered arrivals).length) :
    ∃ left, readWhole want arrivals = (.ok ((delivered arrivals).take want), left) ∧
      delivered left = (delivered arrivals).drop want := by
  -- What is taken has the wanted length, so nothing fell short.
  refine ⟨_, ?_, readExact_left enough⟩
  have taken := readExact_taken want arrivals
  have size : (readExact want arrivals).1.length = want := by
    rw [taken, List.length_take, Nat.min_eq_left enough]
  simp only [readWhole]
  rw [if_pos size, taken]

/-- The bytes at the front of a stream are read, and those behind them are left. -/
theorem readWhole_append {arrivals : List Arrival} {front rest : Bytes}
    (arrives : delivered arrivals = front ++ rest) :
    ∃ left, readWhole front.length arrivals = (.ok front, left) ∧ delivered left = rest := by
  -- There are as many as are wanted, and the cut is behind the front.
  have enough : front.length ≤ (delivered arrivals).length := by
    rw [arrives, List.length_append]
    omega
  obtain ⟨left, read, behind⟩ := readWhole_enough enough
  rw [arrives, List.take_left] at read
  rw [arrives, List.drop_left] at behind
  exact ⟨left, read, behind⟩

/-- Bytes that were read are the first ones of the stream, and the others are left. -/
theorem readWhole_ok {want : Nat} {arrivals left : List Arrival} {bytes : Bytes}
    (read : readWhole want arrivals = (.ok bytes, left)) :
    bytes.length = want ∧ delivered arrivals = bytes ++ delivered left := by
  -- Only with enough bytes is there anything read.
  have enough : want ≤ (delivered arrivals).length := by
    have size : (readExact want arrivals).1.length = want := by
      by_contra short
      simp only [readWhole] at read
      rw [if_neg short] at read
      cases read
    rw [readExact_taken, List.length_take] at size
    omega
  obtain ⟨left', whole, others⟩ := readWhole_enough enough
  rw [whole] at read
  cases read
  rw [others, List.length_take, Nat.min_eq_left enough]
  exact ⟨rfl, (List.take_append_drop _ _).symm⟩

end Arrivals

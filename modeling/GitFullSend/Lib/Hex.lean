import Mathlib.Data.Nat.Digits.Lemmas
import GitFullSend.Lib.Utf8

/-! Numbers written in hexadecimal digits, and read back. -/

namespace Hex

open Utf8 (Bytes)

/-- The value of one ASCII hexadecimal digit, in either case. -/
def digit (byte : UInt8) : Option Nat :=
  if 0x30 ≤ byte ∧ byte ≤ 0x39 then some (byte.toNat - 0x30)
  else if 0x61 ≤ byte ∧ byte ≤ 0x66 then some (byte.toNat - 0x57)
  else if 0x41 ≤ byte ∧ byte ≤ 0x46 then some (byte.toNat - 0x37)
  else none

/-- The number so far with one more digit behind it. -/
def shift (value : Nat) (byte : UInt8) : Option Nat :=
  (digit byte).map (16 * value + ·)

/-- The number that digits spell, or `none` when one of the bytes is no digit. -/
def value (digits : Bytes) : Option Nat :=
  digits.foldlM shift 0

/-- The lower-case digit of a value below sixteen. -/
def lower (value : Nat) : UInt8 :=
  if value < 10 then .ofNat (0x30 + value) else .ofNat (0x57 + value)

/-- A number in lower-case digits, with zeros in front up to a width. -/
def padded (width number : Nat) : Bytes :=
  let digits := (Nat.digits 16 number).reverse.map lower
  List.replicate (width - digits.length) 0x30 ++ digits

/-- A digit is worth less than sixteen. -/
theorem digit_lt {byte : UInt8} {each : Nat} (read : digit byte = some each) : each < 16 := by
  -- The three ranges hold ten, six and six bytes.
  unfold digit at read
  grind [UInt8.le_iff_toNat_le]

/-- A digit is ASCII. -/
theorem digit_ascii {byte : UInt8} {each : Nat} (read : digit byte = some each) :
    byte ≤ 0x7F := by
  unfold digit at read
  grind [UInt8.le_iff_toNat_le]

/-- Reading digits behind a number reads one of them, and the others behind that. -/
theorem foldlM_cons {byte : UInt8} {digits : Bytes} {start number : Nat} :
    (byte :: digits).foldlM shift start = some number ↔
      ∃ each, digit byte = some each ∧ digits.foldlM shift (16 * start + each) = some number := by
  cases read : digit byte <;> simp [List.foldlM_cons, shift, read]

private theorem foldlM_digits {digits : Bytes} {start number : Nat}
    (read : digits.foldlM shift start = some number) :
    ∀ byte ∈ digits, ∃ each, digit byte = some each := by
  -- Whatever stands in front, each byte is read as a digit.
  induction digits generalizing start with
  | nil => simp
  | cons first rest ih =>
    obtain ⟨each, here, others⟩ := foldlM_cons.mp read
    exact List.forall_mem_cons.mpr ⟨⟨each, here⟩, ih others⟩

private theorem foldlM_lt {digits : Bytes} {start number : Nat}
    (read : digits.foldlM shift start = some number) :
    number < (start + 1) * 16 ^ digits.length := by
  -- Each digit multiplies the bound by sixteen.
  induction digits generalizing start with
  | nil => cases read; simp
  | cons first rest ih =>
    obtain ⟨each, here, others⟩ := foldlM_cons.mp read
    have small := digit_lt here
    calc number < (16 * start + each + 1) * 16 ^ rest.length := ih others
      _ ≤ (start + 1) * 16 * 16 ^ rest.length := Nat.mul_le_mul_right _ (by omega)
      _ = (start + 1) * 16 ^ (first :: rest).length := by
        rw [List.length_cons, Nat.pow_succ, Nat.mul_assoc, Nat.mul_comm 16]

/-- Only digits spell a number. -/
theorem digits_of_value {digits : Bytes} {number : Nat} (read : value digits = some number) :
    ∀ byte ∈ digits, ∃ each, digit byte = some each :=
  foldlM_digits read

/-- So many digits spell a number below that power of sixteen. -/
theorem value_lt {digits : Bytes} {number : Nat} (read : value digits = some number) :
    number < 16 ^ digits.length := by
  simpa using foldlM_lt read

/-- A digit that is written reads back as its value. -/
theorem digit_lower {value : Nat} (small : value < 16) : digit (lower value) = some value := by
  -- Sixteen digits, each checked against the three ranges.
  revert value
  decide

/-- Digits that are written spell the number they were written from. -/
private theorem foldlM_lower {digits : List Nat} (small : ∀ each ∈ digits, each < 16)
    (start : Nat) :
    (digits.map lower).foldlM shift start =
      some (digits.foldl (fun value each => 16 * value + each) start) := by
  -- Each digit moves the number on by its value.
  induction digits generalizing start with
  | nil => rfl
  | cons each rest ih =>
    obtain ⟨first, others⟩ := List.forall_mem_cons.mp small
    exact foldlM_cons.mpr ⟨each, digit_lower first, ih others _⟩

private theorem foldlM_zeros (count : Nat) :
    (List.replicate count 0x30).foldlM shift 0 = some 0 := by
  induction count with
  | zero => rfl
  | succ count ih => exact ih

/-- A padded number reads back as the number. -/
@[simp] theorem value_padded (width number : Nat) : value (padded width number) = some number := by
  -- The zeros in front leave the value at zero, and the digits are the number's own.
  have small : ∀ each ∈ (Nat.digits 16 number).reverse, each < 16 := by
    intro each member
    exact Nat.digits_lt_base (by decide) (List.mem_reverse.mp member)
  rw [value, padded, List.foldlM_append, foldlM_zeros]
  simp only [Option.bind_eq_bind, Option.bind_some]
  rw [foldlM_lower small, List.foldl_reverse]
  have digits := Nat.ofDigits_digits 16 number
  rw [Nat.ofDigits_eq_foldr] at digits
  simpa [Nat.add_comm] using congrArg some digits

/-- A number that fits is padded to exactly the width. -/
theorem length_padded {width number : Nat} (fits : number < 16 ^ width) :
    (padded width number).length = width := by
  -- The digits are no more than the width, and zeros make up for the rest.
  have short : (Nat.digits 16 number).length ≤ width :=
    (Nat.digits_length_le_iff (by decide) _).mpr fits
  simp only [padded, List.length_append, List.length_replicate, List.length_map,
    List.length_reverse]
  omega

end Hex

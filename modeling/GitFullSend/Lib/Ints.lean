import Mathlib.Algebra.Ring.Int.Defs
import Mathlib.Algebra.Ring.Nat
import Mathlib.Data.Int.Basic

/-! Arithmetic on signed 64-bit words: what wraps, and what is noticed. -/

namespace Ints

/-- An integer that a signed word of 64 bits can hold. -/
def Fits (value : Int) : Prop := -2 ^ 63 ≤ value ∧ value < 2 ^ 63

instance (value : Int) : Decidable (Fits value) := inferInstanceAs (Decidable (_ ∧ _))

/-- A product, or `none` where a word cannot hold it. -/
def checkedMul (left right : Int64) : Option Int64 :=
  if Fits (left.toInt * right.toInt) then some (left * right) else none

/-- A difference, or `none` where a word cannot hold it. -/
def checkedSub (left right : Int64) : Option Int64 :=
  if Fits (left.toInt - right.toInt) then some (left - right) else none

private theorem bmod_of_fits {value : Int} (fits : Fits value) : value.bmod (2 ^ 64) = value := by
  obtain ⟨low, high⟩ := fits
  exact Int.bmod_eq_of_le (by omega) (by omega)

/-- A product that fits is not wrapped. -/
theorem toInt_mul_of_fits {left right : Int64} (fits : Fits (left.toInt * right.toInt)) :
    (left * right).toInt = left.toInt * right.toInt := by
  rw [Int64.toInt_mul, bmod_of_fits fits]

/-- A difference that fits is not wrapped. -/
theorem toInt_sub_of_fits {left right : Int64} (fits : Fits (left.toInt - right.toInt)) :
    (left - right).toInt = left.toInt - right.toInt := by
  rw [Int64.toInt_sub, bmod_of_fits fits]

/-- An unsigned word read as a signed one is negative when its highest bit is set. -/
theorem toInt_toInt64 (value : UInt64) :
    value.toInt64.toInt =
      if value.toNat < 2 ^ 63 then (value.toNat : Int) else value.toNat - 2 ^ 64 := by
  -- Both words have the same bits.
  have small := value.toNat_lt
  change value.toBitVec.toInt = _
  rw [BitVec.toInt_eq_toNat_cond]
  have same : value.toBitVec.toNat = value.toNat := rfl
  rw [same]
  split <;> split <;> omega

end Ints

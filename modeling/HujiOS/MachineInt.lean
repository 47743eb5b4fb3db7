import Mathlib.Algebra.Group.Int.Defs
import Mathlib.Algebra.Group.Nat.Defs
import Mathlib.Data.Int.Basic

/-!
# Fixed-width integers as ranges of `Int`

`toInt32` is what a 32-bit signed variable holds after an arithmetic operation
whose exact result is `x`: two's complement, so the result is exact as long as
it is in range.  `toUInt64` is the same for an unsigned 64-bit variable.
-/

namespace MachineInt

/-- `INT_MAX`. -/
def intMax : Int := 2 ^ 31 - 1

/-- `INT_MIN`. -/
def intMin : Int := -2 ^ 31

/-- The value of a 32-bit `int` that was assigned `x`. -/
def toInt32 (x : Int) : Int := Int.bmod x (2 ^ 32)

/-- A value in the range of an `int` is stored as it is. -/
theorem toInt32_of_range {x : Int} (hlo : intMin ≤ x) (hhi : x ≤ intMax) :
    toInt32 x = x := by
  unfold intMin at hlo
  unfold intMax at hhi
  unfold toInt32
  rw [Int.bmod_def]
  omega

/-- What is stored is at most `INT_MAX`. -/
theorem toInt32_le (x : Int) : toInt32 x ≤ intMax := by
  unfold intMax toInt32
  rw [Int.bmod_def]
  omega

/-- What is stored is at least `INT_MIN`. -/
theorem intMin_le_toInt32 (x : Int) : intMin ≤ toInt32 x := by
  unfold intMin toInt32
  rw [Int.bmod_def]
  omega

/-- Counting up always changes the value. -/
theorem toInt32_succ_ne (x : Int) : toInt32 (x + 1) ≠ x := by
  unfold toInt32
  rw [Int.bmod_def]
  omega

/-- The value of a `uint64_t` that was assigned `x`. -/
def toUInt64 (x : Int) : Nat := (x % 2 ^ 64).toNat

/-- A value below `2 ^ 64` is stored as it is. -/
theorem toUInt64_of_lt {n : Nat} (h : n < 2 ^ 64) : toUInt64 n = n := by
  unfold toUInt64
  omega

/-- A difference of unsigned values, read back as a signed one. -/
theorem toInt32_toUInt64 (x : Int) : toInt32 (toUInt64 x) = toInt32 x := by
  unfold toInt32 toUInt64
  rw [Int.bmod_def, Int.bmod_def]
  omega

/-- One past `INT_MAX` is `INT_MIN`. -/
theorem toInt32_intMax_succ : toInt32 (intMax + 1) = intMin := by decide

end MachineInt

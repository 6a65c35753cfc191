/-
  The integer types that the source counts and converts with: `int` has 32 bits, `size_t`
  and `uint64_t` have 64.

  A value out of range is reduced when it is converted to an `int`.  Where the sum of two
  `int`s overflows, which C leaves undefined, it is taken to wrap.
-/
import Mathlib.Tactic

namespace PacketSerial

/-- `(int32_t)value` -/
def toInt32 (value : ℕ) : ℤ := Int.bmod value 4294967296

/-- `(int_least8_t)value` -/
def toInt8 (value : ℤ) : ℤ := Int.bmod value 256

/-- The sum of two numbers of type `int`. -/
def intAdd (a b : ℤ) : ℤ := Int.bmod (a + b) 4294967296

/-- A `size_t` kept in an `int` and passed on as a `size_t` again. -/
def sizeThroughInt (size : ℕ) : ℕ := (toInt32 size % 2 ^ 64).toNat

theorem toInt32_of_lt {value : ℕ} (h : value < 2 ^ 31) : toInt32 value = value :=
  Int.bmod_eq_of_le (by omega) (by omega)

theorem intAdd_of_lt {a b : ℤ} (h0 : -2 ^ 31 ≤ a + b) (h : a + b < 2 ^ 31) :
    intAdd a b = a + b := Int.bmod_eq_of_le (by omega) (by omega)

/-- As a `size_t`, an index that is not negative is what it is. -/
theorem sizeOfIndex {i : ℕ} (h : i < 2 ^ 64) : ((i : ℤ) % 2 ^ 64).toNat = i := by
  rw [Int.emod_eq_of_lt (Int.natCast_nonneg i) (by exact_mod_cast h), Int.toNat_natCast]

theorem sizeThroughInt_of_lt {size : ℕ} (h : size < 2 ^ 31) : sizeThroughInt size = size := by
  rw [sizeThroughInt, toInt32_of_lt h, sizeOfIndex (by omega)]

end PacketSerial

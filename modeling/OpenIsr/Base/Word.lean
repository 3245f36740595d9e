import Mathlib.Algebra.Group.Int.Defs
import Mathlib.Algebra.Group.Nat.Defs

/-!
# Machine integers

Conversions between the C types where a value can change.
-/

namespace OpenIsr.Base

/-- Conversion of an `unsigned` to `int`. -/
def toInt (n : Nat) : Int := if n < 2 ^ 31 then n else n - 2 ^ 32

/-- Subtraction of two `unsigned` values. -/
def subUnsigned (m n : Nat) : Nat := (m + 2 ^ 32 - n) % 2 ^ 32

/-- Conversion of an integer to `int`. -/
def wrapInt (x : Int) : Int := x.bmod (2 ^ 32)

theorem wrapInt_eq {x : Int} (h0 : -2 ^ 31 ≤ x) (h : x < 2 ^ 31) : wrapInt x = x :=
  Int.bmod_eq_of_le (by omega) (by omega)

theorem wrapInt_wrapInt (x : Int) : wrapInt (wrapInt x) = wrapInt x := Int.bmod_bmod

theorem wrapInt_wrapInt_add (x y : Int) : wrapInt (wrapInt x + y) = wrapInt (x + y) :=
  Int.bmod_add_bmod

end OpenIsr.Base

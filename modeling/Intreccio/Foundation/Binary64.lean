import Mathlib.Tactic.Ring

/-! IEEE 754 binary64 numbers by their bits, with exact integer readings.
Only classification and the integers among the finite values are needed here.
-/

/-- A binary64 number is its 64 bits; two bit patterns are two values (0 and -0, any NaN). -/
structure Binary64 where
  bits : UInt64
deriving DecidableEq, Repr, Inhabited

namespace Binary64

def negative (f : Binary64) : Bool := 2 ^ 63 ≤ f.bits.toNat

def exponent (f : Binary64) : Nat := f.bits.toNat / 2 ^ 52 % 2 ^ 11

def fraction (f : Binary64) : Nat := f.bits.toNat % 2 ^ 52

def isNaN (f : Binary64) : Bool := f.exponent = 2047 ∧ f.fraction ≠ 0

def isInf (f : Binary64) : Bool := f.exponent = 2047 ∧ f.fraction = 0

/-- The integer significand; a finite value has magnitude `significand * 2 ^ (shift - 1074)`. -/
def significand (f : Binary64) : Nat :=
  if f.exponent = 0 then f.fraction else 2 ^ 52 + f.fraction

def shift (f : Binary64) : Nat := f.exponent - 1

/-- The magnitude rounded towards zero, and whether nothing was cut off. -/
def magnitude (f : Binary64) : Nat × Bool :=
  if 1074 ≤ f.shift then (f.significand * 2 ^ (f.shift - 1074), true)
  else
    (f.significand / 2 ^ (1074 - f.shift), f.significand % 2 ^ (1074 - f.shift) = 0)

/-- The integer nearest to zero next to a finite value. -/
def truncate (f : Binary64) : Int :=
  if f.negative then -(f.magnitude.1 : Int) else f.magnitude.1

/-- The value is finite and an integer. -/
def isInteger (f : Binary64) : Bool := f.exponent ≠ 2047 ∧ f.magnitude.2 = true

end Binary64

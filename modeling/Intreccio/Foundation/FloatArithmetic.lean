import Mathlib.Data.Nat.Log
import Intreccio.Foundation.Binary64

/-! Order, rounding and arithmetic of binary64 numbers.
An operation on finite values is the exact result rounded to nearest, ties to even; a NaN
result is the quiet NaN without payload.
-/

namespace Binary64

def quietNaN : Binary64 := ⟨0x7FF8000000000000⟩

def magnitudeBits (f : Binary64) : Nat := f.bits.toNat % 2 ^ 63

def ofMagnitude (negative : Bool) (bits : Nat) : Binary64 :=
  ⟨UInt64.ofNat (if negative then 2 ^ 63 + bits else bits)⟩

def zero (negative : Bool) : Binary64 := ofMagnitude negative 0

/-- The bits of the infinities, above those of every finite value. -/
def infBits : Nat := 2047 * 2 ^ 52

def inf (negative : Bool) : Binary64 := ofMagnitude negative infBits

def isZero (f : Binary64) : Bool := f.magnitudeBits = 0

/-- Values other than NaN are ordered as their signed magnitudes, and the two zeros agree. -/
def rank (f : Binary64) : Int :=
  if f.negative then -(f.magnitudeBits : Int) else f.magnitudeBits

def lt (a b : Binary64) : Bool := !a.isNaN && !b.isNaN && decide (a.rank < b.rank)

def le (a b : Binary64) : Bool := !a.isNaN && !b.isNaN && decide (a.rank ≤ b.rank)

def eq (a b : Binary64) : Bool := !a.isNaN && !b.isNaN && decide (a.rank = b.rank)

def neg (f : Binary64) : Binary64 := ofMagnitude (!f.negative) f.magnitudeBits

def abs (f : Binary64) : Binary64 := ofMagnitude false f.magnitudeBits

/-- The neighbour of `x` in the direction of `y`. -/
def nextafter (x y : Binary64) : Binary64 :=
  if x.isNaN || y.isNaN then quietNaN
  else if x.eq y then x
  else if x.isZero then ofMagnitude y.negative 1
  else if y.lt x = x.negative then ofMagnitude x.negative (x.magnitudeBits + 1)
  else ofMagnitude x.negative (x.magnitudeBits - 1)

/-- The exponent of the highest bit of the positive rational `num / den`. -/
def leading (num den : Nat) : Int :=
  let k : Int := num.log2 - den.log2
  if num * 2 ^ (-k).toNat < den * 2 ^ k.toNat then k - 1 else k

/-- The exponent of the last bit that a number of that size keeps. -/
def lastBit (num den : Nat) : Int := max (leading num den - 52) (-1074)

/-- `num / den` in units of its last bit, to nearest and ties to even. -/
def units (num den : Nat) : Nat :=
  let e := lastBit num den
  let n := num * 2 ^ (-e).toNat
  let d := den * 2 ^ e.toNat
  let q := n / d
  if d < 2 * (n % d) ∨ (d = 2 * (n % d) ∧ q % 2 = 1) then q + 1 else q

/-- The binary64 number next to `num / den`; a carry out of the significand moves into the
exponent, and what lies above the largest finite value is infinite.
-/
def round (negative : Bool) (num den : Nat) : Binary64 :=
  if num = 0 then zero negative
  else
    ofMagnitude negative
      (min infBits ((lastBit num den + 1074).toNat * 2 ^ 52 + units num den))

def ofInt (i : Int) : Binary64 := round (i < 0) i.natAbs 1

/-- A finite value in units of the smallest positive one, `2 ^ (-1074)`. -/
def scaled (f : Binary64) : Int :=
  if f.negative then -(f.significand * 2 ^ f.shift : Nat) else (f.significand * 2 ^ f.shift : Nat)

def unit : Nat := 2 ^ 1074

def add (a b : Binary64) : Binary64 :=
  if a.isNaN || b.isNaN then quietNaN
  else if a.isInf then (if b.isInf && a.negative ≠ b.negative then quietNaN else a)
  else if b.isInf then b
  else
    let sum := a.scaled + b.scaled
    if sum = 0 then zero (a.negative && b.negative) else round (sum < 0) sum.natAbs unit

def sub (a b : Binary64) : Binary64 := if b.isNaN then quietNaN else add a b.neg

def mul (a b : Binary64) : Binary64 :=
  let sign := a.negative != b.negative
  if a.isNaN || b.isNaN then quietNaN
  else if a.isInf || b.isInf then (if a.isZero || b.isZero then quietNaN else inf sign)
  else round sign (a.scaled.natAbs * b.scaled.natAbs) (unit * unit)

def div (a b : Binary64) : Binary64 :=
  let sign := a.negative != b.negative
  if a.isNaN || b.isNaN then quietNaN
  else if a.isInf then (if b.isInf then quietNaN else inf sign)
  else if b.isInf then zero sign
  else if b.isZero then (if a.isZero then quietNaN else inf sign)
  else round sign a.scaled.natAbs b.scaled.natAbs

/-- The root of the scaled value times a power of 4 has more bits than a significand keeps; an
odd last digit marks a root that is not exact.
-/
def sqrt (f : Binary64) : Binary64 :=
  if f.isNaN then quietNaN
  else if f.isZero then f
  else if f.negative then quietNaN
  else if f.isInf then f
  else
    let n := f.scaled.natAbs * 2 ^ 128
    let r := n.sqrt
    round false (2 * r + (if r * r = n then 0 else 1)) (2 ^ (537 + 64 + 1))

/-- The largest integer not above a finite value. -/
def floorInt (f : Binary64) : Int :=
  if f.negative && !f.magnitude.2 then f.truncate - 1 else f.truncate

def ceilInt (f : Binary64) : Int :=
  if !f.negative && !f.magnitude.2 then f.truncate + 1 else f.truncate

/-- Rounding to an integer keeps the sign of zero, the infinities and NaN. -/
def toIntegral (f : Binary64) (i : Int) : Binary64 :=
  if f.isNaN || f.isInf then f else round f.negative i.natAbs 1

def floor (f : Binary64) : Binary64 := f.toIntegral f.floorInt

def ceil (f : Binary64) : Binary64 := f.toIntegral f.ceilInt

/-- Go's `int64(f)`: truncation, and the smallest integer when the value does not fit. -/
def toInt64 (f : Binary64) : Int64 :=
  if f.isNaN || f.isInf || f.truncate < -(2 ^ 63) || 2 ^ 63 ≤ f.truncate then Int64.minValue
  else Int64.ofInt f.truncate

end Binary64

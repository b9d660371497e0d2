import Intreccio.Foundation.FloatArithmetic

/-! The shortest decimal text of a binary64 number, as Go's `%g` prints it. -/

namespace Binary64

/-- The binary64 number next to `digits * 10 ^ exponent`. -/
def ofDecimal (negative : Bool) (digits : Nat) (exponent : Int) : Binary64 :=
  round negative (digits * 10 ^ exponent.toNat) (10 ^ (-exponent).toNat)

/-- The number of decimal zeros between the point and the first digit of `num / den < 1`. -/
def zerosAfterPoint (num den : Nat) : Nat → Nat
  | 0 => 0
  | fuel + 1 => if den ≤ num * 10 then 0 else zerosAfterPoint (num * 10) den fuel + 1

/-- The decimal exponent of the first digit of `num / den`. -/
def decimalExponent (num den : Nat) : Int :=
  if den ≤ num then (Nat.log 10 (num / den) : Int)
  else -(zerosAfterPoint num den 400 + 1 : Nat)

/-- The closest of the two `n`-digit decimals around a value that rounds back to it. -/
def roundTrip (f : Binary64) (n : Nat) : Option (Nat × Int) :=
  let num := f.scaled.natAbs
  let e : Int := decimalExponent num unit - n + 1
  let a := num * 10 ^ (-e).toNat
  let b := unit * 10 ^ e.toNat
  let lo := a / b
  let back (d : Nat) : Bool := ofDecimal f.negative d e = f
  let up := decide (b < 2 * (a % b) ∨ (b = 2 * (a % b) ∧ lo % 2 = 1))
  match back lo, back (lo + 1) with
  | true, true => some (if up then lo + 1 else lo, e)
  | true, false => some (lo, e)
  | false, true => some (lo + 1, e)
  | false, false => none

/-- The fewest digits that identify the value; 17 always do. -/
def shortestFrom (f : Binary64) : Nat → Nat → Nat × Int
  | 0, n => (roundTrip f n).getD (0, 0)
  | more + 1, n => (roundTrip f n).getD (shortestFrom f more (n + 1))

/-- The digits without trailing zeros and the position of the decimal point. -/
def shortest (f : Binary64) : List Char × Int :=
  if f.isZero then ([], 0)
  else
    let (d, e) := shortestFrom f 16 1
    let digits := Nat.toDigits 10 d
    ((digits.reverse.dropWhile (· = '0')).reverse, digits.length + e)

/-- `d.ddde±dd`. -/
def exponentForm (digits : List Char) (point : Int) : String :=
  let e := point - 1
  let more := digits.drop 1
  String.ofList (digits.take 1) ++ (if more.isEmpty then "" else "." ++ String.ofList more)
    ++ (if e < 0 then "e-" else "e+") ++ (if e.natAbs < 10 then "0" else "") ++ toString e.natAbs

/-- `ddd.ddd`. -/
def plainForm (digits : List Char) (point : Int) : String :=
  let whole := digits.take point.toNat ++ List.replicate (point.toNat - digits.length) '0'
  let fraction := digits.drop point.toNat
  (if 0 < point then String.ofList whole else "0")
    ++ (if fraction.isEmpty then ""
        else "." ++ String.ofList (List.replicate (-point).toNat '0' ++ fraction))

/-- The shortest text that reads back as the value; exponents below -4 or from 6 on are
written out.
-/
def text (f : Binary64) : String :=
  if f.isNaN then "NaN"
  else if f.isInf then (if f.negative then "-Inf" else "+Inf")
  else
    let (digits, point) := f.shortest
    let large := point - 1 < -4 ∨ 6 ≤ point - 1
    (if f.negative then "-" else "")
      ++ (if large then exponentForm digits point else plainForm digits point)

end Binary64

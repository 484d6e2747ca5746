import QuerySheet.Decimal.Power

/-!
# Binary64 numbers by their bits

A floating-point number of a document is kept as its 64 bits, so that it can be compared, stored
and printed by exact integer arithmetic:

* `significand` and `exponent` read a finite number as `± significand · 2 ^ exponent`;
* `integer?` is its value when that value is a whole number;
* `sameValue` compares two numbers, not two bit patterns: both zeros are one number;
* `ofScaled` reads a decimal text the way documents are read, one rounding for the significand
  and one for the power of ten;
* `ofDecimal` reads a decimal text to the nearest number.
-/

namespace QuerySheet

/-- A floating-point number of 64 bits. -/
structure Binary64 where
  bits : UInt64
  deriving DecidableEq, Repr, Inhabited

namespace Binary64

/-! ## 1. The parts of a number -/

def ofFloat (x : Float) : Binary64 := ⟨x.toBits⟩

def toFloat (x : Binary64) : Float := Float.ofBits x.bits

/-- The sign bit. -/
def negative (x : Binary64) : Bool := x.bits.toNat / Power.two 63 = 1

/-- The eleven bits of the exponent. -/
def exponentField (x : Binary64) : Nat := x.bits.toNat / Power.two 52 % Power.two 11

/-- The fifty-two bits below the exponent. -/
def fractionField (x : Binary64) : Nat := x.bits.toNat % Power.two 52

/-- Neither an infinity nor a NaN. -/
def isFinite (x : Binary64) : Bool := x.exponentField < 2047

def isNaN (x : Binary64) : Bool := x.exponentField = 2047 && x.fractionField != 0

/-- One of the two zeros. -/
def isZero (x : Binary64) : Bool := x.exponentField = 0 && x.fractionField = 0

/-- The integer `m` of `± m · 2 ^ q`; a number whose exponent field is zero has no implicit bit. -/
def significand (x : Binary64) : Nat :=
  if x.exponentField = 0 then x.fractionField else Power.two 52 + x.fractionField

/-- The exponent `q` of `± m · 2 ^ q`. -/
def exponent (x : Binary64) : Int := (max x.exponentField 1 : Nat) - 1075

/-! ## 2. Values -/

/-- The value of a finite number that is a whole number. -/
def integer? (x : Binary64) : Option Int :=
  if x.isFinite then
    let magnitude : Option Nat :=
      if 0 ≤ x.exponent then
        some (x.significand * Power.two x.exponent.toNat)
      else if x.significand % Power.two (-x.exponent).toNat = 0 then
        some (x.significand / Power.two (-x.exponent).toNat)
      else
        none
    magnitude.map fun n => if x.negative then -(n : Int) else n
  else
    none

/-- Equality of values: the zeros are equal, and a NaN equals nothing. -/
def sameValue (x y : Binary64) : Bool :=
  !x.isNaN && !y.isNaN && (x == y || (x.isZero && y.isZero))

/-- The nearest number to an integer. -/
def ofInt (n : Int) : Binary64 :=
  ofFloat (if n < 0 then -(Float.ofNat n.natAbs) else Float.ofNat n.natAbs)

/-- `10 ^ k`, rounded. -/
def tenTo (k : Nat) : Float := Float.ofScientific 1 false k

/-- `significand · 10 ^ exponent` with the significand rounded first and then scaled by powers of
    ten that are rounded themselves. A result beyond the largest number is `none`. -/
def ofScaled (negative : Bool) (significand : Nat) (exponent : Int) : Option Binary64 :=
  let start := Float.ofNat significand
  let magnitude : Option Float :=
    if 308 < exponent then
      if significand = 0 then some start else none
    else if 0 ≤ exponent then
      let scaled := start * tenTo exponent.toNat
      if scaled.isInf then none else some scaled
    else
      some (lower start (-exponent).toNat)
  magnitude.map fun x => ofFloat (if negative then -x else x)
where
  /-- Division by `10 ^ k`, by at most `10 ^ 308` at a time; four such steps reach zero. -/
  lower (x : Float) (k : Nat) : Float :=
    if k ≤ 308 then x / tenTo k
    else if k ≤ 616 then x / tenTo 308 / tenTo (k - 308)
    else if k ≤ 924 then x / tenTo 308 / tenTo 308 / tenTo (k - 616)
    else x / tenTo 308 / tenTo 308 / tenTo 308

/-- The number nearest to `digits · 10 ^ exponent`; `none` when that is beyond the largest. -/
def ofDecimal (negative : Bool) (digits : Nat) (exponent : Int) : Option Binary64 :=
  let size : Int := exponent + (toString digits).length
  let magnitude : Float :=
    if digits = 0 || size < -400 then 0
    else if 400 < size then Float.ofBits 0x7FF0000000000000
    else if 0 ≤ exponent then Float.ofScientific digits false exponent.toNat
    else Float.ofScientific digits true (-exponent).toNat
  if magnitude.isInf then none else some (ofFloat (if negative then -magnitude else magnitude))

end Binary64

end QuerySheet

import QuerySheet.Decimal.Binary64

/-!
# The shortest decimal text of a number

A finite number is written with the fewest digits that still read back as the same number, and of
those texts the one nearest to it:

* `Binary64.Digits` is a decimal `digits · 10 ^ exponent` without trailing zeros;
* `Binary64.shortest` finds it: on the grids of 1, 2, … 17 digits it tests the two neighbours of
  the number, and the first grid that has one inside the number's rounding interval decides;
* `Binary64.text` lays the digits out: positional from `1e-5` up to below `1e16`, with at least
  one digit after the point, and with a signed exponent outside that range.
-/

namespace QuerySheet

namespace Binary64

/-! ## 1. Digits -/

/-- The decimal `digits · 10 ^ exponent`. -/
structure Digits where
  digits : Nat
  exponent : Int
  deriving DecidableEq, Repr, Inhabited

/-- Trailing zeros of the digits moved into the exponent; `fuel` bounds their number. -/
def Digits.trim (fuel : Nat) (d : Digits) : Digits :=
  match fuel with
  | 0 => d
  | fuel + 1 =>
    if d.digits ≠ 0 ∧ d.digits % 10 = 0 then Digits.trim fuel ⟨d.digits / 10, d.exponent + 1⟩
    else d

/-- The rounding interval of a positive number, in units of `2 ^ (exponent - 2)`: everything
    strictly between the ends reads back as the number, and the ends do when `closed`. -/
structure Interval where
  low : Nat
  value : Nat
  high : Nat
  /-- The unit is `scale / unit`. -/
  scale : Nat
  unit : Nat
  closed : Bool

/-- The interval half-way to both neighbours. Below a power of two the gap is half as wide. -/
def interval (x : Binary64) : Interval :=
  let m := x.significand
  let q := x.exponent - 2
  { low := 4 * m - (if m = Power.two 52 ∧ 1 < x.exponentField then 1 else 2)
    value := 4 * m
    high := 4 * m + 2
    scale := Power.two q.toNat
    unit := Power.two (-q).toNat
    closed := m % 2 = 0 }

/-- Whether `n · 10 ^ k` lies in the interval. -/
def Interval.contains (i : Interval) (n : Nat) (k : Int) : Bool :=
  let point := n * Power.ten k.toNat * i.unit
  let grid := Power.ten (-k).toNat * i.scale
  if i.closed then i.low * grid ≤ point && point ≤ i.high * grid
  else i.low * grid < point && point < i.high * grid

/-- The largest `n` with `n · 10 ^ k` at most the number. -/
def Interval.floor (i : Interval) (k : Int) : Nat :=
  i.value * i.scale * Power.ten (-k).toNat / (i.unit * Power.ten k.toNat)

/-- Twice the number, compared with the sum of its two neighbours on the grid of `10 ^ k`. -/
def Interval.compareMiddle (i : Interval) (n : Nat) (k : Int) : Ordering :=
  compare (2 * i.value * i.scale * Power.ten (-k).toNat)
    ((2 * n + 1) * Power.ten k.toNat * i.unit)

/-- Of the two neighbours on the grid of `10 ^ k`, the one that reads back; of two, the nearer,
    and of two equally near the even one. -/
def Interval.onGrid? (i : Interval) (k : Int) : Option Nat :=
  let n := i.floor k
  match i.contains n k, i.contains (n + 1) k with
  | true, false => some n
  | false, true => some (n + 1)
  | false, false => none
  | true, true =>
    match i.compareMiddle n k with
    | .lt => some n
    | .gt => some (n + 1)
    | .eq => some (if n % 2 = 0 then n else n + 1)

/-- The exponent of the leading decimal digit of a positive number, raised from an estimate that
    is never too high. -/
def Interval.leading (i : Interval) (estimate : Int) : Nat → Int
  | 0 => estimate
  | steps + 1 =>
    if i.floor (estimate + 1) = 0 then estimate else i.leading (estimate + 1) steps

/-- The fewest digits that read back as the magnitude of a finite number. -/
def shortest (x : Binary64) : Digits :=
  if x.isZero then ⟨0, 0⟩
  else
    let i := x.interval
    let binary : Int := x.exponent + x.significand.log2
    let top := i.leading (binary * 30103 / 100000 - 1) 3
    let found := (List.range 17).findSome? fun (n : Nat) =>
      let k := top - (n : Int)
      (i.onGrid? k).map fun d => Digits.mk d k
    match found with
    | some d => d.trim 20
    | none => ⟨x.significand, x.exponent⟩

/-! ## 2. Layout -/

/-- Digits between `1e-5` and `1e16` are written positionally, with a digit on either side of the
    point; other digits get an exponent with its sign. -/
def Digits.text (d : Digits) : String :=
  let ds := toString d.digits
  let point : Int := ds.length + d.exponent
  let zeros (n : Int) : String := String.ofList (List.replicate n.toNat '0')
  if d.digits = 0 then "0.0"
  else if -5 < point ∧ point ≤ 16 then
    if 0 ≤ d.exponent then ds ++ zeros d.exponent ++ ".0"
    else if 0 < point then (ds.take point.toNat).toString ++ "." ++ (ds.drop point.toNat).toString
    else "0." ++ zeros (-point) ++ ds
  else
    let power := point - 1
    let tail := (ds.drop 1).toString
    (ds.take 1).toString ++ (if tail.isEmpty then "" else "." ++ tail) ++
      (if power < 0 then "e-" else "e+") ++ toString power.natAbs

/-- The text of a finite number. -/
def text (x : Binary64) : String :=
  (if x.negative then "-" else "") ++ x.shortest.text

end Binary64

end QuerySheet

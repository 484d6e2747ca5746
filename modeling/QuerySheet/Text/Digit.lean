/-!
# Digits

* `Digit.value` is the value of a decimal digit, `Digit.number` the number that decimal digits
  write, the first digit counting most;
* `Digit.sign` takes the sign off a number, `Digit.signed` puts it back on;
* `Digit.hex?` is the value of a hexadecimal digit, `Digit.numberIn` the number that digits write
  in a base.
-/

namespace QuerySheet.Digit

/-! ## 1. Decimal digits -/

def value (c : Char) : Nat := c.toNat - '0'.toNat

def number (ds : List Char) : Nat := ds.foldl (fun n c => 10 * n + value c) 0

/-- A digit at the end counts once, and all before it ten times. -/
theorem number_concat (ds : List Char) (c : Char) :
    number (ds ++ [c]) = 10 * number ds + value c := by
  simp only [number, List.foldl_append, List.foldl_cons, List.foldl_nil]

/-! ## 2. Signs -/

/-- Whether a minus stands in front of a number, and what follows the sign. -/
def sign : List Char → Bool × List Char
  | '-' :: cs => (true, cs)
  | '+' :: cs => (false, cs)
  | cs => (false, cs)

theorem length_sign_le (cs : List Char) : (sign cs).2.length ≤ cs.length := by
  unfold sign
  split <;> simp

def signed (negative : Bool) (n : Nat) : Int := if negative then -n else n

/-! ## 3. Digits of other bases -/

/-- The letters of both cases are digits from ten on. -/
def hex? (c : Char) : Option Nat :=
  if '0' ≤ c ∧ c ≤ '9' then some (value c)
  else if 'a' ≤ c ∧ c ≤ 'f' then some (c.toNat - 'a'.toNat + 10)
  else if 'A' ≤ c ∧ c ≤ 'F' then some (c.toNat - 'A'.toNat + 10)
  else none

def isIn (base : Nat) (c : Char) : Bool := (hex? c).any (· < base)

/-- What is no digit counts as zero. -/
def numberIn (base : Nat) (ds : List Char) : Nat :=
  ds.foldl (fun n c => base * n + (hex? c).getD 0) 0

end QuerySheet.Digit

/-!
# Powers and widths

The powers of two and ten that numbers are made of, and the integers that a number of bits holds.
-/

namespace QuerySheet

namespace Power

def two (n : Nat) : Nat := Nat.pow 2 n

def ten (n : Nat) : Nat := Nat.pow 10 n

end Power

/-- Whether some bits, of which one is the sign, hold an integer. -/
def fitsSigned (bits : Nat) (n : Int) : Bool :=
  -(Power.two (bits - 1) : Int) ≤ n && n < Power.two (bits - 1)

/-- Whether some bits without a sign hold an integer. -/
def fitsUnsigned (bits : Nat) (n : Int) : Bool := 0 ≤ n && n < Power.two bits

end QuerySheet

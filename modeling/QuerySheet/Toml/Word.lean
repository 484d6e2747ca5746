import QuerySheet.Text.Separated
import QuerySheet.Toml.Token
import QuerySheet.Toml.Value

/-!
# Words that are values

`Value.ofWord?` reads a boolean, an integer, a floating-point number, or a date or time.

* an underscore may stand between two digits;
* a decimal number does not start with a zero that another digit follows; hexadecimal, octal and
  binary numbers may, but take no sign;
* an integer has at most 128 bits, of which its reader may want fewer;
* a floating-point number is the nearest to its text;
* a number that is larger than that is there, but cannot be read. So is a text that only has the
  outline of an integer.
-/

namespace QuerySheet.Toml

namespace Value

/-! ## 1. Digits -/

/-- Digits without the underscores between them; there is at least one. -/
def digits? (isDigit : Char → Bool) : List Char → Option (List Char)
  | [] => none
  | [c] => if isDigit c then some [c] else none
  | c :: '_' :: rest => if isDigit c then (digits? isDigit rest).map (c :: ·) else none
  | c :: rest => if isDigit c then (digits? isDigit rest).map (c :: ·) else none

/-- Decimal digits that may stand before a point. -/
def whole? (cs : List Char) : Option (List Char) :=
  (digits? Char.isDigit cs).filter fun ds => ds.head? != some '0' || ds.length = 1

/-! ## 2. Numbers -/

def integerIn? (base : Nat) (cs : List Char) : Option Int :=
  (digits? (Digit.isIn base) cs).map fun ds => Digit.numberIn base ds

def integer? (cs : List Char) : Option Int :=
  match cs with
  | '0' :: 'x' :: rest => integerIn? 16 rest
  | '0' :: 'o' :: rest => integerIn? 8 rest
  | '0' :: 'b' :: rest => integerIn? 2 rest
  | cs =>
    let (negative, rest) := Digit.sign cs
    (whole? rest).map fun ds => Digit.signed negative (Digit.number ds)

/-- The exponent of a number after its mark; an empty text has none. -/
def exponent? : List Char → Option Int
  | [] => some 0
  | _ :: cs =>
    let (negative, rest) := Digit.sign cs
    (digits? Char.isDigit rest).map fun ds => Digit.signed negative (Digit.number ds)

/-- The digits after the point; an empty text has none. -/
def fraction? : List Char → Option (List Char)
  | [] => some []
  | '.' :: cs => digits? Char.isDigit cs
  | _ => none

def isExponentMark (c : Char) : Bool := c = 'e' || c = 'E'

def finite? (cs : List Char) : Option Value := do
  let (negative, rest) := Digit.sign cs
  let mantissa := rest.takeWhile (!isExponentMark ·)
  let whole ← whole? (mantissa.takeWhile (· != '.'))
  let fraction ← fraction? (mantissa.dropWhile (· != '.'))
  let exponent ← exponent? (rest.dropWhile (!isExponentMark ·))
  let x := Binary64.ofDecimal negative (Digit.number (whole ++ fraction))
    (exponent - fraction.length)
  return x.elim .unreadable .float

def infinity : Binary64 := ⟨0x7FF0000000000000⟩

def negativeInfinity : Binary64 := ⟨0xFFF0000000000000⟩

def notANumber : Binary64 := ⟨0x7FF8000000000000⟩

def float? (cs : List Char) : Option Value :=
  match String.ofList cs with
  | "inf" | "+inf" => some (.float infinity)
  | "-inf" => some (.float negativeInfinity)
  | "nan" | "+nan" | "-nan" => some (.float notANumber)
  | _ => finite? cs

/-! ## 3. Outlines -/

/-- Whether groups of characters may stand after the underscores of an integer: a character on
    either side of an underscore is a digit of some base. -/
def areGroups : List (List Char) → Bool
  | [] => true
  | group :: rest =>
    group.head?.any (Digit.isIn 16) && (rest.isEmpty || group.getLast?.any (Digit.isIn 16)) &&
      areGroups rest

/-- Whether a text has the outline of an integer: a base alone, or a decimal number that goes on
    after an underscore with anything but a point or an exponent. -/
def isOutline : List Char → Bool
  | ['0', 'x'] | ['0', 'o'] | ['0', 'b'] => true
  | cs =>
    match Separated.parts '_' (Digit.sign cs).2 with
    | digits :: group :: groups =>
      digits.all Char.isDigit && digits.head?.any (· != '0') && areGroups (group :: groups) &&
        !cs.any fun c => c = '.' || isExponentMark c
    | _ => false

/-! ## 4. Words -/

def boolean? (cs : List Char) : Option Bool :=
  match String.ofList cs with
  | "true" => some true
  | "false" => some false
  | _ => none

def ofInteger (n : Int) : Value :=
  if fitsSigned 128 n || fitsUnsigned 128 n then .integer n else .unreadable

/-- The value of a word. -/
def ofWord? (cs : List Char) : Option Value :=
  match boolean? cs, integer? cs with
  | some b, _ => some (.boolean b)
  | none, some n => some (ofInteger n)
  | none, none =>
    match float? cs, Datetime.ofChars? cs with
    | some v, _ => some v
    | none, some d => some (.datetime d)
    | none, none => if isOutline cs then some .unreadable else none

end Value

end QuerySheet.Toml

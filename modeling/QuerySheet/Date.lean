import QuerySheet.Text.Digit

/-!
# Dates as integers

A date is stored as the integer of its digits: `20200115`, `202001` without the day, `2020` without
the month. `Date.parse?` reads the dashed form, `Date.format?` writes it back, going by the number
of digits.
-/

namespace QuerySheet.Date

/-- The integer of `YYYY-MM-DD`, `YYYY-MM` or `YYYY`; the whole text must have the form. -/
def parseChars? : List Char → Option Nat
  | [y, e, a, r] => digits? [y, e, a, r]
  | [y, e, a, r, '-', m, n] => digits? [y, e, a, r, m, n]
  | [y, e, a, r, '-', m, n, '-', d, t] => digits? [y, e, a, r, m, n, d, t]
  | _ => none
where
  digits? (ds : List Char) : Option Nat :=
    if ds.all Char.isDigit then some (Digit.number ds) else none

def parse? (text : String) : Option Nat := parseChars? text.toList

/-- The dashed form of the decimal text of an integer: eight characters are a date, six a month
    and four a year. -/
def dashed? : List Char → Option (List Char)
  | [y, e, a, r] => some [y, e, a, r]
  | [y, e, a, r, m, n] => some [y, e, a, r, '-', m, n]
  | [y, e, a, r, m, n, d, t] => some [y, e, a, r, '-', m, n, '-', d, t]
  | _ => none

def format? (n : Int) : Option String := (dashed? (toString n).toList).map String.ofList

end QuerySheet.Date

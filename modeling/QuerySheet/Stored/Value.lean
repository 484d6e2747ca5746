import QuerySheet.Date
import QuerySheet.Json.Printer
import QuerySheet.Json.Reader
import QuerySheet.ValueType

/-!
# Stored values

A database column holds less than JSON: dates are integers, booleans are zero and one, and JSON is
text. `Stored.encode` takes a parameter to its stored form, `Stored.decode` takes a column back.
-/

namespace QuerySheet.Stored

/-- Why a parameter has no stored form. -/
inductive Error where
  | invalidDate (type : ValueType) (value : Json)
  | unexpected (expected : ValueType) (value : Json)
  deriving DecidableEq, Repr

def Error.message : Error → String
  | .invalidDate type value => "Invalid date for " ++ type.name ++ ": " ++ value.compact
  | .unexpected expected value => "Expected " ++ expected.name ++ ", got " ++ value.compact

/-! ## 1. Parameters -/

/-- The first `size` bytes of a text, if the text has as many and no character is cut. -/
def bytesPrefix? (size : Nat) (cs : List Char) : Option (List Char) :=
  match size, cs with
  | 0, _ => some []
  | _, [] => none
  | size, c :: rest =>
    if size < c.utf8Size then none else (bytesPrefix? (size - c.utf8Size) rest).map (c :: ·)
termination_by cs.length

/-- A date is stored by its digits. Of a longer text only the date in front counts, and a number is
    taken as stored already. -/
def encodeDate (type : ValueType) (size : Nat) (value : Json) : Except Error Json :=
  match value with
  | .null => .ok .null
  | .number _ => .ok value
  | .string s =>
    match (bytesPrefix? size s.toList).bind Date.parseChars? with
    | some n => .ok (.int n)
    | none => .error (.invalidDate type value)
  | _ => .error (.invalidDate type value)

/-- The stored form of a parameter of a type. -/
def encode (value : Json) (type : ValueType) : Except Error Json :=
  match type with
  | .date => encodeDate type 10 value
  | .dateMonth => encodeDate type 7 value
  | .dateYear => encodeDate type 4 value
  | .boolean =>
    match value with
    | .bool b => .ok (.int (if b then 1 else 0))
    | .null => .ok (.int 0)
    | .number _ => .ok value
    | _ => .error (.unexpected type value)
  | .id =>
    match value with
    | .string _ | .null => .ok value
    | _ => .error (.unexpected type value)
  | .json | .jsonFallback =>
    match value with
    | .null => .ok .null
    | _ => .ok (.string value.compact)
  | _ => .ok value

/-! ## 2. Columns -/

/-- The value of a stored column of a type. What is not in the stored form stays as it is; text
    that is no JSON is null as `json` and text as `json/fallback`. -/
def decode (value : Json) (type : ValueType) : Json :=
  match type, value with
  | .boolean, .null => .bool false
  | .boolean, .number _ => .bool (value = .int 1)
  | .date, .number _ | .dateMonth, .number _ | .dateYear, .number _ =>
    match value.int64?.bind Date.format? with
    | some text => .string text
    | none => value
  | .json, .string s => (Json.parse? s).getD .null
  | .jsonFallback, .string s => (Json.parse? s).getD value
  | _, _ => value

end QuerySheet.Stored

/-!
# Types of stored fields and of compiled values

* `FieldType` is what a schema may say of a column;
* `ValueType` is what a compiled value may have: the types of fields, the two truncated dates, and
  the types of values that are in no column (an array, a null, anything, an unbound parameter).
-/

namespace QuerySheet

/-- The type of a column. -/
inductive FieldType where
  | id
  | boolean
  | string
  | integer
  | float
  | date
  | json
  /-- JSON text where it parses, plain text where it does not. -/
  | jsonFallback
  deriving DecidableEq, Repr, Inhabited

/-- The type of a compiled value. -/
inductive ValueType where
  | id
  | boolean
  | string
  | integer
  | float
  | date
  | json
  | jsonFallback
  /-- A date without its day. -/
  | dateMonth
  /-- A date without its day and month. -/
  | dateYear
  | array
  | null
  | any
  /-- A parameter whose type is not known yet. -/
  | param
  deriving DecidableEq, Repr, Inhabited

namespace FieldType

def name : FieldType → String
  | .id => "id"
  | .boolean => "boolean"
  | .string => "string"
  | .integer => "integer"
  | .float => "float"
  | .date => "date"
  | .json => "json"
  | .jsonFallback => "json/fallback"

def ofName? : String → Option FieldType
  | "id" => some .id
  | "boolean" => some .boolean
  | "string" => some .string
  | "integer" => some .integer
  | "float" => some .float
  | "date" => some .date
  | "json" => some .json
  | "json/fallback" => some .jsonFallback
  | _ => none

/-- The type of a value read from a column. -/
def valueType : FieldType → ValueType
  | .id => .id
  | .boolean => .boolean
  | .string => .string
  | .integer => .integer
  | .float => .float
  | .date => .date
  | .json => .json
  | .jsonFallback => .jsonFallback

theorem ofName?_name (t : FieldType) : ofName? t.name = some t := by
  cases t <;> rfl

end FieldType

namespace ValueType

def name : ValueType → String
  | .id => "id"
  | .boolean => "boolean"
  | .string => "string"
  | .integer => "integer"
  | .float => "float"
  | .date => "date"
  | .json => "json"
  | .jsonFallback => "json/fallback"
  | .dateMonth => "date-month"
  | .dateYear => "date-year"
  | .array => "array"
  | .null => "null"
  | .any => "any"
  | .param => "param"

def ofName? : String → Option ValueType
  | "id" => some .id
  | "boolean" => some .boolean
  | "string" => some .string
  | "integer" => some .integer
  | "float" => some .float
  | "date" => some .date
  | "json" => some .json
  | "json/fallback" => some .jsonFallback
  | "date-month" => some .dateMonth
  | "date-year" => some .dateYear
  | "array" => some .array
  | "null" => some .null
  | "any" => some .any
  | "param" => some .param
  | _ => none

theorem ofName?_name (t : ValueType) : ofName? t.name = some t := by
  cases t <;> rfl

/-- Whether a parameter first used as `existing` may also be used as `requested`. -/
def accepts (existing requested : ValueType) : Bool :=
  existing == requested ||
    match requested, existing with
    | .date, .string => true
    | .dateMonth, .date => true
    | .dateYear, .date => true
    | .dateYear, .dateMonth => true
    | .id, .string => true
    | .float, .integer => true
    | _, _ => false

theorem accepts_self (type : ValueType) : type.accepts type = true := by
  simp [accepts]

end ValueType

end QuerySheet

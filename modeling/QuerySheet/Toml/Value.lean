import QuerySheet.Json.Record
import QuerySheet.Toml.Datetime

/-!
# Values of a settings file

* `Toml.Value` is a value of a settings file. The entries of a table are kept in the order of
  their names;
* `Value.toDraft` shows a value to the readers of records, which know JSON: a date or time is an
  object with one field of a reserved name;
* `Value.ofDraft?` is its inverse on drafts that are values of a settings file: null is none, and
  an integer has 64 bits with its sign. An object whose first field has the reserved name is a date
  or time, whatever the fields after it, if those are ignored;
* `Value.toJson` is the value as JSON, with null for a number that is not finite.
-/

namespace QuerySheet.Toml

/-- The field that marks a date or time in JSON. -/
def datetimeKey : String := "$__toml_private_datetime"

inductive Value where
  | string (s : String)
  | integer (n : Int)
  | float (x : Binary64)
  /-- A number that cannot be read. -/
  | unreadable
  | boolean (b : Bool)
  | datetime (d : Datetime)
  | array (items : List Value)
  | table (entries : List (String × Value))
  deriving Repr, Inhabited

namespace Value

/-- What a value is called in messages. -/
def kind : Value → String
  | .string _ => "string"
  | .integer _ => "integer"
  | .float _ => "float"
  | .unreadable => "number"
  | .boolean _ => "boolean"
  | .datetime _ => "datetime"
  | .array _ => "array"
  | .table _ => "table"

def isTable : Value → Bool
  | .table _ => true
  | _ => false

/-- An entry put in its place in the order of names; an entry of the same name is replaced. -/
def insertEntry (name : String) (v : Value) : List (String × Value) → List (String × Value)
  | [] => [(name, v)]
  | (k, w) :: rest =>
    match compare name k with
    | .lt => (name, v) :: (k, w) :: rest
    | .eq => (name, v) :: rest
    | .gt => (k, w) :: insertEntry name v rest

/-- Entries in the order of their names, of a repeated name the last. -/
def sortEntries (entries : List (String × Value)) : List (String × Value) :=
  entries.foldl (fun acc entry => insertEntry entry.1 entry.2 acc) []

mutual

def toDraft : Value → Json.Draft
  | .string s => .string (some s)
  | .integer n => .number (some (.int n))
  | .float x => .number (some (.float x))
  | .unreadable => .number none
  | .boolean b => .bool b
  | .datetime d => .object [(some datetimeKey, .string (some d.text))]
  | .array items => .array (toDrafts items)
  | .table entries => .object (toFields entries)

def toDrafts : List Value → List Json.Draft
  | [] => []
  | v :: rest => v.toDraft :: toDrafts rest

def toFields : List (String × Value) → List (Option String × Json.Draft)
  | [] => []
  | (name, v) :: rest => (some name, v.toDraft) :: toFields rest

end

mutual

def ofDraft? (surplus : Json.Surplus) : Json.Draft → Option Value
  | .null => none
  | .bool b => some (.boolean b)
  | .number (some (.int n)) => if fitsSigned 64 n then some (.integer n) else none
  | .number (some (.float x)) => some (.float x)
  | .number none => none
  | .string s => s.map .string
  | .array items => (ofDrafts? surplus items).map .array
  | .object fields =>
    match fields with
    | (some name, v) :: rest =>
      if name = datetimeKey then
        match v with
        | .string (some text) =>
          if surplus = .refused && !rest.isEmpty then none
          else (Datetime.parse? text).map .datetime
        | _ => none
      else do
        let v ← ofDraft? surplus v
        let entries ← ofFields? surplus rest
        return .table (sortEntries ((name, v) :: entries))
    | (none, _) :: _ => none
    | [] => some (.table [])

def ofDrafts? (surplus : Json.Surplus) : List Json.Draft → Option (List Value)
  | [] => some []
  | v :: rest => do return (← ofDraft? surplus v) :: (← ofDrafts? surplus rest)

def ofFields? (surplus : Json.Surplus) :
    List (Option String × Json.Draft) → Option (List (String × Value))
  | [] => some []
  | (name, v) :: rest => do return (← name, ← ofDraft? surplus v) :: (← ofFields? surplus rest)

end

mutual

def toJson : Value → Json
  | .string s => .string s
  | .integer n => .int n
  | .float x => if x.isFinite then .number (.float x) else .null
  | .unreadable => .null
  | .boolean b => .bool b
  | .datetime d => .object [(datetimeKey, .string d.text)]
  | .array items => .array (toJsons items)
  | .table entries => .object (toJsonFields entries)

def toJsons : List Value → List Json
  | [] => []
  | v :: rest => v.toJson :: toJsons rest

def toJsonFields : List (String × Value) → Fields
  | [] => []
  | (name, v) :: rest => (name, v.toJson) :: toJsonFields rest

end

end Value

end QuerySheet.Toml

import QuerySheet.Json.Reader

/-!
# Records in JSON

A record of declared fields is written as an object with the fields by name, or as an array with
the fields in their declared order. `Draft.record?` reads both forms; a field that is not given is
left to the caller, unknown names are ignored, and a declared field given twice is refused.
The other readers here take a draft of one field to its value.

Every reader has an allowance of `depth` further containers. `Surplus` says what becomes of the
parts of a container that its reader has no use for.
-/

namespace QuerySheet.Json

/-- Whether parts of a container that nobody asks for may be there. -/
inductive Surplus where
  | refused
  | ignored
  deriving DecidableEq, Repr

namespace Draft

/-- The drafts of the declared fields, in order; `none` where a field is not given. An array may
    not be longer. -/
def record? (depth : Nat) (names : List String) : Draft → Option (List (Option Draft))
  | .array items =>
    if depth = 0 ∨ names.length < items.length then none
    else some (items.map some ++ List.replicate (names.length - items.length) none)
  | .object fields => do
    if depth = 0 then none
    let named ← fields.mapM fun (name, v) => name.map (·, v)
    if names.any fun name => 1 < named.countP (·.1 == name) then none
    return names.map fun name => named.lookup name
  | _ => none

/-- The first items of an array; any other draft is as it was. -/
def truncate (count : Nat) : Draft → Draft
  | .array items => .array (items.take count)
  | v => v

mutual

/-- Whether all numbers and texts of a draft have values. -/
def isReadable : Draft → Bool
  | .number none | .string none => false
  | .array items => areReadable items
  | .object fields => haveReadable fields
  | _ => true

def areReadable : List Draft → Bool
  | [] => true
  | v :: rest => v.isReadable && areReadable rest

def haveReadable : List (Option String × Draft) → Bool
  | [] => true
  | (name, v) :: rest => name.isSome && v.isReadable && haveReadable rest

end

/-- The fields of a draft whose names are not among some. -/
def others (names : List String) : Draft → List (Option String × Draft)
  | .object fields => fields.filter fun (name, _) => !name.any names.contains
  | _ => []

/-- A record of which the items beyond the last field are refused or ignored. Fields of other names
    must have values, though nobody asks for them. -/
def recordUpTo? (surplus : Surplus) (depth : Nat) (names : List String) (v : Draft) :
    Option (List (Option Draft)) :=
  if haveReadable (v.others names) then
    match surplus with
    | .refused => record? depth names v
    | .ignored => record? depth names (v.truncate names.length)
  else none

/-- The drafts of an object's fields, every name with a value. -/
def entries? (depth : Nat) : Draft → Option (List (String × Draft))
  | .object fields =>
    if depth = 0 then none else fields.mapM fun (name, v) => name.map (·, v)
  | _ => none

/-- The drafts of an array's items. -/
def items? (depth : Nat) : Draft → Option (List Draft)
  | .array items => if depth = 0 then none else some items
  | _ => none

def text? : Draft → Option String
  | .string s => s
  | _ => none

def bool? : Draft → Option Bool
  | .bool b => some b
  | _ => none

/-- A whole number from zero up to below `2 ^ 64`. -/
def natural? : Draft → Option Nat
  | .number (some (.int n)) => if fitsUnsigned 64 n then some n.toNat else none
  | _ => none

/-- A field that may be left out, when it has a value to fall back to. -/
def given {α : Type} (fallback : α) (read? : Draft → Option α) : Option Draft → Option α
  | none => some fallback
  | some v => read? v

/-- A field that may be left out or null. -/
def optional {α : Type} (read? : Draft → Option α) : Option Draft → Option (Option α)
  | none => some none
  | some .null => some none
  | some v => (read? v).map some

/-- One of several names, written as a string or as an object with the name as its only field and
    null as its value. -/
def choice? : Draft → Option String
  | .string s => s
  | .object [(name, .null)] => name
  | _ => none

/-- An array of values. -/
def values? (depth : Nat) (v : Draft) : Option (List Json) := do
  (← v.items? depth).mapM fun item => item.toJson? (depth - 1)

end Draft

end QuerySheet.Json

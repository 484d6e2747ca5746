import QuerySheet.Json.Token

/-!
# Reading JSON texts

A text is read in two steps:

* `Draft.parse?` checks its grammar with a machine that keeps the open containers on a stack. The
  result is a `Draft`: every field as it is written, repeated names included, and numbers and
  strings that may have a form without a value;
* `Draft.toJson?` makes a value of a draft: it wants a value of every number and string, refuses
  containers nested deeper than its allowance, and lets the last field of a name win.

The two steps are apart because a description that ignores unknown fields (`Draft.toJson?` is
never asked for those) still refuses a text that is no JSON, and because some readers refuse a
repeated field.
-/

namespace QuerySheet.Json

/-! ## 1. Drafts -/

/-- A text as it is written. -/
inductive Draft where
  | null
  | bool (b : Bool)
  | number (n : Option Number)
  | string (s : Option String)
  | array (items : List Draft)
  | object (fields : List (Option String × Draft))
  deriving Repr, Inhabited

namespace Draft

/-- A container that is still open, its members backwards; in an object the field name that waits
    for its value. -/
inductive Open where
  | array (items : List Draft)
  | object (fields : List (Option String × Draft)) (name : Option String)

/-- What may come next. -/
inductive Expectation where
  /-- A value, or the end of the container when it may be empty. -/
  | value (orEnd : Bool)
  /-- A field name, or the end of the object when it may be empty. -/
  | name (orEnd : Bool)
  | colon
  | separator
  | nothing

/-- The machine between two tokens: the open containers, innermost first, and the whole value once
    it is complete. -/
structure Progress where
  stack : List Open
  expected : Expectation
  result : Option Draft

def Progress.start : Progress := ⟨[], .value false, none⟩

/-- A value is complete: it becomes a member of the innermost container, or the result. -/
def Progress.complete (stack : List Open) (v : Draft) : Progress :=
  match stack with
  | [] => ⟨[], .nothing, some v⟩
  | .array items :: rest => ⟨.array (v :: items) :: rest, .separator, none⟩
  | .object fields name :: rest => ⟨.object ((name, v) :: fields) none :: rest, .separator, none⟩

/-- The end of the innermost container. -/
def Progress.close (p : Progress) (t : Token) : Option Progress :=
  match t, p.stack with
  | .endArray, .array items :: rest => some (complete rest (.array items.reverse))
  | .endObject, .object fields _ :: rest => some (complete rest (.object fields.reverse))
  | _, _ => none

/-- The draft of a token that is a value by itself. -/
def ofToken? : Token → Option Draft
  | .null => some .null
  | .bool b => some (.bool b)
  | .number n => some (.number n)
  | .string s => some (.string s)
  | _ => none

/-- One token. -/
def Progress.step (p : Progress) (t : Token) : Option Progress :=
  match p.expected, t with
  | .value orEnd, t =>
    match t, ofToken? t with
    | _, some v => some (complete p.stack v)
    | .beginArray, _ => some ⟨.array [] :: p.stack, .value true, none⟩
    | .beginObject, _ => some ⟨.object [] none :: p.stack, .name true, none⟩
    | .endArray, _ => if orEnd then p.close .endArray else none
    | _, _ => none
  | .name _, .string s =>
    match p.stack with
    | .object fields _ :: rest => some ⟨.object fields s :: rest, .colon, none⟩
    | _ => none
  | .name orEnd, .endObject => if orEnd then p.close .endObject else none
  | .colon, .colon => some { p with expected := .value false }
  | .separator, .comma =>
    match p.stack with
    | .array _ :: _ => some { p with expected := .value false }
    | .object _ _ :: _ => some { p with expected := .name false }
    | [] => none
  | .separator, t => p.close t
  | _, _ => none

/-- The draft of a text that is one JSON value with blanks around its tokens. -/
def parse? (text : String) : Option Draft := do
  let tokens ← Token.scan text.toList
  let finished ← tokens.foldlM Progress.step Progress.start
  finished.result

/-! ## 2. Values -/

/-- How deep containers may be nested in a text. -/
def maxDepth : Nat := 127

mutual

/-- The value of a draft whose containers are nested at most `depth` deep. -/
def toJson? (depth : Nat) : Draft → Option Json
  | .null => some .null
  | .bool b => some (.bool b)
  | .number n => n.map .number
  | .string s => s.map .string
  | .array items => if depth = 0 then none else (toItems? (depth - 1) items).map .array
  | .object fields =>
    if depth = 0 then none
    else (toFields? (depth - 1) fields).map fun fs => .object (Fields.ofList fs)

def toItems? (depth : Nat) : List Draft → Option (List Json)
  | [] => some []
  | v :: rest => do return (← toJson? depth v) :: (← toItems? depth rest)

def toFields? (depth : Nat) : List (Option String × Draft) → Option Fields
  | [] => some []
  | (name, v) :: rest => do return (← name, ← toJson? depth v) :: (← toFields? depth rest)

end

mutual

/-- A value as a draft. -/
def ofJson : Json → Draft
  | .null => .null
  | .bool b => .bool b
  | .number n => .number (some n)
  | .string s => .string (some s)
  | .array items => .array (ofItems items)
  | .object fields => .object (ofFields fields)

def ofItems : List Json → List Draft
  | [] => []
  | v :: rest => ofJson v :: ofItems rest

def ofFields : List (String × Json) → List (Option String × Draft)
  | [] => []
  | (k, v) :: rest => (some k, ofJson v) :: ofFields rest

end

end Draft

/-- The value of a text. -/
def parse? (text : String) : Option Json := do
  (← Draft.parse? text).toJson? Draft.maxDepth

end QuerySheet.Json

import Std.Data.ExtTreeMap.Lemmas
import QuerySheet.Json.Record
import QuerySheet.Json.Printer
import QuerySheet.ValueType

/-!
# Schemas

A schema names tables, a table names fields, and a field has a type and may be a reference to a
row of another table. Tables and fields are kept in the order of their names.

* `Schema.ofDraft?` reads a schema from JSON, `Schema.toJson` writes it;
* `Schema.dangling?` is the first reference to a table that is not there;
* `Schema.parse` reads a text and refuses a dangling reference;
* a table with a field `tombstone` keeps deleted rows (`Schema.hasTombstone`).
-/

namespace QuerySheet

open Std (ExtTreeMap)

/-! ## 1. Types -/

/-- A field of a table. -/
structure Field where
  type : FieldType
  /-- The table whose rows the field refers to. -/
  references : Option String
  required : Bool
  default : Option Json
  deriving DecidableEq, Repr, Inhabited

/-- The fields of a table, by name. -/
structure Table where
  fields : ExtTreeMap String Field

/-- The tables, by name. -/
structure Schema where
  tables : ExtTreeMap String Table

/-- Why a schema is refused. -/
inductive SchemaError where
  /-- Not JSON, or JSON of another shape. -/
  | malformed
  | unknownReference (table field target : String)
  deriving DecidableEq, Repr

namespace Schema

def empty : Schema := ⟨∅⟩

instance : Inhabited Schema := ⟨empty⟩

def table? (s : Schema) (name : String) : Option Table := s.tables[name]?

def field? (t : Table) (name : String) : Option Field := t.fields[name]?

/-- Rows of a table with a tombstone field are marked when they are deleted. -/
def hasTombstone (s : Schema) (table : String) : Bool :=
  match s.table? table with
  | some t => t.fields.contains "tombstone"
  | none => false

/-- The first field, by table and field name, that refers to a table the schema does not have. -/
def dangling? (s : Schema) : Option (String × String × String) :=
  s.tables.toList.findSome? fun (tableName, t) =>
    t.fields.toList.findSome? fun (fieldName, f) =>
      match f.references with
      | some target =>
        if s.tables.contains target then none else some (tableName, fieldName, target)
      | none => none

/-- Fails with the first dangling reference. -/
def validate (s : Schema) : Except SchemaError Unit :=
  match s.dangling? with
  | some (table, field, target) => .error (.unknownReference table field target)
  | none => .ok ()

end Schema

def SchemaError.message : SchemaError → String
  | .malformed => "Failed to parse schema"
  | .unknownReference table field target =>
    "Field \"" ++ field ++ "\" on table \"" ++ table ++ "\" references unknown table \"" ++
      target ++ "\""

/-! ## 2. Reading -/

namespace Field

/-- The declared order of a field's properties. -/
def properties : List String := ["type", "ref", "required", "default"]

def ofDraft? (depth : Nat) (v : Json.Draft) : Option Field := do
  match ← v.record? depth properties with
  | [some type, references, required, fallback] =>
    return {
      type := ← FieldType.ofName? (← type.choice?)
      references := ← Json.Draft.optional Json.Draft.text? references
      required := ← Json.Draft.given false Json.Draft.bool? required
      default := ← Json.Draft.optional (Json.Draft.toJson? (depth - 1)) fallback }
  | _ => none

def toJson (f : Field) : Json :=
  .object <|
    [("type", Json.string f.type.name)] ++
    (match f.references with | some t => [("ref", .string t)] | none => []) ++
    [("required", .bool f.required)] ++
    (match f.default with | some v => [("default", v)] | none => [])

end Field

namespace Table

def ofDraft? (depth : Nat) (v : Json.Draft) : Option Table := do
  let fields ← (← v.entries? depth).mapM fun (name, f) =>
    return (name, ← Field.ofDraft? (depth - 1) f)
  return ⟨fields.foldl (fun m (name, f) => m.insert name f) ∅⟩

def toJson (t : Table) : Json := .object (t.fields.toList.map fun (name, f) => (name, f.toJson))

end Table

namespace Schema

/-- Of a table or a field given twice the last one counts. -/
def ofDraft? (depth : Nat) (v : Json.Draft) : Option Schema := do
  let tables ← (← v.entries? depth).mapM fun (name, t) =>
    return (name, ← Table.ofDraft? (depth - 1) t)
  return ⟨tables.foldl (fun m (name, t) => m.insert name t) ∅⟩

def toJson (s : Schema) : Json := .object (s.tables.toList.map fun (name, t) => (name, t.toJson))

/-- A schema read from a draft, with every reference checked. -/
def ofDraft (v : Json.Draft) : Except SchemaError Schema :=
  match ofDraft? Json.Draft.maxDepth v with
  | none => .error .malformed
  | some s =>
    match s.validate with
    | .error e => .error e
    | .ok () => .ok s

/-- A schema read from a text. -/
def parse (text : String) : Except SchemaError Schema :=
  match Json.Draft.parse? text with
  | none => .error .malformed
  | some v => ofDraft v

/-- The tables that keep deleted rows, by name. -/
def tombstoneTables (s : Schema) : List String :=
  s.tables.keys.filter s.hasTombstone

end Schema

end QuerySheet

import QuerySheet.Json.Record
import QuerySheet.Json.Printer

/-!
# Queries

A query names a root table and lists filter, select, group and order expressions, all of them
JSON. A query is a value: each operation gives another query and leaves its argument as it is.

* the operations of section 2 build a query step by step;
* `Query.toJson` writes a query, `Query.ofDraft?` reads one;
* `Query.isAggregate` says whether the rows of a query are groups of stored rows.
-/

namespace QuerySheet

/-! ## 1. Descriptions -/

structure Query where
  table : String
  filters : List Json := []
  selection : List Json := []
  groups : List Json := []
  orders : List Json := []
  /-- The result is one value, and not a list of rows. -/
  calculation : Bool := false
  /-- Leave out the filters that the policy has for a table. -/
  raw : Bool := false
  /-- Keep rows that are marked as deleted. -/
  withDead : Bool := false
  /-- Read a reference through the row it refers to, so that it is null where there is none. -/
  validateRefs : Bool := true
  limit : Option Nat := none
  offset : Option Nat := none
  /-- Passed on to the policy's views. -/
  options : Option Json := none
  deriving DecidableEq, Repr, Inhabited

namespace Query

/-- An array stands for its items, any other value for itself. -/
def listed : Json → List Json
  | .array items => items
  | v => [v]

/-! ## 2. Building -/

/-- Adds a condition; all conditions must hold. -/
def filter (q : Query) (condition : Json) : Query :=
  { q with filters := q.filters ++ [condition] }

/-- Removes the conditions that test one of the given names. -/
def unfilter (q : Query) (names : List String) : Query :=
  { q with filters := q.filters.filter fun
    | .object fields => !fields.any fun (k, _) => names.contains k
    | _ => true }

/-- Replaces the select list. -/
def select (q : Query) (expressions : Json) : Query :=
  { q with selection := listed expressions, calculation := false }

/-- Selects one expression, whose value is the result. -/
def calculate (q : Query) (expression : Json) : Query :=
  { q with selection := [.object [("result", expression)]], calculation := true }

def groupBy (q : Query) (expressions : Json) : Query :=
  { q with groups := q.groups ++ listed expressions }

def orderBy (q : Query) (expressions : Json) : Query :=
  { q with orders := q.orders ++ listed expressions }

def take (q : Query) (n : Nat) : Query := { q with limit := some n }

def skip (q : Query) (n : Nat) : Query := { q with offset := some n }

def inRawMode (q : Query) : Query := { q with raw := true }

def includingDead (q : Query) : Query := { q with withDead := true }

def withoutValidatedRefs (q : Query) : Query := { q with validateRefs := false }

def withOptions (q : Query) (options : Json) : Query := { q with options := some options }

/-! ## 3. Reading and writing -/

/-- The declared order of a query's properties. -/
def properties : List String :=
  ["table", "filterExpressions", "selectExpressions", "groupExpressions", "orderExpressions",
    "calculation", "rawMode", "withDead", "validateRefs", "limit", "offset", "tableOptions"]

/-- The limit, the offset and the options appear only if they are set. -/
def toJson (q : Query) : Json :=
  .object <|
    [("table", Json.string q.table), ("filterExpressions", .array q.filters),
      ("selectExpressions", .array q.selection), ("groupExpressions", .array q.groups),
      ("orderExpressions", .array q.orders), ("calculation", .bool q.calculation),
      ("rawMode", .bool q.raw), ("withDead", .bool q.withDead),
      ("validateRefs", .bool q.validateRefs)] ++
    (match q.limit with | some n => [("limit", .int n)] | none => []) ++
    (match q.offset with | some n => [("offset", .int n)] | none => []) ++
    (match q.options with | some v => [("tableOptions", v)] | none => [])

def ofDraft? (depth : Nat) (v : Json.Draft) : Option Query := do
  let list := Json.Draft.given [] (Json.Draft.values? (depth - 1))
  match ← v.record? depth properties with
  | [some table, filters, selection, groups, orders, calculation, raw, withDead, validateRefs,
      limit, offset, options] =>
    return {
      table := ← table.text?
      filters := ← list filters
      selection := ← list selection
      groups := ← list groups
      orders := ← list orders
      calculation := ← Json.Draft.given false Json.Draft.bool? calculation
      raw := ← Json.Draft.given false Json.Draft.bool? raw
      withDead := ← Json.Draft.given false Json.Draft.bool? withDead
      validateRefs := ← Json.Draft.given true Json.Draft.bool? validateRefs
      limit := ← Json.Draft.optional Json.Draft.natural? limit
      offset := ← Json.Draft.optional Json.Draft.natural? offset
      options := ← Json.Draft.optional (Json.Draft.toJson? (depth - 1)) options }
  | _ => none

/-- A query read from a value. No value is nested deeper than its weight. -/
def ofJson? (v : Json) : Option Query := ofDraft? v.weight (.ofJson v)

/-- A query read from a text. -/
def parse? (text : String) : Option Query := do
  ofDraft? Json.Draft.maxDepth (← Json.Draft.parse? text)

end Query

end QuerySheet

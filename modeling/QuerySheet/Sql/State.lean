import Std.Data.ExtTreeMap.Lemmas
import QuerySheet.Schema
import QuerySheet.Sql.Error
import QuerySheet.Sql.Template

/-!
# The state of a compilation

What an expression means depends on where it stands, and compiling it leaves traces in the
statement around it:

* the `Scope` is where it stands: the schema, the table that plain names belong to, the field a
  transformation is applied to, the orders a running sum goes by. It is never changed, only
  replaced for the time of a part (`withReader`);
* the `Ledger` is what has been collected for the statement: joins, bind sites, tables read,
  output types. It is kept when a part fails;
* `Compile` is a computation with both that may fail, and `within` records an entry point on a
  failure that leaves it.
-/

namespace QuerySheet.Sql

open Std (ExtTreeMap)

/-! ## 1. Joins -/

/-- One join along a reference. -/
structure Join where
  /-- The table that is joined. -/
  table : String
  /-- The name the joined rows have in the statement. -/
  label : String
  /-- The referring field of the parent. -/
  field : String
  /-- The alias of the parent. -/
  parent : String
  /-- Join the table itself and no view of it. -/
  direct : Bool
  deriving DecidableEq, Repr

/-- The joins of a statement in the order they were found, each under the dotted path it resolves,
    and where the join of a path stands among them. -/
structure Joins where
  entries : List (String × Join)
  index : ExtTreeMap String Nat

namespace Joins

def empty : Joins := ⟨[], ∅⟩

def get? (js : Joins) (path : String) : Option Join := do
  let place ← js.index[path]?
  let entry ← js.entries[place]?
  return entry.2

def contains (js : Joins) (path : String) : Bool := js.index.contains path

/-- A known path keeps its place and a new one goes to the end. -/
def insert (js : Joins) (path : String) (j : Join) : Joins :=
  match js.index[path]? with
  | some place => { js with entries := js.entries.modify place fun entry => (entry.1, j) }
  | none =>
    { entries := js.entries ++ [(path, j)]
      index := js.index.insert path js.entries.length }

/-- A path that is not there yet is appended. -/
theorem insert_of_not_contains {js : Joins} {path : String} {j : Join}
    (h : js.contains path = false) :
    js.insert path j = ⟨js.entries ++ [(path, j)], js.index.insert path js.entries.length⟩ := by
  have hnone : js.index[path]? = none :=
    ExtTreeMap.getElem?_eq_none_of_contains_eq_false h
  simp only [insert, hnone]

end Joins

/-! ## 2. Bind sites -/

/-- One question mark of the statement. -/
structure Site where
  id : Nat
  /-- The parameter that is bound to it. -/
  name : String
  /-- The type the value is converted to; without one it is bound as it is. -/
  type : Option ValueType
  deriving DecidableEq, Repr

namespace Site

/-- The occurrence of a parameter that is bound. -/
def ref (s : Site) : ParamRef := ⟨s.id, s.name⟩

/-- The sites from `mark` on once more, for a text that repeats. -/
def repeatFrom (sites : List Site) (mark : Nat) : List Site := sites ++ sites.drop mark

/-- The sites from `source` on moved to position `target`, for a text that stands earlier in the
    statement than it was compiled. Positions beyond the end are the end, and nothing moves
    to the right. -/
def move (sites : List Site) (source target : Nat) : List Site :=
  let source := min source sites.length
  let target := min target source
  sites.take target ++ sites.drop source ++ (sites.take source).drop target

end Site

/-! ## 3. Scope and ledger -/

structure Scope where
  schema : Schema
  /-- The table that plain field names belong to. -/
  table : String
  /-- Its name in the statement. -/
  label : String
  /-- The field that a transformation is applied to. -/
  field : Option String
  /-- Read a reference through the row it refers to. -/
  validateRefs : Bool
  /-- The orders that a running sum goes by, in a select list. -/
  orders : Option (List Json)
  /-- The active entry points, innermost first. -/
  frames : List FrameKind

structure Ledger where
  joins : Joins
  /-- The tables that are read, the root first. -/
  dependencies : List String
  /-- The types of the selected columns. -/
  outputTypes : ExtTreeMap String ValueType
  /-- The bind sites in the order of their question marks. -/
  sites : List Site
  /-- The type each parameter was first used as. -/
  paramTypes : ExtTreeMap String ValueType
  /-- How many join aliases have been given out. -/
  aliasCount : Nat
  /-- How many bind sites have been numbered. -/
  siteCount : Nat

namespace Scope

/-- The scope of a query on `table`, which the statement calls `label`. -/
def root (schema : Schema) (table label : String) (validateRefs : Bool) : Scope :=
  { schema, table, label, field := none, validateRefs, orders := none, frames := [] }

/-- How many entry points are active. -/
def depth (s : Scope) : Nat := s.frames.length

end Scope

def Ledger.root (table : String) : Ledger :=
  { joins := .empty, dependencies := [table], outputTypes := ∅, sites := [], paramTypes := ∅,
    aliasCount := 0, siteCount := 0 }

/-! ## 4. Computations -/

/-- A compilation of a part: it reads the scope, adds to the ledger, and may fail. -/
abbrev Compile := ReaderT Scope (ExceptT CompileError (StateM Ledger))

namespace Compile

/-- The outcome of a compilation and the ledger it leaves, whether it fails or not. -/
def outcome {α : Type} (c : Compile α) (scope : Scope) (ledger : Ledger) :
    Except CompileError α × Ledger :=
  (c scope).run ledger

def fail {α : Type} (cause : CompileError.Cause) : Compile α := throw (.ofCause cause)

/-- The value of an option, or a failure. -/
def require {α : Type} (cause : CompileError.Cause) : Option α → Compile α
  | some a => pure a
  | none => fail cause

/-- Runs a part as the entry point `kind`: a failure that leaves it is recorded with `args`. -/
def within {α : Type} (kind : FrameKind) (args : List Json) (part : Compile α) : Compile α :=
  tryCatch (withReader (fun s => { s with frames := kind :: s.frames }) part) fun e =>
    throw (e.within ⟨kind, args⟩)

/-! ## 5. Steps -/

/-- A join alias that was not given out before: the table's name and a running number. -/
def nextAlias (table : String) : Compile String := do
  modify fun l => { l with aliasCount := l.aliasCount + 1 }
  return table ++ toString (← get).aliasCount

/-- A new bind site for a parameter. -/
def pushSite (name : String) : Compile ParamRef := do
  modify fun l =>
    { l with
      siteCount := l.siteCount + 1
      sites := l.sites ++ [⟨l.siteCount + 1, name, none⟩] }
  return ⟨(← get).siteCount, name⟩

/-- Where the next bind site will stand. -/
def mark : Compile Nat := return (← get).sites.length

/-- Binds every site from `mark` on a second time. -/
def repeatSitesFrom (mark : Nat) : Compile Unit :=
  modify fun l => { l with sites := Site.repeatFrom l.sites mark }

/-- Moves the sites from `source` on to position `target`. -/
def moveSites (source target : Nat) : Compile Unit :=
  modify fun l => { l with sites := Site.move l.sites source target }

/-- Notes that an occurrence of a parameter is used as `type`. The first use of a name decides
    what later ones may be; a site keeps the first type it gets. -/
def inferParam (param : ParamRef) (type : ValueType) : Compile Unit := do
  match (← get).paramTypes[param.name]? with
  | some existing =>
    if !existing.accepts type then fail (.paramConflict param.name existing type)
  | none => modify fun l => { l with paramTypes := l.paramTypes.insert param.name type }
  modify fun l =>
    { l with
      sites := l.sites.map fun site =>
        if site.id = param.id ∧ site.type.isNone then { site with type := some type } else site }

end Compile

end QuerySheet.Sql

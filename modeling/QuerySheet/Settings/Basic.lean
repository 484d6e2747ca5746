import Std.Data.ExtTreeMap.Lemmas
import QuerySheet.Policy
import QuerySheet.Toml.Value

/-!
# Settings

Settings name the database, the cell cache, and for each table the views it is read from and the
filters that hold on it. They are a policy: `Settings.policy`.

`Settings.ofDraft?` reads settings, and what nobody reads of them is refused or ignored;
`Settings.checkFilters` also wants every filter to be a table.
-/

namespace QuerySheet

open Std (ExtTreeMap)

/-- How one table is read. -/
structure TableSettings where
  view : Option String := none
  /-- Read where the table is joined. -/
  joinView : Option String := none
  /-- Read where deleted rows are kept. -/
  deadView : Option String := none
  filters : List Toml.Value := []
  deriving Inhabited

structure Settings where
  database : Option String
  cacheEnabled : Bool
  cache : Option String
  tables : ExtTreeMap String TableSettings

inductive SettingsError where
  | fileNotFound (path : String)
  /-- The path leads to a directory. -/
  | unreadable
  | malformed
  | missingVariable (name : String)
  | invalidFilter (table kind : String)
  deriving DecidableEq, Repr

def SettingsError.message : SettingsError → String
  | .fileNotFound path => "Config file not found: " ++ path
  | .unreadable => "Failed to read config file: Is a directory (os error 21)"
  | .malformed => "Failed to parse config file"
  | .missingVariable name => "Missing environment variable: " ++ name
  | .invalidFilter table kind =>
    "Invalid filter for table " ++ table ++ ": expected a table, got " ++ kind

namespace Settings

/-- No database, and the cache on at its usual place. -/
def default : Settings := { database := none, cacheEnabled := true, cache := none, tables := ∅ }

instance : Inhabited Settings := ⟨default⟩

/-! ## 1. Reading -/

open Json (Surplus)
open Json.Draft (given optional text? bool? recordUpTo? entries? items?)

/-- The allowance of nested containers; settings are read from files, which have none. -/
def depth : Nat := 4

def tableOfDraft? (surplus : Surplus) (v : Json.Draft) : Option TableSettings := do
  match ← recordUpTo? surplus depth ["view", "join_view", "dead_view", "filters"] v with
  | [view, joinView, deadView, filters] =>
    let filters? (v : Json.Draft) : Option (List Toml.Value) := do
      (← items? depth v).mapM (Toml.Value.ofDraft? surplus)
    let filters ← given [] filters? filters
    return {
      view := ← optional text? view
      joinView := ← optional text? joinView
      deadView := ← optional text? deadView
      filters }
  | _ => none

def databaseOfDraft? (surplus : Surplus) (v : Json.Draft) : Option (Option String) := do
  match ← recordUpTo? surplus depth ["path"] v with
  | [path] => optional text? path
  | _ => none

def cacheOfDraft? (surplus : Surplus) (v : Json.Draft) : Option (Bool × Option String) := do
  match ← recordUpTo? surplus depth ["enabled", "path"] v with
  | [enabled, path] => return (← given true bool? enabled, ← optional text? path)
  | _ => none

def tablesOfDraft? (surplus : Surplus) (v : Json.Draft) :
    Option (ExtTreeMap String TableSettings) := do
  let tables ← (← entries? depth v).mapM fun (name, t) =>
    return (name, ← tableOfDraft? surplus t)
  return tables.foldl (fun m (name, t) => m.insert name t) ∅

def ofDraft? (surplus : Surplus) (v : Json.Draft) : Option Settings := do
  match ← recordUpTo? surplus depth ["database", "cache", "tables"] v with
  | [database, cache, tables] =>
    let (cacheEnabled, cache) ← given (true, none) (cacheOfDraft? surplus) cache
    return {
      database := ← given none (databaseOfDraft? surplus) database
      cacheEnabled, cache
      tables := ← given ∅ (tablesOfDraft? surplus) tables }
  | _ => none

/-- The first filter, by table name, that is no table, as an error. -/
def checkFilters (s : Settings) : Except SettingsError Unit :=
  let found := s.tables.toList.findSome? fun (name, t) =>
    (t.filters.find? (!·.isTable)).map fun v => SettingsError.invalidFilter name v.kind
  match found with
  | some e => .error e
  | none => .ok ()

/-! ## 2. The policy -/

/-- The view for a join or for deleted rows, or else the plain one. -/
def viewFor (t : TableSettings) (context : ViewContext) : Option String :=
  let specific :=
    if context.isJoin then t.joinView
    else if context.withDead then t.deadView
    else none
  specific.or t.view

def policy (s : Settings) : Policy where
  view table context := (s.tables[table]?).bind fun t => viewFor t context
  filters table := ((s.tables[table]?).map fun t => t.filters.map Toml.Value.toJson).getD []
  customize q := q

end Settings

end QuerySheet

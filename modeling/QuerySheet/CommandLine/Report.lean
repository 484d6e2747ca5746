import QuerySheet.CellCache.Open
import QuerySheet.CommandLine.Invocation
import QuerySheet.Sheet.Edit

/-!
# Reports

A `Report` is what a run of the program leaves: its exit code and the texts of its two outputs.
`report` carries out the request of the arguments; what goes wrong is a `Failure`, and
`Failure.message` tells it.

Queries are run on a database that has no rows, or on a file that is no database.
-/

namespace QuerySheet.CommandLine

structure Report where
  code : Nat
  output : String
  errors : String
  deriving DecidableEq, Repr

/-! ## 1. Failures -/

inductive Failure where
  | settings (e : SettingsError)
  | schemaFile (path : String) (e : FileError)
  | schema (path : String) (e : SchemaError)
  | queryFile (path : String) (e : FileError)
  /-- The query's text describes no query. -/
  | query
  | compile (e : CompileError)
  | noDatabase
  | databasePath (e : SettingsError)
  | database (path : String) (e : DatabaseError)
  | running (e : Stored.RunError)
  | cache (e : CacheError)
  | cacheContent (e : CacheError)
  | cell (e : CellError)
  deriving DecidableEq, Repr

def Failure.message : Failure → String
  | .settings e => "Error loading config: " ++ e.message
  | .schemaFile path e =>
    "Error reading schema '" ++ path ++ "': Failed to read schema file: " ++ e.message
  | .schema path e => "Error reading schema '" ++ path ++ "': " ++ e.message
  | .queryFile path e => "Error reading file '" ++ path ++ "': " ++ e.message
  | .query => "Invalid query description"
  | .compile e => "Compilation error: " ++ e.message
  | .noDatabase => "No database given; pass --db or set [database] path in the config"
  | .databasePath e => "Error resolving database path: " ++ e.message
  | .database path e => "Error opening database '" ++ path ++ "': " ++ e.message
  | .running e => "Query error: " ++ e.message
  | .cache e => "Error opening cell cache: " ++ e.message
  | .cacheContent e => "Error reading cell cache: " ++ e.message
  | .cell e => "Query error: " ++ e.message

/-! ## 2. Queries -/

def loadInputs (f : Files) (inputs : Inputs) : Except Failure (Schema × Query) := do
  let schema ← (f.read inputs.schema).mapError (.schemaFile inputs.schema)
  let schema ← (Schema.parse schema).mapError (.schema inputs.schema)
  let query ← (f.read inputs.query).mapError (.queryFile inputs.query)
  match Query.parse? query with
  | some query => return (schema, query)
  | none => .error .query

def compileInputs (f : Files) (settings : Settings) (inputs : Inputs) :
    Except Failure CompiledQuery := do
  let (schema, query) ← loadInputs f inputs
  (query.compile schema settings.policy).mapError .compile

/-! ## 3. Compiling -/

def siteLine (site : Sql.Site) : String :=
  match site.type with
  | some type => "-- Param: :" ++ site.name ++ " " ++ type.name
  | none => "-- Param: :" ++ site.name

/-- A statement after comments on what it reads, gives and needs. -/
def verboseLines (path : String) (c : CompiledQuery) : List String :=
  ["-- tally compiled SQL", "-- Source: " ++ path,
    "-- Dependencies: " ++ ", ".intercalate c.dependencies] ++
    c.outputTypes.toList.map (fun (name, type) => "-- Output: " ++ name ++ " " ++ type.name) ++
    c.sites.map siteLine ++ ["", c.sql]

def compileText (path : String) (c : CompiledQuery) : OutputForm → String
  | .sql => c.sql
  | .verbose => "\n".intercalate (verboseLines path c)

/-! ## 4. Running -/

/-- The path of the database: the one given, or else the one in the settings. -/
def databasePath (host : Host) (settings : Settings) (given : Option String) :
    Except Failure String :=
  match given with
  | some path => .ok path
  | none =>
    match settings.databasePath host.environment with
    | .ok (some path) => .ok path
    | .ok none => .error .noDatabase
    | .error e => .error (.databasePath e)

/-- The value of a cell that is bound to the query, on a sheet with the values of the cache. -/
def runCell (host : Host) (settings : Settings) (inputs : Inputs) (isDatabase : Bool)
    (params : Fields) (cell : String) : Except Failure Json := do
  let (schema, query) ← loadInputs host.files inputs
  let cache ← (CellCache.ofSettings host settings).mapError .cache
  let values ← match cache with
    | none => pure []
    | some cache => cache.load.mapError fun e => .cacheContent (.unreadable e)
  let start := (Sheet.new schema settings.policy (some (.onNoRows isDatabase params))).load values
  let (sheet, name) := CellName.split cell
  let (finished, outcome) := start.createQuery sheet name ⟨0, query⟩
  outcome.mapError .compile
  match finished.lastError with
  | some e => .error (.cell e)
  | none => return finished.value (CellName.qualify sheet name)

def runQuery (host : Host) (settings : Settings) (inputs : Inputs) (isDatabase : Bool)
    (params : Fields) : Except Failure Json := do
  let compiled ← compileInputs host.files settings inputs
  (compiled.readNothing isDatabase params).mapError .running

/-! ## 5. Requests -/

/-- The text that a command prints. -/
def perform (host : Host) (settings : Settings) : Command → Except Failure String
  | .compile inputs form => do
    let compiled ← compileInputs host.files settings inputs
    return compileText inputs.query compiled form
  | .run inputs database params cell => do
    let path ← databasePath host settings database
    let name ← (host.files.openDatabase path).mapError (.database path)
    let isDatabase := host.files.isDatabase name
    let result ← match cell with
      | some cell => runCell host settings inputs isDatabase params cell
      | none => runQuery host settings inputs isDatabase params
    return result.pretty

def loadSettings (host : Host) (i : Invocation) : Except SettingsError Settings :=
  match i.settings with
  | some path => Settings.ofFile host path
  | none => Settings.load host

def invoke (host : Host) (i : Invocation) : Except Failure String := do
  let settings ← (loadSettings host i).mapError .settings
  perform host settings i.command

def versionText : String := "tally 0.1.0"

def usage : String :=
  "Usage: tally [--config <CONFIG>] <compile|run> --schema <SCHEMA> --query <QUERY>"

/-- The report of a run with the arguments after the program's name. -/
def report (host : Host) (args : List String) : Report :=
  match Request.ofArguments? args with
  | none => ⟨2, "", usage ++ "\n"⟩
  | some .version => ⟨0, versionText ++ "\n", ""⟩
  | some (.invoke i) =>
    match invoke host i with
    | .ok text => ⟨0, text ++ "\n", ""⟩
    | .error e => ⟨1, "", e.message ++ "\n"⟩

end QuerySheet.CommandLine

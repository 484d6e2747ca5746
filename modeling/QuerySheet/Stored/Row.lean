import QuerySheet.Sql.Statement
import QuerySheet.Stored.Value
import QuerySheet.Text.Utf8

/-!
# Parameters and rows

* `Cell` is a value of the database, `Cell.ofJson` what a value is stored as, and `Cell.toJson`
  what is read back;
* `bindValues` gives a value for every question mark of a statement;
* `CompiledQuery.readResult` turns the rows of a statement into the result of its query.
-/

namespace QuerySheet

namespace Stored

/-! ## 1. Cells -/

/-- A value of the database. -/
inductive Cell where
  | null
  | integer (n : Int)
  | real (x : Binary64)
  | text (s : String)
  | blob (bytes : List UInt8)
  deriving DecidableEq, Repr

/-- Booleans are stored as integers, and an integer that 64 bits with a sign do not hold as a real
    number; arrays and objects are stored as their text. -/
def Cell.ofJson (v : Json) : Cell :=
  match v with
  | .null => .null
  | .bool b => .integer (if b then 1 else 0)
  | .number (.int n) =>
    if fitsSigned 64 n then .integer n else .real (Binary64.ofInt n)
  | .number (.float x) => .real x
  | .string s => .text s
  | v => .text v.compact

def Cell.toJson : Cell → Json
  | .null => .null
  | .integer n => .int n
  | .real x => if x.isFinite then .number (.float x) else .null
  | .text s => .string s
  | .blob bytes => .string (Utf8.decode bytes)

/-! ## 2. Parameters -/

/-- Why there is no value for a bind site. -/
inductive BindError where
  | missing (name : String)
  | unstorable (e : Error)
  deriving DecidableEq, Repr

def BindError.message : BindError → String
  | .missing name => "Missing value for parameter :" ++ name
  | .unstorable e => "Invalid value for parameter: " ++ e.message

/-- Why a statement cannot be run. -/
inductive RunError where
  | binding (e : BindError)
  /-- What should be a database is none. -/
  | notDatabase
  deriving DecidableEq, Repr

def RunError.message : RunError → String
  | .binding e => e.message
  | .notDatabase => "SQLite error: file is not a database"

/-- The value for one bind site. -/
def bindValue (params : Fields) (site : Sql.Site) : Except BindError Cell :=
  match Fields.get? params site.name with
  | none => .error (.missing site.name)
  | some v =>
    match site.type with
    | none => .ok (.ofJson v)
    | some type =>
      match encode v type with
      | .ok v => .ok (.ofJson v)
      | .error e => .error (.unstorable e)

/-- The values for all bind sites, in their order; the first that fails decides. -/
def bindValues (sites : List Sql.Site) (params : Fields) : Except BindError (List Cell) :=
  sites.mapM (bindValue params)

end Stored

/-! ## 3. Rows -/

namespace CompiledQuery

/-- The value of one column: of a selected type, or as it is stored. -/
def readColumn (c : CompiledQuery) (name : String) (cell : Stored.Cell) : Json :=
  match c.outputTypes[name]? with
  | some type => Stored.decode cell.toJson type
  | none => cell.toJson

/-- A row as an object; of columns of one name the last counts. -/
def readRow (c : CompiledQuery) (columns : List String) (cells : List Stored.Cell) : Fields :=
  Fields.ofList ((columns.zip cells).map fun (name, cell) => (name, c.readColumn name cell))

/-- All rows, or for a calculation the result in the first one. -/
def readResult (c : CompiledQuery) (columns : List String) (rows : List (List Stored.Cell)) :
    Json :=
  let rows := rows.map (c.readRow columns)
  if c.isCalculation then
    ((rows.head?).bind fun row => Fields.get? row "result").getD .null
  else .array (rows.map .object)

/-- The result where no row answers the query, as the database is empty, or where it is none. The
    parameters must fit all the same. -/
def readNothing (c : CompiledQuery) (isDatabase : Bool) (params : Fields) :
    Except Stored.RunError Json := do
  let _ ← (Stored.bindValues c.sites params).mapError .binding
  if isDatabase then return c.readResult [] [] else .error .notDatabase

end CompiledQuery

end QuerySheet

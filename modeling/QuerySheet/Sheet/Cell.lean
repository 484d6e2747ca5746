import QuerySheet.Sheet.Graph
import QuerySheet.Sheet.Name
import QuerySheet.Stored.Row

/-!
# Cells

* `Computed` is what a computation gives: a value or an error, at once or later;
* `Binding` is where a cell's value comes from, and a `Cell` is a value with its binding and the
  cells that it reads;
* `Event` is what a sheet lets its surroundings know.
-/

namespace QuerySheet

/-! ## 1. Computations -/

inductive CellError where
  | graph (cycle : Graph.Cycle)
  | compile (e : CompileError)
  /-- A query could not be run. -/
  | execution (e : Stored.RunError)
  | unknownCell (name : String)
  | noExecutor (cell : String)
  | computation (cell message : String)
  deriving DecidableEq, Repr

def CellError.message : CellError → String
  | .graph cycle => cycle.message
  | .compile e => "Failed to compile query: " ++ e.message
  | .execution e => "Failed to run query: " ++ e.message
  | .unknownCell name => "Cell does not exist: " ++ name
  | .noExecutor cell => "No query executor configured for cell " ++ cell
  | .computation cell message => "Computation of " ++ cell ++ " failed: " ++ message

/-- The outcome of a computation. A deferred one is settled only when the sheet is waited for. -/
structure Computed where
  outcome : Except CellError Json
  deferred : Bool

/-- A computation on the values of a cell's dependencies. It may also go by how often it was called
    before. -/
abbrev Run := Nat → List Json → Computed

/-- Runs queries; an answer may go by how many queries were run before. -/
abbrev Executor := Nat → CompiledQuery → Computed

/-- Runs queries with fixed parameters on a database without rows, or on a file that is none. -/
def Executor.onNoRows (isDatabase : Bool) (params : Fields) : Executor := fun _ compiled =>
  ⟨(compiled.readNothing isDatabase params).mapError .execution, false⟩

/-! ## 2. Cells -/

/-- A query that cells can be bound to. Two handles are the same only if their numbers are, even
    if their queries are equal. -/
structure QueryHandle where
  number : Nat
  query : Query

/-- Where a cell's value comes from. -/
inductive Binding where
  | unbound
  | fixed
  /-- A computation, and how often it was called. -/
  | dynamic (run : Run) (calls : Nat)
  | query (handle : QueryHandle) (compiled : CompiledQuery)

namespace Binding

def isDynamic : Binding → Bool
  | .dynamic _ _ => true
  | _ => false

/-- The kind in words. -/
def kind : Binding → String
  | .unbound => "unbound"
  | .fixed => "static"
  | .dynamic _ _ => "dynamic"
  | .query _ _ => "query"

end Binding

structure Cell where
  value : Json
  binding : Binding
  /-- The names of the cells that are read, in the order of the arguments. -/
  dependencies : List String

/-- A cell that nothing is known of but its name. -/
def Cell.blank : Cell := { value := .null, binding := .unbound, dependencies := [] }

instance : Inhabited Cell := ⟨.blank⟩

/-! ## 3. Events -/

/-- Whether all values of a sheet are saved. -/
inductive CacheStatus where
  | clean
  | dirty
  deriving DecidableEq, Repr

def CacheStatus.name : CacheStatus → String
  | .clean => "Clean"
  | .dirty => "Dirty"

inductive Event where
  | status (s : CacheStatus)
  /-- The values of a batch of cells, to be saved. -/
  | saved (cells : List (String × Json))
  /-- The names of a batch of cells, told to the listener with the given label. -/
  | changed (listener : String) (names : List String)
  | ran (cell : String) (args : List Json)
  | queried (sql : String)
  deriving DecidableEq, Repr

end QuerySheet

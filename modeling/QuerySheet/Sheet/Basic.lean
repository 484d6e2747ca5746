import QuerySheet.Sheet.Cell

/-!
# Sheets

A sheet holds cells that are computed from each other. A write marks cells dirty; when the
outermost transaction closes, the dirty cells and everything that reads them, directly or not, are
queued in the order of the graph and computed.

* a computation whose outcome is deferred suspends the queue; `Sheet.wait` settles it and goes on.
  Cells that are queued meanwhile come after those that wait;
* when the queue is done, `Sheet.finish` tells the listeners and the cache about the batch;
* an error drops the rest of the queue (`Sheet.fail`) and is kept until somebody waits;
* what happens is written down as events, the latest first.
-/

namespace QuerySheet

open Std (ExtTreeMap)

/-! ## 1. State -/

/-- The computation a queue waits for. -/
structure Suspended where
  /-- Its place in the queue. -/
  index : Nat
  name : String
  outcome : Except CellError Json

structure Listener where
  id : Nat
  label : String
  deriving DecidableEq, Repr

structure Sheet where
  schema : Schema
  policy : Policy
  executor : Option Executor
  graph : Graph
  cells : ExtTreeMap String Cell
  /-- How many transactions are open. -/
  depth : Nat
  dirty : List String
  queue : List String
  running : Bool
  suspended : Option Suspended
  /-- The error that ended the latest batch, until it is collected. -/
  lastError : Option CellError
  /-- While it is up, the status does not turn clean. -/
  barrier : Bool
  status : CacheStatus
  listeners : List Listener
  nextListener : Nat
  /-- How many queries were run. -/
  executions : Nat
  /-- What happened, the latest first. -/
  events : List Event

namespace Sheet

def new (schema : Schema) (policy : Policy) (executor : Option Executor) : Sheet :=
  { schema, policy, executor, graph := .empty, cells := ∅, depth := 0, dirty := [], queue := [],
    running := false, suspended := none, lastError := none, barrier := false, status := .clean,
    listeners := [], nextListener := 1, executions := 0, events := [] }

instance : Inhabited Sheet := ⟨new .empty .none none⟩

def cell? (s : Sheet) (name : String) : Option Cell := s.cells[name]?

def hasCell (s : Sheet) (name : String) : Bool := s.cells.contains name

/-- The value of a cell, and null for a cell that is not there. -/
def value (s : Sheet) (name : String) : Json := (s.cell? name).elim .null (·.value)

/-- The names of the cells on a sheet, in order. -/
def names (s : Sheet) (sheet : String) : List String :=
  s.cells.keys.filter fun name => (CellName.split name).1 == sheet

def emit (s : Sheet) (e : Event) : Sheet := { s with events := e :: s.events }

/-- Makes a blank cell of a name, unless there is one. -/
def touch (s : Sheet) (name : String) : Sheet :=
  if s.hasCell name then s
  else { s with graph := s.graph.addNode name, cells := s.cells.insert name .blank }

/-- Changes a cell, if it is there. -/
def update (s : Sheet) (name : String) (f : Cell → Cell) : Sheet :=
  { s with cells := s.cells.alter name (·.map f) }

def assign (s : Sheet) (name : String) (v : Json) : Sheet :=
  s.update name fun c => { c with value := v }

/-! ## 2. Status -/

/-- Sets the status and tells about it, if it is another. -/
def setStatus (s : Sheet) (status : CacheStatus) : Sheet :=
  if s.status = status then s else { s with status }.emit (.status status)

/-- All values are saved, unless the barrier is up. -/
def markClean (s : Sheet) : Sheet := if s.barrier then s else s.setStatus .clean

/-! ## 3. Computing -/

/-- Runs one cell. A cell that is not there, or not computed, gives nothing. -/
def compute (s : Sheet) (name : String) : Sheet × Option Computed :=
  match s.cell? name with
  | none => (s, none)
  | some c =>
    match c.binding with
    | .dynamic run calls =>
      let args := c.dependencies.map s.value
      let s := (s.update name fun c => { c with binding := .dynamic run (calls + 1) }).emit
        (.ran name args)
      (s, some (run calls args))
    | .query _ compiled =>
      match s.executor with
      | none => (s, some ⟨.error (.noExecutor name), false⟩)
      | some execute =>
        let answer := execute s.executions compiled
        ({ s with executions := s.executions + 1 }.emit (.queried compiled.sql), some answer)
    | .fixed | .unbound => (s, none)

/-- Drops the queue because of an error. -/
def fail (s : Sheet) (e : CellError) : Sheet :=
  { s with queue := [], running := false, lastError := some e }

/-- The names without those that occurred before. -/
def distinctNames (names : List String) : List String := names.eraseDups

/-- Ends a batch: tells every listener, hands the values over to be saved, and turns the status
    clean. -/
def finish (s : Sheet) : Sheet :=
  let batch := distinctNames s.queue
  let s := { s with queue := [], running := false }
  let s := s.listeners.foldl (fun s l => s.emit (.changed l.label batch)) s
  let values := batch.filterMap fun name => (s.cell? name).map fun c => (name, c.value)
  (s.emit (.saved values)).markClean

/-- Computes the rest of the queue, which starts at `index`. A deferred outcome suspends it, or is
    settled at once when somebody waits. -/
def runQueue (waiting : Bool) (s : Sheet) (index : Nat) : List String → Sheet
  | [] => s.finish
  | name :: rest =>
    match s.compute name with
    | (s, none) => runQueue waiting s (index + 1) rest
    | (s, some computed) =>
      if computed.deferred && !waiting then
        { s with suspended := some ⟨index, name, computed.outcome⟩ }
      else
        match computed.outcome with
        | .ok v => runQueue waiting (s.assign name v) (index + 1) rest
        | .error e => s.fail e

/-- Adds cells to the queue, and computes it unless it is being computed. -/
def enqueue (s : Sheet) (names : List String) : Sheet :=
  if names.isEmpty then s
  else
    let s := s.setStatus .dirty
    let s := { s with queue := s.queue ++ names }
    if s.running then s else runQueue false { s with running := true } 0 s.queue

/-- Settles the computation that the queue waits for, and the rest of the queue. -/
def settle (s : Sheet) : Sheet :=
  match s.suspended with
  | none => s
  | some pending =>
    let s := { s with suspended := none }
    match pending.outcome with
    | .ok v =>
      runQueue true (s.assign pending.name v) (pending.index + 1)
        (s.queue.drop (pending.index + 1))
    | .error e => s.fail e

/-- Settles everything, and collects the error of the latest batch if it had one. -/
def wait (s : Sheet) : Sheet × Except CellError Unit :=
  let s := s.settle
  match s.lastError with
  | some e => ({ s with lastError := none }, .error e)
  | none => (s, .ok ())

/-! ## 4. Transactions -/

def markDirty (s : Sheet) (name : String) : Sheet := { s with dirty := s.dirty ++ [name] }

def startTransaction (s : Sheet) : Sheet := { s with depth := s.depth + 1 }

/-- Closes a transaction; the outermost one queues the dirty cells and all that read them. -/
def endTransaction (s : Sheet) : Sheet :=
  let s := { s with depth := s.depth - 1 }
  if s.depth = 0 then
    { s with dirty := [] }.enqueue (s.graph.topologicalSort s.dirty)
  else s

/-- Marks cells dirty in a transaction of their own. -/
def invalidate (s : Sheet) (names : List String) : Sheet :=
  (names.foldl markDirty s.startTransaction).endTransaction

end Sheet

end QuerySheet

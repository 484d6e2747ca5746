import QuerySheet.Sheet.Basic

/-!
# Editing a sheet

The operations that write values, bind cells, change what they read, and take them away; listeners,
the barrier, and changes of the database.
-/

namespace QuerySheet

namespace Sheet

/-! ## 1. Values -/

/-- Writes a value, and computes again what reads it. A blank cell becomes a fixed one. -/
def set (s : Sheet) (name : String) (v : Json) : Sheet :=
  let s := s.startTransaction.touch name
  let s := s.update name fun c =>
    { c with
      value := v
      binding := match c.binding with
        | .unbound => .fixed
        | b => b }
  (s.markDirty name).endTransaction

/-- Writes a value unless the cell is there. -/
def createStatic (s : Sheet) (sheet name : String) (v : Json) : Sheet :=
  let cell := CellName.qualify sheet name
  if s.hasCell cell then s else s.set cell v

/-- Gives a cell a value before it is bound; nothing is computed. -/
def prewarm (s : Sheet) (name : String) (v : Json) : Sheet := (s.touch name).assign name v

def load (s : Sheet) (cells : List (String × Json)) : Sheet :=
  cells.foldl (fun s (name, v) => s.prewarm name v) s

/-! ## 2. Bindings -/

/-- A computation to bind a cell to. -/
structure Definition where
  /-- What it reads; a plain name is on the cell's own sheet. -/
  dependencies : List String
  run : Run
  initial : Json
  /-- Bind again a cell that is bound to a computation, and start over. -/
  refresh : Bool

/-- The first dependency that may not be read: the cell itself, or a cell that reads it. -/
def cyclic? (s : Sheet) (cell : String) (dependencies : List String) : Option String :=
  dependencies.find? fun d => d == cell || s.graph.hasPath cell d

/-- Edges from all dependencies to a cell; the first one that is refused ends it. -/
def connect (g : Graph) (cell : String) : List String → Graph × Except Graph.Cycle Unit
  | [] => (g, .ok ())
  | d :: rest =>
    match g.addEdge d cell with
    | (g, .ok ()) => connect g cell rest
    | (g, .error cycle) => (g, .error cycle)

/-- Binds a cell to a computation on other cells. The cell is computed if it has no value yet or is
    refreshed. -/
def createDynamic (s : Sheet) (sheet name : String) (d : Definition) :
    Sheet × Except CellError Unit :=
  let cell := CellName.qualify sheet name
  if (s.cell? cell).any (·.binding.isDynamic) && !d.refresh then (s, .ok ())
  else
    let dependencies := d.dependencies.map (CellName.resolve sheet)
    let s := (dependencies.foldl touch s).touch cell
    match s.cyclic? cell dependencies with
    | some dependency => (s, .error (.graph ⟨dependency, cell⟩))
    | none =>
      match connect (s.graph.removeIncoming cell) cell dependencies with
      | (graph, .error cycle) => ({ s with graph }, .error (.graph cycle))
      | (graph, .ok ()) =>
        let s := { s with graph }.update cell fun c =>
          { c with binding := .dynamic d.run 0, dependencies }
        if d.refresh || s.value cell = .null then
          ((s.assign cell d.initial).invalidate [cell], .ok ())
        else (s, .ok ())

/-- Binds a cell to a query. The query is compiled unless the cell is bound to it already, and a
    query that does not compile changes nothing. -/
def createQuery (s : Sheet) (sheet name : String) (handle : QueryHandle) :
    Sheet × Except CompileError Unit :=
  let cell := CellName.qualify sheet name
  let unchanged := match (s.cell? cell).map (·.binding) with
    | some (.query bound _) => bound.number == handle.number
    | _ => false
  if unchanged then (s.invalidate [cell], .ok ())
  else
    match handle.query.compile s.schema s.policy with
    | .error e => (s, .error e)
    | .ok compiled =>
      let s := { s with graph := s.graph.removeIncoming cell }.touch cell
      let s := s.update cell fun c =>
        { c with binding := .query handle compiled, dependencies := [] }
      (s.invalidate [cell], .ok ())

/-- Dependencies added one by one; the first one that is refused ends it. -/
def addEach (s : Sheet) (cell : String) : List String → Sheet × Except CellError Unit
  | [] => (s, .ok ())
  | d :: rest =>
    let s := s.touch d
    match s.graph.addEdge d cell with
    | (graph, .error cycle) => ({ s with graph }, .error (.graph cycle))
    | (graph, .ok ()) =>
      let s := { s with graph }.update cell fun c =>
        if c.dependencies.contains d then c
        else { c with dependencies := c.dependencies ++ [d] }
      addEach s cell rest

/-- Adds to what a cell reads. -/
def addDependencies (s : Sheet) (sheet name : String) (dependencies : List String) :
    Sheet × Except CellError Unit :=
  let cell := CellName.qualify sheet name
  if !s.hasCell cell then (s, .error (.unknownCell cell))
  else
    match s.addEach cell (dependencies.map (CellName.resolve sheet)) with
    | (s, .error e) => (s, .error e)
    | (s, .ok ()) => (s.invalidate [cell], .ok ())

/-- Takes away from what a cell reads. -/
def removeDependencies (s : Sheet) (sheet name : String) (dependencies : List String) :
    Sheet × Except CellError Unit :=
  let cell := CellName.qualify sheet name
  if !s.hasCell cell then (s, .error (.unknownCell cell))
  else
    let s := (dependencies.map (CellName.resolve sheet)).foldl
      (fun s d =>
        { s with graph := s.graph.removeEdge d cell }.update cell fun c =>
          { c with dependencies := c.dependencies.filter (· != d) })
      s
    (s.invalidate [cell], .ok ())

/-! ## 3. Taking away -/

/-- Takes a cell's binding and what it reads, and leaves its value. -/
def unbind (s : Sheet) (name : String) : Sheet :=
  if s.hasCell name then
    { s with graph := s.graph.removeIncoming name }.update name fun c =>
      { c with binding := .unbound, dependencies := [] }
  else s

/-- Takes the value as well. -/
def void (s : Sheet) (name : String) : Sheet := (s.unbind name).assign name .null

def delete (s : Sheet) (name : String) : Sheet :=
  let s := s.void name
  { s with graph := s.graph.removeNode name, cells := s.cells.erase name }

/-- Deletes all cells on a sheet. -/
def clear (s : Sheet) (sheet : String) : Sheet := (s.names sheet).foldl delete s

/-! ## 4. Surroundings -/

/-- Adds a listener, and gives the number to remove it by. -/
def subscribe (s : Sheet) (label : String) : Sheet × Nat :=
  ({ s with
      listeners := s.listeners ++ [⟨s.nextListener, label⟩]
      nextListener := s.nextListener + 1 },
    s.nextListener)

def unsubscribe (s : Sheet) (id : Nat) : Sheet :=
  { s with listeners := s.listeners.filter (·.id != id) }

def startBarrier (s : Sheet) : Sheet := { s with barrier := true }

/-- The status turns clean unless something is still to be computed. -/
def endBarrier (s : Sheet) : Sheet :=
  let s := { s with barrier := false }
  if !s.running && s.queue.isEmpty then s.markClean else s

/-- Whether a cell is bound to a query that reads one of some tables. -/
def readsTable (tables : List String) (c : Cell) : Bool :=
  match c.binding with
  | .query _ compiled => compiled.dependencies.any tables.contains
  | _ => false

/-- Computes again the queries that read a table whose rows have changed. -/
def tablesChanged (s : Sheet) (tables : List String) : Sheet :=
  s.invalidate ((s.cells.toList.filter fun (_, c) => readsTable tables c).map (·.1))

end Sheet

end QuerySheet

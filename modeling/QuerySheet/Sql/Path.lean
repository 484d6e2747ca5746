import QuerySheet.Sql.Operand
import QuerySheet.Text.Separated

/-!
# Fields and dotted paths

`payee.category.name` reads the field `name` at the end of two references. Each reference becomes
one join, the first before the second, and joins are shared by all paths that start alike:

* `Path.split` cuts a dotted name at its last dot, `Path.segments` at every dot;
* `Path.resolve` finds or adds the joins of a path and returns the last;
* `Path.resolveRef` finds or adds the join of a reference whose own value is wanted: it is the id
  of the row referred to, and null when there is no such row;
* `Path.compileField` compiles the name of a field.
-/

namespace QuerySheet.Sql.Path

/-! ## 1. Dotted names -/

/-- The segments of a dotted name; a name without a dot is one segment. -/
def segments (path : String) : List String := Separated.split '.' path

/-- Segments with dots between them. -/
def join (segments : List String) : String := ".".intercalate segments

/-- Everything before the last dot, if there is a dot, and what follows it. -/
def split (name : String) : Option String × String :=
  let parts := segments name
  (if parts.length ≤ 1 then none else some (join parts.dropLast), parts.getLastD "")

/-- The key of a path below a table. -/
def key (table path : String) : String := table ++ "." ++ path

/-! ## 2. Joins along a path -/

/-- The join along the reference `field` of the parent path, which must be resolved; without a
    parent, of the table in scope. -/
def makeJoin (parent : Option String) (field : String) : Compile Join := do
  let scope ← read
  let (table, label) ← match parent with
    | none => pure (scope.table, scope.label)
    | some key => do
      let j ← Compile.require (.missingParentPath key) ((← get).joins.get? key)
      pure (j.table, j.label)
  let fields ← Compile.require (.pathTableMissing table) (scope.schema.table? table)
  let desc ← Compile.require (.unknownField table field) (Schema.field? fields field)
  let target ← Compile.require (.notJoinable table field) desc.references
  return ⟨target, ← Compile.nextAlias target, field, label, false⟩

/-- Adds the join of a path unless it is there. -/
def ensureJoin (parent : Option String) (field key : String) : Compile Unit := do
  unless (← get).joins.contains key do
    let j ← makeJoin parent field
    modify fun l => { l with joins := l.joins.insert key j }

/-- Adds the joins of a path, below the parent that was reached so far. -/
def ensureJoins (parent : Option String) (base : String) : List String → Compile Unit
  | [] => return
  | field :: rest => do
    let here := key base field
    ensureJoin parent field here
    ensureJoins (some here) here rest

/-- The join a path lands on. -/
def resolve (path : String) : Compile Join := do
  let parts := segments path
  if parts.any String.isEmpty then Compile.fail (.invalidPath path)
  let table := (← read).table
  ensureJoins none table parts
  Compile.require (.missingParentPath (key table path)) ((← get).joins.get? (key table path))

/-- The join to the row that `field` of the path `parent` refers to. It reads the table itself, so
    its id is null exactly when there is no such row. -/
def resolveRef (parent : Option String) (field target : String) : Compile Join := do
  let scope ← read
  let full := match parent with
    | some p => key p field
    | none => field
  match (← get).joins.get? (key scope.table full) with
  | some j => return j
  | none =>
    let label ← match parent with
      | some p => pure (← resolve p).label
      | none => pure scope.label
    let j : Join := ⟨target, ← Compile.nextAlias target, field, label, true⟩
    modify fun l => { l with joins := l.joins.insert (key scope.table full) j }
    return j

/-! ## 3. Fields -/

/-- The name that a field reference stands for: an empty one is the field in scope. -/
def fieldName (name : String) : Compile String :=
  if name.isEmpty then do
    Compile.require (.invalidFieldReference "$") (← read).field
  else return name

/-- The operand of a field reference, without its dollar sign. -/
def compileField (reference : String) : Compile Operand := do
  let name ← fieldName reference
  let (parent, field) := split name
  if field.isEmpty then Compile.fail (.invalidPath name)
  let scope ← read
  let (table, label) ← match parent with
    | some p => do
      let j ← resolve p
      pure (j.table, j.label)
    | none => pure (scope.table, scope.label)
  let fields ← Compile.require (.unknownTable table) (scope.schema.table? table)
  let desc ← Compile.require (.unknownField table field) (Schema.field? fields field)
  match desc.references with
  | some target =>
    if scope.validateRefs ∧ field ≠ "id" then
      let j ← resolveRef parent field target
      return .fragment (j.label ++ ".id") .id
    else return .fragment (label ++ "." ++ field) desc.type.valueType
  | none => return .fragment (label ++ "." ++ field) desc.type.valueType

end QuerySheet.Sql.Path

import QuerySheet.Policy
import QuerySheet.Sql.Expression

/-!
# Statements

`Query.compile` turns a query into the pieces of one SELECT statement. The phases run in the order
select, where, group by, order by, joins, because joins are found while the others compile; their
text stands before the WHERE clause, so the sites they bind are moved there.

* a query that does not aggregate also selects `id`, unless it does so already;
* the policy's filters of a table are added for the root and for every join, unless the query is
  raw. They read references as they are stored, and may not follow paths;
* deleted rows are left out of the root and of every join, unless the query keeps them;
* `CompiledQuery.sql` puts the pieces together.
-/

namespace QuerySheet

namespace Sql

/-! ## 1. Names and aggregates -/

/-- An alias between double quotes where it would be read as something else. -/
def quoteAlias (name : String) : String :=
  if name.toList.contains '.' ∨ name = "group" then "\"" ++ name ++ "\"" else name

mutual

/-- Whether a call of an aggregate is anywhere in an expression. -/
def containsAggregate : Json → Bool
  | .object fields => fieldsContainAggregate fields
  | .array items => itemsContainAggregate items
  | _ => false

def itemsContainAggregate : List Json → Bool
  | [] => false
  | v :: rest => containsAggregate v || itemsContainAggregate rest

def fieldsContainAggregate : List (String × Json) → Bool
  | [] => false
  | (name, v) :: rest =>
    (Function.ofName? name).any Function.isAggregate || containsAggregate v ||
      fieldsContainAggregate rest

end

end Sql

/-- The rows of a query that groups or selects an aggregate are groups of stored rows. -/
def Query.isAggregate (q : Query) : Bool :=
  !q.groups.isEmpty || q.selection.any Sql.containsAggregate

namespace Sql

/-! ## 2. Select -/

/-- Whether an item of a select list gives the column `id`. -/
def selectsId : Json → Bool
  | .string s => s == "id" || s == "*"
  | .object fields => fields.any (·.1 == "id")
  | _ => false

/-- The select list with the id of the row in front, where it is wanted. -/
def selectItems (q : Query) : List Json :=
  if q.isAggregate || q.selection.any selectsId then q.selection
  else .string "id" :: q.selection

def setOutputType (name : String) (type : ValueType) : Compile Unit :=
  modify fun l => { l with outputTypes := l.outputTypes.insert name type }

/-- A column with its name. -/
def column (o : Operand) (name : String) : Compile Template := do
  setOutputType name o.type
  return o.sql ++ " AS " ++ quoteAlias name

/-- All columns of the table in scope. -/
def allColumns : Compile Template := do
  let scope ← read
  let table ← Compile.require (.unknownTable scope.table) (scope.schema.table? scope.table)
  table.fields.toList.forM fun (name, field) => setOutputType name field.type.valueType
  return scope.label ++ ".*"

/-- A column with a name of its own. A running sum in it goes by the query's orders. -/
def compileNamedColumn (orders : List Json) (name : String) (value : Json) : Compile Template :=
  if hasDollar name then Compile.fail (.unnamedSelectFunction name)
  else do
    let o ← match value with
      | .string field => compileExpr (fieldReference field)
      | .object call =>
        withReader (fun s => { s with orders := some orders }) (compileFunction call)
      | e => compileExpr e
    column o name

/-- The columns of one item of a select list. -/
def compileSelectItem (orders : List Json) : Json → Compile (List Template)
  | .string name =>
    if name = "*" then return [← allColumns]
    else return [← column (← compileExpr (fieldReference name)) name]
  | .object fields => fields.mapM fun (name, value) => compileNamedColumn orders name value
  | v => Compile.fail (.unsupportedExpression v.compact)

def compileSelect (q : Query) : Compile Template :=
  Compile.within .select [.array q.selection] do
    let columns ← (selectItems q).mapM (compileSelectItem q.orders)
    return .intercalate ", " columns.flatten

/-! ## 3. Where, group by -/

/-- The conditions of a query or of a policy, all of which must hold. -/
def compileFilters (filters : List Json) : Compile Template :=
  Compile.within .filter [.array filters] (compileAnd (.array filters))

def compileGroup : Json → Compile Template
  | .string field => return (← compileExpr (fieldReference field)).sql
  | e => return (← compileExpr e).sql

def compileGroupBy (groups : List Json) : Compile Template :=
  Compile.within .groupBy [.array groups]
    (return .intercalate ", " (← groups.mapM compileGroup))

mutual

/-- The first field of a condition that follows a path, nested conditions included. -/
def pathKey? : Json → Option String
  | .array items => itemsPathKey? items
  | .object fields => fieldsPathKey? fields
  | _ => none

def itemsPathKey? : List Json → Option String
  | [] => none
  | v :: rest => (pathKey? v).or (itemsPathKey? rest)

def fieldsPathKey? : List (String × Json) → Option String
  | [] => none
  | (name, v) :: rest =>
    (if name = "$and" ∨ name = "$or" then pathKey? v
      else if name.toList.contains '.' then some name
      else none).or (fieldsPathKey? rest)

end

/-- The policy's filters of a table, if it has any, for the table in scope. -/
def compileTableFilters (policy : Policy) (table : String) : Compile (Option Template) :=
  let filters := policy.filters table
  if filters.isEmpty then return none
  else
    match itemsPathKey? filters with
    | some key => Compile.fail (.joinInTableFilter key)
    | none =>
      withReader (fun s => { s with validateRefs := false })
        (return some (← compileFilters filters))

/-! ## 4. Joins -/

/-- Runs a part with the rows of a join as the table in scope. The joins of the statement are out
    of its sight, and those that it adds are dropped. -/
def withJoined {α : Type} (j : Join) (part : Compile α) : Compile α := do
  let joins := (← get).joins
  modify fun l => { l with joins := .empty }
  tryCatch
    (do
      let result ← withReader (fun s => { s with table := j.table, label := j.label }) part
      modify fun l => { l with joins }
      return result)
    fun e => do
      modify fun l => { l with joins }
      throw e

/-- The relation a join reads. -/
def joinedRelation (policy : Policy) (q : Query) (j : Join) : String :=
  if j.direct then j.table
  else
    (policy.view j.table { withDead := q.withDead, isJoin := true, options := q.options }).getD
      j.table

/-- The text of one join without the policy's filters; deleted rows are left out of it. -/
def joinHead (policy : Policy) (q : Query) (schema : Schema) (j : Join) : String :=
  let alive :=
    if !q.withDead && schema.hasTombstone j.table then " AND " ++ j.label ++ ".tombstone = 0"
    else ""
  "LEFT JOIN " ++ joinedRelation policy q j ++ " AS " ++ j.label ++ " ON " ++ j.label ++
    ".id = " ++ j.parent ++ "." ++ quoteAlias j.field ++ alive

/-- A condition that is added to others, if there is one. -/
def andAlso (condition : Option Template) : Template :=
  match condition with
  | some t => " AND " ++ t
  | none => ""

/-- The text of one join. -/
def compileJoin (policy : Policy) (q : Query) (j : Join) : Compile Template := do
  let filters ←
    if q.raw then pure none else withJoined j (compileTableFilters policy j.table)
  modify fun l =>
    if l.dependencies.contains j.table then l
    else { l with dependencies := l.dependencies ++ [j.table] }
  return joinHead policy q (← read).schema j ++ andAlso filters

def compileJoins (policy : Policy) (q : Query) : Compile Template := do
  let joins := (← get).joins
  return .intercalate "\n" (← joins.entries.mapM fun entry => compileJoin policy q entry.2)

/-! ## 5. Statements -/

/-- The pieces of a statement. Each clause carries its keyword and is empty where it is left
    out. -/
structure Pieces where
  select : Template
  relation : String
  joins : Template
  filter : Template
  groupBy : Template
  orderBy : Template
  limit : Option Nat
  offset : Option Nat
  deriving DecidableEq, Repr

end Sql

/-- The result of compiling a query. -/
structure CompiledQuery where
  pieces : Sql.Pieces
  /-- The query as the policy has changed it. -/
  query : Query
  schema : Schema
  /-- The name of the root table in the statement. -/
  label : String
  ledger : Sql.Ledger

namespace Sql

/-- A clause with its keyword, for expressions that may be none. -/
def clause (keyword : String) (expressions : List Json) (compile : List Json → Compile Template) :
    Compile Template :=
  if expressions.isEmpty then return "" else return keyword ++ " " ++ (← compile expressions)

/-- The pieces of a query whose root is in scope. -/
def compilePieces (policy : Policy) (q : Query) : Compile Pieces := do
  let relation := (← read).label
  let select ← compileSelect q
  let selectEnd ← Compile.mark
  let own ← compileFilters q.filters
  let extra ← if q.raw then pure none else compileTableFilters policy q.table
  let groupBy ← clause "GROUP BY" q.groups compileGroupBy
  let orderBy ← clause "ORDER BY" q.orders compileOrderBy
  let joinStart ← Compile.mark
  let joins ← compileJoins policy q
  Compile.moveSites joinStart selectEnd
  return {
    select, relation, joins
    filter := "WHERE " ++ own ++ andAlso extra
    groupBy, orderBy
    limit := q.limit
    offset := q.offset }

end Sql

/-- Compiles a query under a policy. -/
def Query.compile (q : Query) (schema : Schema) (policy : Policy) :
    Except CompileError CompiledQuery :=
  let q := policy.customize q
  if (schema.table? q.table).isNone then .error (.ofCause (.unknownTable q.table))
  else
    let context := { withDead := q.withDead, isJoin := false, options := q.options }
    let label := (policy.view q.table context).getD q.table
    let scope := Sql.Scope.root schema q.table label q.validateRefs
    match (Sql.compilePieces policy q).outcome scope (.root q.table) with
    | (.error e, _) => .error e
    | (.ok pieces, ledger) => .ok { pieces, query := q, schema, label, ledger }

namespace CompiledQuery

/-- The tables a query reads, the root first. -/
def dependencies (c : CompiledQuery) : List String := c.ledger.dependencies

/-- The types of the columns by their names. -/
def outputTypes (c : CompiledQuery) : Std.ExtTreeMap String ValueType := c.ledger.outputTypes

/-- The bind sites in the order of the statement's question marks. -/
def sites (c : CompiledQuery) : List Sql.Site := c.ledger.sites

def isCalculation (c : CompiledQuery) : Bool := c.query.calculation

/-- The WHERE clause without the root's deleted rows, unless the query keeps them. -/
def whereClause (c : CompiledQuery) : Sql.Template :=
  if !c.query.withDead && c.schema.hasTombstone c.query.table then
    c.pieces.filter ++ " AND " ++ c.label ++ ".tombstone = 0"
  else c.pieces.filter

/-- The lines of the statement; a clause that is empty has none. -/
def lines (c : CompiledQuery) : List Sql.Template :=
  let p := c.pieces
  let limit : List Sql.Template :=
    match p.limit with | some n => ["LIMIT " ++ toString n] | none => []
  let offset : List Sql.Template :=
    match p.offset with | some n => ["OFFSET " ++ toString n] | none => []
  ["SELECT " ++ p.select ++ " FROM " ++ p.relation] ++
    [p.joins, c.whereClause, p.groupBy, p.orderBy].filter (!·.isEmpty) ++ limit ++ offset

/-- The statement with its holes. -/
def template (c : CompiledQuery) : Sql.Template := .intercalate "\n" c.lines

/-- The statement. -/
def sql (c : CompiledQuery) : String := c.template.text

end CompiledQuery

end QuerySheet

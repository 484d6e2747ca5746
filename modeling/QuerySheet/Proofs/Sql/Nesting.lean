import QuerySheet.Sql.Statement
import QuerySheet.Proofs.Sql.Outcome
import QuerySheet.Proofs.Sql.Tasks

/-!
# Windows inside windows

A running sum in a select list compiles the orders of the query for its window, and these may hold
running sums, whose windows compile the same orders again. Nothing else in a compilation goes back
to what it is itself a part of.

* `Query.compileWith` compiles a query with a given window in its columns; `Query.compile` is the
  compilation with `window` (`compileWith_window`). Elsewhere no orders are in scope, and windows
  are empty however deep they may be nested (`outcome_windowOf_none`);
* `Query.EndsWith`: the recursion ends with a result, if it makes no difference from some depth on
  where windows inside windows are cut off;
* `Query.Loops`: running sums are among the columns of a query and among its orders.
-/

namespace QuerySheet

namespace Sql

/-! ## 1. Columns with a given window -/

/-- A column with a name of its own, and the window of a running sum in it. -/
def namedColumnWith (window : Compile Template) (orders : List Json) (name : String)
    (value : Json) : Compile Template :=
  if hasDollar name then Compile.fail (.unnamedSelectFunction name)
  else do
    let o ← match value with
      | .string field => compileExpr (fieldReference field)
      | .object call =>
        withReader (fun s => { s with orders := some orders }) (functionWith window call)
      | e => compileExpr e
    column o name

def selectItemWith (window : Compile Template) (orders : List Json) :
    Json → Compile (List Template)
  | .string name =>
    if name = "*" then return [← allColumns]
    else return [← column (← compileExpr (fieldReference name)) name]
  | .object fields => fields.mapM fun (name, value) => namedColumnWith window orders name value
  | v => Compile.fail (.unsupportedExpression v.compact)

def selectWith (window : Compile Template) (q : Query) : Compile Template :=
  Compile.within .select [.array q.selection] do
    let columns ← (selectItems q).mapM (selectItemWith window q.orders)
    return .intercalate ", " columns.flatten

/-- The pieces of a query whose columns are compiled. -/
def piecesAfter (policy : Policy) (q : Query) (relation : String) (select : Template) :
    Compile Pieces := do
  let selectEnd ← Compile.mark
  let own ← compileFilters q.filters
  let extra ← if q.raw then pure none else compileTableFilters policy q.table
  let groupBy ← clause "GROUP BY" q.groups compileGroupBy
  let orderBy ← clause "ORDER BY" q.orders compileOrderBy
  let joinStart ← Compile.mark
  let joins ← compileJoins policy q
  Compile.moveSites joinStart selectEnd
  return {
    select, relation, joins
    filter := "WHERE " ++ own ++ andAlso extra
    groupBy, orderBy
    limit := q.limit
    offset := q.offset }

def piecesWith (window : Compile Template) (policy : Policy) (q : Query) : Compile Pieces := do
  let relation := (← read).label
  let select ← selectWith window q
  piecesAfter policy q relation select

end Sql

open Sql

/-! ## 2. Termination -/

/-- Compiles a query under a policy, with the window of the running sums in its columns. -/
def Query.compileWith (window : Compile Template) (q : Query) (schema : Schema) (policy : Policy) :
    Except CompileError CompiledQuery :=
  let q := policy.customize q
  if (schema.table? q.table).isNone then .error (.ofCause (.unknownTable q.table))
  else
    let context := { withDead := q.withDead, isJoin := false, options := q.options }
    let label := (policy.view q.table context).getD q.table
    let scope := Scope.root schema q.table label q.validateRefs
    match (piecesWith window policy q).outcome scope (.root q.table) with
    | (.error e, _) => .error e
    | (.ok pieces, ledger) => .ok { pieces, query := q, schema, label, ledger }

theorem Query.compileWith_window (q : Query) (schema : Schema) (policy : Policy) :
    q.compileWith window schema policy = q.compile schema policy := rfl

/-- A compilation that was cut off in a window. -/
def Sql.Endless {α : Type} (r : Except CompileError α) : Prop :=
  ∃ e, r = .error e ∧ e.cause = .endlessWindow

/-- The recursion of a compilation ends with a result: from some depth on it makes no difference
    where windows inside windows are cut off. -/
def Query.EndsWith (q : Query) (schema : Schema) (policy : Policy)
    (r : Except CompileError CompiledQuery) : Prop :=
  ¬ Endless r ∧ ∃ depth, ∀ nesting, depth ≤ nesting →
    q.compileWith (windowOf nesting) schema policy = r

namespace Sql

/-! ## 3. Windows -/

/-- The orders in front of the rows of a running sum. -/
def rowsWith (window : Compile Template) : List Json → Compile Template
  | [] => return ""
  | o :: orders => return "ORDER BY " ++ (← orderByWith window (o :: orders)) ++ " "

variable {s : Scope} {l : Ledger}

theorem outcome_windowOf (nesting : Nat) : (windowOf nesting).outcome s l =
    Compile.outcome (match s.orders, nesting with
      | some (_ :: _), 0 => Compile.fail .endlessWindow
      | some (o :: orders), nesting + 1 => rowsWith (windowOf nesting) (o :: orders)
      | _, _ => pure "") s l := by
  have hread : (read : Compile Scope).outcome s l = (.ok s, l) := rfl
  rw [windowOf.eq_def, Compile.outcome_bind, hread]
  dsimp only
  cases s.orders with
  | none => rfl
  | some orders => cases orders <;> cases nesting <;> rfl

theorem outcome_windowOf_none (h : s.orders = none) (nesting : Nat) :
    (windowOf nesting).outcome s l = (.ok "", l) := by
  rw [outcome_windowOf, h]
  rfl

theorem fails_windowOf_zero {o : Json} {orders : List Json} (h : s.orders = some (o :: orders)) :
    (windowOf 0).Fails s l .endlessWindow := by
  refine Compile.Fails.of_outcome (Compile.fails_fail.mpr rfl) (Eq.symm ?_)
  rw [outcome_windowOf, h]

theorem outcome_windowOf_succ {orders : List Json} (h : s.orders = some orders) (nesting : Nat) :
    (windowOf (nesting + 1)).outcome s l = (rowsWith (windowOf nesting) orders).outcome s l := by
  rw [outcome_windowOf, h]
  cases orders <;> rfl

/-! ## 4. Running sums in columns and orders -/

/-- A running sum is in a column of an item of a select list. -/
def ItemSums (item : Json) : Prop :=
  ∃ fields name call, item = .object fields ∧ (name, .object call) ∈ fields ∧
    (Part.function call).Sums

end Sql

/-- A running sum is in a column, and its window holds another one. -/
def Query.Loops (q : Query) : Prop := (∃ item ∈ q.selection, ItemSums item) ∧ OrdersSum q.orders

end QuerySheet

import QuerySheet.Sql.Condition
import QuerySheet.Sql.Function
import QuerySheet.Sql.Path

/-!
# Expressions and conditions

An expression is a field reference (`"$name"`), a parameter (`":name"`), a literal, an array, or a
call: an object whose first field is the function with its arguments. A condition is an object of
tests on fields, or a list of such objects; `$and` and `$or` hold further conditions.

* `compileExpr` compiles an expression, `compileFunction` a call, `compileOp` one test of a field;
* `compileConditions` gives the predicates of a condition, `compileAnd` and `compileOr` join them;
* `compileOrderBy` compiles order expressions.

The functions call each other, each time on something smaller. Only a running sum needs what is no
part of it, the orders in scope; the compilation of these is an argument, `window`, of all of
them, and section 3 ties the knot.
-/

namespace QuerySheet.Sql

open Json (weight itemsWeight fieldsWeight)

/-! ## 1. Parts without parts -/

/-- The field of a test that holds the transformation of its left side. -/
def transformKey : String := "$transform"

/-- The expression that reads a field. -/
def fieldReference (name : String) : Json := .string ("$" ++ name)

/-- A string is a field reference, a parameter or a literal, by its first character. -/
def compileText (s : String) : Compile Operand :=
  match s.toList with
  | '$' :: name => Path.compileField (String.ofList name)
  | ':' :: c :: name => return .ofParam (← Compile.pushSite (String.ofList (c :: name)))
  | _ => Operand.ofScalar (.string s)

/-- Runs a part with `field` as the field a transformation is applied to. -/
def withField {α : Type} (field : String) (part : Compile α) : Compile α :=
  withReader (fun s => { s with field := some field }) part

/-- Equality, where null is tested for and a parameter may turn out to be null: everything since
    `mark`, the left side included, is then written twice. -/
def equality (mark : Nat) (left right : Operand) : Compile Template := do
  let isParam := right.param?.isSome
  let right ← right.cast left.type
  if right.literal ∧ right.type = .null then return left.sql ++ " IS NULL"
  else if isParam then
    Compile.repeatSitesFrom mark
    return "CASE WHEN " ++ left.sql ++ " IS NULL THEN " ++ right.sql ++ " IS NULL ELSE " ++
      left.sql ++ " = " ++ right.sql ++ " END"
  else return left.sql ++ " = " ++ right.sql

/-- An argument as its parameter wants it. -/
def Parameter.admit (p : Parameter) (o : Operand) : Compile Operand :=
  match p with
  | .any => return o
  | .castable type => do
    let _ ← o.cast type
    return o
  | .cast type => o.cast type

/-! ## 2. Expressions -/

mutual

/-- An expression. -/
def exprWith (window : Compile Template) (e : Json) : Compile Operand :=
  Compile.within .expr [e] <|
    match _h : e with
    | .string s => compileText s
    | .array items => return .ofArray items
    | .object fields => functionWith window fields
    | e => Operand.ofScalar e
termination_by (e.weight, 1)
decreasing_by
  simp only [weight]; exact Prod.Lex.left _ _ (by omega)

/-- A call; only the first field counts. -/
def functionWith (window : Compile Template) (fields : Fields) : Compile Operand :=
  Compile.within .function [.object fields] <|
    match _h : fields with
    | [] => Compile.fail (.unsupportedExpression "\x7b\x7d")
    | (name, raw) :: _ => callWith window name raw
termination_by (fieldsWeight fields, 4)
decreasing_by
  simp only [fieldsWeight]
  rcases Nat.lt_or_eq_of_le (Nat.le_add_right raw.weight _) with h | h
  · exact Prod.Lex.left _ _ h
  · rw [← h]; exact Prod.Lex.right _ (by omega)

/-- The call of a function by its name. -/
def callWith (window : Compile Template) (name : String) (raw : Json) : Compile Operand :=
  if !hasDollar name then Compile.fail (.missingDollar name)
  else
    match Function.ofName? name with
    | none => Compile.fail (.unknownFunction name)
    | some .condition => do
      let parts ← conditionsWith window raw
      return .fragment (if parts.isEmpty then "1" else .intercalate " AND " parts) .boolean
    | some f => do
      f.checkArity (arguments raw).length
      let args ← argumentsWith window f.parameters (arguments raw)
      f.apply args window
termination_by (raw.weight, 3)
decreasing_by
  · exact Prod.Lex.right _ (by omega)
  · rcases Nat.lt_or_eq_of_le (itemsWeight_arguments_le raw) with h | h
    · exact Prod.Lex.left _ _ h
    · rw [h]; exact Prod.Lex.right _ (by omega)

/-- Arguments, each compiled and then admitted by its parameter. -/
def argumentsWith (window : Compile Template) (ps : List Parameter) (args : List Json) :
    Compile (List Operand) :=
  match ps, args with
  | p :: ps, v :: rest => do
    let o ← p.admit (← exprWith window v)
    return o :: (← argumentsWith window ps rest)
  | _, _ => return []
termination_by (itemsWeight args, 2)
decreasing_by
  · simp only [itemsWeight]
    rcases Nat.lt_or_eq_of_le (Nat.le_add_right v.weight (itemsWeight rest)) with h | h
    · exact Prod.Lex.left _ _ h
    · rw [← h]; exact Prod.Lex.right _ (by omega)
  · simp only [itemsWeight]
    have := v.weight_pos
    exact Prod.Lex.left _ _ (by omega)

/-- The predicates of a condition, one for each test. -/
def conditionsWith (window : Compile Template) (conds : Json) : Compile (List Template) :=
  match _h : Condition.tests conds with
  | .error cause => Compile.fail cause
  | .ok fields => testsWith window fields
termination_by (conds.weight, 2)
decreasing_by
  exact Prod.Lex.left _ _ (Condition.fieldsWeight_tests_lt _h)

def testsWith (window : Compile Template) (fields : Fields) : Compile (List Template) :=
  match fields with
  | [] => return []
  | (name, v) :: rest => do
    let here ← testWith window name v
    return here ++ (← testsWith window rest)
termination_by (fieldsWeight fields, 5)
decreasing_by
  · simp only [fieldsWeight]
    rcases Nat.lt_or_eq_of_le (Nat.le_add_right v.weight (fieldsWeight rest)) with h | h
    · exact Prod.Lex.left _ _ h
    · rw [← h]; exact Prod.Lex.right _ (by omega)
  · simp only [fieldsWeight]
    have := v.weight_pos
    exact Prod.Lex.left _ _ (by omega)

/-- The predicates of one field of a condition: nested conditions, several tests of a field, one
    test, or a value that the field must equal. -/
def testWith (window : Compile Template) (name : String) (v : Json) : Compile (List Template) :=
  if name = "$and" then
    if v.isFalsy then return []
    else return [Condition.all (← conditionsWith window v)]
  else if name = "$or" then
    if v.isFalsy ∨ v = .array [] then return []
    else return [Condition.any (← conditionsWith window v)]
  else
    match _h : v with
    | .array ops => opsWith window name ops
    | .object fields => return [← opWith window name (.object fields)]
    | v =>
      return [← Compile.within .op [.string name, .object [("$eq", v)]]
        (comparisonWith window name .eq v none)]
termination_by (v.weight, 4)
decreasing_by
  · exact Prod.Lex.right _ (by omega)
  · exact Prod.Lex.right _ (by omega)
  · simp only [weight]; exact Prod.Lex.left _ _ (by omega)
  · exact Prod.Lex.right _ (by omega)
  · exact Prod.Lex.right _ (by omega)

def opsWith (window : Compile Template) (field : String) (ops : List Json) :
    Compile (List Template) :=
  match ops with
  | [] => return []
  | op :: rest => do
    let here ← opWith window field op
    return here :: (← opsWith window field rest)
termination_by (itemsWeight ops, 5)
decreasing_by
  · simp only [itemsWeight]
    rcases Nat.lt_or_eq_of_le (Nat.le_add_right op.weight (itemsWeight rest)) with h | h
    · exact Prod.Lex.left _ _ h
    · rw [← h]; exact Prod.Lex.right _ (by omega)
  · simp only [itemsWeight]
    have := op.weight_pos
    exact Prod.Lex.left _ _ (by omega)

/-- One test of a field: its first field other than the transformation is the operator. -/
def opWith (window : Compile Template) (field : String) (op : Json) : Compile Template :=
  Compile.within .op [.string field, op] <|
    match _h : op with
    | .object fields =>
      match _hf : fields.find? (·.1 ≠ transformKey) with
      | none => Compile.fail (.invalidCondition op.compact)
      | some (name, right) =>
        match Operator.ofName? name with
        | none => Compile.fail (.unknownOperator name)
        | some operator =>
          comparisonWith window field operator right (fields.lookup transformKey)
    | op => Compile.fail (.invalidCondition op.compact)
termination_by (op.weight, 3)
decreasing_by
  simp only [weight]
  match ht : fields.lookup transformKey with
  | none =>
    have := Json.weight_le_of_find? _hf
    simp only [Option.elim]
    exact Prod.Lex.left _ _ (by omega)
  | some t =>
    have := Json.weight_add_le _hf ht
    simp only [Option.elim]
    exact Prod.Lex.left _ _ (by omega)

/-- The predicate of an operator on a field, which may be transformed first, and a value. -/
def comparisonWith (window : Compile Template) (field : String) (op : Operator) (value : Json)
    (transform : Option Json) : Compile Template := do
  let mark ← Compile.mark
  let left ← leftWith window field transform
  let right ← exprWith window value
  match op.comparison? with
  | some sign =>
    let right ← right.cast left.type
    return left.sql ++ " " ++ sign ++ " " ++ right.sql
  | none =>
    match op with
    | .oneOf =>
      match _h : literalItems? value with
      | none => Compile.fail (.cannotConvert right.type .array)
      | some items =>
        if items.isEmpty then return "0"
        else
          let parts ← elementsWith window left.type (Condition.distinct items)
          return left.sql ++ " IN " ++ (Template.intercalate "," parts).parens
    | .like =>
      let left ← left.cast .string
      let right ← right.cast .string
      return left.sql ++ " LIKE " ++ right.sql
    | .eq => equality mark left right
    | _ => Compile.fail (.unknownOperator op.name)
termination_by (value.weight + transform.elim 0 weight, 3)
decreasing_by
  · rcases Nat.lt_or_eq_of_le (Nat.add_le_add_right value.weight_pos _) with h | h
    · exact Prod.Lex.left _ _ h
    · exact h ▸ Prod.Lex.right _ (by omega)
  · rcases Nat.eq_zero_or_pos (transform.elim 0 weight) with h | h
    · rw [h]; exact Prod.Lex.right _ (by omega)
    · exact Prod.Lex.left _ _ (by omega)
  · have := itemsWeight_literalItems?_lt _h
    have := Json.itemsWeight_le_of_sublist (Condition.distinctFrom_sublist [] items)
    simp only [Condition.distinct]
    exact Prod.Lex.left _ _ (by omega)

/-- The left side of a test: the field, or a function of it. -/
def leftWith (window : Compile Template) (field : String) (transform : Option Json) :
    Compile Operand :=
  match transform with
  | none => exprWith window (fieldReference field)
  | some (.string name) => withField field (functionWith window [(name, .string "$")])
  | some (.object fields) => withField field (functionWith window fields)
  | some v => Compile.fail (.unsupportedExpression v.compact)
termination_by (1 + transform.elim 0 weight, 2)
decreasing_by
  · simp only [fieldReference, weight, Option.elim]; exact Prod.Lex.right _ (by omega)
  · simp only [fieldsWeight, weight, Option.elim]; exact Prod.Lex.left _ _ (by omega)
  · simp only [weight, Option.elim]; exact Prod.Lex.left _ _ (by omega)

/-- The values that a field may be one of. -/
def elementsWith (window : Compile Template) (type : ValueType) (items : List Json) :
    Compile (List Template) :=
  match items with
  | [] => return []
  | v :: rest => do
    let o ← Compile.within .value [v] do (← exprWith window v).cast type
    return o.sql :: (← elementsWith window type rest)
termination_by (itemsWeight items, 2)
decreasing_by
  · simp only [itemsWeight]
    rcases Nat.lt_or_eq_of_le (Nat.le_add_right v.weight (itemsWeight rest)) with h | h
    · exact Prod.Lex.left _ _ h
    · rw [← h]; exact Prod.Lex.right _ (by omega)
  · simp only [itemsWeight]
    have := v.weight_pos
    exact Prod.Lex.left _ _ (by omega)

end

/-! ## 3. Orders -/

/-- A direction after an ordering expression; none at all is left to the statement. -/
def directed (sql : Template) : Option Json → Compile Template
  | none | some .null => return sql
  | some (.string d) =>
    if d = "asc" ∨ d = "desc" then return sql ++ " " ++ d
    else Compile.fail (.invalidOrderDirection d)
  | some v => Compile.fail (.invalidOrderDirection v.compact)

/-- The field of an order expression that holds its direction, when it orders by a call. -/
def directionKey : String := "$dir"

/-- One order expression: a field, a field with its direction, a call with its direction, or any
    other expression. -/
def orderWith (window : Compile Template) (e : Json) : Compile Template :=
  match e with
  | .string field => return (← exprWith window (fieldReference field)).sql
  | .object fields =>
    match fields.find? (·.1 ≠ directionKey) with
    | none => Compile.fail (.unsupportedExpression e.compact)
    | some (name, value) =>
      if hasDollar name then do
        let o ← exprWith window (.object (fields.filter (·.1 ≠ directionKey)))
        directed o.sql (fields.lookup directionKey)
      else do
        let o ← exprWith window (fieldReference name)
        directed o.sql (some value)
  | e => return (← exprWith window e).sql

/-- Order expressions without the keyword. -/
def orderByWith (window : Compile Template) (orders : List Json) : Compile Template :=
  Compile.within .orderBy [.array orders]
    (return .intercalate ", " (← orders.mapM (orderWith window)))

/-- The orders in scope as the text in front of the rows of a running sum. An order may itself be
    a running sum, ordered by the same orders again; `nesting` bounds how often. -/
def windowOf (nesting : Nat) : Compile Template := do
  match (← read).orders with
  | some (o :: orders) =>
    match nesting with
    | 0 => Compile.fail .endlessWindow
    | nesting + 1 => return "ORDER BY " ++ (← orderByWith (windowOf nesting) (o :: orders)) ++ " "
  | _ => return ""

/-- From the third time on the orders compile the same way every time, so a running sum nested
    this deep has no end. -/
def maxNesting : Nat := 4

def window : Compile Template := windowOf maxNesting

/-! ## 4. Entry points -/

def compileExpr (e : Json) : Compile Operand := exprWith window e

def compileFunction (fields : Fields) : Compile Operand := functionWith window fields

def compileOp (field : String) (op : Json) : Compile Template := opWith window field op

def compileConditions (conds : Json) : Compile (List Template) := conditionsWith window conds

/-- The conjunction of a condition; no condition always holds. -/
def compileAnd (conds : Json) : Compile Template :=
  if conds.isFalsy then return "1" else return Condition.all (← compileConditions conds)

/-- The disjunction of a condition; no condition never holds. -/
def compileOr (conds : Json) : Compile Template :=
  if conds.isFalsy then return "0" else return Condition.any (← compileConditions conds)

def compileOrderBy (orders : List Json) : Compile Template := orderByWith window orders

end QuerySheet.Sql

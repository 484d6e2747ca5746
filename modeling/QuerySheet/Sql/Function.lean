import QuerySheet.Sql.Operand

/-!
# Functions and operators

* `Function` are the functions that an expression may call, `Function.parameters` what each wants
  of its arguments, and `Function.apply` the text of a call on compiled arguments;
* `Operator` are the tests that a condition may apply to a field.
-/

namespace QuerySheet.Sql

/-! ## 1. Functions -/

inductive Function where
  | sum
  /-- The sum of a row and all rows after it. -/
  | sumOver
  | count
  | substr
  | lower
  | neg
  | abs
  | idiv
  | month
  | year
  | condition
  | nocase
  | literal
  deriving DecidableEq, Repr

/-- What a function wants of one argument. -/
inductive Parameter where
  /-- Any value. -/
  | any
  /-- A value that could be cast to the type; it is used as it is. -/
  | castable (type : ValueType)
  /-- A value cast to the type. -/
  | cast (type : ValueType)
  deriving DecidableEq, Repr

namespace Function

def name : Function → String
  | .sum => "$sum"
  | .sumOver => "$sumOver"
  | .count => "$count"
  | .substr => "$substr"
  | .lower => "$lower"
  | .neg => "$neg"
  | .abs => "$abs"
  | .idiv => "$idiv"
  | .month => "$month"
  | .year => "$year"
  | .condition => "$condition"
  | .nocase => "$nocase"
  | .literal => "$literal"

def ofName? : String → Option Function
  | "$sum" => some .sum
  | "$sumOver" => some .sumOver
  | "$count" => some .count
  | "$substr" => some .substr
  | "$lower" => some .lower
  | "$neg" => some .neg
  | "$abs" => some .abs
  | "$idiv" => some .idiv
  | "$month" => some .month
  | "$year" => some .year
  | "$condition" => some .condition
  | "$nocase" => some .nocase
  | "$literal" => some .literal
  | _ => none

theorem ofName?_name (f : Function) : ofName? f.name = some f := by
  cases f <;> rfl

/-- A call of one of these makes one row of many. -/
def isAggregate : Function → Bool
  | .sum | .count => true
  | _ => false

/-- The fewest and the most arguments. -/
def arity : Function → Nat × Nat
  | .substr => (2, 3)
  | .idiv => (2, 2)
  | _ => (1, 1)

/-- The parameters, in order; the last ones may be left out as far as the arity allows. -/
def parameters : Function → List Parameter
  | .sum | .sumOver | .neg | .abs => [.castable .float]
  | .count | .literal | .condition => [.any]
  | .substr => [.cast .string, .cast .integer, .cast .integer]
  | .lower | .nocase => [.cast .string]
  | .idiv => [.castable .integer, .castable .integer]
  | .month => [.cast .dateMonth]
  | .year => [.cast .dateYear]

/-- Fails unless the number of arguments fits. -/
def checkArity (f : Function) (count : Nat) : Compile Unit :=
  let (least, most) := f.arity
  if count < least ∨ most < count then
    let expected :=
      if least = most then toString least else toString least ++ "-" ++ toString most
    Compile.fail (.arity f.name expected count)
  else return

/-- The call on arguments that were compiled for the parameters. `window` gives the text that
    orders a running sum. The functions whose arguments are conditions are not called here. -/
def apply (f : Function) (args : List Operand) (window : Compile Template) : Compile Operand := do
  match f, args with
  | .sum, [a] => return .fragment (.call "SUM" [a.sql]) a.type
  | .sumOver, [a] => do
    let rows := (← window) ++ "ROWS BETWEEN CURRENT ROW AND UNBOUNDED FOLLOWING"
    return .fragment (Template.call "SUM" [a.sql] ++ " OVER " ++ rows.parens).parens a.type
  | .count, [a] => return .fragment (.call "COUNT" [a.sql]) .integer
  | .substr, parts => return .fragment (.call "SUBSTR" (parts.map (·.sql))) .string
  | .lower, [a] => return .fragment (.call "LOWER" [a.sql]) .string
  | .neg, [a] => return .fragment ("-" ++ a.sql).parens a.type
  | .abs, [a] => return .fragment (.call "ABS" [a.sql]) a.type
  | .idiv, [a, b] => return .fragment (a.sql ++ " / " ++ b.sql).parens a.type
  | .month, [a] => return a
  | .year, [a] => return a
  | .nocase, [a] => return .fragment (a.sql ++ " COLLATE NOCASE") .string
  | .literal, [a] => if a.literal then return a else Compile.fail .notALiteral
  | f, args => Compile.fail (.arity f.name (toString f.arity.1) args.length)

end Function

/-! ## 2. Operators -/

/-- A test of a field. -/
inductive Operator where
  | gte
  | lte
  | gt
  | lt
  | eq
  | oneOf
  | like
  deriving DecidableEq, Repr

namespace Operator

def name : Operator → String
  | .gte => "$gte"
  | .lte => "$lte"
  | .gt => "$gt"
  | .lt => "$lt"
  | .eq => "$eq"
  | .oneOf => "$oneof"
  | .like => "$like"

def ofName? : String → Option Operator
  | "$gte" => some .gte
  | "$lte" => some .lte
  | "$gt" => some .gt
  | "$lt" => some .lt
  | "$eq" => some .eq
  | "$oneof" => some .oneOf
  | "$like" => some .like
  | _ => none

theorem ofName?_name (op : Operator) : ofName? op.name = some op := by
  cases op <;> rfl

/-- The comparison that an operator is written as. -/
def comparison? : Operator → Option String
  | .gte => some ">="
  | .lte => some "<="
  | .gt => some ">"
  | .lt => some "<"
  | _ => none

end Operator

end QuerySheet.Sql

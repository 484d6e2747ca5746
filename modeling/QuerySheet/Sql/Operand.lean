import QuerySheet.Date
import QuerySheet.Sql.State

/-!
# Operands and their types

An operand is a compiled value: its SQL text, its type, and where it comes from. Casting only ever
widens:

| target       | accepted sources                            |
|--------------|---------------------------------------------|
| `date`       | a string literal in one of the dashed forms |
| `date-month` | `date`, `string`, `any`                     |
| `date-year`  | `date`, `date-month`, `string`, `any`       |
| `id`         | `string`                                    |
| `float`      | `integer`                                   |
| anything     | the same type, `any`, a literal null        |

A parameter is not converted but gets the target as its type; the first type of a name must accept
every later one (`ValueType.accepts`).
-/

namespace QuerySheet.Sql

/-! ## 1. Operands -/

/-- Where a compiled value comes from. -/
inductive Source where
  /-- A text: a column, an expression or a literal. -/
  | fragment
  /-- A question mark whose type is not known. -/
  | param (ref : ParamRef)
  /-- An array, kept as its items until an operator writes them. -/
  | array (items : List Json)
  deriving DecidableEq, Repr

structure Operand where
  sql : Template
  type : ValueType
  /-- The value is in the text, and not read from a column. -/
  literal : Bool
  source : Source
  deriving DecidableEq, Repr

namespace Operand

def fragment (sql : Template) (type : ValueType) : Operand := ⟨sql, type, false, .fragment⟩

def ofLiteral (sql : String) (type : ValueType) : Operand := ⟨sql, type, true, .fragment⟩

def ofParam (ref : ParamRef) : Operand := ⟨.ofRef ref, .param, false, .param ref⟩

def ofArray (items : List Json) : Operand := ⟨"", .array, true, .array items⟩

def param? (o : Operand) : Option ParamRef :=
  match o.source with
  | .param ref => some ref
  | _ => none

/-- The same text as another type; a parameter that has a type is a text. -/
def retag (o : Operand) (type : ValueType) : Operand :=
  { o with
    type
    source := match o.source with
      | .array items => .array items
      | _ => .fragment }

/-! ## 2. String literals -/

/-- A backslash before a dollar sign keeps a text from being a field reference and is dropped. -/
def unescapeDollar : List Char → List Char
  | [] => []
  | '\\' :: '$' :: rest => '$' :: unescapeDollar rest
  | c :: rest => c :: unescapeDollar rest

/-- A quote inside a literal is written twice. -/
def doubleQuotes : List Char → List Char
  | [] => []
  | '\'' :: rest => '\'' :: '\'' :: doubleQuotes rest
  | c :: rest => c :: doubleQuotes rest

/-- Two quotes inside a literal stand for one. -/
def halveQuotes : List Char → List Char
  | [] => []
  | '\'' :: '\'' :: rest => '\'' :: halveQuotes rest
  | c :: rest => c :: halveQuotes rest

/-- The literal of a string. -/
def quote (s : String) : String :=
  String.ofList ('\'' :: (doubleQuotes (unescapeDollar s.toList) ++ ['\'']))

/-- The string between the quotes of a text; a text without them stands for itself. -/
def unquote (sql : String) : String :=
  let cs := sql.toList
  let inner := match cs with
    | '\'' :: rest => if rest.getLast? = some '\'' then rest.dropLast else cs
    | _ => cs
  String.ofList (halveQuotes inner)

/-- The integers below this bound are written without a fraction. -/
def integerBound : Int := Power.two 63

/-- A number as a literal: a whole number is an integer however it was written. -/
def ofNumber : Number → Operand
  | .int n => ofLiteral (toString n) .integer
  | .float x =>
    match x.integer? with
    | some n =>
      if -integerBound < n ∧ n < integerBound then ofLiteral (toString n) .integer
      else ofLiteral x.text .float
    | none => ofLiteral x.text .float

/-- A scalar as a literal. -/
def ofScalar : Json → Compile Operand
  | .null => return ofLiteral "NULL" .null
  | .bool b => return ofLiteral (if b then "1" else "0") .boolean
  | .number n => return ofNumber n
  | .string s => return ofLiteral (quote s) .string
  | v => Compile.fail (.unsupportedExpression v.compact)

/-! ## 3. Casts -/

/-- The leading digits of a date: of its text if it is a literal, else computed by the statement. -/
def truncateDate (date : Operand) (digits : Nat) (type : ValueType) : Operand :=
  if date.literal then ofLiteral (String.ofList (date.sql.text.toList.take digits)) type
  else
    let leading := Template.call "SUBSTR" [date.sql, "1", toString digits]
    fragment ("CAST" ++ (leading ++ " AS integer").parens) type

/-- The cast of an operand that is neither a parameter nor null to a date. -/
def toDate (o : Operand) : Compile Operand :=
  match o.type with
  | .date => return o
  | .string =>
    if o.literal then
      let text := unquote o.sql.text
      match Date.parse? text with
      | some n => return ofLiteral (toString n) .date
      | none => Compile.fail (.invalidDate text)
    else Compile.fail .stringFieldToDate
  | .any => return o.retag .date
  | source => Compile.fail (.cannotConvert source .date)

/-- The cast of an operand that is neither a parameter nor null. -/
def convert (o : Operand) (target : ValueType) : Compile Operand :=
  match target with
  | .date => o.toDate
  | .dateMonth =>
    match o.type with
    | .date | .string | .any => return (← o.toDate).truncateDate 6 .dateMonth
    | source => Compile.fail (.cannotConvert source target)
  | .dateYear =>
    match o.type with
    | .date | .string | .any => return (← o.toDate).truncateDate 4 .dateYear
    | .dateMonth => return o.truncateDate 4 .dateYear
    | source => Compile.fail (.cannotConvert source target)
  | _ =>
    match target, o.type with
    | .id, .string => return o.retag .id
    | .float, .integer => return o.retag .float
    | _, .any => return o.retag target
    | _, source => Compile.fail (.cannotConvert source target)

/-- The operand as a value of another type. A literal null stays null, but is false as a
    boolean. -/
def cast (o : Operand) (target : ValueType) : Compile Operand :=
  if o.type = target then return o
  else
    match o.param? with
    | some ref => do
      Compile.inferParam ref target
      return o.retag target
    | none =>
      if o.type = .null then
        if !o.literal then Compile.fail .nonLiteralNull
        else if target = .boolean then return ofLiteral "0" .boolean
        else return o
      else o.convert target

end Operand

end QuerySheet.Sql

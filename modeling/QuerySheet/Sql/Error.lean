import QuerySheet.Json.Printer
import QuerySheet.ValueType

/-!
# Compile errors

* `CompileError.Cause` says what went wrong, `Cause.category` of what sort it is, and
  `Cause.message` puts it into words;
* `Frame` is one entry point of the compiler that was active at the time, with its arguments;
* a `CompileError` is a cause with the trail of frames, innermost first;
* `CompileError.message` is the cause followed by the trail. The innermost frame is left out of
  it when there are others, since the cause already speaks of it.
-/

namespace QuerySheet

namespace CompileError

/-! ## 1. Causes -/

inductive Category where
  /-- A table or a field does not exist. -/
  | schema
  /-- A dotted path cannot be followed. -/
  | path
  /-- A value or a parameter does not have the type that is asked for. -/
  | cast
  /-- A function has too few or too many arguments. -/
  | arity
  /-- Well-formed, but not allowed here. -/
  | policy
  /-- An unknown function or operator, or a malformed expression. -/
  | syntactic
  deriving DecidableEq, Repr

inductive Cause where
  | unknownTable (table : String)
  | unknownField (table field : String)
  | pathTableMissing (table : String)
  | notJoinable (table field : String)
  | missingParentPath (key : String)
  | invalidPath (path : String)
  | cannotConvert (source target : ValueType)
  | paramConflict (name : String) (existing requested : ValueType)
  | invalidDate (text : String)
  | stringFieldToDate
  | nonLiteralNull
  | arity (function expected : String) (got : Nat)
  | notALiteral
  | unknownFunction (name : String)
  | missingDollar (name : String)
  | unknownOperator (name : String)
  | invalidFieldReference (name : String)
  | unsupportedExpression (text : String)
  | invalidCondition (text : String)
  | invalidOrderDirection (text : String)
  | joinInTableFilter (key : String)
  | unnamedSelectFunction (name : String)
  /-- The orders of a running sum contain a running sum that is ordered by them again. -/
  | endlessWindow
  deriving DecidableEq, Repr

namespace Cause

def category : Cause → Category
  | .unknownTable _ | .unknownField _ _ => .schema
  | .pathTableMissing _ | .notJoinable _ _ | .missingParentPath _ | .invalidPath _ => .path
  | .cannotConvert _ _ | .paramConflict _ _ _ | .invalidDate _ | .stringFieldToDate
  | .nonLiteralNull => .cast
  | .arity _ _ _ => .arity
  | .joinInTableFilter _ | .unnamedSelectFunction _ | .notALiteral => .policy
  | .unknownFunction _ | .missingDollar _ | .unknownOperator _ | .invalidFieldReference _
  | .unsupportedExpression _ | .invalidCondition _ | .invalidOrderDirection _
  | .endlessWindow => .syntactic

def message : Cause → String
  | .unknownTable table => "Table \"" ++ table ++ "\" does not exist in the schema"
  | .unknownField table field =>
    "Field \"" ++ field ++ "\" does not exist in table \"" ++ table ++ "\""
  | .pathTableMissing table => "Path error: " ++ table ++ " table does not exist"
  | .notJoinable table field => "Field not joinable on table " ++ table ++ ": \"" ++ field ++ "\""
  | .missingParentPath key => "Path does not exist: " ++ key
  | .invalidPath path => "Invalid path: " ++ path
  | .cannotConvert source target => "Can't convert " ++ source.name ++ " to " ++ target.name
  | .paramConflict name existing requested =>
    "Parameter \"" ++ name ++ "\" can't convert to " ++ requested.name ++
      " (already inferred as " ++ existing.name ++ ")"
  | .invalidDate text =>
    "Invalid date literal " ++ text ++ ": expected YYYY-MM-DD, YYYY-MM or YYYY"
  | .stringFieldToDate => "Casting string fields to dates is not supported"
  | .nonLiteralNull => "A non-literal null doesn't make sense"
  | .arity function expected got =>
    "Invalid number of arguments to " ++ function ++ ": expected " ++ expected ++ ", got " ++
      toString got
  | .notALiteral => "Literal not passed to $literal"
  | .unknownFunction name => "Unknown function: " ++ name
  | .missingDollar name =>
    "Unknown property \"" ++ name ++
      "\". Did you mean to call a function? Try prefixing it with $"
  | .unknownOperator name => "Unknown operator: " ++ name
  | .invalidFieldReference name => "Invalid field reference: " ++ name
  | .unsupportedExpression text => "Unsupported type of expression: " ++ text
  | .invalidCondition text => "Invalid condition: " ++ text
  | .invalidOrderDirection text => "Invalid order direction: " ++ text
  | .joinInTableFilter key => "Table filters cannot have joins: " ++ key
  | .unnamedSelectFunction name =>
    "Invalid field \"" ++ name ++
      "\", are you trying to select a function? You need to name the expression"
  | .endlessWindow => "The orders of a running sum contain a running sum ordered by themselves"

end Cause

end CompileError

/-! ## 2. Frames -/

/-- The entry points of the compiler. -/
inductive FrameKind where
  | expr
  | function
  | op
  | select
  | filter
  | groupBy
  | orderBy
  | value
  deriving DecidableEq, Repr

def FrameKind.name : FrameKind → String
  | .expr => "expr"
  | .function => "function"
  | .op => "op"
  | .select => "select"
  | .filter => "filter"
  | .groupBy => "groupBy"
  | .orderBy => "orderBy"
  | .value => "value"

/-- An active entry point and what it was asked to compile. -/
structure Frame where
  kind : FrameKind
  args : List Json
  deriving DecidableEq, Repr

namespace Frame

/-- The longest text, in bytes, that is written on one line. -/
def maxInlineWidth : Nat := 70

/-- A string is written bare, a short value on one line, and a long one over several lines. -/
def argumentText : Json → String
  | .string s => s
  | v =>
    let line := v.compact
    if line.utf8ByteSize ≤ maxInlineWidth then line
    else String.ofList (v.pretty.toList.flatMap fun c => if c = '\n' then ['\n', ' ', ' '] else [c])

def text (f : Frame) : String :=
  f.kind.name ++ ": " ++ " ".intercalate (f.args.map argumentText)

end Frame

/-! ## 3. Errors -/

/-- A cause and the entry points that were active, innermost first. -/
structure CompileError where
  cause : CompileError.Cause
  trail : List Frame
  deriving DecidableEq, Repr

namespace CompileError

def ofCause (cause : Cause) : CompileError := ⟨cause, []⟩

/-- Records an entry point that the error leaves. -/
def within (e : CompileError) (f : Frame) : CompileError := { e with trail := e.trail ++ [f] }

def category (e : CompileError) : Category := e.cause.category

/-- The frames that are shown: all but the innermost, or the only one. -/
def shown (e : CompileError) : List Frame :=
  match e.trail with
  | _ :: f :: rest => f :: rest
  | trail => trail

/-- The trail in words, if there is one. -/
def stackText (e : CompileError) : Option String :=
  if e.shown.isEmpty then none
  else some ("Expression stack:" ++ String.join (e.shown.map fun f => "\n  " ++ f.text))

def message (e : CompileError) : String :=
  e.cause.message ++
    match e.stackText with
    | some stack => "\n\n" ++ stack
    | none => ""

end CompileError

end QuerySheet

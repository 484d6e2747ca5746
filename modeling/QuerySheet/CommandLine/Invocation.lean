import QuerySheet.Json.Reader

/-!
# Invocations

The arguments of the command line ask for its version, to compile a query, or to run one.
`Request.ofArguments?` reads them.

Arguments are read from the first to the last, and the flag for the version is answered as soon as
it is reached. Every other flag has a value, either in the same argument or in the next one, which
then does not look like a flag. The settings file may be named before or after the command; all
other flags follow the command that they belong to, and only parameters may be given more than
once. Two dashes end the flags.
-/

namespace QuerySheet.CommandLine

/-! ## 1. Requests -/

/-- What is printed of a compiled query. -/
inductive OutputForm where
  | sql
  /-- The statement with what it reads, gives and needs. -/
  | verbose
  deriving DecidableEq, Repr

/-- The files that a query is made of. -/
structure Inputs where
  schema : String
  query : String
  deriving DecidableEq, Repr

inductive Command where
  | compile (inputs : Inputs) (form : OutputForm)
  | run (inputs : Inputs) (database : Option String) (params : Fields) (cell : Option String)

def Command.inputs : Command → Inputs
  | .compile inputs _ => inputs
  | .run inputs _ _ _ => inputs

structure Invocation where
  /-- The settings file, where one is named. -/
  settings : Option String
  command : Command

inductive Request where
  | version
  | invoke (i : Invocation)

/-! ## 2. Arguments -/

inductive Flag where
  | settings
  | schema
  | query
  | output
  | database
  | param
  | cell
  deriving DecidableEq, Repr

def Flag.ofLong? : String → Option Flag
  | "config" => some .settings
  | "schema" => some .schema
  | "query" => some .query
  | "output" => some .output
  | "db" => some .database
  | "param" => some .param
  | "cell" => some .cell
  | _ => none

def Flag.ofShort? : Char → Option Flag
  | 'c' => some .settings
  | 's' => some .schema
  | 'q' => some .query
  | 'o' => some .output
  | 'p' => some .param
  | _ => none

/-- A file has a name. -/
def Flag.admits (f : Flag) (value : String) : Bool :=
  match f with
  | .settings | .schema | .query | .database => !value.isEmpty
  | .output | .param | .cell => true

inductive Argument where
  | word (s : String)
  | version
  | flag (f : Flag) (value : String)
  /-- A flag whose value is the next argument. -/
  | awaiting (f : Flag)
  deriving DecidableEq, Repr

/-- One argument by itself. -/
def Argument.ofText? (text : String) : Option Argument :=
  match text.toList with
  | '-' :: '-' :: cs =>
    let name := String.ofList (cs.takeWhile (· != '='))
    match cs.dropWhile (· != '=') with
    | _ :: value => (Flag.ofLong? name).map (.flag · (String.ofList value))
    | [] => if name = "version" then some .version else (Flag.ofLong? name).map .awaiting
  | '-' :: 'V' :: _ => some .version
  | ['-', c] => (Flag.ofShort? c).map .awaiting
  | '-' :: c :: '=' :: value => (Flag.ofShort? c).map (.flag · (String.ofList value))
  | '-' :: c :: value => (Flag.ofShort? c).map (.flag · (String.ofList value))
  | _ => some (.word text)

/-- Whether a text can be the value of the flag before it. -/
def isValue (text : String) : Bool := text = "-" || !text.startsWith "-"

/-- All arguments, every flag with its value. -/
def arguments? : List String → Option (List Argument)
  | [] | ["--"] => some []
  | text :: rest =>
    match Argument.ofText? text, rest with
    | none, _ => none
    | some (.awaiting _), [] => none
    | some (.awaiting f), value :: rest =>
      if isValue value && f.admits value then (arguments? rest).map (.flag f value :: ·) else none
    | some (.flag f value), rest =>
      if f.admits value then (arguments? rest).map (.flag f value :: ·) else none
    | some a, rest => (arguments? rest).map (a :: ·)

/-! ## 3. Reading -/

/-- Whether all arguments are flags out of some. -/
def areFlags (allowed : List Flag) (args : List Argument) : Bool :=
  args.all fun
    | .flag f _ => allowed.contains f
    | _ => false

/-- The values of a flag, in their order. -/
def values (f : Flag) (args : List Argument) : List String :=
  args.filterMap fun
    | .flag g value => if g = f then some value else none
    | _ => none

/-- The value of a flag that may be left out, but not be given twice. -/
def optional? (f : Flag) (args : List Argument) : Option (Option String) :=
  match values f args with
  | [] => some none
  | [value] => some (some value)
  | _ => none

def inputs? (args : List Argument) : Option Inputs := do
  return { schema := ← (← optional? .schema args), query := ← (← optional? .query args) }

def outputForm? : Option String → Option OutputForm
  | none | some "sql" => some .sql
  | some "verbose" => some .verbose
  | some _ => none

/-- A parameter `name=value`, its name with or without a colon before it. A value that is no JSON
    stands for itself. -/
def param? (text : String) : Option (String × Json) :=
  match text.toList.dropWhile (· != '=') with
  | _ :: value =>
    let name := (text.toList.takeWhile (· != '=')).dropWhile (· = ':')
    let value := String.ofList value
    some (String.ofList name, (Json.parse? value).getD (.string value))
  | [] => none

def command? (name : String) (args : List Argument) : Option Command := do
  let inputs ← inputs? args
  match name with
  | "compile" =>
    if !areFlags [.settings, .schema, .query, .output] args then none
    return .compile inputs (← outputForm? (← optional? .output args))
  | "run" =>
    if !areFlags [.settings, .schema, .query, .database, .param, .cell] args then none
    let params ← (values .param args).mapM param?
    return .run inputs (← optional? .database args) (Fields.ofList params) (← optional? .cell args)
  | _ => none

/-- The request for a command with the arguments after it. A settings file that is named among
    them comes before one that was named earlier. -/
def Request.ofCommand? (settings : Option String) (name : String) (texts : List String) :
    Option Request := do
  let args ← arguments? texts
  return .invoke ⟨(← optional? .settings args).or settings, ← command? name args⟩

/-- The request of arguments, after some that may have named a settings file. -/
def Request.after? (settings : Option String) : List String → Option Request
  | [] => none
  | text :: rest =>
    match Argument.ofText? text, rest with
    | some .version, _ => some .version
    | some (.word name), rest => ofCommand? settings name rest
    | some (.flag .settings path), rest =>
      if settings.isNone && Flag.settings.admits path then after? (some path) rest else none
    | some (.awaiting .settings), path :: rest =>
      if settings.isNone && isValue path && Flag.settings.admits path then after? (some path) rest
      else none
    | _, _ => none

/-- The request of the arguments after the program's name. -/
def Request.ofArguments? (texts : List String) : Option Request := Request.after? none texts

end QuerySheet.CommandLine

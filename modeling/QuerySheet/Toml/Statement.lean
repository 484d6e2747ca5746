import QuerySheet.Toml.Table
import QuerySheet.Toml.Word

/-!
# The statements of a settings file

A settings file is a list of statements, one a line: a key with a value, the header of a table, the
header of one more table of a series. `Statement.ofTokens?` reads them.

A key is a name, or several with points between them. An array or a table in braces may go over
several lines and have comments and a comma at its end. Neither the names of a key nor the
containers around a value may be more than `maxDepth`.
-/

namespace QuerySheet.Toml

/-- How many names a key may have, and how deep the containers of a value may be nested. -/
def maxDepth : Nat := 80

/-- The names of a key. There is at least one. -/
structure Key where
  name : String
  more : List String
  deriving DecidableEq, Repr

inductive Statement where
  | assign (key : Key) (v : Value)
  | header (key : Key)
  | seriesHeader (key : Key)

/-- Reads the start of a list of tokens, and gives the rest. -/
abbrev Reading (α : Type) := List Token → Option (α × List Token)

namespace Reading

/-! ## 1. Between the words -/

def skipBlank : List Token → List Token
  | .blank _ :: rest => rest
  | ts => ts

/-- Blanks, comments and line ends. -/
def skipLines (ts : List Token) : List Token :=
  ts.dropWhile fun
    | .blank _ | .comment | .lineEnd => true
    | _ => false

/-- A token, after blanks. -/
def sign? (t : Token) (ts : List Token) : Option (List Token) :=
  match skipBlank ts with
  | found :: rest => if found = t then some rest else none
  | [] => none

/-- The end of a line, with or without a comment, or of the text. -/
def lineEnd? (ts : List Token) : Option (List Token) :=
  match skipBlank ts with
  | [] | [.comment] => some []
  | .lineEnd :: rest | .comment :: .lineEnd :: rest => some rest
  | _ => none

/-! ## 2. Keys -/

def isBare (c : Char) : Bool := c.isAlphanum || c = '_' || c = '-'

def name? : Reading String
  | .word cs :: rest => if cs.all isBare then some (String.ofList cs, rest) else none
  | .string s false :: rest => some (s, rest)
  | _ => none

/-- The further names of a key, each after a point with or without blanks around it. -/
def moreNames? (ts : List Token) : Option (List String × List Token) :=
  match sign? .dot ts with
  | none => some ([], ts)
  | some rest =>
    match name? (skipBlank rest) with
    | none => none
    | some (name, rest) =>
      if rest.length < ts.length then
        (moreNames? rest).map fun (names, rest) => (name :: names, rest)
      else none
termination_by ts.length

def key? : Reading Key := fun ts => do
  let (name, rest) ← name? (skipBlank ts)
  let (more, rest) ← moreNames? rest
  if maxDepth ≤ more.length then none
  return (⟨name, more⟩, rest)

/-! ## 3. Values -/

/-- A word, and another one after a point right behind it. -/
def pointed? : Reading (List Char)
  | .word cs :: .dot :: .word ds :: rest => some (cs ++ '.' :: ds, rest)
  | .word cs :: rest => some (cs, rest)
  | _ => none

/-- A day that a single space and a digit follow goes on with a time of day. -/
def word? : Reading (List Char) := fun ts => do
  let (cs, rest) ← pointed? ts
  match Datetime.day? cs, rest with
  | some (_, []), .blank [' '] :: .word (c :: ds) :: more =>
    if c.isDigit then
      let (clock, rest) ← pointed? (.word (c :: ds) :: more)
      return (cs ++ ' ' :: clock, rest)
    else return (cs, rest)
  | _, _ => return (cs, rest)

def scalar? : Reading Value
  | .string s _ :: rest => some (.string s, rest)
  | ts => do
    let (cs, rest) ← word? ts
    return (← Value.ofWord? cs, rest)

/-- The items of an array after its opening bracket. -/
def items? (value? : Reading Value) (ts : List Token) : Option (List Value × List Token) :=
  match skipLines ts with
  | .closeBracket :: rest => some ([], rest)
  | ts' =>
    match value? ts' with
    | none => none
    | some (v, rest) =>
      match skipLines rest with
      | .closeBracket :: rest => some ([v], rest)
      | .comma :: rest =>
        if rest.length < ts.length then
          (items? value? rest).map fun (vs, rest) => (v :: vs, rest)
        else none
      | _ => none
termination_by ts.length

/-- A key with its value. What may stand around the sign between them is skipped. -/
def assignment? (skip : List Token → List Token) (value? : Reading Value) :
    Reading (Key × Value) := fun ts => do
  let (key, rest) ← key? ts
  let rest ← sign? .equals (skip rest)
  let (v, rest) ← value? (skip rest)
  return ((key, v), rest)

/-- The entries of a table in braces after its opening brace or a comma. -/
def entries? (value? : Reading Value) (t : Table) (ts : List Token) :
    Option (Table × List Token) :=
  match skipLines ts with
  | .closeBrace :: rest => some (t, rest)
  | ts' =>
    match assignment? skipLines value? ts' with
    | none => none
    | some ((key, v), rest) =>
      match t.assign? key.name key.more v with
      | none => none
      | some t =>
        match skipLines rest with
        | .closeBrace :: rest => some (t, rest)
        | .comma :: rest => if rest.length < ts.length then entries? value? t rest else none
        | _ => none
termination_by ts.length

/-- A value with containers nested at most `depth` deep. -/
def value? : Nat → Reading Value
  | 0 => scalar?
  | depth + 1 => fun
    | .openBracket :: rest =>
      (items? (value? depth) rest).map fun (vs, rest) => (.array vs, rest)
    | .openBrace :: rest =>
      (entries? (value? depth) [] rest).map fun (t, rest) => (t.finish, rest)
    | ts => scalar? ts

end Reading

namespace Statement

open Reading

/-! ## 4. Lines -/

/-- A statement without the end of its line. -/
def plain? : Reading Statement
  | .openBracket :: .openBracket :: rest => do
    let (key, rest) ← key? rest
    match skipBlank rest with
    | .closeBracket :: .closeBracket :: rest => return (.seriesHeader key, rest)
    | _ => none
  | .openBracket :: rest => do
    let (key, rest) ← key? rest
    return (.header key, ← sign? .closeBracket rest)
  | ts => do
    let ((key, v), rest) ← assignment? skipBlank (value? maxDepth) ts
    return (.assign key v, rest)

/-- One line: a statement or nothing. -/
def line? : Reading (Option Statement) := fun ts =>
  match lineEnd? ts with
  | some rest => some (none, rest)
  | none => do
    let (s, rest) ← plain? (skipBlank ts)
    return (some s, ← lineEnd? rest)

def ofTokens? (ts : List Token) : Option (List Statement) :=
  (cut? line? ts).map fun lines => lines.filterMap id

end Statement

end QuerySheet.Toml

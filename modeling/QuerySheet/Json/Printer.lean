import QuerySheet.Json.Basic

/-!
# JSON text

* `Json.compact` is the text without spaces;
* `Json.pretty` is the text over several lines, two spaces deeper at each level, with empty
  containers as `[]` and an empty pair of braces;
* `Json.quoted` is a string literal: the two characters that must be escaped, the short escapes,
  and other control characters below a space as four hexadecimal digits; all else is written as
  it is.
-/

namespace QuerySheet

/-- The text of a number. -/
def Number.text : Number → String
  | .int n => toString n
  | .float x => x.text

namespace Json

/-! ## 1. Strings -/

/-- The text of one character of a string literal. -/
def escaped (c : Char) : List Char :=
  match c with
  | '"' => ['\\', '"']
  | '\\' => ['\\', '\\']
  | '\x08' => ['\\', 'b']
  | '\x0c' => ['\\', 'f']
  | '\n' => ['\\', 'n']
  | '\r' => ['\\', 'r']
  | '\t' => ['\\', 't']
  | _ =>
    if c.toNat < 0x20 then
      ['\\', 'u', '0', '0', Nat.digitChar (c.toNat / 16), Nat.digitChar (c.toNat % 16)]
    else [c]

/-- A string as a literal. -/
def quoted (s : String) : String :=
  String.ofList ('"' :: (s.toList.flatMap escaped ++ ['"']))

/-! ## 2. Values -/

mutual

/-- The text without spaces. -/
def compact : Json → String
  | .null => "null"
  | .bool true => "true"
  | .bool false => "false"
  | .number n => n.text
  | .string s => quoted s
  | .array items => "[" ++ ",".intercalate (compactItems items) ++ "]"
  | .object fields => "\x7b" ++ ",".intercalate (compactFields fields) ++ "\x7d"

def compactItems : List Json → List String
  | [] => []
  | v :: rest => v.compact :: compactItems rest

def compactFields : List (String × Json) → List String
  | [] => []
  | (k, v) :: rest => (quoted k ++ ":" ++ v.compact) :: compactFields rest

end

/-- The lines of a container that is not empty: its members one level deeper. -/
def block (opening closing : String) (depth : Nat) (members : List String) : String :=
  let margin (n : Nat) : String := "\n" ++ String.ofList (List.replicate (2 * n) ' ')
  opening ++ margin (depth + 1) ++ ("," ++ margin (depth + 1)).intercalate members ++
    margin depth ++ closing

mutual

/-- The text over several lines, for a value that starts `depth` levels deep. -/
def prettyAt (depth : Nat) : Json → String
  | .array (v :: rest) => block "[" "]" depth (prettyItems depth (v :: rest))
  | .object (field :: rest) => block "\x7b" "\x7d" depth (prettyFields depth (field :: rest))
  | .array [] => "[]"
  | .object [] => "\x7b\x7d"
  | .null => "null"
  | .bool true => "true"
  | .bool false => "false"
  | .number n => n.text
  | .string s => quoted s

def prettyItems (depth : Nat) : List Json → List String
  | [] => []
  | v :: rest => prettyAt (depth + 1) v :: prettyItems depth rest

def prettyFields (depth : Nat) : List (String × Json) → List String
  | [] => []
  | (k, v) :: rest => (quoted k ++ ": " ++ prettyAt (depth + 1) v) :: prettyFields depth rest

end

/-- The text over several lines. -/
def pretty (v : Json) : String := v.prettyAt 0

end Json

end QuerySheet

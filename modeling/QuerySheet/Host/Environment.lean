import QuerySheet.Text.Alphanumeric

/-!
# Environment variables in texts

A text may refer to a variable as `$NAME` or in braces; a dollar sign before anything else stands
for itself.

* `Piece.ofChars` cuts a text into characters and references, and loses nothing but braces;
* `Environment.expand` puts the values in, or names the first variable that is missing.
-/

namespace QuerySheet

/-! ## 1. Pieces of a text -/

inductive Piece where
  | char (c : Char)
  | variable (name : List Char)
  deriving DecidableEq, Repr

namespace Piece

/-- What a name without braces may hold. -/
def isNameChar (c : Char) : Bool := Alphanumeric.contains c || c = '_'

/-- A name in braces goes up to the closing brace, or else to the end; a name without braces is not
    empty. -/
def ofChars (cs : List Char) : List Piece :=
  match cs with
  | [] => []
  | '$' :: '\x7b' :: rest =>
    .variable (rest.takeWhile (· != '\x7d')) :: ofChars ((rest.dropWhile (· != '\x7d')).drop 1)
  | '$' :: rest =>
    if (rest.takeWhile isNameChar).isEmpty then .char '$' :: ofChars rest
    else .variable (rest.takeWhile isNameChar) :: ofChars (rest.dropWhile isNameChar)
  | c :: rest => .char c :: ofChars rest
termination_by cs.length
decreasing_by
  · have := (List.dropWhile_sublist (l := rest) (· != '\x7d')).length_le
    simp only [List.length_drop, List.length_cons]
    omega
  · simp
  · have := (List.dropWhile_sublist (l := rest) isNameChar).length_le
    simp only [List.length_cons]
    omega
  · simp

/-- A text without a dollar sign has no references. -/
theorem ofChars_of_no_dollar {cs : List Char} (h : '$' ∉ cs) : ofChars cs = cs.map .char := by
  induction cs with
  | nil => simp [ofChars]
  | cons c rest ih =>
    simp only [List.mem_cons, not_or] at h
    rw [ofChars.eq_def]
    split
    · contradiction
    · simp_all
    · simp_all
    · simp_all

end Piece

/-! ## 2. Values -/

/-- Variables with their values. -/
abbrev Environment := List (String × String)

/-- A text refers to a variable that is not set. -/
structure MissingVariable where
  name : String
  deriving DecidableEq, Repr

namespace Environment

/-- The value of a variable. A variable is kept as the line `NAME=value`, so its value is what
    follows the name and the sign in a line that starts with them. -/
def get? (env : Environment) (name : String) : Option String :=
  env.findSome? fun (key, value) =>
    (List.isPrefixOf? (name ++ "=").toList (key ++ "=" ++ value).toList).map String.ofList

/-- The text of one piece. -/
def expandPiece (env : Environment) : Piece → Except MissingVariable (List Char)
  | .char c => .ok [c]
  | .variable name =>
    match env.get? (String.ofList name) with
    | some value => .ok value.toList
    | none => .error ⟨String.ofList name⟩

/-- A text with the values of its variables. -/
def expand (env : Environment) (text : String) : Except MissingVariable String := do
  let parts ← (Piece.ofChars text.toList).mapM env.expandPiece
  return String.ofList parts.flatten

end Environment

end QuerySheet

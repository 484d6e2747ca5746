import QuerySheet.Text.Digit

/-!
# The tokens of a settings file

`Toml.Token.scan` cuts a text into tokens or refuses it. Blanks are tokens as well, because a point
or a space between two words may make them one value.

* a *word* is anything that is neither a sign, a blank nor a string: bare names, numbers, dates. A
  quote within a word does not end it;
* a basic string has escapes, a literal string has none; each has a form over several lines, where
  a line break right after the opening quotes does not count;
* control characters other than the tab are refused in strings and in comments, and a carriage
  return is only read before a line feed.
-/

namespace QuerySheet.Toml

/-- The pieces that a step cuts from a list until nothing is left. A step that takes nothing, or
    fails, ends in failure. -/
def cut? {α β : Type} (step : List α → Option (β × List α)) (xs : List α) : Option (List β) :=
  if xs.isEmpty then some []
  else
    match step xs with
    | none => none
    | some (piece, rest) =>
      if rest.length < xs.length then (cut? step rest).map (piece :: ·) else none
termination_by xs.length

inductive Token where
  | dot
  | equals
  | comma
  | openBracket
  | closeBracket
  | openBrace
  | closeBrace
  | blank (cs : List Char)
  | comment
  | lineEnd
  | word (cs : List Char)
  | string (s : String) (manyLines : Bool)
  deriving DecidableEq, Repr

namespace Token

/-! ## 1. Characters -/

def isBlank (c : Char) : Bool := c = ' ' || c = '\t'

/-- A character that no comment and no string may hold as it is. -/
def isControl (c : Char) : Bool := (c.toNat < 0x20 && c != '\t') || c.toNat = 0x7F

/-- A character that ends a word. -/
def endsWord (c : Char) : Bool := isBlank c || ".=,[]\x7b\x7d#\n\r".toList.contains c

/-! ## 2. Escapes -/

/-- The value of hexadecimal digits. -/
def hexValue? (ds : List Char) : Option Nat :=
  ds.foldlM (fun n c => (Digit.hex? c).map (16 * n + ·)) 0

/-- The character of a code point; a surrogate is none. -/
def ofCodePoint? (n : Nat) : Option Char :=
  if h : n.isValidChar then some (Char.ofNatAux n h) else none

/-- What an escape stands for that follows its backslash. -/
def escape? : List Char → Option (Char × List Char)
  | 'u' :: a :: b :: c :: d :: rest => do
    return (← ofCodePoint? (← hexValue? [a, b, c, d]), rest)
  | 'U' :: a :: b :: c :: d :: e :: f :: g :: h :: rest => do
    return (← ofCodePoint? (← hexValue? [a, b, c, d, e, f, g, h]), rest)
  | 'x' :: a :: b :: rest => do
    return (← ofCodePoint? (← hexValue? [a, b]), rest)
  | '"' :: rest => some ('"', rest)
  | '\\' :: rest => some ('\\', rest)
  | 'e' :: rest => some ('\x1B', rest)
  | 'b' :: rest => some ('\x08', rest)
  | 'f' :: rest => some ('\x0c', rest)
  | 'n' :: rest => some ('\n', rest)
  | 'r' :: rest => some ('\r', rest)
  | 't' :: rest => some ('\t', rest)
  | _ => none

/-- The rest after a line break, if one stands here. -/
def lineBreak? : List Char → Option (List Char)
  | '\n' :: rest => some rest
  | '\r' :: '\n' :: rest => some rest
  | _ => none

/-- The rest after blanks and line breaks. -/
def skipLines : List Char → List Char
  | '\r' :: '\n' :: rest => skipLines rest
  | c :: rest => if isBlank c || c = '\n' then skipLines rest else c :: rest
  | [] => []

/-- After a backslash at the end of a line, the rest from the next text on. -/
def continuation? (cs : List Char) : Option (List Char) :=
  (lineBreak? (cs.dropWhile isBlank)).map skipLines

theorem length_escape?_lt {cs rest : List Char} {c : Char} (h : escape? cs = some (c, rest)) :
    rest.length < cs.length := by
  unfold escape? at h
  split at h <;>
    simp only [Option.bind_eq_bind, Option.bind_eq_some_iff, Option.pure_def, Option.some.injEq,
      Prod.mk.injEq, reduceCtorEq] at h
  case h_1 => obtain ⟨_, _, _, _, _, rfl⟩ := h; simp only [List.length_cons]; omega
  case h_2 => obtain ⟨_, _, _, _, _, rfl⟩ := h; simp only [List.length_cons]; omega
  case h_3 => obtain ⟨_, _, _, _, _, rfl⟩ := h; simp only [List.length_cons]; omega
  all_goals (obtain ⟨_, rfl⟩ := h; simp)

theorem length_skipLines_le (cs : List Char) : (skipLines cs).length ≤ cs.length := by
  fun_induction skipLines cs with
  | case1 rest ih => simp only [List.length_cons]; omega
  | case2 c rest _ _ ih => simp only [List.length_cons]; omega
  | case3 => exact Nat.le_refl _
  | case4 => exact Nat.le_refl _

theorem length_lineBreak?_lt {cs rest : List Char} (h : lineBreak? cs = some rest) :
    rest.length < cs.length := by
  unfold lineBreak? at h
  split at h
  · cases h; simp
  · cases h; simp only [List.length_cons]; omega
  · cases h

theorem length_continuation?_lt {cs rest : List Char} (h : continuation? cs = some rest) :
    rest.length < cs.length := by
  obtain ⟨after, ha, rfl⟩ := Option.map_eq_some_iff.1 h
  have := length_lineBreak?_lt ha
  have := length_skipLines_le after
  have := (List.dropWhile_sublist (l := cs) isBlank).length_le
  omega

/-! ## 3. Strings

Each reader takes the text read so far, backwards, and the rest after the opening quote. -/

def ofReversed (read : List Char) : String := String.ofList read.reverse

/-- A string with escapes on one line. -/
def basic? (read cs : List Char) : Option (Token × List Char) :=
  match cs with
  | [] => none
  | '"' :: rest => some (.string (ofReversed read) false, rest)
  | '\\' :: rest =>
    match h : escape? rest with
    | some (c, after) =>
      have : after.length < rest.length := length_escape?_lt h
      basic? (c :: read) after
    | none => none
  | c :: rest => if isControl c then none else basic? (c :: read) rest
termination_by cs.length

/-- A string without escapes on one line. -/
def literal? (read : List Char) : List Char → Option (Token × List Char)
  | [] => none
  | '\x27' :: rest => some (.string (ofReversed read) false, rest)
  | c :: rest => if isControl c then none else literal? (c :: read) rest

/-- Up to two quotes right before the closing ones belong to the text. -/
def closing (quote : Char) (read : List Char) (cs : List Char) : Token × List Char :=
  let extra := ((cs.take 2).takeWhile (· = quote)).length
  (.string (ofReversed (List.replicate extra quote ++ read)) true, cs.drop extra)

/-- A string with escapes on several lines. -/
def basicLines? (read cs : List Char) : Option (Token × List Char) :=
  match cs with
  | [] => none
  | '"' :: '"' :: '"' :: rest => some (closing '"' read rest)
  | '\\' :: rest =>
    match h : continuation? rest with
    | some after =>
      have : after.length < rest.length := length_continuation?_lt h
      basicLines? read after
    | none =>
      match h : escape? rest with
      | some (c, after) =>
        have : after.length < rest.length := length_escape?_lt h
        basicLines? (c :: read) after
      | none => none
  | '\r' :: '\n' :: rest => basicLines? ('\n' :: '\r' :: read) rest
  | '\n' :: rest => basicLines? ('\n' :: read) rest
  | c :: rest => if isControl c then none else basicLines? (c :: read) rest
termination_by cs.length

/-- A string without escapes on several lines. -/
def literalLines? (read : List Char) : List Char → Option (Token × List Char)
  | [] => none
  | '\x27' :: '\x27' :: '\x27' :: rest => some (closing '\x27' read rest)
  | '\r' :: '\n' :: rest => literalLines? ('\n' :: '\r' :: read) rest
  | '\n' :: rest => literalLines? ('\n' :: read) rest
  | c :: rest => if isControl c then none else literalLines? (c :: read) rest

/-- The rest without a line break at its start. -/
def dropLineBreak (cs : List Char) : List Char := (lineBreak? cs).getD cs

/-! ## 4. The text -/

/-- A comment up to the end of its line. -/
def comment? : List Char → Option (List Char)
  | [] => some []
  | '\n' :: rest => some ('\n' :: rest)
  | '\r' :: '\n' :: rest => some ('\r' :: '\n' :: rest)
  | c :: rest => if isControl c then none else comment? rest

/-- The token at the start of a text. -/
def next? : List Char → Option (Token × List Char)
  | [] => none
  | '.' :: rest => some (.dot, rest)
  | '=' :: rest => some (.equals, rest)
  | ',' :: rest => some (.comma, rest)
  | '[' :: rest => some (.openBracket, rest)
  | ']' :: rest => some (.closeBracket, rest)
  | '\x7b' :: rest => some (.openBrace, rest)
  | '\x7d' :: rest => some (.closeBrace, rest)
  | '\n' :: rest => some (.lineEnd, rest)
  | '\r' :: '\n' :: rest => some (.lineEnd, rest)
  | '#' :: rest => (comment? rest).map fun rest => (.comment, rest)
  | '"' :: '"' :: '"' :: rest => basicLines? [] (dropLineBreak rest)
  | '"' :: rest => basic? [] rest
  | '\x27' :: '\x27' :: '\x27' :: rest => literalLines? [] (dropLineBreak rest)
  | '\x27' :: rest => literal? [] rest
  | c :: rest =>
    if isBlank c then
      some (.blank (c :: rest.takeWhile isBlank), rest.dropWhile isBlank)
    else if endsWord c then none
    else some (.word (c :: rest.takeWhile (!endsWord ·)), rest.dropWhile (!endsWord ·))

/-- All tokens of a text; a mark of its byte order at the start does not count. -/
def scan (cs : List Char) : Option (List Token) :=
  match cs with
  | '\uFEFF' :: rest => cut? next? rest
  | cs => cut? next? cs

end Token

end QuerySheet.Toml

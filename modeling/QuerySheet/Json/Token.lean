import QuerySheet.Json.Basic
import QuerySheet.Text.Digit

/-!
# The tokens of a JSON text

`Json.Token.scan` cuts a text into tokens or refuses it. A token's *form* and its *value* are kept
apart: `1e400` and a lone surrogate escape have the form of a number and of a string but no value,
which matters only where the value is used.

* a number without fraction and exponent that fits 64 bits is an integer; `-0` and all other
  numbers are floating-point;
* a string may hold any character but a quote, a backslash and control characters; an escaped
  leading surrogate must be followed by an escaped trailing one;
* blanks are the space, the tab, the line feed and the carriage return.
-/

namespace QuerySheet.Json

inductive Token where
  | beginArray
  | endArray
  | beginObject
  | endObject
  | colon
  | comma
  | null
  | bool (b : Bool)
  | number (n : Option Number)
  | string (s : Option String)
  deriving DecidableEq, Repr

namespace Token

/-! ## 1. Numbers -/

/-- Digits appended to a significand as long as it fits 64 bits, with the digits left over. -/
def significand (n : Nat) : List Char → Nat × List Char
  | [] => (n, [])
  | c :: rest =>
    let next := 10 * n + Digit.value c
    if next < Power.two 64 then significand next rest else (n, c :: rest)

/-- The value of a number token. Digits that no longer fit the significand are dropped; those
    before the point still count for the exponent. -/
def numberValue (negative : Bool) (whole : List Char) (fraction : Option (List Char))
    (power : Option (Bool × List Char)) : Option Number :=
  let (start, dropped) := significand 0 whole
  match fraction, power with
  | none, none =>
    if dropped.isEmpty then
      if negative then
        if start = 0 then some (.float (.ofFloat (-0.0)))
        else if start ≤ Power.two 63 then some (.int (-start))
        else (Binary64.ofScaled true start 0).map .float
      else some (.int start)
    else (Binary64.ofScaled negative start dropped.length).map .float
  | _, _ =>
    let places := fraction.getD []
    let (digits, unread) := significand start places
    let shift : Int := dropped.length - ((places.length - unread.length : Nat) : Int)
    let exponent : Int := match power with
      | none => 0
      | some (negative, ds) => Digit.signed negative (Digit.number ds)
    (Binary64.ofScaled negative digits (shift + exponent)).map .float

/-- Leading digits and what follows them. -/
def digits (cs : List Char) : List Char × List Char :=
  (cs.takeWhile Char.isDigit, cs.dropWhile Char.isDigit)

/-- The fraction of a number, if a point stands here; a point needs a digit after it. -/
def fraction? : List Char → Option (Option (List Char) × List Char)
  | '.' :: cs => if (digits cs).1.isEmpty then none else some (some (digits cs).1, (digits cs).2)
  | cs => some (none, cs)

/-- The exponent of a number, if one stands here: whether it is negative, and its digits. -/
def power? : List Char → Option (Option (Bool × List Char) × List Char)
  | c :: cs =>
    if c = 'e' ∨ c = 'E' then
      let found := digits (Digit.sign cs).2
      if found.1.isEmpty then none else some (some ((Digit.sign cs).1, found.1), found.2)
    else some (none, c :: cs)
  | [] => some (none, [])

/-- The digits before the point: a single zero, or digits that do not start with one. -/
def whole? : List Char → Option (List Char × List Char)
  | '0' :: cs => some (['0'], cs)
  | c :: cs => if c.isDigit then some (digits (c :: cs)) else none
  | [] => none

/-- A number after its sign. -/
def unsigned? (negative : Bool) (cs : List Char) : Option (Token × List Char) := do
  let (whole, cs) ← whole? cs
  let (fraction, cs) ← fraction? cs
  let (power, cs) ← power? cs
  return (.number (numberValue negative whole fraction power), cs)

/-! ## 2. Strings -/

/-- The value of four hexadecimal digits. -/
def hexUnit? (a b c d : Char) : Option Nat := do
  return ((← Digit.hex? a) * 16 + (← Digit.hex? b)) * 256 + (← Digit.hex? c) * 16 + (← Digit.hex? d)

/-- What an escape other than that of a code unit stands for. -/
def unescape? : Char → Option Char
  | '"' => some '"'
  | '\\' => some '\\'
  | '/' => some '/'
  | 'b' => some '\x08'
  | 'f' => some '\x0c'
  | 'n' => some '\n'
  | 'r' => some '\r'
  | 't' => some '\t'
  | _ => none

/-- The text read so far, backwards, and a leading surrogate that waits for its partner. The text
    is `none` once a surrogate stood alone. -/
structure Literal where
  text : Option (List Char)
  lead : Option Nat

def Literal.empty : Literal := ⟨some [], none⟩

/-- Appends a character; a waiting surrogate is then alone. -/
def Literal.push (l : Literal) (c : Char) : Literal :=
  ⟨if l.lead.isSome then none else l.text.map (c :: ·), none⟩

/-- Appends an escaped code unit. -/
def Literal.pushUnit (l : Literal) (unit : Nat) : Literal :=
  let isLead := 0xD800 ≤ unit && unit < 0xDC00
  let isTrail := 0xDC00 ≤ unit && unit < 0xE000
  match l.lead with
  | some lead =>
    if isTrail then
      ⟨l.text.map (Char.ofNat (0x10000 + (lead - 0xD800) * 0x400 + (unit - 0xDC00)) :: ·), none⟩
    else ⟨none, none⟩
  | none =>
    if isLead then ⟨l.text, some unit⟩
    else if isTrail then ⟨none, none⟩
    else ⟨l.text.map (Char.ofNat unit :: ·), none⟩

/-- The value of the literal at its closing quote. -/
def Literal.value (l : Literal) : Option String :=
  if l.lead.isSome then none else l.text.map fun cs => String.ofList cs.reverse

/-- The rest of a string literal after its opening quote. -/
def string? (l : Literal) : List Char → Option (Token × List Char)
  | [] => none
  | '"' :: rest => some (.string l.value, rest)
  | '\\' :: 'u' :: a :: b :: c :: d :: rest =>
    match hexUnit? a b c d with
    | some unit => string? (l.pushUnit unit) rest
    | none => none
  | '\\' :: c :: rest =>
    match unescape? c with
    | some c => string? (l.push c) rest
    | none => none
  | c :: rest => if c.toNat < 0x20 ∨ c = '\\' then none else string? (l.push c) rest

/-! ## 3. The text -/

def isBlank (c : Char) : Bool := c = ' ' || c = '\t' || c = '\n' || c = '\r'

/-- The token at the start of a text that does not start with a blank. -/
def next? : List Char → Option (Token × List Char)
  | '[' :: cs => some (.beginArray, cs)
  | ']' :: cs => some (.endArray, cs)
  | '\x7b' :: cs => some (.beginObject, cs)
  | '\x7d' :: cs => some (.endObject, cs)
  | ':' :: cs => some (.colon, cs)
  | ',' :: cs => some (.comma, cs)
  | '"' :: cs => string? .empty cs
  | 'n' :: 'u' :: 'l' :: 'l' :: cs => some (.null, cs)
  | 't' :: 'r' :: 'u' :: 'e' :: cs => some (.bool true, cs)
  | 'f' :: 'a' :: 'l' :: 's' :: 'e' :: cs => some (.bool false, cs)
  | '-' :: cs => unsigned? true cs
  | cs => unsigned? false cs

theorem length_digits_le (cs : List Char) : (digits cs).2.length ≤ cs.length :=
  (List.dropWhile_sublist _).length_le

theorem length_string?_lt {l : Literal} {cs rest : List Char} {t : Token}
    (h : string? l cs = some (t, rest)) : rest.length < cs.length := by
  fun_induction string? l cs with
  | case1 => cases h
  | case2 => cases h; simp
  | case3 _ _ _ _ _ _ _ _ ih => have := ih h; simp only [List.length_cons]; omega
  | case4 => cases h
  | case5 _ _ _ _ _ _ ih => have := ih h; simp only [List.length_cons]; omega
  | case6 => cases h
  | case7 => cases h
  | case8 _ _ _ _ _ _ _ ih => have := ih h; simp only [List.length_cons]; omega

theorem length_whole?_lt {cs ds rest : List Char} (h : whole? cs = some (ds, rest)) :
    rest.length < cs.length := by
  unfold whole? at h
  split at h
  · cases h; simp
  · rename_i c cs _
    split at h
    · rename_i hc
      cases h
      have := length_digits_le cs
      simp only [digits, List.dropWhile_cons, hc, ↓reduceIte, List.length_cons] at this ⊢
      omega
    · cases h
  · cases h

theorem length_fraction?_le {cs rest : List Char} {f : Option (List Char)}
    (h : fraction? cs = some (f, rest)) : rest.length ≤ cs.length := by
  unfold fraction? at h
  split at h
  · rename_i cs
    have := length_digits_le cs
    split at h
    · cases h
    · cases h; simp only [List.length_cons]; omega
  · cases h; exact Nat.le_refl _

theorem length_power?_le {cs rest : List Char} {p : Option (Bool × List Char)}
    (h : power? cs = some (p, rest)) : rest.length ≤ cs.length := by
  unfold power? at h
  split at h
  · rename_i c cs
    have := length_digits_le (Digit.sign cs).2
    have := Digit.length_sign_le cs
    split at h
    · dsimp only at h
      split at h
      · cases h
      · cases h; simp only [List.length_cons]; omega
    · cases h; exact Nat.le_refl _
  · cases h; exact Nat.le_refl _

theorem length_unsigned?_lt {negative : Bool} {cs rest : List Char} {t : Token}
    (h : unsigned? negative cs = some (t, rest)) : rest.length < cs.length := by
  simp only [unsigned?, Option.bind_eq_bind, Option.bind_eq_some_iff, Option.pure_def,
    Option.some.injEq, Prod.mk.injEq, Prod.exists] at h
  obtain ⟨_, _, hw, _, _, hf, _, _, hp, _, rfl⟩ := h
  have := length_whole?_lt hw
  have := length_fraction?_le hf
  have := length_power?_le hp
  omega

/-- A token takes at least one character. -/
theorem length_next?_lt {cs rest : List Char} {t : Token} (h : next? cs = some (t, rest)) :
    rest.length < cs.length := by
  unfold next? at h
  split at h
  case h_7 => have := length_string?_lt h; simp only [List.length_cons]; omega
  case h_11 => have := length_unsigned?_lt h; simp only [List.length_cons]; omega
  case h_12 => exact length_unsigned?_lt h
  all_goals (cases h; simp only [List.length_cons]; omega)

/-- All tokens of a text. -/
def scan (cs : List Char) : Option (List Token) :=
  match cs with
  | [] => some []
  | c :: cs =>
    if isBlank c then scan cs
    else
      match h : next? (c :: cs) with
      | none => none
      | some (t, rest) =>
        have : rest.length < (c :: cs).length := length_next?_lt h
        (scan rest).map (t :: ·)
termination_by cs.length
decreasing_by
  · simp
  · exact this

end Token

end QuerySheet.Json

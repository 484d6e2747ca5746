/-!
# Templates

The text of a statement has a question mark wherever a parameter is bound. A template is such a
text that still knows which occurrence of which parameter each of these marks stands for:

* a `Sign` is a character, or the hole of a parameter;
* `Template.text` writes a template with a question mark for every hole;
* `Template.holes` lists the holes from left to right, `Template.holesFrom` with their places in
  the text.
-/

namespace QuerySheet.Sql

/-! ## 1. Signs -/

/-- One occurrence of a parameter. -/
structure ParamRef where
  id : Nat
  name : String
  deriving DecidableEq, Repr

inductive Sign where
  | char (c : Char)
  | hole (ref : ParamRef)
  deriving DecidableEq, Repr

/-- The character that is written for a sign. -/
def Sign.toChar : Sign → Char
  | .char c => c
  | .hole _ => '?'

/-- The occurrence of a parameter that a sign stands for. -/
def Sign.ref? : Sign → Option ParamRef
  | .char _ => none
  | .hole ref => some ref

structure Template where
  signs : List Sign
  deriving DecidableEq, Repr

namespace Template

/-! ## 2. Building -/

/-- A text without holes. -/
def ofString (s : String) : Template := ⟨s.toList.map .char⟩

instance : Coe String Template := ⟨ofString⟩

/-- The hole of a parameter. -/
def ofRef (ref : ParamRef) : Template := ⟨[.hole ref]⟩

instance : Append Template := ⟨fun t u => ⟨t.signs ++ u.signs⟩⟩

theorem ofString_append (s t : String) : ofString (s ++ t) = ofString s ++ ofString t := by
  show ofString (s ++ t) = ⟨s.toList.map Sign.char ++ t.toList.map Sign.char⟩
  rw [ofString, String.toList_append, List.map_append]

theorem append_assoc (t u v : Template) : t ++ u ++ v = t ++ (u ++ v) :=
  congrArg Template.mk (List.append_assoc t.signs u.signs v.signs)

theorem append_left_cancel {t u v : Template} (h : t ++ u = t ++ v) : u = v :=
  congrArg Template.mk (List.append_cancel_left (congrArg Template.signs h))

/-- Templates with a separator between them. -/
def intercalate (separator : String) : List Template → Template
  | [] => ""
  | [t] => t
  | t :: u :: rest => t ++ separator ++ intercalate separator (u :: rest)

def parens (t : Template) : Template := "(" ++ t ++ ")"

/-- The call of an SQL function. -/
def call (name : String) (args : List Template) : Template := name ++ parens (intercalate ", " args)

def isEmpty (t : Template) : Bool := t.signs.isEmpty

/-! ## 3. Reading -/

def text (t : Template) : String := String.ofList (t.signs.map Sign.toChar)

/-- The occurrences of parameters from left to right. -/
def holes (t : Template) : List ParamRef := t.signs.filterMap Sign.ref?

/-- The places of the holes of signs that begin at a place of a text. -/
def holesFrom (place : Nat) : List Sign → List Nat
  | [] => []
  | .char _ :: rest => holesFrom (place + 1) rest
  | .hole _ :: rest => place :: holesFrom (place + 1) rest

/-- The places of the holes in the text. -/
def holePlaces (t : Template) : List Nat := holesFrom 0 t.signs

end Template

end QuerySheet.Sql

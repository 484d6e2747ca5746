import Mathlib
import QuerySheet.Proofs.Sql.Frames
import QuerySheet.Proofs.Sql.Kept
import QuerySheet.Proofs.Sql.Language
import QuerySheet.Proofs.Sql.Phases
import QuerySheet.Proofs.Stored.Dates
import QuerySheet.Stored.Row

/-!
# Equality with a value and with a parameter

A field may be compared with a value, which is then written into the statement, or with a
parameter, which is bound to the same value later. The first is cast when the condition compiles,
the second is stored as the type that the comparison gave it, and null is a case of its own for
both.

* `Predicate`: the predicates that equality is written as, with their text and with the meaning
  that a database gives them. Holes read the bound values in their order;
* `Plain`: the values that stand for themselves. Cast to the type of a field such a value is a
  `Literal`, and where it can be stored as that type it is stored as the same cell
  (`literal_of_cast`);
* `equals_of_conditions`, `equalsBound_of_conditions`: what is written for a plain value and for a
  parameter;
* `agree_of_conditions`: both predicates hold of the same cells.
-/

namespace QuerySheet.Sql

open Stored (Cell)

/-! ## 1. Predicates -/

/-- A value in the text of a statement. -/
inductive Literal where
  | null
  | integer (n : Int)
  | text (s : String)
  deriving DecidableEq, Repr

namespace Literal

def sql : Literal → String
  | .null => "NULL"
  | .integer n => toString n
  | .text s => String.ofList ('\'' :: (Operand.doubleQuotes s.toList ++ ['\'']))

/-- The value of the database that the text stands for. -/
def cell : Literal → Cell
  | .null => .null
  | .integer n => .integer n
  | .text s => .text s

end Literal

/-- What is compared with a column: a value in the text, or a value that is bound. -/
inductive Term where
  | column
  | literal (v : Literal)
  | hole (ref : ParamRef)
  deriving DecidableEq, Repr

/-- The predicates on a column that equality is written as. -/
inductive Predicate where
  | isNull (t : Term)
  | equal (t u : Term)
  /-- The second if the first is true, else the third. -/
  | cases (p q r : Predicate)
  deriving DecidableEq, Repr

def Term.template (column : Template) : Term → Template
  | .column => column
  | .literal v => v.sql
  | .hole ref => .ofRef ref

/-- The value of a term. A hole reads the next bound value, and without one it is null. -/
def Term.eval (column : Cell) : Term → StateM (List Cell) Cell
  | .column => return column
  | .literal v => return v.cell
  | .hole _ => do
    let bound ← get
    set bound.tail
    return bound.headD .null

namespace Predicate

def template (column : Template) : Predicate → Template
  | .isNull t => t.template column ++ " IS NULL"
  | .equal t u => t.template column ++ " = " ++ u.template column
  | .cases p q r =>
    "CASE WHEN " ++ p.template column ++ " THEN " ++ q.template column ++ " ELSE " ++
      r.template column ++ " END"

/-- The truth value of a predicate, if it is known. Equality with null is unknown; which other
    values are equal is up to the column. -/
def eval (same : Cell → Cell → Bool) (column : Cell) : Predicate → StateM (List Cell) (Option Bool)
  | .isNull t => return some ((← t.eval column) = .null)
  | .equal t u => do
    let a ← t.eval column
    let b ← u.eval column
    return if a = .null ∨ b = .null then none else some (same a b)
  | .cases p q r => do
    let p ← p.eval same column
    let q ← q.eval same column
    let r ← r.eval same column
    return if p = some true then q else r

/-- The truth value on a column, with a value for each hole. -/
def value (p : Predicate) (same : Cell → Cell → Bool) (column : Cell) (bound : List Cell) :
    Option Bool :=
  ((p.eval same column).run' bound).run

/-- A predicate holds if it is true, and not if it is unknown. -/
def Holds (p : Predicate) (same : Cell → Cell → Bool) (column : Cell) (bound : List Cell) : Prop :=
  p.value same column bound = some true

/-- A column equals a value in the text. -/
def equals : Literal → Predicate
  | .null => .isNull .column
  | v => .equal .column (.literal v)

/-- A column equals a value that is bound. -/
def equalsBound (ref : ParamRef) : Predicate :=
  .cases (.isNull .column) (.isNull (.hole ref)) (.equal .column (.hole ref))

theorem template_equalsBound (column : Template) (ref : ParamRef) :
    (equalsBound ref).template column =
      "CASE WHEN " ++ column ++ " IS NULL THEN " ++ .ofRef ref ++ " IS NULL ELSE " ++ column ++
        " = " ++ .ofRef ref ++ " END" := by
  have hthen : Template.ofString " IS NULL THEN " = Template.ofString " IS NULL" ++ " THEN " := by
    rw [← Template.ofString_append]
    rfl
  have helse : Template.ofString " IS NULL ELSE " = Template.ofString " IS NULL" ++ " ELSE " := by
    rw [← Template.ofString_append]
    rfl
  simp only [equalsBound, template, Term.template, hthen, helse, Template.append_assoc]

variable (same : Cell → Cell → Bool) (column : Cell)

theorem value_equals_null :
    (equals .null).value same column [] = some (decide (column = .null)) := rfl

theorem value_equals {v : Literal} (hv : v ≠ .null) : (equals v).value same column [] =
    if column = .null then none else some (same column v.cell) := by
  cases v with
  | null => exact absurd rfl hv
  | integer n => simp [value, equals, eval, Term.eval, Literal.cell]
  | text s => simp [value, equals, eval, Term.eval, Literal.cell]

theorem value_equalsBound (ref : ParamRef) (a : Cell) :
    (equalsBound ref).value same column [a, a] =
      if column = .null then some (decide (a = .null))
      else if a = .null then none else some (same column a) := by
  by_cases hc : column = .null <;> by_cases ha : a = .null <;>
    simp [hc, ha, value, equalsBound, eval, Term.eval]

/-- Bound to the value in the text, the predicates hold of the same columns. -/
theorem holds_equals_iff (v : Literal) (ref : ParamRef) :
    (equals v).Holds same column [] ↔
      (equalsBound ref).Holds same column [v.cell, v.cell] := by
  unfold Holds
  rw [value_equalsBound]
  by_cases hc : column = .null <;> cases v <;>
    simp [hc, value_equals_null, value_equals, Literal.cell]

end Predicate

/-! ## 2. Texts -/

namespace Operand

theorem unescapeDollar_of_not_escaped {cs : List Char} (h : ¬ ['\\', '$'] <:+: cs) :
    unescapeDollar cs = cs := by
  fun_induction unescapeDollar cs with
  | case1 => rfl
  | case2 rest => exact absurd ⟨[], rest, rfl⟩ h
  | case3 c rest _ ih => rw [ih fun hrest => h (hrest.trans (List.suffix_cons c rest).isInfix)]

theorem halveQuotes_doubleQuotes (cs : List Char) : halveQuotes (doubleQuotes cs) = cs := by
  fun_induction doubleQuotes cs with
  | case1 => rfl
  | case2 rest ih => rw [halveQuotes, ih]
  | case3 c rest hc ih =>
    rw [halveQuotes, ih]
    rintro more rfl
    exact absurd rfl hc

theorem quote_of_not_escaped {s : String} (h : ¬ ['\\', '$'] <:+: s.toList) :
    quote s = (Literal.text s).sql := by
  rw [quote, unescapeDollar_of_not_escaped h, Literal.sql]

/-- What stands between the quotes of a literal is its text. -/
theorem unquote_text (s : String) : unquote (Literal.text s).sql = s := by
  have hlast : (doubleQuotes s.toList ++ ['\'']).getLast? = some '\'' := List.getLast?_concat
  unfold unquote
  simp only [Literal.sql, String.toList_ofList, hlast, if_pos, List.dropLast_concat,
    halveQuotes_doubleQuotes, String.ofList_toList]

end Operand

/-! ## 3. Values that stand for themselves -/

/-- A text that is no field reference and no parameter, and in which no dollar sign is escaped. -/
structure PlainText (s : String) : Prop where
  field : s.toList.head? ≠ some '$'
  parameter : ∀ c rest, s.toList ≠ ':' :: c :: rest
  escape : ¬ ['\\', '$'] <:+: s.toList

/-- A value that is compared as it is. -/
inductive Plain : Json → Prop
  | null : Plain .null
  | bool (b : Bool) : Plain (.bool b)
  | int {n : Int} (h : fitsSigned 64 n = true) : Plain (.int n)
  | string {s : String} (h : PlainText s) : Plain (.string s)

variable {v : Json} {s : Scope} {l l' : Ledger} {o : Operand}

theorem compileText_of_plain {text : String} (h : PlainText text) :
    compileText text = Operand.ofScalar (.string text) := by
  unfold compileText
  split
  · rename_i hfield
    exact absurd (by rw [hfield]; rfl) h.field
  · rename_i hparameter
    exact absurd hparameter (h.parameter _ _)
  · rfl

theorem compileExpr_of_plain (hv : Plain v) :
    compileExpr v = Compile.within .expr [v] (Operand.ofScalar v) := by
  unfold compileExpr
  rw [exprWith.eq_def]
  cases hv with
  | string h => exact congrArg _ (compileText_of_plain h)
  | null => rfl
  | bool b => rfl
  | int h => rfl

/-- An operand is a value as it is written beside a column of a type. -/
structure WrittenAs (v : Json) (t : FieldType) (lit : Literal) (o : Operand) : Prop where
  sql : o.sql = lit.sql
  literal : o.literal = true
  null_iff : o.type = .null ↔ lit = .null
  /-- Where the value can be stored as the type it is stored as what is written. -/
  cell : ∀ w, Stored.encode v t.valueType = .ok w → Cell.ofJson w = lit.cell

theorem WrittenAs.of_stored {t : FieldType} {lit : Literal} {type : ValueType} {w : Json}
    (hnull : type = .null ↔ lit = .null) (hcell : Cell.ofJson w = lit.cell)
    (h : ∀ u, Stored.encode v t.valueType = .ok u → u = w) :
    WrittenAs v t lit (.ofLiteral lit.sql type) where
  sql := rfl
  literal := rfl
  null_iff := hnull
  cell u hu := h u hu ▸ hcell

theorem ofJson_int {n : Int} (h : fitsSigned 64 n = true) : Cell.ofJson (.int n) = .integer n :=
  if_pos h

/-- A text is the text of a string or an id, or a date. -/
theorem written_text {text : String} {t : FieldType}
    (h : ((Operand.ofLiteral (Literal.text text).sql .string).cast t.valueType).Yields s l o l') :
    l' = l ∧ ∃ lit, WrittenAs (.string text) t lit o := by
  cases t with
  | boolean | integer | float | json | jsonFallback => exact absurd h Compile.yields_fail
  | id =>
    obtain ⟨rfl, rfl⟩ := Compile.yields_pure.mp h
    exact ⟨rfl, .text text, .of_stored (by simp) rfl fun _ hu => (Except.ok.inj hu).symm⟩
  | string =>
    obtain ⟨rfl, rfl⟩ := Compile.yields_pure.mp h
    exact ⟨rfl, .text text, .of_stored (by simp) rfl fun _ hu => (Except.ok.inj hu).symm⟩
  | date =>
    have hsql : (Template.ofString (Literal.text text).sql).text = (Literal.text text).sql :=
      Operand.text_ofString _
    simp only [Operand.cast, Operand.ofLiteral, Operand.param?, Operand.convert, Operand.toDate,
      FieldType.valueType, hsql, Operand.unquote_text, reduceCtorEq, if_false, if_true] at h
    split at h
    · rename_i n hn
      obtain ⟨rfl, rfl⟩ := Compile.yields_pure.mp h
      have hfits := Stored.fitsSigned_of_lt (Date.parse_lt hn)
      exact ⟨rfl, .integer n, .of_stored (by simp) (ofJson_int hfits)
        fun _ hu => Stored.encode_date hn hu⟩
    · exact absurd h Compile.yields_fail

/-- A number is a number of a numeric column. -/
theorem written_int {n : Int} {t : FieldType} (hn : fitsSigned 64 n = true)
    (h : ((Operand.ofLiteral (toString n) .integer).cast t.valueType).Yields s l o l') :
    l' = l ∧ ∃ lit, WrittenAs (.int n) t lit o := by
  cases t with
  | id | boolean | string | date | json | jsonFallback => exact absurd h Compile.yields_fail
  | integer | float =>
    obtain ⟨rfl, rfl⟩ := Compile.yields_pure.mp h
    exact ⟨rfl, .integer n, .of_stored (by simp) (ofJson_int hn)
      fun _ hu => (Except.ok.inj hu).symm⟩

/-- A truth value is a number of a boolean column. -/
theorem written_bool {b : Bool} {t : FieldType}
    (h : ((Operand.ofLiteral (if b then "1" else "0") .boolean).cast t.valueType).Yields s l o
      l') :
    l' = l ∧ ∃ lit, WrittenAs (.bool b) t lit o := by
  cases t with
  | id | integer | float | string | date | json | jsonFallback => exact absurd h Compile.yields_fail
  | boolean =>
    obtain ⟨rfl, rfl⟩ := Compile.yields_pure.mp h
    have hsql : (if b then "1" else "0") = (Literal.integer (if b then 1 else 0)).sql := by
      cases b <;> rfl
    rw [hsql]
    refine ⟨rfl, _, .of_stored (by simp) (w := .int (if b then 1 else 0)) ?_
      fun _ hu => (Except.ok.inj hu).symm⟩
    cases b <;> rfl

/-- Null is no value of a column, but false in a boolean one. -/
theorem written_null {t : FieldType}
    (h : ((Operand.ofLiteral "NULL" .null).cast t.valueType).Yields s l o l') :
    l' = l ∧ ∃ lit, WrittenAs .null t lit o := by
  cases t with
  | boolean =>
    obtain ⟨rfl, rfl⟩ := Compile.yields_pure.mp h
    exact ⟨rfl, .integer 0, .of_stored (by simp) (w := .int 0) rfl
      fun _ hu => (Except.ok.inj hu).symm⟩
  | id | integer | float | string | date | json | jsonFallback =>
    obtain ⟨rfl, rfl⟩ := Compile.yields_pure.mp h
    exact ⟨rfl, .null, .of_stored ⟨fun _ => rfl, fun _ => rfl⟩ (w := .null) rfl
      fun _ hu => (Except.ok.inj hu).symm⟩

/-- A plain value that can be cast to the type of a column is a literal, and where it can be stored
    as that type it is stored as the value of the literal. -/
theorem literal_of_cast (hv : Plain v) {t : FieldType} {scalar : Operand} {s₁ : Scope}
    {l₁ : Ledger} (hscalar : (Operand.ofScalar v).Yields s₁ l scalar l₁)
    (h : (scalar.cast t.valueType).Yields s l₁ o l') :
    l' = l ∧ scalar.param? = none ∧ ∃ lit, WrittenAs v t lit o := by
  cases hv with
  | null =>
    obtain ⟨rfl, rfl⟩ := Compile.yields_pure.mp hscalar
    obtain ⟨hl, hlit⟩ := written_null h
    exact ⟨hl, rfl, hlit⟩
  | bool b =>
    obtain ⟨rfl, rfl⟩ := Compile.yields_pure.mp hscalar
    obtain ⟨hl, hlit⟩ := written_bool h
    exact ⟨hl, rfl, hlit⟩
  | int hn =>
    obtain ⟨rfl, rfl⟩ := Compile.yields_pure.mp hscalar
    obtain ⟨hl, hlit⟩ := written_int hn h
    exact ⟨hl, rfl, hlit⟩
  | string htext =>
    obtain ⟨rfl, rfl⟩ := Compile.yields_pure.mp hscalar
    rw [Operand.quote_of_not_escaped htext.escape] at h
    obtain ⟨hl, hlit⟩ := written_text h
    exact ⟨hl, rfl, hlit⟩

/-! ## 4. Conditions -/

/-- A field has one of the types of columns, and reading it adds joins only. -/
theorem column_of_compileField {reference : String} (hl : l.joins.Indexed)
    (h : (Path.compileField reference).Yields s l o l') :
    (∃ t : FieldType, o.type = t.valueType) ∧ l.AddsJoins l' := by
  refine ⟨?_, ((remembers_compileField reference s l hl).yields h).1⟩
  have hread {scope : Scope} {parent : Option String} {table label field : String} {l₁ : Ledger}
      (h : (Path.readField scope parent table label field).Yields s l₁ o l') :
      ∃ t : FieldType, o.type = t.valueType := by
    unfold Path.readField at h
    simp only [Compile.yields_bind, Compile.yields_require] at h
    obtain ⟨fields, _, -, desc, _, -, h⟩ := h
    split at h
    · split at h
      · obtain ⟨_, _, -, h⟩ := Compile.yields_bind.mp h
        obtain ⟨rfl, -⟩ := Compile.yields_pure.mp h
        exact ⟨.id, rfl⟩
      · obtain ⟨rfl, -⟩ := Compile.yields_pure.mp h
        exact ⟨desc.type, rfl⟩
    · obtain ⟨rfl, -⟩ := Compile.yields_pure.mp h
      exact ⟨desc.type, rfl⟩
  rw [Path.compileField_eq, Compile.yields_bind] at h
  obtain ⟨name, _, -, h⟩ := h
  split at h
  · exact absurd h Compile.yields_fail
  · unfold Path.readAt at h
    obtain ⟨scope, _, -, h⟩ := Compile.yields_bind.mp h
    split at h
    · obtain ⟨_, _, -, h⟩ := Compile.yields_bind.mp h
      exact hread h
    · exact hread h

/-- A condition that compares a field with one value. -/
def equalTo (field : String) (v : Json) : Json := .object [(field, v)]

theorem conditionsWith_equalTo (window : Compile Template) {field : String}
    (harray : ∀ items, v ≠ .array items) (hobject : ∀ fields, v ≠ .object fields)
    (hand : field ≠ "$and") (hor : field ≠ "$or") :
    conditionsWith window (equalTo field v) = (do
      let t ← Compile.within .op [.string field, .object [("$eq", v)]] do
        let mark ← Compile.mark
        let left ← exprWith window (fieldReference field)
        let right ← exprWith window v
        equality mark left right
      return [t]) := by
  have htests : Condition.tests (equalTo field v) = .ok [(field, v)] := rfl
  rw [conditionsWith.eq_def]
  split
  · rename_i h
    rw [htests] at h
    cases h
  · rename_i fields h
    rw [htests] at h
    cases h
    cases v with
    | array items => exact absurd rfl (harray items)
    | object fields => exact absurd rfl (hobject fields)
    | null | bool | number | string =>
      simp only [testsWith, testWith, if_neg hand, if_neg hor, comparisonWith, leftWith,
        Operator.comparison?, bind_assoc, pure_bind]
      rfl

theorem conditionsWith_text (window : Compile Template) {text : String} (htext : text ≠ "") :
    conditionsWith window (.string text) =
      Compile.fail (.invalidCondition (Json.string text).compact) := by
  have hfalsy : Json.isFalsy (.string text) = false := by simpa [Json.isFalsy] using htext
  have htests : Condition.tests (.string text) =
      .error (.invalidCondition (Json.string text).compact) := by
    simp only [Condition.tests, hfalsy]
    rfl
  rw [conditionsWith.eq_def]
  split
  · rename_i h
    rw [htests] at h
    cases h
    rfl
  · rename_i h
    rw [htests] at h
    cases h

/-- Under `$and` and `$or` there are conditions, and a text is none. -/
theorem ne_of_yields_text {field text : String} {ts : List Template} (htext : text ≠ "")
    (h : (compileConditions (equalTo field (.string text))).Yields s l ts l') :
    field ≠ "$and" ∧ field ≠ "$or" := by
  have hfalsy : ¬ Json.isFalsy (.string text) = true := by simpa [Json.isFalsy] using htext
  have htests : Condition.tests (equalTo field (.string text)) = .ok [(field, .string text)] := rfl
  have hnot {join : List Template → List Template} :
      ∀ ts l', ¬ (conditionsWith window (.string text) >>= fun parts =>
        (pure (join parts) : Compile (List Template))).Yields s l ts l' := by
    intro ts l' h
    rw [conditionsWith_text window htext] at h
    obtain ⟨_, _, h, -⟩ := Compile.yields_bind.mp h
    exact Compile.yields_fail h
  rw [compileConditions, conditionsWith.eq_def] at h
  split at h
  · exact absurd h Compile.yields_fail
  · rename_i fields hfields
    rw [htests] at hfields
    cases hfields
    simp only [testsWith, testWith] at h
    obtain ⟨_, _, h, -⟩ := Compile.yields_bind.mp h
    constructor
    · rintro rfl
      rw [if_pos rfl, if_neg hfalsy] at h
      exact hnot _ _ h
    · rintro rfl
      rw [if_neg (by decide), if_pos rfl, if_neg (by simp [hfalsy])] at h
      exact hnot _ _ h

section Conditions

variable {field : String} {ts : List Template}

theorem compileExpr_frames (kind : FrameKind) {e : Json} :
    (compileExpr e).Yields { s with frames := kind :: s.frames } l o l' ↔
      (compileExpr e).Yields s l o l' := by
  have h := anyFrames_exprWith (anyFrames_windowOf maxNesting) e s (kind :: s.frames) l
  exact ⟨fun hy => h.symm.trans hy, fun hy => h.trans hy⟩

/-- A condition that compares a field with a value compiles both and puts them together. -/
theorem parts_of_conditions (harray : ∀ items, v ≠ .array items)
    (hobject : ∀ fields, v ≠ .object fields) (hand : field ≠ "$and") (hor : field ≠ "$or")
    (h : (compileConditions (equalTo field v)).Yields s l ts l') :
    ∃ left l₁ right l₂ t, (compileExpr (fieldReference field)).Yields s l left l₁ ∧
      (compileExpr v).Yields s l₁ right l₂ ∧
        (equality l.sites.length left right).Yields { s with frames := .op :: s.frames } l₂ t l' ∧
          ts = [t] := by
  rw [compileConditions, conditionsWith_equalTo window harray hobject hand hor] at h
  simp only [Compile.yields_bind, Compile.yields_within, Compile.yields_pure, Compile.mark,
    Compile.yields_get] at h
  obtain ⟨t, _, ⟨_, _, ⟨_, _, ⟨rfl, rfl⟩, rfl, rfl⟩, left, l₁, hleft, right, l₂, hright, hequal⟩,
    rfl, rfl⟩ := h
  exact ⟨left, l₁, right, l₂, t, (compileExpr_frames _).mp hleft, (compileExpr_frames _).mp hright,
    hequal, rfl⟩

/-- The operand of a column. -/
theorem column_of_reference (hl : l.Sound)
    (h : (compileExpr (fieldReference field)).Yields s l o l') :
    (∃ t : FieldType, o.type = t.valueType) ∧ l.AddsJoins l' := by
  have htext : compileText ("$" ++ field) = Path.compileField field := by
    unfold compileText
    have hcs : ("$" ++ field).toList = '$' :: field.toList := by simp
    rw [hcs]
    exact congrArg Path.compileField String.ofList_toList
  rw [fieldReference, compileExpr_string, Compile.yields_within, htext] at h
  exact column_of_compileField hl.indexed h

/-- A column equals a plain value as it is written. -/
theorem equals_of_conditions (hl : l.Sound) (hv : Plain v) (hand : field ≠ "$and")
    (hor : field ≠ "$or") (h : (compileConditions (equalTo field v)).Yields s l ts l') :
    ∃ left l₁ t lit o, (compileExpr (fieldReference field)).Yields s l left l₁ ∧
      left.type = t.valueType ∧ WrittenAs v t lit o ∧
        ts = [(Predicate.equals lit).template left.sql] := by
  obtain ⟨left, l₁, right, l₂, text, hleft, hright, hequal, rfl⟩ :=
    parts_of_conditions (by cases hv <;> simp) (by cases hv <;> simp) hand hor h
  obtain ⟨⟨t, ht⟩, -⟩ := column_of_reference hl hleft
  rw [compileExpr_of_plain hv, Compile.yields_within] at hright
  unfold equality at hequal
  dsimp only at hequal
  obtain ⟨o, l₃, hcast, htext⟩ := Compile.yields_bind.mp hequal
  rw [ht] at hcast
  obtain ⟨rfl, hparam, lit, ho⟩ := literal_of_cast hv hright hcast
  refine ⟨left, _, t, lit, o, hleft, ht, ho, ?_⟩
  by_cases hlit : lit = .null
  · rw [if_pos ⟨ho.literal, ho.null_iff.mpr hlit⟩] at htext
    obtain ⟨rfl, -⟩ := Compile.yields_pure.mp htext
    rw [hlit]
    rfl
  · rw [if_neg fun e => hlit (ho.null_iff.mp e.2), hparam, if_neg (by simp), ho.sql] at htext
    obtain ⟨rfl, -⟩ := Compile.yields_pure.mp htext
    cases lit with
    | null => exact absurd rfl hlit
    | integer | text => rfl

theorem parameter_of_text {parameter : String} (hparameter : parameter ≠ "")
    (h : (compileExpr (.string (":" ++ parameter))).Yields s l o l') :
    o = .ofParam ⟨l.siteCount + 1, parameter⟩ ∧ l' = { l with
      siteCount := l.siteCount + 1
      sites := l.sites ++ [⟨l.siteCount + 1, parameter, none⟩] } := by
  have htext : compileText (":" ++ parameter) =
      (do return .ofParam (← Compile.pushSite parameter)) := by
    obtain ⟨c, rest, hcs⟩ : ∃ c rest, parameter.toList = c :: rest :=
      List.exists_cons_of_ne_nil (by simpa using hparameter)
    have hall : (":" ++ parameter).toList = ':' :: c :: rest := by simp [hcs]
    unfold compileText
    rw [hall, ← String.ofList_toList (s := parameter), hcs]
    rfl
  rw [compileExpr_string, Compile.yields_within, htext] at h
  cases h
  exact ⟨rfl, rfl⟩

theorem cast_ofParam (ref : ParamRef) (t : FieldType) :
    (Operand.ofParam ref).cast t.valueType = (do
      Compile.inferParam ref t.valueType
      return (Operand.ofParam ref).retag t.valueType) := by
  cases t <;> rfl

theorem noted_of_inferParam {ref : ParamRef} {type : ValueType} {u : Unit}
    (h : (Compile.inferParam ref type).Yields s l u l') :
    l'.sites = noted ref type l.sites ∧
      (l.paramTypes[ref.name]? = none → l'.paramTypes[ref.name]? = some type) := by
  rw [Compile.Yields, outcome_inferParam] at h
  split at h
  · rename_i hsome
    split at h
    · cases h
      exact ⟨rfl, fun hnone => by rw [hnone] at hsome; cases hsome⟩
    · cases h
  · cases h
    exact ⟨rfl, fun _ => Std.ExtTreeMap.getElem?_insert_self⟩

/-- A column equals a parameter. Its two sites are new, and of the type of the column. -/
theorem equalsBound_of_conditions (hl : l.Sound) {parameter : String} (hparameter : parameter ≠ "")
    (h : (compileConditions (equalTo field (.string (":" ++ parameter)))).Yields s l ts l') :
    ∃ left l₁ site, (compileExpr (fieldReference field)).Yields s l left l₁ ∧
      ts = [(Predicate.equalsBound site.ref).template left.sql] ∧
        site.name = parameter ∧ site.type = some left.type ∧ l'.sites = l.sites ++ [site, site] ∧
          (l.paramTypes[parameter]? = none → l'.paramTypes[parameter]? = some left.type) := by
  have hne : ":" ++ parameter ≠ "" := by simp
  obtain ⟨hand, hor⟩ := ne_of_yields_text hne h
  obtain ⟨left, l₁, right, l₂, text, hleft, hright, hequal, rfl⟩ :=
    parts_of_conditions (by simp) (by simp) hand hor h
  obtain ⟨⟨t, ht⟩, hadds⟩ := column_of_reference hl hleft
  obtain ⟨rfl, rfl⟩ := parameter_of_text hparameter hright
  have hsites : l₁.sites = l.sites := by rw [hadds.rest]
  have hcount : l₁.siteCount = l.siteCount := by rw [hadds.rest]
  have htypes : l₁.paramTypes = l.paramTypes := by rw [hadds.rest]
  rw [hcount, hsites] at hequal
  unfold equality at hequal
  dsimp only at hequal
  obtain ⟨o, l₃, hcast, htext⟩ := Compile.yields_bind.mp hequal
  rw [ht, cast_ofParam] at hcast
  obtain ⟨_, _, hinfer, hretag⟩ := Compile.yields_bind.mp hcast
  obtain ⟨rfl, rfl⟩ := Compile.yields_pure.mp hretag
  obtain ⟨hnoted, htype⟩ := noted_of_inferParam hinfer
  have hnew : noted ⟨l.siteCount + 1, parameter⟩ t.valueType
      (l.sites ++ [⟨l.siteCount + 1, parameter, none⟩]) =
        l.sites ++ [⟨l.siteCount + 1, parameter, some t.valueType⟩] := by
    rw [noted, List.map_append, ← noted, noted_of_lt hl.numbered (Nat.lt_succ_self _)]
    simp
  have hparam : (Operand.ofParam ⟨l.siteCount + 1, parameter⟩).param?.isSome = true := rfl
  rw [if_neg fun e => Bool.false_ne_true e.1, if_pos hparam] at htext
  obtain ⟨_, _, hrepeat, htext⟩ := Compile.yields_bind.mp htext
  obtain ⟨rfl, rfl⟩ := Compile.yields_pure.mp htext
  have hl' := Compile.yields_modify.mp hrepeat
  refine ⟨left, l₁, ⟨l.siteCount + 1, parameter, some t.valueType⟩, hleft, ?_, rfl, ?_, ?_, ?_⟩
  · rw [Predicate.template_equalsBound]
    rfl
  · rw [ht]
  · rw [hl', hnoted, hnew, Site.repeatFrom, List.drop_left, List.append_assoc]
    rfl
  · rw [hl', ht, ← htypes]
    exact htype

/-- Comparing a field with a parameter is comparing it with the value that is bound. Where a plain
    value compiles, and can be stored as the type that the comparison gives to the parameter, it is
    bound to both sites, and then both predicates hold of the same columns. -/
theorem agree_of_conditions {us : List Template} {l₁ l₂ : Ledger} {parameter : String}
    (hl : l.Sound) (hv : Plain v) (hparameter : parameter ≠ "")
    (hts : (compileConditions (equalTo field v)).Yields s l ts l₁)
    (hus : (compileConditions (equalTo field (.string (":" ++ parameter)))).Yields s l us l₂) :
    ∃ left l' lit site, (compileExpr (fieldReference field)).Yields s l left l' ∧
      ts = [(Predicate.equals lit).template left.sql] ∧
      us = [(Predicate.equalsBound site.ref).template left.sql] ∧
      l₂.sites = l.sites ++ [site, site] ∧ site.name = parameter ∧ site.type = some left.type ∧
      (l.paramTypes[parameter]? = none → l₂.paramTypes[parameter]? = some left.type) ∧
      ∀ params w, Fields.get? params parameter = some v → Stored.encode v left.type = .ok w →
        ∃ cells, Stored.bindValues [site, site] params = .ok cells ∧ ∀ same column,
          (Predicate.equals lit).Holds same column [] ↔
            (Predicate.equalsBound site.ref).Holds same column cells := by
  obtain ⟨hand, hor⟩ := ne_of_yields_text (by simp) hus
  obtain ⟨left, l', t, lit, o, hleft, ht, ho, rfl⟩ := equals_of_conditions hl hv hand hor hts
  obtain ⟨left', l'', site, hleft', rfl, hname, htype, hsites, htypes⟩ :=
    equalsBound_of_conditions hl hparameter hus
  obtain ⟨rfl, rfl⟩ : left' = left ∧ l'' = l' := by
    have hsame := hleft'.symm.trans hleft
    cases hsame
    exact ⟨rfl, rfl⟩
  refine ⟨left', l'', lit, site, hleft, rfl, rfl, hsites, hname, htype, htypes,
    fun params w hparam hstored => ⟨[lit.cell, lit.cell], ?_, fun same column =>
      Predicate.holds_equals_iff same column lit site.ref⟩⟩
  have hbind : Stored.bindValue params site = .ok lit.cell := by
    rw [Stored.bindValue, hname, hparam, htype]
    dsimp only
    rw [hstored, ← ho.cell w (ht ▸ hstored)]
  simp only [Stored.bindValues, List.mapM_cons, List.mapM_nil, hbind]
  rfl

end Conditions

/-- A table of days. -/
def daysScope : Scope :=
  .root ⟨(∅ : Std.ExtTreeMap String Table).insert "days"
    ⟨(∅ : Std.ExtTreeMap String Field).insert "day" ⟨.date, none, false, none⟩⟩⟩ "days" "days" true

/-- A day, and the parameter that it is bound to. -/
def aDay : Json := .string "2020-01-15"

theorem plain_aDay : Plain aDay := by
  have hcs : "2020-01-15".toList = ['2', '0', '2', '0', '-', '0', '1', '-', '1', '5'] := rfl
  refine .string ⟨?_, ?_, ?_⟩
  · rw [hcs]
    decide
  · rw [hcs]
    simp
  · rw [hcs]
    decide

/-- Whether a compilation for the days gives something that passes a check. -/
def daysPass {α : Type} (m : Compile α) (check : α → Bool) : Bool :=
  match m.outcome daysScope (.root "days") with
  | (.ok a, _) => check a
  | (.error _, _) => false

theorem yields_of_daysPass {α : Type} (m : Compile α) (check : α → Bool)
    (h : daysPass m check = true) :
    ∃ a l', m.Yields daysScope (.root "days") a l' ∧ check a = true := by
  unfold daysPass at h
  split at h
  · exact ⟨_, _, ‹_›, h⟩
  · cases h

theorem agree_of_aDay : ∃ ts l₁ us l₂,
    (compileConditions (equalTo "day" aDay)).Yields daysScope (.root "days") ts l₁ ∧
    (compileConditions (equalTo "day" (.string ":on"))).Yields daysScope (.root "days") us l₂ ∧
    ∃ left lit site, ts = [(Predicate.equals lit).template left] ∧
      us = [(Predicate.equalsBound site.ref).template left] ∧ l₂.sites = [site, site] ∧
      ∃ cells, Stored.bindValues [site, site] [("on", aDay)] = .ok cells ∧ ∀ same column,
        (Predicate.equals lit).Holds same column [] ↔
          (Predicate.equalsBound site.ref).Holds same column cells := by
  obtain ⟨ts, l₁, hts, -⟩ := yields_of_daysPass (compileConditions (equalTo "day" aDay))
    (fun _ => true) (by
      rw [aDay, compileConditions, conditionsWith_equalTo window (by simp) (by simp) (by decide)
        (by decide)]
      simp only [fieldReference, ← compileExpr.eq_def, compileExpr_string]
      cbv)
  obtain ⟨us, l₂, hus, -⟩ := yields_of_daysPass (compileConditions (equalTo "day" (.string ":on")))
    (fun _ => true) (by
      rw [compileConditions, conditionsWith_equalTo window (by simp) (by simp) (by decide)
        (by decide)]
      simp only [fieldReference, ← compileExpr.eq_def, compileExpr_string]
      cbv)
  have hon : (compileConditions (equalTo "day" (.string (":" ++ "on")))).Yields daysScope
      (.root "days") us l₂ := hus
  obtain ⟨day, l₃, hday, htype⟩ := yields_of_daysPass (compileExpr (fieldReference "day"))
    (fun o => o.type = .date) (by rw [fieldReference, compileExpr_string]; cbv)
  obtain ⟨left, l', lit, site, hleft, rfl, rfl, hsites, -, -, -, hbound⟩ :=
    agree_of_conditions (Ledger.sound_root "days") plain_aDay (by decide) hts hon
  obtain rfl : day = left := by
    have hsame := hday.symm.trans hleft
    cases hsame
    rfl
  have hstored : Stored.encode aDay day.type = .ok (.int 20200115) := by
    rw [of_decide_eq_true htype]
    cbv
  exact ⟨_, l₁, _, l₂, hts, hus, day.sql, lit, site, rfl, rfl, hsites,
    hbound [("on", aDay)] _ rfl hstored⟩

end QuerySheet.Sql

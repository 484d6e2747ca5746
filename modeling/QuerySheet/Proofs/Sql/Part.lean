import Mathlib.Logic.Relation
import QuerySheet.Sql.Expression

/-!
# The parts of an expression

The functions that compile expressions and conditions call each other. A `Part` is one such call
with its arguments, and `Part.Calls` says which other calls it makes, once all that is checked
before is as it should be. Every call is on something smaller (`Calls.lower`), so what holds of a
part whenever it holds of those it calls holds of all parts (`Part.induction`). The orders that a
running sum goes by are no part of the sum and are not called here.

`Part.Names` says of a part and all parts below it which fields they may name, and `Part.Sums` that
a running sum is among them.
-/

namespace QuerySheet.Sql

open Json (weight itemsWeight fieldsWeight)

/-! ## 1. Parts and calls -/

inductive Part where
  | expr (e : Json)
  | function (fields : Fields)
  | call (name : String) (raw : Json)
  | arguments (ps : List Parameter) (args : List Json)
  | conditions (conds : Json)
  | tests (fields : Fields)
  | test (name : String) (v : Json)
  | ops (field : String) (ops : List Json)
  | op (field : String) (op : Json)
  | comparison (field : String) (op : Operator) (value : Json) (transform : Option Json)
  | left (field : String) (transform : Option Json)
  | elements (items : List Json)

namespace Part

/-- Neither a list nor an object. -/
def IsScalar (v : Json) : Prop := (∀ items, v ≠ .array items) ∧ ∀ fields, v ≠ .object fields

inductive Calls : Part → Part → Prop
  | exprObject {fields : Fields} : Calls (.expr (.object fields)) (.function fields)
  | functionHead {name : String} {raw : Json} {rest : Fields} :
      Calls (.function ((name, raw) :: rest)) (.call name raw)
  | callCondition {name : String} {raw : Json} (hf : Function.ofName? name = some .condition) :
      Calls (.call name raw) (.conditions raw)
  | callArguments {name : String} {raw : Json} {f : Function} (hf : Function.ofName? name = some f)
      (hne : f ≠ .condition) :
      Calls (.call name raw) (.arguments f.parameters (Sql.arguments raw))
  | argumentsHead {p : Parameter} {ps : List Parameter} {v : Json} {rest : List Json} :
      Calls (.arguments (p :: ps) (v :: rest)) (.expr v)
  | argumentsTail {p : Parameter} {ps : List Parameter} {v : Json} {rest : List Json} :
      Calls (.arguments (p :: ps) (v :: rest)) (.arguments ps rest)
  | conditionsTests {conds : Json} {fields : Fields} (h : Condition.tests conds = .ok fields) :
      Calls (.conditions conds) (.tests fields)
  | testsHead {name : String} {v : Json} {rest : Fields} :
      Calls (.tests ((name, v) :: rest)) (.test name v)
  | testsTail {name : String} {v : Json} {rest : Fields} :
      Calls (.tests ((name, v) :: rest)) (.tests rest)
  | testAnd {v : Json} (h : ¬ v.isFalsy = true) : Calls (.test "$and" v) (.conditions v)
  | testOr {v : Json} (h : ¬ (v.isFalsy = true ∨ v = .array [])) :
      Calls (.test "$or" v) (.conditions v)
  | testOps {name : String} {ops : List Json} (hand : name ≠ "$and") (hor : name ≠ "$or") :
      Calls (.test name (.array ops)) (.ops name ops)
  | testOp {name : String} {fields : Fields} (hand : name ≠ "$and") (hor : name ≠ "$or") :
      Calls (.test name (.object fields)) (.op name (.object fields))
  | testEq {name : String} {v : Json} (hand : name ≠ "$and") (hor : name ≠ "$or")
      (hv : IsScalar v) : Calls (.test name v) (.comparison name .eq v none)
  | opsHead {field : String} {op : Json} {rest : List Json} :
      Calls (.ops field (op :: rest)) (.op field op)
  | opsTail {field : String} {op : Json} {rest : List Json} :
      Calls (.ops field (op :: rest)) (.ops field rest)
  | opComparison {field : String} {fields : Fields} {name : String} {right : Json}
      {operator : Operator} (hf : fields.find? (·.1 ≠ transformKey) = some (name, right))
      (ho : Operator.ofName? name = some operator) :
      Calls (.op field (.object fields))
        (.comparison field operator right (fields.lookup transformKey))
  | comparisonLeft {field : String} {op : Operator} {value : Json} {transform : Option Json} :
      Calls (.comparison field op value transform) (.left field transform)
  | comparisonValue {field : String} {op : Operator} {value : Json} {transform : Option Json} :
      Calls (.comparison field op value transform) (.expr value)
  | comparisonElements {field : String} {value : Json} {transform : Option Json}
      {items : List Json} (h : literalItems? value = some items) (hne : items ≠ []) :
      Calls (.comparison field .oneOf value transform) (.elements (Condition.distinct items))
  | leftField {field : String} : Calls (.left field none) (.expr (fieldReference field))
  | leftName {field name : String} :
      Calls (.left field (some (.string name))) (.function [(name, .string "$")])
  | leftCall {field : String} {fields : Fields} :
      Calls (.left field (some (.object fields))) (.function fields)
  | elementsHead {v : Json} {rest : List Json} : Calls (.elements (v :: rest)) (.expr v)
  | elementsTail {v : Json} {rest : List Json} : Calls (.elements (v :: rest)) (.elements rest)

/-! ## 2. Induction on parts -/

/-- The size of what is compiled, and a rank among calls on the same thing. -/
def measure : Part → Nat × Nat
  | .expr e => (e.weight, 1)
  | .function fields => (fieldsWeight fields, 4)
  | .call _ raw => (raw.weight, 3)
  | .arguments _ args => (itemsWeight args, 2)
  | .conditions conds => (conds.weight, 2)
  | .tests fields => (fieldsWeight fields, 5)
  | .test _ v => (v.weight, 4)
  | .ops _ items => (itemsWeight items, 5)
  | .op _ v => (v.weight, 3)
  | .comparison _ _ value transform => (value.weight + transform.elim 0 weight, 3)
  | .left _ transform => (1 + transform.elim 0 weight, 2)
  | .elements items => (itemsWeight items, 2)

/-- Of two sizes the first is not more, and if they are the same the rank decides. -/
theorem lex_of_le {a a' b b' : Nat} (ha : a ≤ a') (hb : b < b') :
    Prod.Lex (· < ·) (· < ·) (a, b) (a', b') := by
  rcases Nat.lt_or_eq_of_le ha with h | rfl
  · exact .left _ _ h
  · exact .right _ hb

theorem lex_of_lt {a a' b b' : Nat} (ha : a < a') : Prod.Lex (· < ·) (· < ·) (a, b) (a', b') :=
  .left _ _ ha

/-- Every call is on something smaller. -/
theorem Calls.lower {p q : Part} (h : Calls p q) :
    Prod.Lex (· < ·) (· < ·) q.measure p.measure := by
  cases h with
  | exprObject =>
    refine lex_of_lt ?_
    simp only [weight]
    omega
  | functionHead => exact lex_of_le (Nat.le_add_right _ _) (by omega)
  | callCondition => exact lex_of_le (Nat.le_refl _) (by omega)
  | @callArguments _ raw => exact lex_of_le (itemsWeight_arguments_le raw) (by omega)
  | argumentsHead => exact lex_of_le (Nat.le_add_right _ _) (by omega)
  | @argumentsTail _ _ v => exact lex_of_lt (Nat.lt_add_of_pos_left v.weight_pos)
  | conditionsTests h => exact lex_of_lt (Condition.fieldsWeight_tests_lt h)
  | testsHead => exact lex_of_le (Nat.le_add_right _ _) (by omega)
  | @testsTail _ v => exact lex_of_lt (Nat.lt_add_of_pos_left v.weight_pos)
  | testAnd => exact lex_of_le (Nat.le_refl _) (by omega)
  | testOr => exact lex_of_le (Nat.le_refl _) (by omega)
  | testOps =>
    refine lex_of_lt ?_
    simp only [weight]
    omega
  | testOp => exact lex_of_le (Nat.le_refl _) (by omega)
  | testEq => exact lex_of_le (Nat.le_refl _) (by omega)
  | opsHead => exact lex_of_le (Nat.le_add_right _ _) (by omega)
  | @opsTail _ op => exact lex_of_lt (Nat.lt_add_of_pos_left op.weight_pos)
  | @opComparison _ fields _ _ _ hf =>
    refine lex_of_lt ?_
    simp only [weight]
    cases ht : fields.lookup transformKey with
    | none =>
      have := Json.weight_le_of_find? hf
      simp only [Option.elim]
      omega
    | some t =>
      have := Json.weight_add_le hf ht
      simp only [Option.elim]
      omega
  | @comparisonLeft _ _ value =>
    exact lex_of_le (Nat.add_le_add_right value.weight_pos _) (by omega)
  | comparisonValue => exact lex_of_le (Nat.le_add_right _ _) (by omega)
  | @comparisonElements _ _ _ items h =>
    have := itemsWeight_literalItems?_lt h
    have := Json.itemsWeight_le_of_sublist (Condition.distinctFrom_sublist [] items)
    refine lex_of_lt ?_
    simp only [Condition.distinct]
    omega
  | leftField => exact lex_of_le (Nat.le_refl _) (by omega)
  | leftName =>
    refine lex_of_lt ?_
    simp only [fieldsWeight, weight, Option.elim]
    omega
  | leftCall =>
    refine lex_of_lt ?_
    simp only [weight, Option.elim]
    omega
  | elementsHead => exact lex_of_le (Nat.le_add_right _ _) (by omega)
  | @elementsTail v => exact lex_of_lt (Nat.lt_add_of_pos_left v.weight_pos)

/-- All parts that a part calls have a property. -/
def Below (p : Part) (motive : Part → Prop) : Prop := ∀ q, p.Calls q → motive q

/-- What holds of a part whenever it holds of all parts that it calls holds of every part. -/
theorem induction {motive : Part → Prop} (step : ∀ p, p.Below motive → motive p) (p : Part) :
    motive p := by
  have hwf : WellFounded fun q p : Part => Prod.Lex (· < ·) (· < ·) q.measure p.measure :=
    InvImage.wf measure (Prod.lex Nat.lt_wfRel Nat.lt_wfRel).wf
  induction p using hwf.induction with
  | _ p ih => exact step p fun q hq => ih q hq.lower

/-! ## 3. Names -/

/-- The field that a part names itself, if it names one, is among these. -/
def NamesHere (Named : String → Prop) : Part → Prop
  | .expr (.string s) => ∀ name, s.toList = '$' :: name → Named (String.ofList name)
  | .left field _ => Named field
  | _ => True

/-- All fields that a part and the parts below it name are among these. -/
def Names (Named : String → Prop) (p : Part) : Prop :=
  ∀ q, Relation.ReflTransGen Calls p q → q.NamesHere Named

variable {Named : String → Prop} {p q : Part}

theorem Names.here (h : p.Names Named) : p.NamesHere Named := h p .refl

theorem Names.call (h : p.Names Named) (hq : p.Calls q) : q.Names Named :=
  fun r hr => h r (.head hq hr)

theorem names_of_calls (here : p.NamesHere Named) (below : p.Below (Names Named)) :
    p.Names Named := by
  intro q hq
  rcases Relation.ReflTransGen.cases_head hq with rfl | ⟨r, hr, hq⟩
  · exact here
  · exact below r hr q hq

/-- Any name at all. -/
def AnyName : String → Prop := fun _ => True

theorem names_any (p : Part) : p.Names AnyName := by
  intro q _
  unfold NamesHere
  split
  · exact fun _ _ => trivial
  · trivial
  · trivial

/-! ## 4. Running sums -/

/-- The call of a running sum, which compiles more than its parts. -/
def IsWindow (p : Part) : Prop :=
  ∃ name raw, p = .call name raw ∧ Function.ofName? name = some .sumOver

/-- A running sum is among a part and the parts below it. -/
def Sums (p : Part) : Prop := ∃ q, Relation.ReflTransGen Calls p q ∧ q.IsWindow

theorem IsWindow.sums (h : p.IsWindow) : p.Sums := ⟨p, .refl, h⟩

theorem Sums.of_call (hq : p.Calls q) (h : q.Sums) : p.Sums := by
  obtain ⟨r, hr, hwindow⟩ := h
  exact ⟨r, .head hq hr, hwindow⟩

end Part

end QuerySheet.Sql

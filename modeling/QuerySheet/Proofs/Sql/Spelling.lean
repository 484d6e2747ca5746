import QuerySheet.Proofs.Sql.Phrase
import QuerySheet.Proofs.Sql.Tasks
import QuerySheet.Sql.Expression

/-!
# How expressions are spelled

What an expression is compiled to follows its shape, up to the names of columns and the numbers of
parameters.

* `Spells`: the phrases that a part of an expression may be compiled to, with one rule for each way
  to compile it. `Leaf`, `Recast`, `Applies`, `Compares` and `Directs` are its steps that compile
  nothing further.
-/

namespace QuerySheet.Sql

/-- An expression that is a parameter. -/
def isParameter : Json → Bool
  | .string s =>
    match s.toList with
    | ':' :: _ :: _ => true
    | _ => false
  | _ => false

/-- The phrase of an expression without parts. -/
inductive Leaf : Json → Phrase → Prop
  | column {s : String} (label name : Ident) : Leaf (.string s) (.column label name)
  | hole {s : String} (ref : ParamRef) : Leaf (.string s) (.hole ref)
  | literal (s : String) : Leaf (.string s) (.literal s)
  | null : Leaf .null .null
  | bool (b : Bool) : Leaf (.bool b) (.digits (if b then .one else .zero))
  | number (n : Number) : Leaf (.number n) (.number n)
  | array (items : List Json) : Leaf (.array items) (.digits .none)

/-- A phrase as it is written for another type. -/
inductive Recast : Phrase → Phrase → Prop
  | same (φ : Phrase) : Recast φ φ
  | date (s : String) (d : Digits) : Recast (.literal s) (.digits d)
  | shorten (d d' : Digits) : Recast (.digits d) (.digits d')
  | never : Recast .null (.digits .zero)
  | leading {φ : Phrase} (d : Digits) (hvalue : φ.isValue = true) (hnumber : φ.isNumber = false) :
      Recast φ (.leading φ d)

/-- The functions that are written as the call of one of the same name. -/
def Function.routine? : Function → Option Routine
  | .sum => some .sum
  | .count => some .count
  | .lower => some .lower
  | .abs => some .abs
  | _ => none

/-- The phrase of a call on the phrases of its arguments, other than that of a running sum. -/
inductive Applies : Function → List Phrase → Phrase → Prop
  | routine {f : Function} {r : Routine} (φ : Phrase) (h : f.routine? = some r) :
      Applies f [φ] (.call r φ)
  | substr (φs : List Phrase) : Applies .substr φs (.call .substr (.join .arguments φs))
  | neg {φ : Phrase} (h : φ.isValue = true) : Applies .neg [φ] (.group (.minus φ))
  | idiv (φ ψ : Phrase) : Applies .idiv [φ, ψ] (.group (.beside φ .quotient ψ))
  | part {f : Function} {φ : Phrase} (hf : f = .month ∨ f = .year) (hvalue : φ.isValue = true)
      (hnumber : φ.isNumber = false) : Applies f [φ] φ
  | nocase {φ : Phrase} (hvalue : φ.isValue = true) (hnumber : φ.isNumber = false) :
      Applies .nocase [φ] (.after φ .nocase)
  | literal {φ : Phrase} (h : φ.isValue = true) : Applies .literal [φ] φ

theorem Applies.ne_special {f : Function} {φs : List Phrase} {φ : Phrase}
    (h : Applies f φs φ) :
    f ≠ .condition ∧ f ≠ .sumOver := by
  cases h with
  | routine _ h => constructor <;> rintro rfl <;> cases h
  | part h => rcases h with rfl | rfl <;> decide
  | substr | neg | idiv | nocase | literal => decide

/-- The phrase of a test of a value, on the phrases of its two sides. -/
inductive Compares : Operator → Json → Phrase → Phrase → Phrase → Prop
  | sign {op : Operator} {gap : Gap} {value : Json} (φ : Phrase) {ψ ψ' : Phrase}
      (h : Gap.ofOperator? op = some gap) (hψ : Recast ψ ψ') :
      Compares op value φ ψ (.beside φ gap ψ')
  | like {value : Json} {φ φ' ψ ψ' : Phrase} (hφ : Recast φ φ') (hψ : Recast ψ ψ') :
      Compares .like value φ ψ (.beside φ' .like ψ')
  | isNull {value : Json} (φ : Phrase) {ψ : Phrase} (h : isParameter value = false)
      (hψ : Recast ψ .null) : Compares .eq value φ ψ (.after φ .isNull)
  | orNull {value : Json} (φ : Phrase) {ψ ψ' : Phrase} (h : isParameter value = true)
      (hψ : Recast ψ ψ') : Compares .eq value φ ψ (.orNull φ ψ')
  | equal {value : Json} (φ : Phrase) {ψ ψ' : Phrase} (h : isParameter value = false)
      (hψ : Recast ψ ψ') : Compares .eq value φ ψ (.beside φ .equal ψ')

/-- A phrase with a direction behind it, or without. -/
inductive Directs : Phrase → Phrase → Prop
  | none (φ : Phrase) : Directs φ φ
  | asc (φ : Phrase) : Directs φ (.after φ .asc)
  | desc (φ : Phrase) : Directs φ (.after φ .desc)

/-- A part that is compiled as another one. -/
inductive Part.Passes : Part → Part → Prop
  | object (fields : Fields) : Passes (.expr (.object fields)) (.function fields)
  | function (name : String) (raw : Json) (rest : Fields) :
      Passes (.function ((name, raw) :: rest)) (.call name raw)
  | conditions {conds : Json} {fields : Fields} (h : Condition.tests conds = .ok fields) :
      Passes (.conditions conds) (.tests fields)
  | ops {name : String} (items : List Json) (hand : name ≠ "$and") (hor : name ≠ "$or") :
      Passes (.test name (.array items)) (.ops name items)
  | op {name : String} (fields : Fields) (hand : name ≠ "$and") (hor : name ≠ "$or") :
      Passes (.test name (.object fields)) (.op name (.object fields))
  | eq {name : String} {v : Json} (hand : name ≠ "$and") (hor : name ≠ "$or")
      (hv : Part.IsScalar v) : Passes (.test name v) (.comparison name .eq v none)
  | comparison {field : String} {fields : Fields} {name : String} {right : Json}
      {operator : Operator} (hf : fields.find? (·.1 ≠ transformKey) = some (name, right))
      (ho : Operator.ofName? name = some operator) :
      Passes (.op field (.object fields))
        (.comparison field operator right (fields.lookup transformKey))
  | leftField (field : String) : Passes (.left field none) (.expr (fieldReference field))
  | leftName (field name : String) :
      Passes (.left field (some (.string name))) (.function [(name, .string "$")])
  | leftCall (field : String) (fields : Fields) :
      Passes (.left field (some (.object fields))) (.function fields)

/-- Neither `$and` nor `$or` holds conditions if it is falsy. -/
def HoldsNone (name : String) (v : Json) : Prop :=
  name = "$and" ∧ v.isFalsy = true ∨ name = "$or" ∧ (v.isFalsy = true ∨ v = .array [])

/-- What phrases are compiled from: a part, the rows of a running sum, or orders. -/
inductive Origin where
  | part (p : Part)
  | rows
  | order (e : Json)
  | orders (es : List Json)

/-- With these orders in scope something may be compiled to these phrases. -/
inductive Spells (orders : List Json) : Origin → List Phrase → Prop
  | leaf {e : Json} {φ : Phrase} (h : Leaf e φ) : Spells orders (.part (.expr e)) [φ]
  | pass {p q : Part} {φs : List Phrase} (h : p.Passes q) (hq : Spells orders (.part q) φs) :
      Spells orders (.part p) φs
  | condition {name : String} {raw : Json} {φs : List Phrase}
      (hf : Function.ofName? name = some .condition)
      (h : Spells orders (.part (.conditions raw)) φs) :
      Spells orders (.part (.call name raw)) [.conjunction φs]
  | call {name : String} {raw : Json} {f : Function} {φs : List Phrase} {φ : Phrase}
      (hf : Function.ofName? name = some f)
      (hargs : Spells orders (.part (.arguments f.parameters (arguments raw))) φs)
      (h : Applies f φs φ) : Spells orders (.part (.call name raw)) [φ]
  | running {name : String} {raw : Json} {φ ρ : Phrase}
      (hf : Function.ofName? name = some .sumOver)
      (hargs : Spells orders (.part (.arguments Function.sumOver.parameters (arguments raw))) [φ])
      (hrows : Spells orders .rows [ρ]) :
      Spells orders (.part (.call name raw)) [.runningSum φ ρ]
  | noArguments {ps : List Parameter} {args : List Json}
      (h : ∀ p ps' v rest, ps = p :: ps' → args = v :: rest → False) :
      Spells orders (.part (.arguments ps args)) []
  | arguments {p : Parameter} {ps : List Parameter} {v : Json} {rest : List Json}
      {φ φ' : Phrase} {φs : List Phrase} (hv : Spells orders (.part (.expr v)) [φ])
      (h : Recast φ φ') (hrest : Spells orders (.part (.arguments ps rest)) φs) :
      Spells orders (.part (.arguments (p :: ps) (v :: rest))) (φ' :: φs)
  | noTests : Spells orders (.part (.tests [])) []
  | tests {name : String} {v : Json} {rest : Fields} {φs ψs : List Phrase}
      (hv : Spells orders (.part (.test name v)) φs)
      (hrest : Spells orders (.part (.tests rest)) ψs) :
      Spells orders (.part (.tests ((name, v) :: rest))) (φs ++ ψs)
  | noTest {name : String} {v : Json} (h : HoldsNone name v) :
      Spells orders (.part (.test name v)) []
  | all {v : Json} {φs : List Phrase} (hv : ¬ v.isFalsy = true)
      (h : Spells orders (.part (.conditions v)) φs) :
      Spells orders (.part (.test "$and" v)) [.all φs]
  | any {v : Json} {φs : List Phrase} (hv : ¬ (v.isFalsy = true ∨ v = .array []))
      (h : Spells orders (.part (.conditions v)) φs) :
      Spells orders (.part (.test "$or" v)) [.any φs]
  | noOps {field : String} : Spells orders (.part (.ops field [])) []
  | ops {field : String} {op : Json} {rest : List Json} {φ : Phrase} {φs : List Phrase}
      (hop : Spells orders (.part (.op field op)) [φ])
      (hrest : Spells orders (.part (.ops field rest)) φs) :
      Spells orders (.part (.ops field (op :: rest))) (φ :: φs)
  | comparison {field : String} {op : Operator} {value : Json} {transform : Option Json}
      {φ ψ χ : Phrase} (hleft : Spells orders (.part (.left field transform)) [φ])
      (hvalue : Spells orders (.part (.expr value)) [ψ]) (h : Compares op value φ ψ χ) :
      Spells orders (.part (.comparison field op value transform)) [χ]
  | never {field : String} {value : Json} {transform : Option Json}
      (h : literalItems? value = some []) :
      Spells orders (.part (.comparison field .oneOf value transform)) [.digits .zero]
  | among {field : String} {value : Json} {transform : Option Json} {items : List Json}
      {φ ψ : Phrase} {φs : List Phrase} (h : literalItems? value = some items) (hne : items ≠ [])
      (hleft : Spells orders (.part (.left field transform)) [φ])
      (hvalue : Spells orders (.part (.expr value)) [ψ])
      (hitems : Spells orders (.part (.elements (Condition.distinct items))) φs) :
      Spells orders (.part (.comparison field .oneOf value transform))
        [.beside φ .among (.group (.join .items φs))]
  | noElements : Spells orders (.part (.elements [])) []
  | elements {v : Json} {rest : List Json} {φ φ' : Phrase} {φs : List Phrase}
      (hv : Spells orders (.part (.expr v)) [φ]) (h : Recast φ φ')
      (hrest : Spells orders (.part (.elements rest)) φs) :
      Spells orders (.part (.elements (v :: rest))) (φ' :: φs)
  | allRows (h : orders = []) : Spells orders .rows [.rows]
  | rows {φs : List Phrase} (h : Spells orders (.orders orders) φs) :
      Spells orders .rows [.beside (.orderBy (.join .arguments φs)) .blank .rows]
  | order {e : Json} {p : Part} {φ φ' : Phrase} (he : orderTasks orders e = [⟨orders, p⟩])
      (hp : Spells orders (.part p) [φ]) (h : Directs φ φ') : Spells orders (.order e) [φ']
  | noOrders : Spells orders (.orders []) []
  | orders {e : Json} {es : List Json} {φ : Phrase} {φs : List Phrase}
      (he : Spells orders (.order e) [φ]) (hes : Spells orders (.orders es) φs) :
      Spells orders (.orders (e :: es)) (φ :: φs)

end QuerySheet.Sql

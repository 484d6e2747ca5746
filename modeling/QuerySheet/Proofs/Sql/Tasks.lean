import QuerySheet.Proofs.Sql.Part

/-!
# Parameters that are bound and dropped

A `Task` is a part with the orders in its scope. Its compilation runs the tasks that it `Calls`,
those of the orders included where it is a running sum, and `Task.Some` looks for a task of a kind
among all that are run.

* `Task.Binds`: somewhere a parameter is bound;
* `Task.Drops`: somewhere a field is to be one of no values at all, and the left side of this test
  binds a parameter. The test is then written as a constant, without its left side;
* `Task.Expands`: which tasks a task calls, by its shape.
-/

namespace QuerySheet.Sql

/-! ## 1. Tasks -/

structure Task where
  /-- The orders that a running sum goes by. -/
  orders : List Json
  part : Part

/-- What an order expression compiles. -/
def orderTasks (orders : List Json) : Json → List Task
  | .string field => [⟨orders, .expr (fieldReference field)⟩]
  | .object fields =>
    match fields.find? (·.1 ≠ directionKey) with
    | none => []
    | some (name, _) =>
      if hasDollar name then [⟨orders, .expr (.object (fields.filter (·.1 ≠ directionKey)))⟩]
      else [⟨orders, .expr (fieldReference name)⟩]
  | e => [⟨orders, .expr e⟩]

/-- What the orders in scope compile where a running sum goes by them. -/
def windowTasks (orders : List Json) : List Task := orders.flatMap (orderTasks orders)

/-- A running sum is among the parts of an order. -/
def OrderSums (e : Json) : Prop := ∃ t ∈ orderTasks [] e, t.part.Sums

/-- A running sum is among the parts of the orders. -/
def OrdersSum (orders : List Json) : Prop := ∃ e ∈ orders, OrderSums e

namespace Task

inductive Calls : Task → Task → Prop
  | part {orders : List Json} {p q : Part} (h : p.Calls q) : Calls ⟨orders, p⟩ ⟨orders, q⟩
  | window {orders : List Json} {name : String} {raw : Json} {t : Task}
      (hf : Function.ofName? name = some .sumOver) (ht : t ∈ windowTasks orders) :
      Calls ⟨orders, .call name raw⟩ t

/-- A task of a kind is run. -/
inductive Some (own : Task → Prop) : Task → Prop
  | here {t : Task} (h : own t) : Some own t
  | call {t u : Task} (h : Calls t u) (hu : Some own u) : Some own t

/-- A parameter is bound: a colon with a name behind it. -/
def BindsHere (t : Task) : Prop :=
  match t.part with
  | .expr (.string s) => ∃ c name, s.toList = ':' :: c :: name
  | _ => False

def Binds (t : Task) : Prop := Some BindsHere t

/-- A left side with a parameter is compiled, and then left out. -/
def DropsHere (t : Task) : Prop :=
  match t.part with
  | .comparison field .oneOf value transform =>
    literalItems? value = some [] ∧ Binds ⟨t.orders, .left field transform⟩
  | _ => False

def Drops (t : Task) : Prop := Some DropsHere t

/-- The tasks that a task calls. -/
def Expands (t : Task) (ts : List Task) : Prop := ∀ u, Calls t u ↔ u ∈ ts

theorem some_iff {own : Task → Prop} {t : Task} {ts : List Task} (h : t.Expands ts) :
    Some own t ↔ own t ∨ ∃ u ∈ ts, Some own u := by
  constructor
  · intro ht
    cases ht with
    | here hown => exact .inl hown
    | call hcall hu => exact .inr ⟨_, (h _).mp hcall, hu⟩
  · rintro (hown | ⟨u, hu, hsome⟩)
    · exact .here hown
    · exact .call ((h u).mpr hu) hsome

/-! ## 2. Shapes -/

open Sql.Part (IsWindow)

variable {orders : List Json} {p q r : Part}

theorem expands_none (hno : ¬ IsWindow p) (h : ∀ q, ¬ p.Calls q) : Expands ⟨orders, p⟩ [] := by
  refine fun u => ⟨fun hu => ?_, fun hu => absurd hu List.not_mem_nil⟩
  cases hu with
  | part hq => exact absurd hq (h _)
  | window hf => exact absurd ⟨_, _, rfl, hf⟩ hno

theorem expands_one (hno : ¬ IsWindow p) (hq : p.Calls q) (honly : ∀ r, p.Calls r → r = q) :
    Expands ⟨orders, p⟩ [⟨orders, q⟩] := by
  refine fun u => ⟨fun hu => ?_, fun hu => ?_⟩
  · cases hu with
    | part hr => rw [honly _ hr, List.mem_singleton]
    | window hf => exact absurd ⟨_, _, rfl, hf⟩ hno
  · rw [List.mem_singleton.mp hu]
    exact .part hq

theorem expands_two (hno : ¬ IsWindow p) (hq : p.Calls q) (hr : p.Calls r)
    (honly : ∀ u, p.Calls u → u = q ∨ u = r) :
    Expands ⟨orders, p⟩ [⟨orders, q⟩, ⟨orders, r⟩] := by
  refine fun u => ⟨fun hu => ?_, fun hu => ?_⟩
  · cases hu with
    | part hu => rcases honly _ hu with rfl | rfl <;> simp
    | window hf => exact absurd ⟨_, _, rfl, hf⟩ hno
  · simp only [List.mem_cons, List.not_mem_nil, or_false] at hu
    rcases hu with rfl | rfl
    · exact .part hq
    · exact .part hr

theorem expands_expr {e : Json} (h : ∀ fields, e ≠ .object fields) :
    Expands ⟨orders, .expr e⟩ [] := by
  refine expands_none (by nofun) fun q hq => ?_
  cases hq
  exact h _ rfl

theorem expands_object {fields : Fields} :
    Expands ⟨orders, .expr (.object fields)⟩ [⟨orders, .function fields⟩] :=
  expands_one (by nofun) .exprObject fun _ hr => by cases hr; rfl

theorem expands_function {name : String} {raw : Json} {rest : Fields} :
    Expands ⟨orders, .function ((name, raw) :: rest)⟩ [⟨orders, .call name raw⟩] :=
  expands_one (by nofun) .functionHead fun _ hr => by cases hr; rfl

theorem expands_condition {name : String} {raw : Json}
    (hf : Function.ofName? name = some .condition) :
    Expands ⟨orders, .call name raw⟩ [⟨orders, .conditions raw⟩] := by
  refine expands_one ?_ (.callCondition hf) fun r hr => ?_
  · rintro ⟨_, _, h, hsum⟩
    cases h
    rw [hf] at hsum
    cases hsum
  · cases hr with
    | callCondition => rfl
    | callArguments hg hne =>
      rw [hf] at hg
      exact absurd (Option.some.inj hg).symm hne

/-- What a call compiles: its arguments, and the orders behind them if it is a running sum. -/
theorem expands_call {name : String} {raw : Json} {f : Function}
    (hf : Function.ofName? name = some f) (hne : f ≠ .condition) :
    Expands ⟨orders, .call name raw⟩ (⟨orders, .arguments f.parameters (arguments raw)⟩ ::
      if f = .sumOver then windowTasks orders else []) := by
  intro u
  rw [List.mem_cons]
  constructor
  · intro hu
    cases hu with
    | part hr =>
      cases hr with
      | callCondition hg =>
        rw [hf] at hg
        exact absurd (Option.some.inj hg) hne
      | callArguments hg =>
        rw [hf] at hg
        cases hg
        exact .inl rfl
    | window hg ht =>
      rw [hf] at hg
      cases hg
      exact .inr ht
  · rintro (rfl | hu)
    · exact .part (.callArguments hf hne)
    · split at hu
      · rename_i hsum
        subst hsum
        exact .window hf hu
      · cases hu

theorem expands_arguments {p : Parameter} {ps : List Parameter} {v : Json} {rest : List Json} :
    Expands ⟨orders, .arguments (p :: ps) (v :: rest)⟩
      [⟨orders, .expr v⟩, ⟨orders, .arguments ps rest⟩] :=
  expands_two (by nofun) .argumentsHead .argumentsTail fun _ hr => by
    cases hr
    · exact .inl rfl
    · exact .inr rfl

theorem expands_arguments_none {ps : List Parameter} {args : List Json}
    (h : ∀ p ps' v rest, ps = p :: ps' → args = v :: rest → False) :
    Expands ⟨orders, .arguments ps args⟩ [] := by
  refine expands_none (by nofun) fun q hq => ?_
  cases hq
  · exact h _ _ _ _ rfl rfl
  · exact h _ _ _ _ rfl rfl

theorem expands_conditions {conds : Json} {fields : Fields}
    (h : Condition.tests conds = .ok fields) :
    Expands ⟨orders, .conditions conds⟩ [⟨orders, .tests fields⟩] :=
  expands_one (by nofun) (.conditionsTests h) fun _ hr => by
    cases hr with
    | conditionsTests h' =>
      rw [h] at h'
      cases h'
      rfl

theorem expands_tests_nil : Expands ⟨orders, .tests []⟩ [] :=
  expands_none (by nofun) fun _ hq => by cases hq

theorem expands_tests {name : String} {v : Json} {rest : Fields} :
    Expands ⟨orders, .tests ((name, v) :: rest)⟩ [⟨orders, .test name v⟩, ⟨orders, .tests rest⟩] :=
  expands_two (by nofun) .testsHead .testsTail fun _ hr => by
    cases hr
    · exact .inl rfl
    · exact .inr rfl

/-- Neither `$and` nor `$or` holds conditions if it is falsy. -/
theorem expands_test_none {name : String} {v : Json}
    (h : name = "$and" ∧ v.isFalsy = true ∨ name = "$or" ∧ (v.isFalsy = true ∨ v = .array [])) :
    Expands ⟨orders, .test name v⟩ [] := by
  refine expands_none (by nofun) fun q hq => ?_
  cases hq with
  | testAnd hv =>
    rcases h with ⟨-, hfalsy⟩ | ⟨hor, -⟩
    · exact hv hfalsy
    · exact absurd hor (by decide)
  | testOr hv =>
    rcases h with ⟨hand, -⟩ | ⟨-, hfalsy⟩
    · exact absurd hand (by decide)
    · exact hv hfalsy
  | testOps hand hor | testOp hand hor | testEq hand hor =>
    rcases h with ⟨h, -⟩ | ⟨h, -⟩
    · exact hand h
    · exact hor h

variable {name field : String}

theorem expands_and {v : Json} (hname : name = "$and") (h : ¬ v.isFalsy = true) :
    Expands ⟨orders, .test name v⟩ [⟨orders, .conditions v⟩] := by
  refine expands_one (by nofun) (hname ▸ .testAnd h) fun r hr => ?_
  cases hr with
  | testAnd => rfl
  | testOr => exact absurd hname (by decide)
  | testOps hand | testOp hand | testEq hand => exact absurd hname hand

theorem expands_or {v : Json} (hname : name = "$or") (h : ¬ (v.isFalsy = true ∨ v = .array [])) :
    Expands ⟨orders, .test name v⟩ [⟨orders, .conditions v⟩] := by
  refine expands_one (by nofun) (hname ▸ .testOr h) fun r hr => ?_
  cases hr with
  | testAnd => exact absurd hname (by decide)
  | testOr => rfl
  | testOps _ hor | testOp _ hor | testEq _ hor => exact absurd hname hor

theorem expands_testOps {items : List Json} (hand : name ≠ "$and") (hor : name ≠ "$or") :
    Expands ⟨orders, .test name (.array items)⟩ [⟨orders, .ops name items⟩] :=
  expands_one (by nofun) (.testOps hand hor) fun _ hr => by
    cases hr with
    | testAnd => exact absurd rfl hand
    | testOr => exact absurd rfl hor
    | testOps => rfl
    | testEq _ _ hv => exact absurd rfl (hv.1 _)

theorem expands_testOp {fields : Fields} (hand : name ≠ "$and") (hor : name ≠ "$or") :
    Expands ⟨orders, .test name (.object fields)⟩ [⟨orders, .op name (.object fields)⟩] :=
  expands_one (by nofun) (.testOp hand hor) fun _ hr => by
    cases hr with
    | testAnd => exact absurd rfl hand
    | testOr => exact absurd rfl hor
    | testOp => rfl
    | testEq _ _ hv => exact absurd rfl (hv.2 _)

theorem expands_testEq {v : Json} (hand : name ≠ "$and") (hor : name ≠ "$or")
    (hv : Part.IsScalar v) :
    Expands ⟨orders, .test name v⟩ [⟨orders, .comparison name .eq v none⟩] :=
  expands_one (by nofun) (.testEq hand hor hv) fun _ hr => by
    cases hr with
    | testAnd => exact absurd rfl hand
    | testOr => exact absurd rfl hor
    | testOps => exact absurd rfl (hv.1 _)
    | testOp => exact absurd rfl (hv.2 _)
    | testEq => rfl

theorem expands_ops_nil : Expands ⟨orders, .ops field []⟩ [] :=
  expands_none (by nofun) fun _ hq => by cases hq

theorem expands_ops {op : Json} {rest : List Json} :
    Expands ⟨orders, .ops field (op :: rest)⟩ [⟨orders, .op field op⟩, ⟨orders, .ops field rest⟩] :=
  expands_two (by nofun) .opsHead .opsTail fun _ hr => by
    cases hr
    · exact .inl rfl
    · exact .inr rfl

theorem expands_op {fields : Fields} {right : Json} {operator : Operator}
    (hf : fields.find? (·.1 ≠ transformKey) = some (name, right))
    (ho : Operator.ofName? name = some operator) :
    Expands ⟨orders, .op field (.object fields)⟩
      [⟨orders, .comparison field operator right (fields.lookup transformKey)⟩] :=
  expands_one (by nofun) (.opComparison hf ho) fun _ hr => by
    cases hr with
    | opComparison hf' ho' =>
      rw [hf] at hf'
      cases hf'
      rw [ho] at ho'
      cases ho'
      rfl

variable {op : Operator} {value : Json} {transform : Option Json}

/-- A comparison that compiles no list of values. -/
theorem expands_comparison
    (h : ∀ items, op = .oneOf → literalItems? value = some items → items = []) :
    Expands ⟨orders, .comparison field op value transform⟩
      [⟨orders, .left field transform⟩, ⟨orders, .expr value⟩] :=
  expands_two (by nofun) .comparisonLeft .comparisonValue fun _ hr => by
    cases hr with
    | comparisonLeft => exact .inl rfl
    | comparisonValue => exact .inr rfl
    | comparisonElements hitems hne => exact absurd (h _ rfl hitems) hne

theorem not_dropsHere_of_ne (h : op ≠ .oneOf) :
    ¬ DropsHere ⟨orders, .comparison field op value transform⟩ := by
  intro hdrop
  unfold DropsHere at hdrop
  split at hdrop
  · rename_i hpart
    cases hpart
    exact h rfl
  · exact hdrop

theorem not_dropsHere_of_items {items : List Json} (h : literalItems? value = some items)
    (hne : items ≠ []) : ¬ DropsHere ⟨orders, .comparison field .oneOf value transform⟩ := by
  rintro ⟨hempty, -⟩
  rw [h] at hempty
  exact hne (Option.some.inj hempty)

theorem expands_oneOf {items : List Json} (h : literalItems? value = some items)
    (hne : items ≠ []) :
    Expands ⟨orders, .comparison field .oneOf value transform⟩
      [⟨orders, .left field transform⟩, ⟨orders, .expr value⟩,
        ⟨orders, .elements (Condition.distinct items)⟩] := by
  intro u
  simp only [List.mem_cons, List.not_mem_nil, or_false]
  constructor
  · intro hu
    cases hu with
    | part hr =>
      cases hr with
      | comparisonLeft => exact .inl rfl
      | comparisonValue => exact .inr (.inl rfl)
      | comparisonElements hitems =>
        rw [h] at hitems
        cases hitems
        exact .inr (.inr rfl)
  · rintro (rfl | rfl | rfl)
    · exact .part .comparisonLeft
    · exact .part .comparisonValue
    · exact .part (.comparisonElements h hne)

theorem expands_left_field :
    Expands ⟨orders, .left field none⟩ [⟨orders, .expr (fieldReference field)⟩] :=
  expands_one (by nofun) .leftField fun _ hr => by cases hr; rfl

theorem expands_left_name :
    Expands ⟨orders, .left field (some (.string name))⟩
      [⟨orders, .function [(name, .string "$")]⟩] :=
  expands_one (by nofun) .leftName fun _ hr => by cases hr; rfl

theorem expands_left_call {fields : Fields} :
    Expands ⟨orders, .left field (some (.object fields))⟩ [⟨orders, .function fields⟩] :=
  expands_one (by nofun) .leftCall fun _ hr => by cases hr; rfl

theorem expands_elements_nil : Expands ⟨orders, .elements []⟩ [] :=
  expands_none (by nofun) fun _ hq => by cases hq

theorem expands_elements {v : Json} {rest : List Json} :
    Expands ⟨orders, .elements (v :: rest)⟩ [⟨orders, .expr v⟩, ⟨orders, .elements rest⟩] :=
  expands_two (by nofun) .elementsHead .elementsTail fun _ hr => by
    cases hr
    · exact .inl rfl
    · exact .inr rfl

/-! ## 3. Lists without parameters -/

theorem not_binds_of_none {t : Task} (h : t.Expands []) (hown : ¬ BindsHere t) : ¬ Binds t := by
  intro hb
  rcases (some_iff h).mp hb with hb | ⟨u, hu, -⟩
  · exact hown hb
  · exact List.not_mem_nil hu

theorem not_binds_of_one {t u : Task} (h : t.Expands [u]) (hown : ¬ BindsHere t)
    (hu : ¬ Binds u) : ¬ Binds t := by
  intro hb
  rcases (some_iff h).mp hb with hb | ⟨u', hu', hb⟩
  · exact hown hb
  · rw [List.mem_singleton.mp hu'] at hb
    exact hu hb

/-- A literal of one argument binds no parameter if the argument does not. -/
theorem not_binds_literal {raw v : Json} {rest : Fields} (hargs : arguments raw = [v])
    (hv : ¬ Binds ⟨orders, .expr v⟩) :
    ¬ Binds ⟨orders, .expr (.object (("$literal", raw) :: rest))⟩ := by
  have hnil : ¬ Binds ⟨orders, .arguments [] []⟩ :=
    not_binds_of_none (expands_arguments_none (by nofun)) (by nofun)
  have hargs : ¬ Binds ⟨orders, .arguments Function.literal.parameters (arguments raw)⟩ := by
    rw [hargs]
    intro hb
    rcases (some_iff expands_arguments).mp hb with hb | ⟨u, hu, hb⟩
    · exact hb
    · simp only [List.mem_cons, List.not_mem_nil, or_false] at hu
      rcases hu with rfl | rfl
      · exact hv hb
      · exact hnil hb
  have hcall : ¬ Binds ⟨orders, .call "$literal" raw⟩ :=
    not_binds_of_one (expands_call (f := .literal) rfl (by decide)) (by nofun) hargs
  have hfunction : ¬ Binds ⟨orders, .function (("$literal", raw) :: rest)⟩ :=
    not_binds_of_one expands_function (by nofun) hcall
  exact not_binds_of_one expands_object (by nofun) hfunction

/-- The items of a list are not compiled with it. -/
theorem not_binds_of_literalItems {items : List Json} (h : literalItems? value = some items) :
    ¬ Binds ⟨orders, .expr value⟩ := by
  fun_induction literalItems? value with
  | case1 items =>
    exact not_binds_of_none (expands_expr fun fields he => by cases he) not_false
  | case2 v rest ih => exact not_binds_literal rfl (ih h)
  | case5 v rest _ harray ih =>
    refine not_binds_literal ?_ (ih h)
    unfold arguments
    split
    · exact absurd rfl (harray _)
    · rfl
  | _ => cases h

end Task

end QuerySheet.Sql

import QuerySheet.Proofs.Sql.Aggregates
import QuerySheet.Proofs.Sql.Grouping
import QuerySheet.Proofs.Sql.ParamTypes

/-!
# The id that is added to a select list

A query that does not aggregate selects `id` besides. Whether it aggregates is told by the names of
the fields in its select list, before anything is compiled.

* `Part.mentions`: the name of an aggregate is found in what a part compiles. What is found below a
  part is found in it (`Part.Calls.mentions`), unless it is hidden there (`Task.HidesHere`);
* `SelectsColumns`: the columns of a statement, each with its name and its text;
* `addsId_iff_of_compile`: so `id` is added to just those select lists that apply no aggregate,
  exactly if in them an aggregate is named if and only if it is written.
-/

namespace QuerySheet.Sql

/-! ## 1. Names that are found -/

theorem itemsContainAggregate_eq (items : List Json) :
    itemsContainAggregate items = items.any containsAggregate := by
  induction items with
  | nil => rfl
  | cons v rest ih => rw [itemsContainAggregate, ih, List.any_cons]

theorem fieldsContainAggregate_eq (fields : Fields) :
    fieldsContainAggregate fields =
      fields.any fun field => namesAggregate field.1 || containsAggregate field.2 := by
  induction fields with
  | nil => rfl
  | cons field rest ih => rw [fieldsContainAggregate, ih, List.any_cons, namesAggregate]

/-- The name of an aggregate is found among the fields of what a part compiles. -/
def Part.mentions : Part → Bool
  | .expr e | .conditions e | .test _ e | .op _ e => containsAggregate e
  | .function fields | .tests fields => fieldsContainAggregate fields
  | .call name raw => namesAggregate name || containsAggregate raw
  | .arguments _ items | .ops _ items | .elements items => itemsContainAggregate items
  | .comparison _ _ value transform => containsAggregate value || transform.any containsAggregate
  | .left _ transform => transform.any containsAggregate

section Mentions

variable {fields : Fields} {items : List Json} {v : Json}

theorem contains_of_mem_items (hv : v ∈ items) (h : containsAggregate v = true) :
    itemsContainAggregate items = true := by
  rw [itemsContainAggregate_eq]
  exact List.any_eq_true.mpr ⟨v, hv, h⟩

theorem contains_of_mem_fields {field : String × Json} (hfield : field ∈ fields)
    (h : containsAggregate field.2 = true) : fieldsContainAggregate fields = true := by
  rw [fieldsContainAggregate_eq]
  exact List.any_eq_true.mpr ⟨field, hfield, by rw [h, Bool.or_true]⟩

theorem contains_arguments (h : itemsContainAggregate (arguments v) = true) :
    containsAggregate v = true := by
  cases v with
  | array => exact h
  | null | bool | number | string => cases h
  | object => exact (Bool.or_false _).symm.trans h

theorem contains_literalItems (h : literalItems? v = some items)
    (hitems : itemsContainAggregate items = true) : containsAggregate v = true := by
  fun_induction literalItems? v with
  | case1 =>
    cases h
    exact hitems
  | case2 v rest ih =>
    have hv := ih h
    simp [containsAggregate, fieldsContainAggregate, itemsContainAggregate, hv]
  | case5 v rest _ _ ih =>
    have hv := ih h
    simp [containsAggregate, fieldsContainAggregate, hv]
  | _ => cases h

/-- What is found in tests is found in the conditions that they are of. -/
theorem contains_tests (h : Condition.tests v = .ok fields)
    (hfields : fieldsContainAggregate fields = true) : containsAggregate v = true := by
  have hitems {items : List Json} {fields : Fields} (h : Condition.itemsTests items = .ok fields)
      (hfields : fieldsContainAggregate fields = true) : itemsContainAggregate items = true := by
    induction items generalizing fields with
    | nil =>
      cases h
      cases hfields
    | cons v rest ih =>
      simp only [Condition.itemsTests] at h
      rw [itemsContainAggregate, Bool.or_eq_true]
      split at h
      · exact .inr (ih h hfields)
      · split at h
        · rename_i fs _
          cases hrest : Condition.itemsTests rest with
          | error => rw [hrest] at h; cases h
          | ok gs =>
            rw [hrest] at h
            cases h
            rw [fieldsContainAggregate_eq, List.any_append, Bool.or_eq_true,
              ← fieldsContainAggregate_eq, ← fieldsContainAggregate_eq] at hfields
            exact hfields.imp_right (ih hrest)
        · cases h
  unfold Condition.tests at h
  split at h
  · cases h
    exact hfields
  · exact hitems h hfields
  · split at h <;> cases h
    cases hfields

end Mentions

/-- An aggregate that the search for names does not see: the transform of a field by name, or what
    a running sum goes by. -/
def Task.HidesHere (t : Task) : Prop :=
  match t.part with
  | .left _ (some (.string name)) => namesAggregate name = true
  | .call name _ => Function.ofName? name = some .sumOver ∧ itemsContainAggregate t.orders = true
  | _ => False

/-- Among all that is compiled for an item of a select list there is one of these. -/
def Hides (orders : List Json) (item : Json) : Prop :=
  ∃ t ∈ itemTasks orders item, t.Some Task.HidesHere

/-- What is found below a part is found in it, unless it is hidden there. -/
theorem Part.Calls.mentions {orders : List Json} {p q : Part} (h : p.Calls q)
    (hq : q.mentions = true) : p.mentions = true ∨ Task.HidesHere ⟨orders, p⟩ := by
  cases h with
  | exprObject | testAnd | testOr | testOps | testOp | leftCall => exact .inl hq
  | functionHead | argumentsHead | opsHead | elementsHead | comparisonValue =>
    exact .inl (Bool.or_inl hq)
  | argumentsTail | testsTail | opsTail | elementsTail | comparisonLeft | callCondition =>
    exact .inl (Bool.or_inr hq)
  | callArguments => exact .inl (Bool.or_inr (contains_arguments hq))
  | conditionsTests h => exact .inl (contains_tests h hq)
  | testsHead => exact .inl (Bool.or_inl (Bool.or_inr hq))
  | testEq => exact .inl ((Bool.or_false _).symm.trans hq)
  | @opComparison _ fields _ _ _ hf =>
    refine .inl ?_
    rcases Bool.or_eq_true_iff.mp hq with hright | htransform
    · exact contains_of_mem_fields (List.mem_of_find?_eq_some hf) hright
    · obtain ⟨t, ht, hmentions⟩ := (Option.any_eq_true _ _).mp htransform
      obtain ⟨before, behind, hfields, -⟩ := List.lookup_eq_some_iff.mp ht
      rw [hfields]
      exact contains_of_mem_fields (List.mem_append_right _ List.mem_cons_self) hmentions
  | @comparisonElements _ _ _ items h =>
    refine .inl (Bool.or_inl (contains_literalItems h ?_))
    rw [Part.mentions, itemsContainAggregate_eq] at hq
    obtain ⟨v, hv, hmentions⟩ := List.any_eq_true.mp hq
    exact contains_of_mem_items ((Condition.distinctFrom_sublist [] items).subset hv) hmentions
  | leftField => cases hq
  | @leftName _ name =>
    have hname : (namesAggregate name || false || false) = true := hq
    rw [Bool.or_false, Bool.or_false] at hname
    exact .inr hname

/-- What is found in the orders of a running sum is found in the orders. -/
theorem contains_of_windowTasks {orders : List Json} {t : Task} (ht : t ∈ windowTasks orders)
    (h : t.part.mentions = true) : itemsContainAggregate orders = true := by
  obtain ⟨e, he, ht⟩ := List.mem_flatMap.mp ht
  refine contains_of_mem_items he ?_
  unfold orderTasks at ht
  split at ht
  · rw [List.mem_singleton.mp ht] at h
    cases h
  · split at ht
    · cases ht
    · split at ht
      · rw [List.mem_singleton.mp ht, Part.mentions, containsAggregate,
          fieldsContainAggregate_eq] at h
        rw [containsAggregate, fieldsContainAggregate_eq]
        obtain ⟨field, hfield, hmentions⟩ := List.any_eq_true.mp h
        exact List.any_eq_true.mpr ⟨field, List.mem_of_mem_filter hfield, hmentions⟩
      · rw [List.mem_singleton.mp ht] at h
        cases h
  · rw [List.mem_singleton.mp ht] at h
    exact h

/-- An aggregate that is written is found, unless something hides one. -/
theorem mentions_of_written {t : Task} (h : t.Written CallsAggregate) :
    t.part.mentions = true ∨ t.Some Task.HidesHere := by
  induction h with
  | here h => exact .inl (Bool.or_inl h)
  | call h _ _ ih =>
    rcases ih with hfound | hhides
    · cases h with
      | part h => exact (h.mentions hfound).imp_right .here
      | window hf ht => exact .inr (.here ⟨hf, contains_of_windowTasks ht hfound⟩)
    · exact .inr (.call h hhides)

theorem contains_of_columnTask {orders : List Json} {value : Json}
    (h : (columnTask orders value).part.mentions = true) : containsAggregate value = true := by
  cases value with
  | object => exact h
  | string | null | bool | number => cases h
  | array => exact h

theorem contains_of_aggregates {orders : List Json} {item : Json} (h : Aggregates orders item) :
    containsAggregate item = true ∨ Hides orders item := by
  obtain ⟨t, ht, hwritten⟩ := h
  refine (mentions_of_written hwritten).imp (fun hfound => ?_) fun hhides => ⟨t, ht, hhides⟩
  cases item with
  | string name =>
    rw [itemTasks] at ht
    split at ht
    · cases ht
    · rw [List.mem_singleton.mp ht] at hfound
      cases hfound
  | object fields =>
    obtain ⟨field, hfield, rfl⟩ := List.mem_map.mp ht
    exact contains_of_mem_fields hfield (contains_of_columnTask hfound)
  | null | bool | number | array => cases ht

/-! ## 2. Select lists -/

/-- A column of a statement. -/
structure NamedColumn where
  name : String
  text : Template

def NamedColumn.template (column : NamedColumn) : Template :=
  column.text ++ " AS " ++ quoteAlias column.name

/-- The columns of a statement that selects neither `id` nor all columns of a table. -/
structure SelectsColumns (c : CompiledQuery) (columns : List NamedColumn) : Prop where
  text : c.pieces.select = .intercalate ", " (columns.map NamedColumn.template)
  names : columns.map NamedColumn.name =
    (if c.query.selection.any containsAggregate then [] else ["id"]) ++
      c.query.selection.flatMap columnNames
  aggregate : (∃ column ∈ columns, AppliesAggregate column.text.text) ↔
    ∃ item ∈ c.query.selection, Aggregates c.query.orders item

section Select

variable {orders : List Json}

/-- The columns of an item by their names. -/
theorem ItemSpells.named {item : Json} {columns : List SelectColumn}
    (h : ItemSpells orders item columns) (hitem : item ≠ .string "*") :
    ∃ named : List NamedColumn,
      columns.map SelectColumn.template = named.map NamedColumn.template ∧
      named.map NamedColumn.name = columnNames item ∧
      ((∃ column ∈ named, AppliesAggregate column.text.text) ↔ Aggregates orders item) := by
  have happlies (value : Json) {φ : Phrase} (h : ValueSpells orders value φ) :
      AppliesAggregate φ.template.text ↔ (columnTask orders value).Written CallsAggregate :=
    h.regular.appliesAggregate_iff.trans h.aggregates_iff
  cases h with
  | all => exact absurd rfl hitem
  | @name name φ hname h =>
    refine ⟨[⟨name, φ.template⟩], rfl, rfl, ?_⟩
    have hcolumn := happlies (.string name) h
    simp only [List.mem_singleton, exists_eq_left, Aggregates, itemTasks, if_neg hname]
    exact hcolumn
  | @fields fields _ h =>
    simp only [Aggregates, itemTasks, List.mem_map, exists_exists_and_eq_and]
    induction h with
    | nil => exact ⟨[], rfl, rfl, by simp⟩
    | @cons field column fields columns h _ ih =>
      obtain ⟨φ, hφ, rfl⟩ := h
      obtain ⟨named, htext, hnames, haggregate⟩ := ih nofun
      refine ⟨⟨field.1, φ.template⟩ :: named, ?_, ?_, ?_⟩
      · rw [List.map_cons, List.map_cons, htext]
        rfl
      · rw [List.map_cons, hnames]
        rfl
      · simp only [List.exists_mem_cons_iff, haggregate, happlies _ hφ]

/-- The columns of a select list by their names. -/
theorem named_of_items {items : List Json} {columns : List (List SelectColumn)}
    (h : List.Forall₂ (ItemSpells orders) items columns)
    (hitems : ∀ item ∈ items, item ≠ .string "*") :
    ∃ named : List NamedColumn,
      columns.flatten.map SelectColumn.template = named.map NamedColumn.template ∧
      named.map NamedColumn.name = items.flatMap columnNames ∧
      ((∃ column ∈ named, AppliesAggregate column.text.text) ↔
        ∃ item ∈ items, Aggregates orders item) := by
  induction h with
  | nil => exact ⟨[], rfl, rfl, by simp⟩
  | @cons item column items columns h _ ih =>
    obtain ⟨first, htext, hnames, haggregate⟩ := h.named (hitems item List.mem_cons_self)
    obtain ⟨more, htexts, hall, hany⟩ :=
      ih fun item hitem => hitems item (List.mem_cons_of_mem _ hitem)
    refine ⟨first ++ more, ?_, ?_, ?_⟩
    · rw [List.flatten_cons, List.map_append, List.map_append, htext, htexts]
    · rw [List.map_append, hnames, hall, List.flatMap_cons]
    · simp only [List.mem_append, or_and_right, exists_or, List.exists_mem_cons_iff, haggregate,
        hany]

theorem not_aggregates_string (orders : List Json) (name : String) :
    ¬ Aggregates orders (.string name) := by
  rintro ⟨t, ht, hwritten⟩
  rw [itemTasks] at ht
  split at ht
  · cases ht
  · rw [List.mem_singleton.mp ht] at hwritten
    exact Task.not_written_of_none (Task.expands_expr (by unfold fieldReference; nofun)) nofun
      hwritten

theorem not_mem_columnNames {item : Json} (h : selectsId item = false) :
    "id" ∉ columnNames item := by
  cases item with
  | string name =>
    rw [selectsId, Bool.or_eq_false_iff] at h
    rw [columnNames, List.mem_singleton]
    rintro rfl
    exact absurd h.1 (by decide)
  | object fields =>
    rw [columnNames, List.mem_map]
    rintro ⟨field, hfield, hname⟩
    have hne := List.any_eq_false.mp h field hfield
    exact hne (by simp [hname])
  | null | bool | number | array => exact List.not_mem_nil

variable {policy : Policy} {schema : Schema} {q : Query}

/-- A query that does not group, and does not select `id` itself, selects it besides exactly if the
    name of an aggregate is found in its select list. -/
theorem selectItems_of_not_selectsId (hgroups : q.groups = [])
    (hid : ∀ item ∈ q.selection, selectsId item = false) :
    selectItems q = (if q.selection.any containsAggregate then [] else [.string "id"]) ++
      q.selection := by
  have hany : q.selection.any selectsId = false :=
    List.any_eq_false.mpr fun item hitem => by rw [hid item hitem]; decide
  unfold selectItems Query.isAggregate
  rw [hgroups, hany, List.isEmpty_nil, Bool.not_true, Bool.false_or, Bool.or_false]
  split <;> rfl

/-- Take a query that neither groups nor selects `id` or all columns of a table. `id` is added
    unless a column applies an aggregate, exactly if an aggregate is named in the select list
    whenever one is written, and written whenever one is named. Unless one is hidden, no `id` is
    added to a select list that applies an aggregate. -/
theorem addsId_iff_of_compile {c : CompiledQuery} (hnames : PlainNames IdentChar schema policy)
    (h : q.compile schema policy = .ok c) (hgroups : c.query.groups = [])
    (hid : ∀ item ∈ c.query.selection, selectsId item = false) :
    ∃ columns : List NamedColumn, SelectsColumns c columns ∧
      (("id" ∈ columns.map NamedColumn.name ↔
          ¬ ∃ column ∈ columns, AppliesAggregate column.text.text) ↔
        ((∃ item ∈ c.query.selection, containsAggregate item = true) ↔
          ∃ item ∈ c.query.selection, Aggregates c.query.orders item)) ∧
      ((∀ item ∈ c.query.selection, ¬ Hides c.query.orders item) →
        (∃ column ∈ columns, AppliesAggregate column.text.text) →
          "id" ∉ columns.map NamedColumn.name) := by
  obtain ⟨-, htable, p, hp, -, -, hpieces, -⟩ := phases_of_compile h
  have hphrased := hp.phrased (plain_rootScope hnames htable) rfl Joins.wellFormed_empty
  obtain ⟨columns, hcolumns, hselect⟩ := hphrased.select
  rw [selectItems_of_not_selectsId hgroups hid] at hcolumns
  obtain ⟨named, htext, hall, haggregate⟩ := named_of_items hcolumns (by
    refine List.forall_mem_append.mpr ⟨fun item hitem => ?_, fun item hitem he => ?_⟩
    · split at hitem
      · cases hitem
      · rw [List.mem_singleton.mp hitem]
        decide
    · exact absurd (hid item hitem) (he ▸ by decide))
  have hadded : ¬ ∃ item ∈ (if c.query.selection.any containsAggregate then [] else
      [Json.string "id"]), Aggregates c.query.orders item := by
    rintro ⟨item, hitem, h⟩
    split at hitem
    · cases hitem
    · rw [List.mem_singleton.mp hitem] at h
      exact not_aggregates_string _ _ h
  have hselects : SelectsColumns c named := by
    refine ⟨by rw [hpieces, ← htext]; exact hselect, ?_, haggregate.trans ?_⟩
    · rw [hall, List.flatMap_append]
      split <;> rfl
    · simp only [List.mem_append, or_and_right, exists_or]
      exact or_iff_right hadded
  have hmem : "id" ∈ named.map NamedColumn.name ↔
      ¬ ∃ item ∈ c.query.selection, containsAggregate item = true := by
    have hother : "id" ∉ c.query.selection.flatMap columnNames := by
      rw [List.mem_flatMap]
      exact fun ⟨item, hitem, h⟩ => not_mem_columnNames (hid item hitem) h
    rw [hselects.names, List.mem_append, or_iff_left hother, ← List.any_eq_true]
    split <;> simp [*]
  refine ⟨named, hselects, ?_, fun hhides happlies => ?_⟩
  · rw [hmem, hselects.aggregate]
    exact not_iff_not
  · obtain ⟨item, hitem, h⟩ := hselects.aggregate.mp happlies
    rw [hmem, not_not]
    exact ⟨item, hitem, (contains_of_aggregates h).resolve_right (hhides item hitem)⟩

end Select

/-- The number of names, below zero. -/
def negatedCount : Query :=
  { table := "people"
    selection := [.object [("n", .object [("$neg", .object [("$count", .string "$name")])])]] }

theorem addsId_iff_of_negatedCount : ∃ c, negatedCount.compile people .none = .ok c ∧
    ∃ columns : List NamedColumn, SelectsColumns c columns ∧
      (("id" ∈ columns.map NamedColumn.name ↔
          ¬ ∃ column ∈ columns, AppliesAggregate column.text.text) ↔
        ((∃ item ∈ c.query.selection, containsAggregate item = true) ↔
          ∃ item ∈ c.query.selection, Aggregates c.query.orders item)) ∧
      ((∀ item ∈ c.query.selection, ¬ Hides c.query.orders item) →
        (∃ column ∈ columns, AppliesAggregate column.text.text) →
          "id" ∉ columns.map NamedColumn.name) := by
  obtain ⟨c, hc, -⟩ : ∃ c, negatedCount.compile people .none = .ok c ∧ true = true :=
    compile_of_piecesPass (by cbv) (by cbv)
  obtain ⟨hquery, -⟩ := phases_of_compile hc
  have hquery : c.query = negatedCount := hquery
  have hnames : PlainNames IdentChar people .none :=
    plainNames_people_of_allChars (by decide) (by decide) fun _ _ => rfl
  refine ⟨c, hc, addsId_iff_of_compile hnames hc (by rw [hquery]; rfl) ?_⟩
  rw [hquery]
  exact List.forall_mem_singleton.mpr (by decide)

/-- One table, of amounts with an id. -/
def sales : Schema :=
  ⟨(∅ : Std.ExtTreeMap String Table).insert "sales"
    ⟨((∅ : Std.ExtTreeMap String Field).insert "id" ⟨.id, none, false, none⟩).insert "amount"
      ⟨.integer, none, false, none⟩⟩⟩

/-- The sum of the field in scope. -/
def sumHere : Fields := [("$sum", .string "$")]

/-- A sum of more than a hundred, whichever way the sum is given. -/
def exceeds (transform : Json) : Json :=
  .object [(transformKey, transform), ("$gt", .number (.int 100))]

def GivesSum (transform : Json) : Prop := transform = .string "$sum" ∨ transform = .object sumHere

/-- Whether the amounts are more than a hundred together. -/
def isLarge (transform : Json) : Query :=
  { table := "sales"
    selection := [.object [("large",
      .object [("$condition", .object [("amount", exceeds transform)])])]] }

/-- What is compiled for `sumHere`, as far as it can be computed. -/
def sumOfField : Compile Operand :=
  Compile.within .function [.object sumHere] do
    Function.sum.checkArity 1
    let field ← Compile.within .expr [.string "$"] (compileText "$")
    let a ← Parameter.admit (.castable .float) field
    Function.sum.apply [a] window

theorem compileFunction_sumHere : compileFunction sumHere = sumOfField := by
  rw [sumOfField, sumHere, compileFunction, functionWith.eq_def]
  dsimp only
  rw [callWith_of_ne_condition (f := .sum) (by decide) rfl (by decide)]
  simp only [Sql.arguments, Function.parameters, argumentsWith, exprWith, bind_assoc, pure_bind]
  rfl

/-- What is compiled for `exceeds`. -/
def sumExceeds (transform : Json) : Compile Template :=
  Compile.within .op [.string "amount", exceeds transform] do
    let _ ← Compile.mark
    let left ← withField "amount" sumOfField
    let right ← Compile.within .expr [.number (.int 100)] (Operand.ofScalar (.number (.int 100)))
    let right ← right.cast left.type
    return left.sql ++ " " ++ ">" ++ " " ++ right.sql

section Large

variable {transform : Json} (h : GivesSum transform)

include h

theorem compileOp_exceeds : compileOp "amount" (exceeds transform) = sumExceeds transform := by
  have hleft : leftWith window "amount" (some transform) = withField "amount" sumOfField := by
    rw [← compileFunction_sumHere]
    rcases h with rfl | rfl <;> rw [leftWith.eq_def] <;> rfl
  rw [sumExceeds, exceeds, compileOp, opWith.eq_def]
  show Compile.within .op _
    (comparisonWith window "amount" .gt (.number (.int 100)) (some transform)) = _
  rw [comparisonWith.eq_def, hleft, exprWith.eq_def]
  rfl

theorem compileFunction_exceeds :
    compileFunction [("$condition", .object [("amount", exceeds transform)])] =
      Compile.within .function [.object [("$condition", .object [("amount", exceeds transform)])]]
        (do return .fragment (.intercalate " AND " [← sumExceeds transform]) .boolean) := by
  have htest : testWith window "amount" (exceeds transform) =
      (do return [← compileOp "amount" (exceeds transform)]) := by
    rw [exceeds, testWith.eq_def, if_neg (by decide), if_neg (by decide)]
    rfl
  rw [compileFunction_condition, compileConditions, conditionsWith.eq_def]
  simp only [Condition.tests, testsWith, htest, compileOp_exceeds h, bind_assoc, pure_bind]
  rfl

/-- Only if the sum is given by its name, `id` is added. -/
theorem compileSelect_isLarge : compileSelect (isLarge transform) =
    Compile.within .select [.array (isLarge transform).selection] do
      let id ←
        if containsAggregate transform then pure []
        else pure [← column (← Compile.within .expr [.string "$id"] (compileText "$id")) "id"]
      let large ← withReader (fun s => { s with orders := some [] }) (Compile.within .function
        [.object [("$condition", .object [("amount", exceeds transform)])]]
        (do return .fragment (.intercalate " AND " [← sumExceeds transform]) .boolean))
      let large ← column large "large"
      return .intercalate ", " (id ++ [large]) := by
  have hstar : ¬ "id" = "*" := by decide
  have hdollar : ¬ hasDollar "large" = true := by decide
  have hitems : selectItems (isLarge transform) =
      (if containsAggregate transform then [] else [.string "id"]) ++
        (isLarge transform).selection := by
    rcases h with rfl | rfl <;> rfl
  unfold compileSelect
  rw [hitems, List.mapM_append]
  unfold isLarge
  simp only [List.mapM_cons, List.mapM_nil, compileSelectItem, compileNamedColumn,
    compileFunction_exceeds h, if_neg hdollar, bind_assoc, pure_bind]
  congr 1
  split
  · simp
  · simp only [List.mapM_cons, List.mapM_nil, compileSelectItem, if_neg hstar, compileExpr_string,
      fieldReference, bind_assoc, pure_bind]
    rfl

end Large

/-- The sum is written either way, but given by its name it is not found. -/
theorem addsId_of_isLarge :
    (∃ c, (isLarge (.string "$sum")).compile sales .none = .ok c ∧ c.query.groups = [] ∧
      (∀ item ∈ c.query.selection, selectsId item = false) ∧
        c.pieces.select.text = "sales.id AS id, SUM(sales.amount) > 100 AS large") ∧
      (∃ c, (isLarge (.object sumHere)).compile sales .none = .ok c ∧
        c.pieces.select.text = "SUM(sales.amount) > 100 AS large") ∧
      AppliesAggregate "SUM(sales.amount) > 100" := by
  have hsales : (sales.table? "sales").isSome = true := by cbv
  have hname : piecesPass (fun c => c.pieces.select.text =
      "sales.id AS id, SUM(sales.amount) > 100 AS large") .none sales (isLarge (.string "$sum")) =
        true := by
    unfold piecesPass compilePieces clause
    rw [compileSelect_isLarge (.inl rfl), isLarge, compileFilters_nil]
    decide +kernel
  have hcall : piecesPass (fun c => c.pieces.select.text = "SUM(sales.amount) > 100 AS large")
      .none sales (isLarge (.object sumHere)) = true := by
    unfold piecesPass compilePieces clause
    rw [compileSelect_isLarge (.inr rfl), isLarge, compileFilters_nil]
    decide +kernel
  obtain ⟨c, hc, htext⟩ := compile_of_piecesPass hsales hname
  obtain ⟨d, hd, htext'⟩ := compile_of_piecesPass hsales hcall
  have hquery : c.query = isLarge (.string "$sum") := (phases_of_compile hc).1
  refine ⟨⟨c, hc, by rw [hquery]; rfl, ?_, of_decide_eq_true htext⟩,
    ⟨d, hd, of_decide_eq_true htext'⟩, by decide +kernel⟩
  rw [hquery]
  exact List.forall_mem_singleton.mpr (by decide)

end QuerySheet.Sql

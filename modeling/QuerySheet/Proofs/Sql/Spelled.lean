import QuerySheet.Proofs.Sql.Recasting

/-!
# All parts are compiled to what they spell

* `Part.Spelled`: a part is compiled to phrases that it spells;
* `spelled_part`, `spelled_windowOf`: all parts and orders are, with one lemma for each kind of
  part;
* `spelled_of_compileExpr`, `spelled_of_compileOp`: in particular whole expressions and tests.
-/

namespace QuerySheet.Sql

open Compile (Moves)

/-! ## 1. Parts -/

/-- A text that a part spells. -/
def SpelledText (orders : List Json) (p : Part) (t : Template) : Prop :=
  ∃ φ, Spells orders (.part p) [φ] ∧ t = φ.template

/-- Texts that a part spells. -/
def SpelledTexts (orders : List Json) (p : Part) (ts : List Template) : Prop :=
  ∃ φs, Spells orders (.part p) φs ∧ ts = φs.map Phrase.template

/-- A part is compiled to what it spells. -/
def Part.Spelled (orders : List Json) (window : Compile Template) : Part → Prop
  | .expr e => Ensures orders
      (fun o => o.Spelled orders (.expr e) ∧ o.param?.isSome = isParameter e) (exprWith window e)
  | .function fields => Ensures orders
      (fun o => o.Spelled orders (.function fields) ∧ o.param? = none) (functionWith window fields)
  | .call name raw => Ensures orders
      (fun o => o.Spelled orders (.call name raw) ∧ o.param? = none) (callWith window name raw)
  | .arguments ps args => Ensures orders
      (fun os => ∃ φs, Spells orders (.part (.arguments ps args)) φs ∧ Taken ps os φs)
      (argumentsWith window ps args)
  | .conditions conds =>
    Ensures orders (SpelledTexts orders (.conditions conds)) (conditionsWith window conds)
  | .tests fields => Ensures orders (SpelledTexts orders (.tests fields)) (testsWith window fields)
  | .test name v => Ensures orders (SpelledTexts orders (.test name v)) (testWith window name v)
  | .ops field items =>
    Ensures orders (SpelledTexts orders (.ops field items)) (opsWith window field items)
  | .op field v => Ensures orders (SpelledText orders (.op field v)) (opWith window field v)
  | .comparison field operator value transform =>
    Ensures orders (SpelledText orders (.comparison field operator value transform))
      (comparisonWith window field operator value transform)
  | .left field transform =>
    Ensures orders (·.Spelled orders (.left field transform)) (leftWith window field transform)
  | .elements items => ∀ type,
    Ensures orders (SpelledTexts orders (.elements items)) (elementsWith window type items)

section Parts

variable {orders : List Json} {window : Compile Template}

theorem SpelledText.single {p : Part} {t : Template} (h : SpelledText orders p t) :
    SpelledTexts orders p [t] := by
  obtain ⟨φ, hφ, rfl⟩ := h
  exact ⟨[φ], hφ, rfl⟩

theorem Part.Passes.texts {p q : Part} {ts : List Template} (h : p.Passes q)
    (hq : SpelledTexts orders q ts) : SpelledTexts orders p ts := by
  obtain ⟨φs, hφs, rfl⟩ := hq
  exact ⟨φs, .pass h hφs, rfl⟩

theorem Part.Passes.operand {p q : Part} {o : Operand} (h : p.Passes q)
    (hq : o.Spelled orders q) : o.Spelled orders p := by
  obtain ⟨φ, hφ, hreads⟩ := hq
  exact ⟨φ, .pass h hφ, hreads⟩

theorem spelled_expr {e : Json} (ih : (Part.expr e).Below (Part.Spelled orders window)) :
    (Part.expr e).Spelled orders window := by
  have leaf {e : Json} {o : Operand} (ho : o.IsLeaf e) :
      o.Spelled orders (.expr e) ∧ o.param?.isSome = isParameter e := by
    obtain ⟨⟨φ, hφ, hreads⟩, hparam⟩ := ho
    exact ⟨⟨φ, .leaf hφ, hreads⟩, hparam⟩
  rw [Part.Spelled, exprWith.eq_def]
  refine .within _ _ ?_
  split
  · exact (ensures_compileText _).mono fun _ => leaf
  · exact .pure (leaf ⟨⟨_, .array _, Operand.reads_ofArray _⟩, rfl⟩)
  · refine (ih _ .exprObject).mono fun o ho => ⟨(Part.Passes.object _).operand ho.1, ?_⟩
    rw [ho.2]
    rfl
  · rename_i hstring _ _
    refine (ensures_ofScalar _ ?_).mono fun _ => leaf
    unfold isParameter
    split
    · exact absurd rfl (hstring _)
    · rfl

theorem spelled_function {fields : Fields}
    (ih : (Part.function fields).Below (Part.Spelled orders window)) :
    (Part.function fields).Spelled orders window := by
  rw [Part.Spelled, functionWith.eq_def]
  refine .within _ _ ?_
  split
  · exact .fail _
  · exact (ih _ .functionHead).mono fun _ ho =>
      ⟨(Part.Passes.function _ _ _).operand ho.1, ho.2⟩

theorem spelled_call (hw : Ensures orders (IsWindow orders) window) {name : String} {raw : Json}
    (ih : (Part.call name raw).Below (Part.Spelled orders window)) :
    (Part.call name raw).Spelled orders window := by
  rw [Part.Spelled, callWith.eq_def]
  split
  · exact .fail _
  · split
    · exact .fail _
    · rename_i hf
      refine .bind (ih _ (.callCondition hf)) fun ts hts => ?_
      obtain ⟨φs, hφs, rfl⟩ := hts
      exact .pure ⟨⟨_, .condition hf hφs,
        Operand.reads_condition (Phrase.template_conjunction φs).symm rfl⟩, rfl⟩
    · rename_i f hne hf
      refine .bind (.of_moves (holds_checkArity steps_extends.toClosed _ _)) fun _ _ =>
        .bind (ih _ (.callArguments hf ?_)) fun args hargs => ?_
      · rintro rfl
        exact hne rfl
      · obtain ⟨φs, hφs, htaken⟩ := hargs
        exact ensures_apply hw hf hφs htaken

theorem spelled_arguments {ps : List Parameter} {args : List Json}
    (ih : (Part.arguments ps args).Below (Part.Spelled orders window)) :
    (Part.arguments ps args).Spelled orders window := by
  rw [Part.Spelled, argumentsWith.eq_def]
  split
  · refine .bind (ih _ .argumentsHead) fun o ho => ?_
    obtain ⟨⟨φ, hφ, hreads⟩, -⟩ := ho
    refine .bind (ensures_parameter hreads _) fun o' ho' => ?_
    obtain ⟨φ', hcast, hreads', htakes⟩ := ho'
    refine .bind (ih _ .argumentsTail) fun os hos => ?_
    obtain ⟨φs, hφs, htaken⟩ := hos
    exact .pure ⟨φ' :: φs, .arguments hφ hcast hφs, .cons hreads' htakes htaken⟩
  · rename_i hnone
    refine .pure ⟨[], .noArguments fun p ps v rest hps hargs => ?_, .nil⟩
    subst hps hargs
    exact hnone p ps v rest rfl rfl

theorem spelled_conditions {conds : Json}
    (ih : (Part.conditions conds).Below (Part.Spelled orders window)) :
    (Part.conditions conds).Spelled orders window := by
  rw [Part.Spelled, conditionsWith.eq_def]
  split
  · exact .fail _
  · rename_i h
    exact (ih _ (.conditionsTests h)).mono fun _ => (Part.Passes.conditions h).texts

theorem spelled_tests {fields : Fields}
    (ih : (Part.tests fields).Below (Part.Spelled orders window)) :
    (Part.tests fields).Spelled orders window := by
  rw [Part.Spelled, testsWith.eq_def]
  split
  · exact .pure ⟨[], .noTests, rfl⟩
  · refine .bind (ih _ .testsHead) fun here hhere => .bind (ih _ .testsTail) fun more hmore => ?_
    obtain ⟨φs, hφs, rfl⟩ := hhere
    obtain ⟨ψs, hψs, rfl⟩ := hmore
    exact .pure ⟨φs ++ ψs, .tests hφs hψs, List.map_append.symm⟩

theorem spelled_test {name : String} {v : Json}
    (ih : (Part.test name v).Below (Part.Spelled orders window)) :
    (Part.test name v).Spelled orders window := by
  rw [Part.Spelled, testWith.eq_def]
  split
  · rename_i hand
    split
    · rename_i hv
      exact .pure ⟨[], .noTest (.inl ⟨hand, hv⟩), rfl⟩
    · rename_i hv
      subst hand
      refine .bind (ih _ (.testAnd hv)) fun ts hts => ?_
      obtain ⟨φs, hφs, rfl⟩ := hts
      exact .pure ⟨[.all φs], .all hv hφs, by rw [List.map_singleton, Phrase.template_all]⟩
  · rename_i hand
    split
    · rename_i hor
      split
      · rename_i hv
        exact .pure ⟨[], .noTest (.inr ⟨hor, hv⟩), rfl⟩
      · rename_i hv
        subst hor
        refine .bind (ih _ (.testOr hv)) fun ts hts => ?_
        obtain ⟨φs, hφs, rfl⟩ := hts
        exact .pure ⟨[.any φs], .any hv hφs, by rw [List.map_singleton, Phrase.template_any]⟩
    · rename_i hor
      split
      · exact (ih _ (.testOps hand hor)).mono fun _ => (Part.Passes.ops _ hand hor).texts
      · exact .bind (ih _ (.testOp hand hor)) fun t ht =>
          .pure ((Part.Passes.op _ hand hor).texts ht.single)
      · rename_i harray hobject
        have hv : Part.IsScalar v := ⟨harray, hobject⟩
        exact .bind (.within _ _ (ih _ (.testEq hand hor hv))) fun t ht =>
          .pure ((Part.Passes.eq hand hor hv).texts ht.single)

theorem spelled_ops {field : String} {items : List Json}
    (ih : (Part.ops field items).Below (Part.Spelled orders window)) :
    (Part.ops field items).Spelled orders window := by
  rw [Part.Spelled, opsWith.eq_def]
  split
  · exact .pure ⟨[], .noOps, rfl⟩
  · refine .bind (ih _ .opsHead) fun t ht => .bind (ih _ .opsTail) fun ts hts => ?_
    obtain ⟨φ, hφ, rfl⟩ := ht
    obtain ⟨φs, hφs, rfl⟩ := hts
    exact .pure ⟨φ :: φs, .ops hφ hφs, rfl⟩

theorem spelled_op {field : String} {v : Json}
    (ih : (Part.op field v).Below (Part.Spelled orders window)) :
    (Part.op field v).Spelled orders window := by
  rw [Part.Spelled, opWith.eq_def]
  refine .within _ _ ?_
  split
  · split
    · exact .fail _
    · rename_i hf
      split
      · exact .fail _
      · rename_i ho
        refine (ih _ (.opComparison hf ho)).mono fun t ht => ?_
        obtain ⟨φ, hφ, rfl⟩ := ht
        exact ⟨φ, .pass (.comparison hf ho) hφ, rfl⟩
  · exact .fail _

theorem ensures_equality (mark : Nat) {left right : Operand} {value : Json} {φ ψ : Phrase}
    (hleft : left.sql = φ.template) (hright : right.Reads ψ)
    (hparam : right.param?.isSome = isParameter value) :
    Ensures orders (fun t => ∃ χ, Compares .eq value φ ψ χ ∧ t = χ.template)
      (equality mark left right) := by
  unfold equality
  refine .bind (ensures_cast hright left.type) fun right' hright' => ?_
  obtain ⟨ψ', hcast, hreads⟩ := hright'.reads
  split
  · rename_i hnull
    have hψ' : ψ' = .null := by
      have h := hreads.literal hnull.1
      rw [hnull.2] at h
      exact h
    subst hψ'
    refine .pure ⟨_, .isNull φ ?_ hcast, by rw [hleft]; rfl⟩
    rw [← hparam, Option.isSome_eq_false_iff, Option.isNone_iff_eq_none]
    by_contra hsome
    obtain ⟨ref, href⟩ := Option.ne_none_iff_exists'.mp hsome
    have hliteral := hright'.literal (hright.param ref href).1.1
    rw [hnull.1] at hliteral
    cases hliteral
  · split
    · rename_i hsome
      refine .bind (.of_moves (steps_extends.repeatSitesFrom mark)) fun _ _ =>
        .pure ⟨_, .orNull φ (hparam ▸ hsome) hcast, ?_⟩
      rw [hleft, hreads.sql]
      rfl
    · rename_i hsome
      refine .pure ⟨_, .equal φ (hparam ▸ by simpa using hsome) hcast, ?_⟩
      rw [hleft, hreads.sql]
      rfl

theorem gap_of_comparison {op : Operator} {sign : String} (h : op.comparison? = some sign) :
    ∃ gap, Gap.ofOperator? op = some gap ∧ " " ++ sign ++ " " = gap.text := by
  cases op with
  | gte | lte | gt | lt =>
    cases h
    exact ⟨_, rfl, rfl⟩
  | eq | oneOf | like => cases h

theorem spelled_comparison {field : String} {op : Operator} {value : Json}
    {transform : Option Json}
    (ih : (Part.comparison field op value transform).Below (Part.Spelled orders window)) :
    (Part.comparison field op value transform).Spelled orders window := by
  rw [Part.Spelled, comparisonWith.eq_def]
  refine .bind (.of_moves steps_extends.mark) fun mark _ => .bind (ih _ .comparisonLeft)
    fun left hleft => .bind (ih _ .comparisonValue) fun right hright => ?_
  obtain ⟨φ, hφ, hleft⟩ := hleft
  obtain ⟨⟨ψ, hψ, hright⟩, hparam⟩ := hright
  split
  · rename_i sign hsign
    obtain ⟨gap, hgap, htext⟩ := gap_of_comparison hsign
    refine .bind (ensures_cast hright left.type) fun right' hright' => ?_
    obtain ⟨ψ', hcast, hreads⟩ := hright'.reads
    refine .pure ⟨_, .comparison hφ hψ (.sign φ hgap hcast), ?_⟩
    rw [hleft.sql, hreads.sql, Phrase.template, ← htext]
    simp only [Template.ofString_append, ← Template.append_assoc]
  · split
    · split
      · exact .fail _
      · rename_i items hitems
        split
        · rename_i hempty
          have hempty := List.isEmpty_iff.mp hempty
          subst hempty
          exact .pure ⟨.digits .zero, .never hitems, rfl⟩
        · rename_i hne
          have hne : items ≠ [] := fun e => hne (List.isEmpty_iff.mpr e)
          refine .bind (ih _ (.comparisonElements hitems hne) left.type) fun ts hts => ?_
          obtain ⟨φs, hφs, rfl⟩ := hts
          refine .pure ⟨_, .among hitems hne hφ hψ hφs, ?_⟩
          rw [hleft.sql]
          exact congrArg (fun t : Template => φ.template ++ (" IN " : Template) ++ t.parens)
            (Phrase.template_join .items φs).symm
    · refine .bind (ensures_cast hleft .string) fun left' hleft' =>
        .bind (ensures_cast hright .string) fun right' hright' => ?_
      obtain ⟨φ', hcast, hreads⟩ := hleft'.reads
      obtain ⟨ψ', hcast', hreads'⟩ := hright'.reads
      refine .pure ⟨_, .comparison hφ hψ (.like hcast hcast'), ?_⟩
      rw [hreads.sql, hreads'.sql]
      rfl
    · refine (ensures_equality mark hleft.sql hright hparam).mono fun t ht => ?_
      obtain ⟨χ, hχ, rfl⟩ := ht
      exact ⟨χ, .comparison hφ hψ hχ, rfl⟩
    · exact .fail _

theorem spelled_left {field : String} {transform : Option Json}
    (ih : (Part.left field transform).Below (Part.Spelled orders window)) :
    (Part.left field transform).Spelled orders window := by
  rw [Part.Spelled, leftWith.eq_def]
  split
  · exact (ih _ .leftField).mono fun _ ho => (Part.Passes.leftField _).operand ho.1
  · exact .withField field
      ((ih _ .leftName).mono fun _ ho => (Part.Passes.leftName _ _).operand ho.1)
  · exact .withField field
      ((ih _ .leftCall).mono fun _ ho => (Part.Passes.leftCall _ _).operand ho.1)
  · exact .fail _

theorem spelled_elements {items : List Json}
    (ih : (Part.elements items).Below (Part.Spelled orders window)) :
    (Part.elements items).Spelled orders window := by
  intro type
  rw [elementsWith.eq_def]
  split
  · exact .pure ⟨[], .noElements, rfl⟩
  · rename_i v rest
    have hcast : Ensures orders
        (fun o => ∃ φ φ', Spells orders (.part (.expr v)) [φ] ∧ Recast φ φ' ∧ o.Reads φ')
        (exprWith window v >>= fun o => o.cast type) := by
      refine .bind (ih _ .elementsHead) fun o ho => ?_
      obtain ⟨⟨φ, hφ, hreads⟩, -⟩ := ho
      refine (ensures_cast hreads type).mono fun o' ho' => ?_
      obtain ⟨φ', hcast, hreads'⟩ := ho'.reads
      exact ⟨φ, φ', hφ, hcast, hreads'⟩
    refine .bind (.within _ _ hcast) fun o ho => .bind (ih _ .elementsTail type) fun ts hts => ?_
    obtain ⟨φ, φ', hφ, hcast, hreads⟩ := ho
    obtain ⟨φs, hφs, rfl⟩ := hts
    exact .pure ⟨φ' :: φs, .elements hφ hcast hφs, by rw [List.map_cons, hreads.sql]⟩

theorem spelled_part (hw : Ensures orders (IsWindow orders) window) (p : Part) :
    p.Spelled orders window := by
  induction p using Part.induction with
  | step p ih =>
    cases p with
    | expr => exact spelled_expr ih
    | function => exact spelled_function ih
    | call => exact spelled_call hw ih
    | arguments => exact spelled_arguments ih
    | conditions => exact spelled_conditions ih
    | tests => exact spelled_tests ih
    | test => exact spelled_test ih
    | ops => exact spelled_ops ih
    | op => exact spelled_op ih
    | comparison => exact spelled_comparison ih
    | left => exact spelled_left ih
    | elements => exact spelled_elements ih

end Parts

/-! ## 2. Orders -/

section Orders

variable {orders : List Json} {window : Compile Template}

/-- A text of an order, or of something else. -/
def Origin.Spelled (orders : List Json) (origin : Origin) (t : Template) : Prop :=
  ∃ φ, Spells orders origin [φ] ∧ t = φ.template

theorem ensures_directed {φ : Phrase} {sql : Template} (h : sql = φ.template)
    (direction : Option Json) :
    Ensures orders (fun t => ∃ φ', Directs φ φ' ∧ t = φ'.template) (directed sql direction) := by
  unfold directed
  split
  · exact .pure ⟨φ, .none φ, h⟩
  · exact .pure ⟨φ, .none φ, h⟩
  · split
    · rename_i d hd
      have htext : sql ++ " " ++ d = φ.template ++ ((" " ++ d : String) : Template) := by
        rw [h, Template.ofString_append, Template.append_assoc]
      rw [htext]
      rcases hd with rfl | rfl
      · exact .pure ⟨_, .asc φ, rfl⟩
      · exact .pure ⟨_, .desc φ, rfl⟩
    · exact .fail _
  · exact .fail _

theorem spelled_order (hw : Ensures orders (IsWindow orders) window) (e : Json) :
    Ensures orders (Origin.Spelled orders (.order e)) (orderWith window e) := by
  have hexpr (v : Json) : Ensures orders
      (fun o => o.Spelled orders (.expr v) ∧ o.param?.isSome = isParameter v) (exprWith window v) :=
    spelled_part hw (.expr v)
  have plain {v : Json} (he : orderTasks orders e = [⟨orders, .expr v⟩]) :
      Ensures orders (Origin.Spelled orders (.order e))
        (exprWith window v >>= fun o => pure o.sql) := by
    refine .bind (hexpr v) fun o ho => .pure ?_
    obtain ⟨⟨φ, hφ, hreads⟩, -⟩ := ho
    exact ⟨φ, .order he hφ (.none φ), hreads.sql⟩
  have withDirection {v : Json} (he : orderTasks orders e = [⟨orders, .expr v⟩])
      (direction : Option Json) : Ensures orders (Origin.Spelled orders (.order e))
        (exprWith window v >>= fun o => directed o.sql direction) := by
    refine .bind (hexpr v) fun o ho => ?_
    obtain ⟨⟨φ, hφ, hreads⟩, -⟩ := ho
    refine (ensures_directed hreads.sql direction).mono fun t ht => ?_
    obtain ⟨φ', hφ', rfl⟩ := ht
    exact ⟨φ', .order he hφ hφ', rfl⟩
  unfold orderWith
  split
  · exact plain rfl
  · split
    · exact .fail _
    · rename_i fields name value hfind
      split
      · rename_i hname
        exact withDirection (by simp only [orderTasks, hfind, if_pos hname]) _
      · rename_i hname
        exact withDirection (by simp only [orderTasks, hfind, if_neg hname]) _
  · rename_i hstring hobject
    refine plain ?_
    unfold orderTasks
    split
    · exact absurd rfl (hstring _)
    · exact absurd rfl (hobject _)
    · rfl

theorem spelled_orderByWith (hw : Ensures orders (IsWindow orders) window) (es : List Json) :
    Ensures orders (fun t => ∃ φs, Spells orders (.orders es) φs ∧
      t = (Phrase.join .arguments φs).template) (orderByWith window es) := by
  have hmap : Ensures orders (fun ts => ∃ φs, Spells orders (.orders es) φs ∧
      ts = φs.map Phrase.template) (es.mapM (orderWith window)) := by
    induction es with
    | nil => exact .pure ⟨[], .noOrders, rfl⟩
    | cons e es ih =>
      rw [List.mapM_cons]
      refine .bind (spelled_order hw e) fun t ht => .bind ih fun ts hts => ?_
      obtain ⟨φ, hφ, rfl⟩ := ht
      obtain ⟨φs, hφs, rfl⟩ := hts
      exact .pure ⟨φ :: φs, .orders hφ hφs, rfl⟩
  refine .within _ _ (.bind hmap fun ts hts => .pure ?_)
  obtain ⟨φs, hφs, rfl⟩ := hts
  exact ⟨φs, hφs, (Phrase.template_join .arguments φs).symm⟩

theorem spelled_windowOf (nesting : Nat) :
    Ensures orders (IsWindow orders) (windowOf nesting) := by
  have hnone {s : Scope} (ho : s.orders.getD [] = orders)
      (hs : ∀ o os, s.orders = some (o :: os) → False) : IsWindow orders "" := by
    have horders : orders = [] := by
      rw [← ho]
      cases horders : s.orders with
      | none => rfl
      | some os =>
        cases os with
        | nil => rfl
        | cons o os => exact absurd horders (hs o os)
    exact ⟨.rows, .allRows horders, rfl⟩
  induction nesting with
  | zero =>
    unfold windowOf
    refine .read fun s ho => ?_
    split
    · exact .fail _
    · exact .pure (hnone ho (by assumption))
  | succ nesting ih =>
    unfold windowOf
    refine .read fun s ho => ?_
    split
    · rename_i o os hsome
      have horders : o :: os = orders := by rw [← ho, hsome]; rfl
      rw [horders]
      refine .bind (spelled_orderByWith ih orders) fun t ht => .pure ?_
      obtain ⟨φs, hφs, rfl⟩ := ht
      exact ⟨_, .rows hφs, rfl⟩
    · exact .pure (hnone ho (by assumption))

theorem spelled_window : Ensures orders (IsWindow orders) Sql.window :=
  spelled_windowOf maxNesting

end Orders

/-! ## 3. Entry points -/

section EntryPoints

variable {s : Scope} {l l' : Ledger} (hs : PlainScope IdentChar s) (hl : JoinsOk s l)

include hs hl

theorem spelled_of_compileExpr {e : Json} {o : Operand} (h : (compileExpr e).Yields s l o l') :
    o.Spelled (s.orders.getD []) (.expr e) :=
  (spelled_part spelled_window (.expr e) s l o l' hs rfl hl h).2.1

theorem spelled_of_compileOp {field : String} {op : Json} {t : Template}
    (h : (compileOp field op).Yields s l t l') :
    SpelledText (s.orders.getD []) (.op field op) t :=
  (spelled_part spelled_window (.op field op) s l t l' hs rfl hl h).2

end EntryPoints

/-- The people, before anything is compiled. -/
def peopleScope : Scope := .root people "people" "people" true

theorem plainScope_people : PlainScope IdentChar peopleScope :=
  ⟨plainSchema_people (by decide), by decide⟩

theorem joinsOk_people : JoinsOk peopleScope (.root "people") := Joins.wellFormed_empty

/-- Whether a compilation for the people gives something that passes a check. -/
def peoplePass {α : Type} (m : Compile α) (check : α → Bool) : Bool :=
  match m.outcome peopleScope (.root "people") with
  | (.ok a, _) => check a
  | (.error _, _) => false

theorem yields_of_peoplePass {α : Type} (m : Compile α) (check : α → Bool)
    (h : peoplePass m check = true) :
    ∃ a l', m.Yields peopleScope (.root "people") a l' ∧ check a = true := by
  unfold peoplePass at h
  split at h
  · exact ⟨_, _, ‹_›, h⟩
  · cases h

end QuerySheet.Sql

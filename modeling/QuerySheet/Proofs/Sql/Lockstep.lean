import Mathlib.Data.List.Forall2
import QuerySheet.Proofs.Sql.Nesting

/-!
# Compilations in lockstep

A part may be compiled twice: under two windows, in two scopes, or with two ledgers. Both runs are
put together in the same way, so that they can be compared step by step, even if their results
differ.

* `Likeness` says when results of the two runs are alike. `Likeness.Lawful` asks that what is made
  of them in the same way is alike again;
* `Lockstep`: what a comparison of two compilations must respect. It is then one of all parts
  (`inStep_part`, with one lemma for each kind of part), of orders (`inStep_orderByWith`) and of
  windows (`inStep_windowOf`).
-/

namespace QuerySheet.Sql

/-! ## 1. Alike results -/

/-- The kinds of results that the parts of an expression hand on. -/
inductive Kind where
  | unit
  | operand
  | operands
  | template
  | templates
  /-- A place in the list of bind sites. -/
  | place

@[reducible] def Kind.Carrier : Kind → Type
  | .unit => Unit
  | .operand => Operand
  | .operands => List Operand
  | .template => Template
  | .templates => List Template
  | .place => Nat

structure Likeness where
  operand : Operand → Operand → Prop
  template : Template → Template → Prop
  type : ValueType → ValueType → Prop
  place : Nat → Nat → Prop

namespace Likeness

/-- Lists are alike if their items are, one by one. -/
def rel (L : Likeness) : (k : Kind) → k.Carrier → k.Carrier → Prop
  | .unit => fun _ _ => True
  | .operand => L.operand
  | .operands => List.Forall₂ L.operand
  | .template => L.template
  | .templates => List.Forall₂ L.template
  | .place => L.place

structure Lawful (L : Likeness) : Prop where
  type_refl : ∀ t, L.type t t
  type_of : ∀ {o o'}, L.operand o o' → L.type o.type o'.type
  sql_of : ∀ {o o'}, L.operand o o' → L.template o.sql o'.sql
  fragment : ∀ {t t' type type'}, L.template t t' → L.type type type' →
    L.operand (.fragment t type) (.fragment t' type')
  array : ∀ items, L.operand (.ofArray items) (.ofArray items)
  text : ∀ s : String, L.template s s
  append : ∀ {t t' u u'}, L.template t t' → L.template u u' → L.template (t ++ u) (t' ++ u')

namespace Lawful

variable {L : Likeness} (hL : L.Lawful)

include hL

theorem intercalate (separator : String) {ts ts' : List Template}
    (h : List.Forall₂ L.template ts ts') :
    L.template (.intercalate separator ts) (.intercalate separator ts') := by
  induction h with
  | nil => exact hL.text ""
  | cons ht hrest ih =>
    cases hrest with
    | nil => exact ht
    | cons hu hrest => exact hL.append (hL.append ht (hL.text separator)) ih

theorem parens {t t' : Template} (h : L.template t t') : L.template t.parens t'.parens :=
  hL.append (hL.append (hL.text "(") h) (hL.text ")")

theorem call (name : String) {ts ts' : List Template} (h : List.Forall₂ L.template ts ts') :
    L.template (.call name ts) (.call name ts') :=
  hL.append (hL.text name) (hL.parens (hL.intercalate ", " h))

omit hL in
theorem isEmpty {ts ts' : List Template} (h : List.Forall₂ L.template ts ts') :
    ts.isEmpty = ts'.isEmpty := by
  cases h <;> rfl

/-- Predicates that are joined, or a constant if there are none. -/
theorem joined (empty : String) {ts ts' : List Template} {t t' : Template}
    (h : List.Forall₂ L.template ts ts') (ht : L.template t t') :
    L.template (if ts.isEmpty then (empty : Template) else t)
      (if ts'.isEmpty then (empty : Template) else t') := by
  rw [isEmpty h]
  split
  · exact hL.text empty
  · exact ht

theorem all {ts ts' : List Template} (h : List.Forall₂ L.template ts ts') :
    L.template (Condition.all ts) (Condition.all ts') :=
  hL.joined "1" h (hL.parens (hL.intercalate _ h))

theorem any {ts ts' : List Template} (h : List.Forall₂ L.template ts ts') :
    L.template (Condition.any ts) (Condition.any ts') :=
  hL.joined "0" h (hL.parens (hL.intercalate _ h))

theorem sqls {os os' : List Operand} (h : List.Forall₂ L.operand os os') :
    List.Forall₂ L.template (os.map (·.sql)) (os'.map (·.sql)) := by
  induction h with
  | nil => exact .nil
  | cons ho _ ih => exact .cons (hL.sql_of ho) ih

end Lawful

end Likeness

/-! ## 2. Comparisons -/

/-- A comparison of two compilations that are put together in the same way. It has to respect the
    ways to put them together, and the steps that look at results or at the ledger. A failure for
    an endless window is no step of a part. -/
structure Lockstep (L : Likeness) (Named : String → Prop)
    (P : (k : Kind) → Compile k.Carrier → Compile k.Carrier → Prop) : Prop
    extends L.Lawful where
  pure : ∀ {k : Kind} {a a' : k.Carrier}, L.rel k a a' → P k (Pure.pure a) (Pure.pure a')
  fail : ∀ {k : Kind} (cause : CompileError.Cause), cause ≠ .endlessWindow →
    P k (Compile.fail cause) (Compile.fail cause)
  /-- A list was wanted and there is another operand. -/
  mistyped : ∀ {k : Kind} {type type' : ValueType}, L.type type type' →
    P k (Compile.fail (.cannotConvert type .array)) (Compile.fail (.cannotConvert type' .array))
  bind : ∀ {k k' : Kind} {m m' : Compile k.Carrier} {f f' : k.Carrier → Compile k'.Carrier},
    P k m m' → (∀ a a', L.rel k a a' → P k' (f a) (f' a')) → P k' (m >>= f) (m' >>= f')
  within : ∀ {k : Kind} (kind : FrameKind) (args : List Json) {m m' : Compile k.Carrier},
    P k m m' → P k (Compile.within kind args m) (Compile.within kind args m')
  withField : ∀ {k : Kind} {field : String} {m m' : Compile k.Carrier}, Named field → P k m m' →
    P k (Sql.withField field m) (Sql.withField field m')
  mark : P .place Compile.mark Compile.mark
  compileText : ∀ {s : String}, (Part.expr (.string s)).NamesHere Named →
    P .operand (Sql.compileText s) (Sql.compileText s)
  scalar : ∀ v, P .operand (Operand.ofScalar v) (Operand.ofScalar v)
  cast : ∀ {o o' : Operand} {type type' : ValueType}, L.operand o o' → L.type type type' →
    P .operand (o.cast type) (o'.cast type')
  literal : ∀ {o o' : Operand}, L.operand o o' →
    P .operand (if o.literal then Pure.pure o else Compile.fail .notALiteral)
      (if o'.literal then Pure.pure o' else Compile.fail .notALiteral)
  equality : ∀ {mark mark' : Nat} {left left' right right' : Operand}, L.place mark mark' →
    L.operand left left' → L.operand right right' →
    P .template (Sql.equality mark left right) (Sql.equality mark' left' right')

variable {L : Likeness} {Named : String → Prop}
  {P : (k : Kind) → Compile k.Carrier → Compile k.Carrier → Prop}
  {window window' : Compile Template}

section Steps

variable (hP : Lockstep L Named P)

include hP

theorem inStep_admitted (p : Parameter) {o o' : Operand} (ho : L.operand o o') :
    P .operand ( p.admit o) ( p.admit o') := by
  cases p with
  | any => exact hP.pure ho
  | castable type =>
    exact hP.bind (k := .operand) (hP.cast ho (hP.type_refl type)) fun _ _ _ => hP.pure ho
  | cast type => exact hP.cast ho (hP.type_refl type)

theorem inStep_checkArity (f : Function) (count : Nat) :
    P .unit (f.checkArity count) (f.checkArity count) := by
  unfold Function.checkArity
  dsimp only
  split
  · exact hP.fail _ (by simp)
  · exact hP.pure trivial

/-- One list has the items that a function wants if the other one has. -/
theorem inStep_apply (f : Function) (hw : f = .sumOver → P .template window window')
    {args args' : List Operand} (h : List.Forall₂ L.operand args args') :
    P .operand (f.apply args window) (f.apply args' window') := by
  have hone {a a' : Operand} (ha : L.operand a a') (name : String) :
      L.template (.call name [a.sql]) (.call name [a'.sql]) :=
    hP.call name (.cons (hP.sql_of ha) .nil)
  have hwrong (hlen : args.length = args'.length) : P .operand
      (Compile.fail (.arity f.name (toString f.arity.1) args.length))
      (Compile.fail (.arity f.name (toString f.arity.1) args'.length)) := by
    rw [hlen]
    exact hP.fail _ (by simp)
  have hlen := h.length_eq
  by_cases hsubstr : f = .substr
  · subst hsubstr
    exact hP.pure (hP.fragment (hP.call _ (hP.sqls h)) (hP.type_refl _))
  match h with
  | .nil => cases f <;> first | exact hwrong hlen | exact absurd rfl hsubstr
  | .cons ha .nil =>
    cases f with
    | sum => exact hP.pure (hP.fragment (hone ha _) (hP.type_of ha))
    | sumOver =>
      refine hP.bind (k := .template) (hw rfl) fun t t' ht => hP.pure ?_
      exact hP.fragment (hP.parens (hP.append (hP.append (hone ha _) (hP.text _))
        (hP.parens (hP.append ht (hP.text _))))) (hP.type_of ha)
    | count => exact hP.pure (hP.fragment (hone ha _) (hP.type_refl _))
    | substr => exact absurd rfl hsubstr
    | lower => exact hP.pure (hP.fragment (hone ha _) (hP.type_refl _))
    | neg =>
      exact hP.pure (hP.fragment (hP.parens (hP.append (hP.text "-") (hP.sql_of ha)))
        (hP.type_of ha))
    | abs => exact hP.pure (hP.fragment (hone ha _) (hP.type_of ha))
    | idiv => exact hwrong hlen
    | month => exact hP.pure ha
    | year => exact hP.pure ha
    | condition => exact hwrong hlen
    | nocase => exact hP.pure (hP.fragment (hP.append (hP.sql_of ha) (hP.text _)) (hP.type_refl _))
    | literal => exact hP.literal ha
  | .cons ha (.cons hb .nil) =>
    cases f with
    | idiv =>
      exact hP.pure (hP.fragment (hP.parens
        (hP.append (hP.append (hP.sql_of ha) (hP.text " / ")) (hP.sql_of hb))) (hP.type_of ha))
    | substr => exact absurd rfl hsubstr
    | _ => exact hwrong hlen
  | .cons _ (.cons _ (.cons _ _)) =>
    cases f <;> first | exact hwrong hlen | exact absurd rfl hsubstr

end Steps

/-! ## 3. Parts -/

/-- The compilations of a part under two windows compare. -/
def Part.InStep (L : Likeness) (P : (k : Kind) → Compile k.Carrier → Compile k.Carrier → Prop)
    (window window' : Compile Template) : Part → Prop
  | .expr e => P .operand (exprWith window e) (exprWith window' e)
  | .function fields => P .operand (functionWith window fields) (functionWith window' fields)
  | .call name raw => P .operand (callWith window name raw) (callWith window' name raw)
  | .arguments ps args => P .operands (argumentsWith window ps args) (argumentsWith window' ps args)
  | .conditions conds => P .templates (conditionsWith window conds) (conditionsWith window' conds)
  | .tests fields => P .templates (testsWith window fields) (testsWith window' fields)
  | .test name v => P .templates (testWith window name v) (testWith window' name v)
  | .ops field items => P .templates (opsWith window field items) (opsWith window' field items)
  | .op field v => P .template (opWith window field v) (opWith window' field v)
  | .comparison field operator value transform =>
    P .template (comparisonWith window field operator value transform)
      (comparisonWith window' field operator value transform)
  | .left field transform =>
    P .operand (leftWith window field transform) (leftWith window' field transform)
  | .elements items => ∀ type type', L.type type type' →
    P .templates (elementsWith window type items) (elementsWith window' type' items)

/-- What is no condition is refused with its text. -/
theorem itemsTests_error {items : List Json} {cause : CompileError.Cause}
    (h : Condition.itemsTests items = .error cause) : ∃ text, cause = .invalidCondition text := by
  induction items with
  | nil => cases h
  | cons v rest ih =>
    unfold Condition.itemsTests at h
    split at h
    · exact ih h
    · split at h
      · cases hrest : Condition.itemsTests rest with
        | ok gs =>
          rw [hrest] at h
          cases h
        | error e =>
          rw [hrest] at h
          cases h
          exact ih hrest
      · cases h
        exact ⟨_, rfl⟩

theorem tests_error {conds : Json} {cause : CompileError.Cause}
    (h : Condition.tests conds = .error cause) : ∃ text, cause = .invalidCondition text := by
  unfold Condition.tests at h
  split at h
  · cases h
  · exact itemsTests_error h
  · split at h
    · cases h
    · cases h
      exact ⟨_, rfl⟩

section Parts

variable (hP : Lockstep L Named P)

include hP

theorem inStep_expr {e : Json} (hnames : (Part.expr e).NamesHere Named)
    (ih : (Part.expr e).Below (Part.InStep L P window window')) :
    (Part.expr e).InStep L P window window' := by
  rw [Part.InStep, exprWith.eq_def window, exprWith.eq_def window']
  refine hP.within _ _ ?_
  split
  · exact hP.compileText hnames
  · exact hP.pure (hP.array _)
  · exact ih _ .exprObject
  · exact hP.scalar _

theorem inStep_function {fields : Fields}
    (ih : (Part.function fields).Below (Part.InStep L P window window')) :
    (Part.function fields).InStep L P window window' := by
  rw [Part.InStep, functionWith.eq_def window, functionWith.eq_def window']
  refine hP.within _ _ ?_
  split
  · exact hP.fail _ (by simp)
  · exact ih _ .functionHead

theorem inStep_call {name : String} {raw : Json}
    (hw : (Part.call name raw).IsWindow → P .template window window')
    (ih : (Part.call name raw).Below (Part.InStep L P window window')) :
    (Part.call name raw).InStep L P window window' := by
  rw [Part.InStep, callWith.eq_def window, callWith.eq_def window']
  split
  · exact hP.fail _ (by simp)
  · split
    · exact hP.fail _ (by simp)
    · rename_i hf
      refine hP.bind (k := .templates) (ih _ (.callCondition hf)) fun ts ts' hts => hP.pure ?_
      exact hP.fragment (hP.joined "1" hts (hP.intercalate _ hts)) (hP.type_refl _)
    · rename_i f hne hf
      refine hP.bind (k := .unit) (inStep_checkArity hP f _) fun _ _ _ =>
        hP.bind (k := .operands) (ih _ (.callArguments hf ?_)) fun args args' hargs =>
          inStep_apply hP f (fun e => hw ⟨name, raw, rfl, e ▸ hf⟩) hargs
      rintro rfl
      exact hne rfl

theorem inStep_arguments {ps : List Parameter} {args : List Json}
    (ih : (Part.arguments ps args).Below (Part.InStep L P window window')) :
    (Part.arguments ps args).InStep L P window window' := by
  rw [Part.InStep, argumentsWith.eq_def window, argumentsWith.eq_def window']
  split
  · refine hP.bind (k := .operand) (ih _ .argumentsHead) fun o o' ho =>
      hP.bind (k := .operand) (inStep_admitted hP _ ho) fun _ _ hadmitted =>
        hP.bind (k := .operands) (ih _ .argumentsTail) fun _ _ hrest => hP.pure ?_
    exact .cons hadmitted hrest
  · exact hP.pure .nil

theorem inStep_conditions {conds : Json}
    (ih : (Part.conditions conds).Below (Part.InStep L P window window')) :
    (Part.conditions conds).InStep L P window window' := by
  rw [Part.InStep, conditionsWith.eq_def window, conditionsWith.eq_def window']
  split
  · rename_i h
    obtain ⟨text, rfl⟩ := tests_error h
    exact hP.fail _ (by simp)
  · rename_i h
    exact ih _ (.conditionsTests h)

theorem inStep_tests {fields : Fields}
    (ih : (Part.tests fields).Below (Part.InStep L P window window')) :
    (Part.tests fields).InStep L P window window' := by
  rw [Part.InStep, testsWith.eq_def window, testsWith.eq_def window']
  split
  · exact hP.pure .nil
  · exact hP.bind (k := .templates) (ih _ .testsHead) fun _ _ hhere =>
      hP.bind (k := .templates) (ih _ .testsTail) fun _ _ hrest =>
        hP.pure (List.rel_append hhere hrest)

theorem inStep_test {name : String} {v : Json}
    (ih : (Part.test name v).Below (Part.InStep L P window window')) :
    (Part.test name v).InStep L P window window' := by
  rw [Part.InStep, testWith.eq_def window, testWith.eq_def window']
  split
  · rename_i hand
    subst hand
    split
    · exact hP.pure .nil
    · rename_i hv
      exact hP.bind (k := .templates) (ih _ (.testAnd hv)) fun _ _ h =>
        hP.pure (.cons (hP.all h) .nil)
  · rename_i hand
    split
    · rename_i hor
      subst hor
      split
      · exact hP.pure .nil
      · rename_i hv
        exact hP.bind (k := .templates) (ih _ (.testOr hv)) fun _ _ h =>
          hP.pure (.cons (hP.any h) .nil)
    · rename_i hor
      split
      · exact ih _ (.testOps hand hor)
      · exact hP.bind (k := .template) (ih _ (.testOp hand hor)) fun _ _ h =>
          hP.pure (.cons h .nil)
      · rename_i harray hobject
        exact hP.bind (k := .template) (hP.within _ _ (ih _ (.testEq hand hor ⟨harray, hobject⟩)))
          fun _ _ h => hP.pure (.cons h .nil)

theorem inStep_ops {field : String} {items : List Json}
    (ih : (Part.ops field items).Below (Part.InStep L P window window')) :
    (Part.ops field items).InStep L P window window' := by
  rw [Part.InStep, opsWith.eq_def window, opsWith.eq_def window']
  split
  · exact hP.pure .nil
  · exact hP.bind (k := .template) (ih _ .opsHead) fun _ _ hhere =>
      hP.bind (k := .templates) (ih _ .opsTail) fun _ _ hrest => hP.pure (.cons hhere hrest)

theorem inStep_op {field : String} {v : Json}
    (ih : (Part.op field v).Below (Part.InStep L P window window')) :
    (Part.op field v).InStep L P window window' := by
  rw [Part.InStep, opWith.eq_def window, opWith.eq_def window']
  refine hP.within _ _ ?_
  split
  · split
    · exact hP.fail _ (by simp)
    · rename_i hf
      split
      · exact hP.fail _ (by simp)
      · rename_i ho
        exact ih _ (.opComparison hf ho)
  · exact hP.fail _ (by simp)

theorem inStep_comparison {field : String} {op : Operator} {value : Json}
    {transform : Option Json}
    (ih : (Part.comparison field op value transform).Below (Part.InStep L P window window')) :
    (Part.comparison field op value transform).InStep L P window window' := by
  have hbetween {t t' u u' : Template} (sign : String) (ht : L.template t t')
      (hu : L.template u u') :
      L.template (t ++ (sign : Template) ++ u) (t' ++ (sign : Template) ++ u') :=
    hP.append (hP.append ht (hP.text sign)) hu
  rw [Part.InStep, comparisonWith.eq_def window, comparisonWith.eq_def window']
  refine hP.bind (k := .place) hP.mark fun mark mark' hmark =>
    hP.bind (k := .operand) (ih _ .comparisonLeft) fun left left' hleft =>
      hP.bind (k := .operand) (ih _ .comparisonValue) fun right right' hright => ?_
  split
  · refine hP.bind (k := .operand) (hP.cast hright (hP.type_of hleft)) fun _ _ h => hP.pure ?_
    exact hP.append (hP.append (hP.append (hP.append (hP.sql_of hleft) (hP.text _)) (hP.text _))
      (hP.text _)) (hP.sql_of h)
  · split
    · split
      · exact hP.mistyped (hP.type_of hright)
      · rename_i items h
        split
        · exact hP.pure (hP.text "0")
        · rename_i hne
          refine hP.bind (k := .templates)
            (ih _ (.comparisonElements h ?_) _ _ (hP.type_of hleft)) fun _ _ h => hP.pure ?_
          · rintro rfl
            exact hne rfl
          · exact hbetween _ (hP.sql_of hleft) (hP.parens (hP.intercalate "," h))
    · exact hP.bind (k := .operand) (hP.cast hleft (hP.type_refl _)) fun _ _ hl =>
        hP.bind (k := .operand) (hP.cast hright (hP.type_refl _)) fun _ _ hr =>
          hP.pure (hbetween _ (hP.sql_of hl) (hP.sql_of hr))
    · exact hP.equality hmark hleft hright
    · exact hP.fail _ (by simp)

theorem inStep_left {field : String} {transform : Option Json} (hfield : Named field)
    (ih : (Part.left field transform).Below (Part.InStep L P window window')) :
    (Part.left field transform).InStep L P window window' := by
  rw [Part.InStep, leftWith.eq_def window, leftWith.eq_def window']
  split
  · exact ih _ .leftField
  · exact hP.withField hfield (ih _ .leftName)
  · exact hP.withField hfield (ih _ .leftCall)
  · exact hP.fail _ (by simp)

theorem inStep_elements {items : List Json}
    (ih : (Part.elements items).Below (Part.InStep L P window window')) :
    (Part.elements items).InStep L P window window' := by
  intro type type' htype
  rw [elementsWith.eq_def window, elementsWith.eq_def window']
  split
  · exact hP.pure .nil
  · refine hP.bind (k := .operand) (hP.within _ _ (hP.bind (k := .operand) (ih _ .elementsHead)
      fun _ _ ho => hP.cast ho htype)) fun _ _ ho =>
        hP.bind (k := .templates) (ih _ .elementsTail type type' htype) fun _ _ hrest => hP.pure ?_
    exact .cons (hP.sql_of ho) hrest

/-- A part that holds no running sum does not look at its window. -/
theorem inStep_part (p : Part) (hp : p.Names Named) (hw : p.Sums → P .template window window') :
    p.InStep L P window window' := by
  induction p using Part.induction with
  | step p ih =>
    have ih : p.Below (Part.InStep L P window window') :=
      fun q hq => ih q hq (hp.call hq) fun hsums => hw (hsums.of_call hq)
    cases p with
    | expr => exact inStep_expr hP hp.here ih
    | function => exact inStep_function hP ih
    | call => exact inStep_call hP (fun hwindow => hw hwindow.sums) ih
    | arguments => exact inStep_arguments hP ih
    | conditions => exact inStep_conditions hP ih
    | tests => exact inStep_tests hP ih
    | test => exact inStep_test hP ih
    | ops => exact inStep_ops hP ih
    | op => exact inStep_op hP ih
    | comparison => exact inStep_comparison hP ih
    | left => exact inStep_left hP hp.here ih
    | elements => exact inStep_elements hP ih

end Parts

/-! ## 4. Orders -/

section Orders

variable (hP : Lockstep L Part.AnyName P)

include hP

theorem inStep_directed {sql sql' : Template} (h : L.template sql sql') (direction : Option Json) :
    P .template (directed sql direction) (directed sql' direction) := by
  unfold directed
  split
  · exact hP.pure h
  · exact hP.pure h
  · split
    · exact hP.pure (hP.append (hP.append h (hP.text _)) (hP.text _))
    · exact hP.fail _ (by simp)
  · exact hP.fail _ (by simp)

theorem inStep_order (e : Json) (hw : OrderSums e → P .template window window') :
    P .template (orderWith window e) (orderWith window' e) := by
  have hexpr (v : Json) (hv : orderTasks [] e = [⟨[], .expr v⟩]) :
      P .operand (exprWith window v) (exprWith window' v) :=
    inStep_part hP (.expr v) (Part.names_any _) fun hsums =>
      hw ⟨_, hv ▸ List.mem_singleton_self _, hsums⟩
  unfold orderTasks at hexpr
  unfold orderWith
  split
  · exact hP.bind (k := .operand) (hexpr _ rfl) fun _ _ h => hP.pure (hP.sql_of h)
  · split
    · exact hP.fail _ (by simp)
    · rename_i hfind
      simp only [hfind] at hexpr
      split
      · rename_i hname
        exact hP.bind (k := .operand) (hexpr _ (if_pos hname)) fun _ _ h =>
          inStep_directed hP (hP.sql_of h) _
      · rename_i hname
        exact hP.bind (k := .operand) (hexpr _ (if_neg hname)) fun _ _ h =>
          inStep_directed hP (hP.sql_of h) _
  · rename_i hstring hobject
    refine hP.bind (k := .operand) (hexpr _ ?_) fun _ _ h => hP.pure (hP.sql_of h)
    split
    · exact absurd rfl (hstring _)
    · exact absurd rfl (hobject _)
    · rfl

theorem inStep_mapM {f f' : Json → Compile Template} (xs : List Json)
    (hf : ∀ x ∈ xs, P .template (f x) (f' x)) : P .templates (xs.mapM f) (xs.mapM f') := by
  induction xs with
  | nil => exact hP.pure .nil
  | cons x xs ih =>
    rw [List.mapM_cons, List.mapM_cons]
    exact hP.bind (k := .template) (hf x List.mem_cons_self) fun _ _ h =>
      hP.bind (k := .templates) (ih fun x hx => hf x (List.mem_cons_of_mem _ hx)) fun _ _ hrest =>
        hP.pure (.cons h hrest)

theorem inStep_orderByWith (orders : List Json)
    (hw : OrdersSum orders → P .template window window') :
    P .template (orderByWith window orders) (orderByWith window' orders) :=
  hP.within _ _ <| hP.bind (k := .templates)
    (inStep_mapM hP orders fun e he => inStep_order hP e fun hsums => hw ⟨e, he, hsums⟩)
    fun _ _ h => hP.pure (hP.intercalate ", " h)

theorem inStep_rowsWith (orders : List Json)
    (hw : OrdersSum orders → P .template window window') :
    P .template (rowsWith window orders) (rowsWith window' orders) := by
  unfold rowsWith
  split
  · exact hP.pure (hP.text "")
  · exact hP.bind (k := .template) (inStep_orderByWith hP _ hw) fun _ _ h => hP.pure
      (hP.append (hP.append (hP.text "ORDER BY ") h) (hP.text " "))

end Orders

/-! ## 5. Windows -/

/-- Two compilations compare if they have the outcomes of two that do, whatever orders are in
    scope. -/
def ByOrders (P : (k : Kind) → Compile k.Carrier → Compile k.Carrier → Prop) : Prop :=
  ∀ {k : Kind} {m m' : Compile k.Carrier}, (∀ orders, ∃ n n' : Compile k.Carrier, P k n n' ∧
    ∀ s l, s.orders = orders → m.outcome s l = n.outcome s l ∧ m'.outcome s l = n'.outcome s l) →
      P k m m'

section Windows

variable (hP : Lockstep L Part.AnyName P) (horders : ByOrders P)

include hP horders

theorem inStep_windowOf_succ {n n' : Nat} (hw : P .template (windowOf n) (windowOf n')) :
    P .template (windowOf (n + 1)) (windowOf (n' + 1)) := by
  refine horders fun orders => ?_
  cases orders with
  | none =>
    exact ⟨_, _, hP.pure (hP.text ""), fun s l hs =>
      ⟨outcome_windowOf_none hs _, outcome_windowOf_none hs _⟩⟩
  | some orders =>
    exact ⟨_, _, inStep_rowsWith hP orders fun _ => hw, fun s l hs =>
      ⟨outcome_windowOf_succ hs _, outcome_windowOf_succ hs _⟩⟩

theorem inStep_windowOf
    (hend : P .template (Compile.fail .endlessWindow) (Compile.fail .endlessWindow))
    (nesting : Nat) : P .template (windowOf nesting) (windowOf nesting) := by
  induction nesting with
  | zero =>
    refine horders fun orders => ?_
    have hnone : P .template (pure "") (pure "") := hP.pure (hP.text "")
    rcases orders with _ | _ | ⟨o, orders⟩
    · exact ⟨_, _, hnone, fun s l hs => by rw [outcome_windowOf, hs]; exact ⟨rfl, rfl⟩⟩
    · exact ⟨_, _, hnone, fun s l hs => by rw [outcome_windowOf, hs]; exact ⟨rfl, rfl⟩⟩
    · exact ⟨_, _, hend, fun s l hs => by rw [outcome_windowOf, hs]; exact ⟨rfl, rfl⟩⟩
  | succ nesting ih => exact inStep_windowOf_succ hP horders ih

end Windows

end QuerySheet.Sql

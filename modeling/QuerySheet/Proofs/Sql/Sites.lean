import QuerySheet.Proofs.Sql.Holes
import QuerySheet.Proofs.Sql.Steps

/-!
# The sites of a part

* `Part.Fills`: whenever a part compiles, the sites that it adds are those of its task (`Adds`);
* `fills_part`: every part does this, if the text that orders a running sum does. There is one
  lemma for each kind of part, which takes what it calls for granted;
* `fills_windowOf`, `fills_orderByWith`: so do the orders, however deep they are nested.
-/

namespace QuerySheet.Sql

variable {s : Scope} {l l' : Ledger}

/-! ## 1. Texts and calls -/

/-- The orders that a running sum goes by; none outside of a select list. -/
def Scope.ordering (s : Scope) : List Json := s.orders.getD []

/-- The text that orders a running sum adds the sites of the orders in scope. -/
def WindowFills (window : Compile Template) : Prop :=
  ∀ s l t l', window.Yields s l t l' → Adds (windowTasks s.ordering) l l' t.holes

theorem compileText_fills {text : String} {o : Operand} {orders : List Json}
    (h : (compileText text).Yields s l o l') :
    o.Filled ∧ Adds [⟨orders, .expr (.string text)⟩] l l' o.holes := by
  have hexpands : Task.Expands ⟨orders, .expr (.string text)⟩ [] := Task.expands_expr (by nofun)
  have hdrop : ¬ Task.DropsHere ⟨orders, .expr (.string text)⟩ := by nofun
  unfold compileText at h
  split at h
  · rename_i name htext
    obtain ⟨hrefs, sql, type, rfl, hholes⟩ := (compileField_reads _ s l).yields h
    refine ⟨filled_fragment sql type, ?_⟩
    rw [holes_fragment, hholes]
    refine .leaf hrefs hexpands ?_ hdrop
    rintro ⟨c, rest, hc⟩
    rw [htext] at hc
    simp at hc
  · rename_i c name htext
    obtain ⟨ref, l₁, hpush, hparam⟩ := Compile.yields_bind.mp h
    obtain ⟨rfl, rfl⟩ := Compile.yields_pure.mp hparam
    exact ⟨fun hliteral => (by cases hliteral), [ref], refs_pushSite hpush,
      .one ref hexpands ⟨c, name, htext⟩ hdrop⟩
  · rename_i hdollar hcolon
    obtain ⟨hfilled, hholes, hrefs⟩ := ofScalar_reads h
    rw [hholes]
    refine ⟨hfilled, .leaf hrefs hexpands ?_ hdrop⟩
    rintro ⟨c, rest, hc⟩
    exact hcolon c rest hc

/-- The holes of operands, one after the other. -/
def operandHoles (os : List Operand) : List ParamRef := os.flatMap Operand.holes

/-- A call writes its arguments in order, and the orders of a running sum behind them. -/
theorem apply_fills {window : Compile Template} (hw : WindowFills window) {f : Function}
    {args : List Operand} {o : Operand} (hargs : ∀ a ∈ args, a.Filled)
    (h : (f.apply args window).Yields s l o l') :
    o.Filled ∧ ∃ holes, o.holes = operandHoles args ++ holes ∧
      Adds (if f = .sumOver then windowTasks s.ordering else []) l l' holes := by
  have plain {o' : Operand} (hf : f ≠ .sumOver) (hfilled : o'.Filled)
      (hholes : o'.holes = operandHoles args)
      (h : (pure o' : Compile Operand).Yields s l o l') : o.Filled ∧ ∃ holes,
        o.holes = operandHoles args ++ holes ∧
          Adds (if f = .sumOver then windowTasks s.ordering else []) l l' holes := by
    obtain ⟨rfl, rfl⟩ := Compile.yields_pure.mp h
    refine ⟨hfilled, [], by rw [hholes, List.append_nil], ?_⟩
    rw [if_neg hf]
    exact .of_refs rfl
  have written {sql : Template} {type : ValueType} (hf : f ≠ .sumOver)
      (hholes : sql.holes = operandHoles args)
      (h : (pure (Operand.fragment sql type) : Compile Operand).Yields s l o l') :
      o.Filled ∧ ∃ holes, o.holes = operandHoles args ++ holes ∧
        Adds (if f = .sumOver then windowTasks s.ordering else []) l l' holes :=
    plain hf (filled_fragment _ _) hholes h
  unfold Function.apply at h
  split at h
  · exact written (by decide) (by simp [operandHoles, Operand.holes]) h
  · rename_i a
    obtain ⟨rows, l₁, hrows, hsum⟩ := Compile.yields_bind.mp h
    obtain ⟨rfl, rfl⟩ := Compile.yields_pure.mp hsum
    refine ⟨filled_fragment _ _, rows.holes, ?_, ?_⟩
    · simp [operandHoles, Operand.holes, Operand.fragment]
    · rw [if_pos rfl]
      exact hw s l rows l' hrows
  · exact written (by decide) (by simp [operandHoles, Operand.holes]) h
  · exact written (by decide) (by rw [Template.holes_call, List.flatMap_map]; rfl) h
  · exact written (by decide) (by simp [operandHoles, Operand.holes]) h
  · exact written (by decide) (by simp [operandHoles, Operand.holes]) h
  · exact written (by decide) (by simp [operandHoles, Operand.holes]) h
  · exact written (by decide) (by simp [operandHoles, Operand.holes]) h
  · exact plain (by decide) (hargs _ List.mem_cons_self) (by simp [operandHoles]) h
  · exact plain (by decide) (hargs _ List.mem_cons_self) (by simp [operandHoles]) h
  · exact written (by decide) (by simp [operandHoles, Operand.holes]) h
  · split at h
    · exact plain (by decide) (hargs _ List.mem_cons_self) (by simp [operandHoles]) h
    · exact absurd h Compile.yields_fail
  · exact absurd h Compile.yields_fail

/-- The sites since a ledger once more, for a text that is written twice. -/
theorem Adds.repeat {tasks : List Task} {l₁ : Ledger} {holes : List ParamRef}
    (h : Adds tasks l l₁ holes)
    (hrepeat : (Compile.repeatSitesFrom l.sites.length).Yields s l₁ () l') :
    Adds tasks l l' (holes ++ holes) := by
  obtain ⟨recorded, hl₁, htally⟩ := h
  refine ⟨recorded ++ recorded, ?_, htally.twice⟩
  have hlength : l.refs.length = l.sites.length := List.length_map _
  rw [Compile.yields_modify.mp hrepeat]
  show (l₁.sites ++ l₁.sites.drop l.sites.length).map Site.ref = _
  rw [List.map_append, List.map_drop]
  show l₁.refs ++ l₁.refs.drop l.sites.length = _
  rw [hl₁, ← hlength, List.drop_left, List.append_assoc]

/-- An equality writes both sides, twice if the right one is a parameter. -/
theorem equality_fills {tasks : List Task} {left right : Operand} {t : Template} {l₁ : Ledger}
    (h : Adds tasks l l₁ (left.holes ++ right.holes)) (hright : right.Filled)
    (hequality : (equality l.sites.length left right).Yields s l₁ t l') :
    Adds tasks l l' t.holes := by
  unfold equality at hequality
  obtain ⟨right', l₂, hcast, hrest⟩ := Compile.yields_bind.mp hequality
  obtain ⟨hfilled, hholes, hrefs⟩ := keeps_cast hright left.type s l₁ right' l₂ hcast
  have h₂ : Adds tasks l l₂ (left.holes ++ right'.holes) := by
    rw [hholes]
    exact h.keep hrefs
  split at hrest
  · rename_i hnull
    obtain ⟨rfl, rfl⟩ := Compile.yields_pure.mp hrest
    rw [hfilled hnull.1] at h₂
    simpa [Operand.holes] using h₂
  · split at hrest
    · obtain ⟨_, l₃, hrepeat, htext⟩ := Compile.yields_bind.mp hrest
      obtain ⟨rfl, rfl⟩ := Compile.yields_pure.mp htext
      simpa [Operand.holes] using h₂.repeat hrepeat
    · obtain ⟨rfl, rfl⟩ := Compile.yields_pure.mp hrest
      simpa [Operand.holes] using h₂

/-! ## 2. Parts -/

/-- The sites that a part adds are those of its task. -/
def Fills {α : Type} (p : Part) (m : Compile α) (good : α → Prop) (holes : α → List ParamRef) :
    Prop :=
  ∀ s l a l', m.Yields s l a l' → good a ∧ Adds [⟨s.ordering, p⟩] l l' (holes a)

/-- The holes of texts, one after the other. -/
def textHoles (ts : List Template) : List ParamRef := ts.flatMap Template.holes

def Part.Fills (window : Compile Template) (p : Part) : Prop :=
  match p with
  | .expr e => Sql.Fills p (exprWith window e) Operand.Filled Operand.holes
  | .function fields => Sql.Fills p (functionWith window fields) Operand.Filled Operand.holes
  | .call name raw => Sql.Fills p (callWith window name raw) Operand.Filled Operand.holes
  | .arguments ps args =>
    Sql.Fills p (argumentsWith window ps args) (fun os => ∀ o ∈ os, o.Filled) operandHoles
  | .conditions conds => Sql.Fills p (conditionsWith window conds) (fun _ => True) textHoles
  | .tests fields => Sql.Fills p (testsWith window fields) (fun _ => True) textHoles
  | .test name v => Sql.Fills p (testWith window name v) (fun _ => True) textHoles
  | .ops field items => Sql.Fills p (opsWith window field items) (fun _ => True) textHoles
  | .op field v => Sql.Fills p (opWith window field v) (fun _ => True) Template.holes
  | .comparison field operator value transform =>
    Sql.Fills p (comparisonWith window field operator value transform) (fun _ => True)
      Template.holes
  | .left field transform =>
    Sql.Fills p (leftWith window field transform) Operand.Filled Operand.holes
  | .elements items => ∀ type,
    Sql.Fills p (elementsWith window type items) (fun _ => True) textHoles

theorem holes_all (ts : List Template) : (Condition.all ts).holes = textHoles ts := by
  unfold Condition.all
  split
  · rename_i hempty
    rw [List.isEmpty_iff.mp hempty]
    rfl
  · simp [textHoles]

theorem holes_any (ts : List Template) : (Condition.any ts).holes = textHoles ts := by
  unfold Condition.any
  split
  · rename_i hempty
    rw [List.isEmpty_iff.mp hempty]
    rfl
  · simp [textHoles]

/-- A comparison with no value at all leaves out its left side. -/
theorem adds_empty {orders : List Json} {field : String} {value : Json} {transform : Option Json}
    {l₁ : Ledger} {left right : List ParamRef} (hempty : literalItems? value = some [])
    (hleft : Adds [⟨orders, .left field transform⟩] l l₁ left)
    (hvalue : Adds [⟨orders, .expr value⟩] l₁ l' right) :
    Adds [⟨orders, .comparison field .oneOf value transform⟩] l l' [] := by
  -- What the left side recorded stays, but none of its holes is written.
  obtain ⟨recorded, hl₁, htally⟩ := hleft
  obtain ⟨none, hl', hnone⟩ := hvalue
  have hbinds : ¬ Task.Binds ⟨orders, .expr value⟩ := Task.not_binds_of_literalItems hempty
  have hnil : none = [] := hnone.none_iff.mpr fun t ht => List.mem_singleton.mp ht ▸ hbinds
  subst hnil
  have hvalue : ¬ Task.Drops ⟨orders, .expr value⟩ := hnone.not_drops.2 _ List.mem_cons_self
  have hexpands : Task.Expands ⟨orders, .comparison field .oneOf value transform⟩ _ :=
    Task.expands_comparison fun items _ hitems => by
      rw [hempty] at hitems
      exact (Option.some.inj hitems).symm
  have hleft : recorded = [] ↔ ¬ Task.Binds ⟨orders, .left field transform⟩ := by
    rw [htally.none_iff, List.forall_mem_singleton]
  refine ⟨recorded, by rw [hl', hl₁, List.append_nil], List.nil_sublist _, ?_, ?_⟩
  · rw [List.forall_mem_singleton, Task.Drops, Task.some_iff hexpands, eq_comm, hleft]
    constructor
    · intro hno hdrops
      have hrecorded : recorded = [] := hleft.mpr hno
      subst hrecorded
      rcases hdrops with ⟨-, hbind⟩ | ⟨t, ht, hdrops⟩
      · exact hno hbind
      · simp only [List.mem_cons, List.not_mem_nil, or_false] at ht
        rcases ht with rfl | rfl
        · exact htally.not_drops.2 _ List.mem_cons_self hdrops
        · exact hvalue hdrops
    · exact fun hno hbind => hno (.inl ⟨hempty, hbind⟩)
  · rw [List.forall_mem_singleton, Task.Binds, Task.some_iff hexpands, hleft]
    constructor
    · rintro hno (hbind | ⟨t, ht, hbind⟩)
      · exact hbind
      · simp only [List.mem_cons, List.not_mem_nil, or_false] at ht
        rcases ht with rfl | rfl
        · exact hno hbind
        · exact hbinds hbind
    · exact fun hno hbind => hno (.inr ⟨_, List.mem_cons_self, hbind⟩)

/-- A comparison with a list writes its items in place of the list. -/
theorem adds_items {orders : List Json} {field : String} {value : Json} {transform : Option Json}
    {items : List Json} {l₁ l₂ : Ledger} {left right parts : List ParamRef}
    (hitems : literalItems? value = some items) (hne : items ≠ [])
    (hleft : Adds [⟨orders, .left field transform⟩] l l₁ left)
    (hvalue : Adds [⟨orders, .expr value⟩] l₁ l₂ right)
    (hparts : Adds [⟨orders, .elements (Condition.distinct items)⟩] l₂ l' parts) :
    Adds [⟨orders, .comparison field .oneOf value transform⟩] l l' (left ++ parts) := by
  have hnone : right = [] := hvalue.holes_of_not_binds fun t ht =>
    List.mem_singleton.mp ht ▸ Task.not_binds_of_literalItems hitems
  have hall := (hleft.append hvalue).append hparts
  rw [hnone, List.append_nil] at hall
  exact hall.expand (Task.expands_oneOf hitems hne) not_false
    (Task.not_dropsHere_of_items hitems hne)

theorem yields_mark {mark : Nat} (h : Compile.mark.Yields s l mark l') :
    mark = l.sites.length ∧ l' = l := by
  unfold Compile.mark at h
  simp only [Compile.yields_bind, Compile.yields_get, Compile.yields_pure] at h
  obtain ⟨_, _, ⟨rfl, rfl⟩, rfl, rfl⟩ := h
  exact ⟨rfl, rfl⟩

section Parts

variable {window : Compile Template}

theorem fills_expr {e : Json}
    (ih : (Part.expr e).Below (Part.Fills window)) :
    (Part.expr e).Fills window := by
  intro s l o l' h
  rw [exprWith.eq_def, Compile.yields_within] at h
  split at h
  · exact compileText_fills h
  · obtain ⟨rfl, rfl⟩ := Compile.yields_pure.mp h
    exact ⟨fun _ => rfl, .leaf rfl (Task.expands_expr fun _ he => by cases he) not_false not_false⟩
  · obtain ⟨hfilled, hadds⟩ := ih _ .exprObject _ l o l' h
    exact ⟨hfilled, hadds.expand Task.expands_object not_false not_false⟩
  · rename_i hstring _ hobject
    obtain ⟨hfilled, hholes, hrefs⟩ := ofScalar_reads h
    rw [hholes]
    refine ⟨hfilled, .leaf hrefs (Task.expands_expr fun fields => hobject fields) ?_ not_false⟩
    intro hbind
    unfold Task.BindsHere at hbind
    split at hbind
    · rename_i text hpart
      cases hpart
      exact hstring _ rfl
    · exact hbind

theorem fills_function {fields : Fields}
    (ih : (Part.function fields).Below (Part.Fills window)) :
    (Part.function fields).Fills window := by
  intro s l o l' h
  rw [functionWith.eq_def, Compile.yields_within] at h
  split at h
  · exact absurd h Compile.yields_fail
  · obtain ⟨hfilled, hadds⟩ := ih _ .functionHead _ l o l' h
    exact ⟨hfilled, hadds.expand Task.expands_function not_false not_false⟩

theorem fills_call (hw : WindowFills window) {name : String} {raw : Json}
    (ih : (Part.call name raw).Below (Part.Fills window)) :
    (Part.call name raw).Fills window := by
  intro s l o l' h
  rw [callWith.eq_def] at h
  split at h
  · exact absurd h Compile.yields_fail
  · split at h
    · exact absurd h Compile.yields_fail
    · rename_i hf
      obtain ⟨ts, l₁, hconditions, hfragment⟩ := Compile.yields_bind.mp h
      obtain ⟨rfl, rfl⟩ := Compile.yields_pure.mp hfragment
      obtain ⟨-, hadds⟩ := ih _ (.callCondition hf) s l ts l' hconditions
      refine ⟨filled_fragment _ _, ?_⟩
      have hholes :
          (if ts.isEmpty then (Template.ofString "1") else .intercalate " AND " ts).holes =
            textHoles ts := by
        split
        · rename_i hempty
          rw [List.isEmpty_iff.mp hempty]
          rfl
        · simp [textHoles]
      rw [holes_fragment, hholes]
      exact hadds.expand (Task.expands_condition hf) not_false not_false
    · rename_i f hne hf
      have hne : f ≠ .condition := by
        rintro rfl
        exact hne rfl
      obtain ⟨_, l₁, harity, hrest⟩ := Compile.yields_bind.mp h
      obtain ⟨args, l₂, hargs, happly⟩ := Compile.yields_bind.mp hrest
      obtain ⟨hfilled, hadds⟩ := ih _ (.callArguments hf hne) s l₁ args l₂ hargs
      obtain ⟨hfilled', holes, hholes, hwindow⟩ := apply_fills hw hfilled happly
      have hquiet : Quiet (f.checkArity (arguments raw).length) :=
        holds_checkArity trace_refs.closed _ _
      have hboth := (Adds.of_refs (hquiet.refs harity)).append (hadds.append hwindow)
      refine ⟨hfilled', ?_⟩
      rw [hholes]
      exact hboth.expand (Task.expands_call hf hne) not_false not_false

theorem fills_arguments {ps : List Parameter} {args : List Json}
    (ih : (Part.arguments ps args).Below (Part.Fills window)) :
    (Part.arguments ps args).Fills window := by
  intro s l os l' h
  rw [argumentsWith.eq_def] at h
  split at h
  · obtain ⟨o, l₁, hexpr, hrest⟩ := Compile.yields_bind.mp h
    obtain ⟨o', l₂, hadmit, hrest⟩ := Compile.yields_bind.mp hrest
    obtain ⟨more, l₃, hmore, hpure⟩ := Compile.yields_bind.mp hrest
    obtain ⟨rfl, rfl⟩ := Compile.yields_pure.mp hpure
    obtain ⟨hfilled, hadds⟩ := ih _ .argumentsHead s l o l₁ hexpr
    obtain ⟨hfilled', hholes, hrefs⟩ := keeps_argument hfilled _ s l₁ o' l₂ hadmit
    obtain ⟨hfilleds, hadds'⟩ := ih _ .argumentsTail s l₂ more l' hmore
    refine ⟨fun a ha => (List.mem_cons.mp ha).elim (fun e => e ▸ hfilled') (hfilleds a), ?_⟩
    have hhead : Adds _ l l₂ o'.holes := hholes ▸ hadds.keep hrefs
    exact (hhead.append hadds').expand Task.expands_arguments not_false not_false
  · rename_i hnone
    obtain ⟨rfl, rfl⟩ := Compile.yields_pure.mp h
    exact ⟨fun a ha => absurd ha List.not_mem_nil,
      .leaf rfl (Task.expands_arguments_none hnone) not_false not_false⟩

theorem fills_conditions {conds : Json}
    (ih : (Part.conditions conds).Below (Part.Fills window)) :
    (Part.conditions conds).Fills window := by
  intro s l ts l' h
  rw [conditionsWith.eq_def] at h
  split at h
  · exact absurd h Compile.yields_fail
  · rename_i htests
    obtain ⟨-, hadds⟩ := ih _ (.conditionsTests htests) s l ts l' h
    exact ⟨trivial, hadds.expand (Task.expands_conditions htests) not_false not_false⟩

theorem fills_tests {fields : Fields}
    (ih : (Part.tests fields).Below (Part.Fills window)) :
    (Part.tests fields).Fills window := by
  intro s l ts l' h
  rw [testsWith.eq_def] at h
  split at h
  · obtain ⟨rfl, rfl⟩ := Compile.yields_pure.mp h
    exact ⟨trivial, .leaf rfl Task.expands_tests_nil not_false not_false⟩
  · obtain ⟨here, l₁, hhere, hrest⟩ := Compile.yields_bind.mp h
    obtain ⟨more, l₂, hmore, hpure⟩ := Compile.yields_bind.mp hrest
    obtain ⟨rfl, rfl⟩ := Compile.yields_pure.mp hpure
    obtain ⟨-, hadds⟩ := ih _ .testsHead s l here l₁ hhere
    obtain ⟨-, hadds'⟩ := ih _ .testsTail s l₁ more l' hmore
    refine ⟨trivial, ?_⟩
    rw [textHoles, List.flatMap_append]
    exact (hadds.append hadds').expand Task.expands_tests not_false not_false

theorem fills_test {name : String} {v : Json}
    (ih : (Part.test name v).Below (Part.Fills window)) :
    (Part.test name v).Fills window := by
  intro s l ts l' h
  rw [testWith.eq_def] at h
  split at h
  · rename_i hand
    split at h
    · rename_i hv
      obtain ⟨rfl, rfl⟩ := Compile.yields_pure.mp h
      exact ⟨trivial,
        .leaf rfl (Task.expands_test_none (.inl ⟨hand, hv⟩)) not_false not_false⟩
    · rename_i hv
      obtain ⟨parts, l₁, hconditions, hpure⟩ := Compile.yields_bind.mp h
      obtain ⟨rfl, rfl⟩ := Compile.yields_pure.mp hpure
      have hcalls : (Part.test name v).Calls (.conditions v) := hand ▸ .testAnd hv
      obtain ⟨-, hadds⟩ := ih _ hcalls s l parts l' hconditions
      rw [textHoles, List.flatMap_singleton, holes_all]
      exact ⟨trivial, hadds.expand (Task.expands_and hand hv) not_false not_false⟩
  · rename_i hand
    split at h
    · rename_i hor
      split at h
      · rename_i hv
        obtain ⟨rfl, rfl⟩ := Compile.yields_pure.mp h
        exact ⟨trivial,
          .leaf rfl (Task.expands_test_none (.inr ⟨hor, hv⟩)) not_false not_false⟩
      · rename_i hv
        obtain ⟨parts, l₁, hconditions, hpure⟩ := Compile.yields_bind.mp h
        obtain ⟨rfl, rfl⟩ := Compile.yields_pure.mp hpure
        have hcalls : (Part.test name v).Calls (.conditions v) := hor ▸ .testOr hv
        obtain ⟨-, hadds⟩ := ih _ hcalls s l parts l' hconditions
        rw [textHoles, List.flatMap_singleton, holes_any]
        exact ⟨trivial, hadds.expand (Task.expands_or hor hv) not_false not_false⟩
    · rename_i hor
      split at h
      · obtain ⟨-, hadds⟩ := ih _ (.testOps hand hor) s l ts l' h
        exact ⟨trivial, hadds.expand (Task.expands_testOps hand hor) not_false not_false⟩
      · obtain ⟨t, l₁, ht, hpure⟩ := Compile.yields_bind.mp h
        obtain ⟨rfl, rfl⟩ := Compile.yields_pure.mp hpure
        obtain ⟨-, hadds⟩ := ih _ (.testOp hand hor) s l t l' ht
        rw [textHoles, List.flatMap_singleton]
        exact ⟨trivial, hadds.expand (Task.expands_testOp hand hor) not_false not_false⟩
      · rename_i harray hobject
        obtain ⟨t, l₁, ht, hpure⟩ := Compile.yields_bind.mp h
        obtain ⟨rfl, rfl⟩ := Compile.yields_pure.mp hpure
        rw [Compile.yields_within] at ht
        obtain ⟨-, hadds⟩ := ih _ (.testEq hand hor ⟨harray, hobject⟩) _ l t l' ht
        rw [textHoles, List.flatMap_singleton]
        exact ⟨trivial,
          hadds.expand (Task.expands_testEq hand hor ⟨harray, hobject⟩) not_false not_false⟩

theorem fills_ops {field : String} {items : List Json}
    (ih : (Part.ops field items).Below (Part.Fills window)) :
    (Part.ops field items).Fills window := by
  intro s l ts l' h
  rw [opsWith.eq_def] at h
  split at h
  · obtain ⟨rfl, rfl⟩ := Compile.yields_pure.mp h
    exact ⟨trivial, .leaf rfl Task.expands_ops_nil not_false not_false⟩
  · obtain ⟨t, l₁, ht, hrest⟩ := Compile.yields_bind.mp h
    obtain ⟨more, l₂, hmore, hpure⟩ := Compile.yields_bind.mp hrest
    obtain ⟨rfl, rfl⟩ := Compile.yields_pure.mp hpure
    obtain ⟨-, hadds⟩ := ih _ .opsHead s l t l₁ ht
    obtain ⟨-, hadds'⟩ := ih _ .opsTail s l₁ more l' hmore
    exact ⟨trivial, (hadds.append hadds').expand Task.expands_ops not_false not_false⟩

theorem fills_op {field : String} {v : Json}
    (ih : (Part.op field v).Below (Part.Fills window)) :
    (Part.op field v).Fills window := by
  intro s l t l' h
  rw [opWith.eq_def, Compile.yields_within] at h
  split at h
  · split at h
    · exact absurd h Compile.yields_fail
    · rename_i hf
      split at h
      · exact absurd h Compile.yields_fail
      · rename_i ho
        obtain ⟨-, hadds⟩ := ih _ (.opComparison hf ho) _ l t l' h
        exact ⟨trivial, hadds.expand (Task.expands_op hf ho) not_false not_false⟩
  · exact absurd h Compile.yields_fail

theorem fills_comparison {field : String} {op : Operator} {value : Json}
    {transform : Option Json}
    (ih : (Part.comparison field op value transform).Below (Part.Fills window)) :
    (Part.comparison field op value transform).Fills window := by
  intro s l t l' h
  rw [comparisonWith.eq_def] at h
  obtain ⟨mark, l₀, hmark, h⟩ := Compile.yields_bind.mp h
  obtain ⟨left, l₁, hleft, h⟩ := Compile.yields_bind.mp h
  obtain ⟨right, l₂, hright, h⟩ := Compile.yields_bind.mp h
  obtain ⟨rfl, rfl⟩ := yields_mark hmark
  obtain ⟨hfilled, hadds⟩ := ih _ .comparisonLeft s l₀ left l₁ hleft
  obtain ⟨hfilled', hadds'⟩ := ih _ .comparisonValue s l₁ right l₂ hright
  have hboth := hadds.append hadds'
  have hother (hop : op ≠ .oneOf) {holes : List ParamRef}
      (h : Adds [⟨s.ordering, .left field transform⟩, ⟨s.ordering, .expr value⟩] l₀ l' holes) :
      Adds [⟨s.ordering, .comparison field op value transform⟩] l₀ l' holes :=
    h.expand (Task.expands_comparison fun _ h => absurd h hop) not_false
      (Task.not_dropsHere_of_ne hop)
  refine ⟨trivial, ?_⟩
  split at h
  · rename_i sign hsign
    have hop : op ≠ .oneOf := by
      rintro rfl
      cases hsign
    obtain ⟨right', l₃, hcast, hpure⟩ := Compile.yields_bind.mp h
    obtain ⟨rfl, rfl⟩ := Compile.yields_pure.mp hpure
    obtain ⟨-, hholes, hrefs⟩ := keeps_cast hfilled' left.type s l₂ right' l' hcast
    refine hother hop ?_
    have hall := hboth.keep hrefs
    rw [← hholes] at hall
    simpa [Operand.holes] using hall
  · split at h
    · split at h
      · exact absurd h Compile.yields_fail
      · rename_i items hitems
        split at h
        · rename_i hempty
          obtain ⟨rfl, rfl⟩ := Compile.yields_pure.mp h
          rw [List.isEmpty_iff.mp hempty] at hitems
          exact adds_empty hitems hadds hadds'
        · rename_i hne
          have hne : items ≠ [] := fun e => hne (List.isEmpty_iff.mpr e)
          obtain ⟨parts, l₃, hparts, hpure⟩ := Compile.yields_bind.mp h
          obtain ⟨rfl, rfl⟩ := Compile.yields_pure.mp hpure
          obtain ⟨-, hadds''⟩ :=
            ih _ (.comparisonElements hitems hne) left.type s l₂ parts l' hparts
          have hholes : (left.sql ++ Template.ofString " IN " ++
              (Template.intercalate "," parts).parens).holes = left.holes ++ textHoles parts := by
            simp [Operand.holes, textHoles]
          rw [hholes]
          exact adds_items hitems hne hadds hadds' hadds''
    · obtain ⟨left', l₃, hcast, h⟩ := Compile.yields_bind.mp h
      obtain ⟨right', l₄, hcast', hpure⟩ := Compile.yields_bind.mp h
      obtain ⟨rfl, rfl⟩ := Compile.yields_pure.mp hpure
      obtain ⟨-, hholes, hrefs⟩ := keeps_cast hfilled .string s l₂ left' l₃ hcast
      obtain ⟨-, hholes', hrefs'⟩ := keeps_cast hfilled' .string s l₃ right' l' hcast'
      refine hother (by decide) ?_
      have hall := hboth.keep (hrefs'.trans hrefs)
      rw [← hholes, ← hholes'] at hall
      simpa [Operand.holes] using hall
    · exact hother (by decide) (equality_fills hboth hfilled' h)
    · exact absurd h Compile.yields_fail

theorem fills_left {field : String} {transform : Option Json}
    (ih : (Part.left field transform).Below (Part.Fills window)) :
    (Part.left field transform).Fills window := by
  intro s l o l' h
  rw [leftWith.eq_def] at h
  split at h
  · obtain ⟨hfilled, hadds⟩ := ih _ .leftField s l o l' h
    exact ⟨hfilled, hadds.expand Task.expands_left_field not_false not_false⟩
  · obtain ⟨hfilled, hadds⟩ := ih _ .leftName _ l o l' h
    exact ⟨hfilled, hadds.expand Task.expands_left_name not_false not_false⟩
  · obtain ⟨hfilled, hadds⟩ := ih _ .leftCall _ l o l' h
    exact ⟨hfilled, hadds.expand Task.expands_left_call not_false not_false⟩
  · exact absurd h Compile.yields_fail

theorem fills_elements {items : List Json}
    (ih : (Part.elements items).Below (Part.Fills window)) :
    (Part.elements items).Fills window := by
  intro type s l ts l' h
  rw [elementsWith.eq_def] at h
  split at h
  · obtain ⟨rfl, rfl⟩ := Compile.yields_pure.mp h
    exact ⟨trivial, .leaf rfl Task.expands_elements_nil not_false not_false⟩
  · obtain ⟨o, l₁, hvalue, hrest⟩ := Compile.yields_bind.mp h
    obtain ⟨more, l₂, hmore, hpure⟩ := Compile.yields_bind.mp hrest
    obtain ⟨rfl, rfl⟩ := Compile.yields_pure.mp hpure
    rw [Compile.yields_within] at hvalue
    obtain ⟨o', l₀, hexpr, hcast⟩ := Compile.yields_bind.mp hvalue
    obtain ⟨hfilled, hadds⟩ := ih _ .elementsHead _ l o' l₀ hexpr
    obtain ⟨-, hholes, hrefs⟩ := keeps_cast hfilled type _ l₀ o l₁ hcast
    obtain ⟨-, hadds'⟩ := ih _ .elementsTail type s l₁ more l' hmore
    have hhead : Adds _ l l₁ o.holes := hholes ▸ hadds.keep hrefs
    exact ⟨trivial, (hhead.append hadds').expand Task.expands_elements not_false not_false⟩

theorem fills_part (hw : WindowFills window) (p : Part) : p.Fills window := by
  induction p using Part.induction with
  | step p ih =>
    cases p with
    | expr => exact fills_expr ih
    | function => exact fills_function ih
    | call => exact fills_call hw ih
    | arguments => exact fills_arguments ih
    | conditions => exact fills_conditions ih
    | tests => exact fills_tests ih
    | test => exact fills_test ih
    | ops => exact fills_ops ih
    | op => exact fills_op ih
    | comparison => exact fills_comparison ih
    | left => exact fills_left ih
    | elements => exact fills_elements ih

end Parts

/-! ## 3. Orders -/

/-- One after the other, compilations add their sites. -/
theorem adds_mapM {α β : Type} {f : α → Compile β} {tasks : α → List Task}
    {holes : β → List ParamRef} {xs : List α} {ys : List β}
    (hf : ∀ x ∈ xs, ∀ l y l', (f x).Yields s l y l' → Adds (tasks x) l l' (holes y))
    (h : (xs.mapM f).Yields s l ys l') : Adds (xs.flatMap tasks) l l' (ys.flatMap holes) := by
  induction xs generalizing l ys with
  | nil =>
    obtain ⟨rfl, rfl⟩ := Compile.yields_pure.mp h
    exact .of_refs rfl
  | cons x xs ih =>
    rw [List.mapM_cons] at h
    obtain ⟨y, l₁, hy, hrest⟩ := Compile.yields_bind.mp h
    obtain ⟨more, l₂, hmore, hpure⟩ := Compile.yields_bind.mp hrest
    obtain ⟨rfl, rfl⟩ := Compile.yields_pure.mp hpure
    have hhead := hf x List.mem_cons_self l y l₁ hy
    have htail := ih (fun x hx => hf x (List.mem_cons_of_mem _ hx)) hmore
    exact hhead.append htail

theorem yields_directed {sql t : Template} {direction : Option Json}
    (h : (directed sql direction).Yields s l t l') : t.holes = sql.holes ∧ l' = l := by
  unfold directed at h
  split at h
  · obtain ⟨rfl, rfl⟩ := Compile.yields_pure.mp h
    exact ⟨rfl, rfl⟩
  · obtain ⟨rfl, rfl⟩ := Compile.yields_pure.mp h
    exact ⟨rfl, rfl⟩
  · split at h
    · obtain ⟨rfl, rfl⟩ := Compile.yields_pure.mp h
      exact ⟨by simp, rfl⟩
    · exact absurd h Compile.yields_fail
  · exact absurd h Compile.yields_fail

section Orders

variable {window : Compile Template} (hw : WindowFills window)

include hw

theorem fills_order {e : Json} {t : Template} (h : (orderWith window e).Yields s l t l') :
    Adds (orderTasks s.ordering e) l l' t.holes := by
  have hexpr {e : Json} {o : Operand} {l' : Ledger} (h : (exprWith window e).Yields s l o l') :
      Adds [⟨s.ordering, .expr e⟩] l l' o.holes :=
    (fills_part hw (.expr e) s l o l' h).2
  have hother {e : Json} (h : (do return (← exprWith window e).sql).Yields s l t l') :
      Adds [⟨s.ordering, .expr e⟩] l l' t.holes := by
    obtain ⟨o, l₁, ho, hpure⟩ := Compile.yields_bind.mp h
    obtain ⟨rfl, rfl⟩ := Compile.yields_pure.mp hpure
    exact hexpr ho
  unfold orderWith at h
  unfold orderTasks
  cases e with
  | string field => exact hother h
  | object fields =>
    dsimp only at h ⊢
    cases hfind : fields.find? (·.1 ≠ directionKey) with
    | none =>
      rw [hfind] at h
      exact absurd h Compile.yields_fail
    | some entry =>
      rw [hfind] at h
      dsimp only at h ⊢
      by_cases hdollar : hasDollar entry.1 = true
      · rw [if_pos hdollar] at h ⊢
        obtain ⟨o, l₁, ho, hdirected⟩ := Compile.yields_bind.mp h
        obtain ⟨hholes, rfl⟩ := yields_directed hdirected
        rw [hholes]
        exact hexpr ho
      · rw [if_neg hdollar] at h ⊢
        obtain ⟨o, l₁, ho, hdirected⟩ := Compile.yields_bind.mp h
        obtain ⟨hholes, rfl⟩ := yields_directed hdirected
        rw [hholes]
        exact hexpr ho
  | null | bool | number | array => exact hother h

theorem fills_orderByWith {orders : List Json} {t : Template}
    (h : (orderByWith window orders).Yields s l t l') :
    Adds (orders.flatMap (orderTasks s.ordering)) l l' t.holes := by
  unfold orderByWith at h
  rw [Compile.yields_within] at h
  obtain ⟨ts, l₁, hts, hpure⟩ := Compile.yields_bind.mp h
  obtain ⟨rfl, rfl⟩ := Compile.yields_pure.mp hpure
  rw [Template.holes_intercalate]
  refine adds_mapM (fun e _ l t l' ht => ?_) hts
  -- The frame of the orders is no part of what they compile.
  have hadds := fills_order hw ht
  exact hadds

end Orders

/-- Without orders the text is empty; else they are compiled, and the nesting is one less in
    them. -/
theorem yields_windowOf {nesting : Nat} {t : Template} (h : (windowOf nesting).Yields s l t l') :
    s.ordering = [] ∧ t.holes = [] ∧ l' = l ∨ ∃ inner body, nesting = inner + 1 ∧
      (orderByWith (windowOf inner) s.ordering).Yields s l body l' ∧ t.holes = body.holes := by
  unfold windowOf at h
  obtain ⟨_, _, hread, hrest⟩ := Compile.yields_bind.mp h
  obtain ⟨rfl, rfl⟩ := Compile.yields_read.mp hread
  unfold Scope.ordering
  split at hrest
  · rename_i o orders horders
    rw [horders]
    split at hrest
    · exact absurd hrest Compile.yields_fail
    · rename_i inner
      obtain ⟨body, l₁, hbody, hpure⟩ := Compile.yields_bind.mp hrest
      obtain ⟨rfl, rfl⟩ := Compile.yields_pure.mp hpure
      exact .inr ⟨inner, body, rfl, hbody, by simp⟩
  · rename_i hnone
    obtain ⟨rfl, rfl⟩ := Compile.yields_pure.mp hrest
    refine .inl ⟨?_, rfl, rfl⟩
    cases horders : Scope.orders _ with
    | none => rfl
    | some orders =>
      cases orders with
      | nil => rfl
      | cons o orders => exact absurd horders (hnone o orders)

/-- The orders of a running sum add their sites, however deep running sums are nested in them. -/
theorem fills_windowOf (nesting : Nat) : WindowFills (windowOf nesting) := by
  -- Orders are compiled with the nesting below, so what they add is known of that one.
  induction nesting with
  | zero =>
    intro s l t l' h
    rcases yields_windowOf h with ⟨hnone, hholes, rfl⟩ | ⟨inner, body, hinner, -, -⟩
    · rw [hnone, hholes]
      exact .of_refs rfl
    · cases hinner
  | succ nesting ih =>
    intro s l t l' h
    rcases yields_windowOf h with ⟨hnone, hholes, rfl⟩ | ⟨inner, body, hinner, hbody, hholes⟩
    · rw [hnone, hholes]
      exact .of_refs rfl
    · cases hinner
      rw [hholes]
      exact fills_orderByWith ih hbody

theorem fills_window : WindowFills window := fills_windowOf maxNesting

end QuerySheet.Sql

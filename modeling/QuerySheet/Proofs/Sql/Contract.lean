import QuerySheet.Proofs.Sql.Steps

/-!
# Contracts of compilations

A `Contract` says what every compilation of a part owes: an invariant of the ledger, a relation
along which the ledger moves, what holds of the operands that are handed on, and what holds of the
errors that are raised. `Contract.Meets` is the promise of one compilation, with its own
postconditions for results and for errors.

* `Contract.Lawful` asks the contract of the steps that touch the ledger, and of the causes that
  depend on where they are raised. All other causes are `Plain`;
* `meets_part`: then every part meets it (one lemma for each kind of part), and so do orders and
  windows;
* a call is refused for its number of arguments before any of them is compiled (`Miscalled`); a
  function that is called has the arguments it looks at (`meets_apply`).
-/

namespace QuerySheet

/-- A cause that says the same wherever it is raised. The others depend on the tables and joins
    that are known, on a call, or on the name of an operator. -/
def CompileError.Cause.Plain : CompileError.Cause → Prop
  | .unknownTable _ | .pathTableMissing _ | .missingParentPath _ | .arity _ _ _
  | .unknownOperator _ => False
  | _ => True

namespace Sql

/-- The cause for which a call is refused whose number of arguments does not fit. -/
def Miscalled (name : String) (raw : Json) (cause : CompileError.Cause) : Prop :=
  ∃ f, Function.ofName? name = some f ∧
    ∀ s l, (f.checkArity (arguments raw).length).Fails s l cause

/-! ## 1. Contracts -/

structure Contract where
  /-- What holds of the ledger before and after. -/
  inv : Scope → Ledger → Prop
  /-- How the ledger before is related to the one after. -/
  grows : Ledger → Ledger → Prop
  /-- What holds of an operand from the ledger on with which it was compiled. -/
  operand : Operand → Ledger → Prop
  error : CompileError → Prop

variable {C : Contract} {α β : Type} {m : Compile α} {f : α → Compile β} {s : Scope}
  {l l' : Ledger} {Q Q' : α → Ledger → Prop} {E E' : CompileError → Prop}

namespace Contract

/-- From a ledger with the invariant a compilation leaves one that has it and has grown, with a
    result for which `Q` holds or an error for which `E` holds. -/
def Meets (C : Contract) (m : Compile α) (Q : α → Ledger → Prop) (E : CompileError → Prop)
    (s : Scope) (l : Ledger) : Prop :=
  C.inv s l → match m.outcome s l with
    | (.ok a, l') => C.inv s l' ∧ C.grows l l' ∧ Q a l'
    | (.error e, l') => C.inv s l' ∧ C.grows l l' ∧ E e

/-- In every scope and with every ledger the errors are those of the contract. -/
def Gives (C : Contract) (m : Compile α) (Q : α → Ledger → Prop) : Prop :=
  ∀ s l, C.Meets m Q C.error s l

/-- Nothing is said of the result. -/
def Runs (C : Contract) (m : Compile α) : Prop := C.Gives m fun _ _ => True

namespace Meets

/-- What is owed, by how the run ends. -/
theorem ends (h : C.Meets m Q E s l) (hl : C.inv s l) :
    (∃ a l', m.outcome s l = (.ok a, l') ∧ C.inv s l' ∧ C.grows l l' ∧ Q a l') ∨
      ∃ e l', m.outcome s l = (.error e, l') ∧ C.inv s l' ∧ C.grows l l' ∧ E e := by
  have h := h hl
  rcases hm : m.outcome s l with ⟨e | a, l'⟩
  · rw [hm] at h
    exact .inr ⟨e, l', rfl, h⟩
  · rw [hm] at h
    exact .inl ⟨a, l', rfl, h⟩

theorem mono (h : C.Meets m Q E s l) (hQ : ∀ a l', Q a l' → Q' a l') (hE : ∀ e, E e → E' e) :
    C.Meets m Q' E' s l := by
  intro hl
  rcases h.ends hl with ⟨a, l', hm, hl', hgrows, ha⟩ | ⟨e, l', hm, hl', hgrows, he⟩
  · rw [hm]
    exact ⟨hl', hgrows, hQ a l' ha⟩
  · rw [hm]
    exact ⟨hl', hgrows, hE e he⟩

theorem of_error {e : CompileError} (h : C.Meets m Q E s l) (hl : C.inv s l)
    (hm : m.outcome s l = (.error e, l')) : C.inv s l' ∧ C.grows l l' ∧ E e := by
  have h := h hl
  rw [hm] at h
  exact h

/-- What is owed of the ledger in both cases. -/
theorem ledger (h : C.Meets m Q E s l) (hl : C.inv s l) :
    C.inv s (m.outcome s l).2 ∧ C.grows l (m.outcome s l).2 := by
  rcases h.ends hl with ⟨a, l', hm, hl', hgrows, -⟩ | ⟨e, l', hm, hl', hgrows, -⟩
  · rw [hm]
    exact ⟨hl', hgrows⟩
  · rw [hm]
    exact ⟨hl', hgrows⟩

end Meets

theorem meets_modify {g : Ledger → Ledger} {Q : Unit → Ledger → Prop}
    (h : C.inv s l → C.inv s (g l) ∧ C.grows l (g l) ∧ Q () (g l)) :
    C.Meets (modify g : Compile Unit) Q E s l :=
  h

theorem meets_read {f : Scope → Compile β} {Q : β → Ledger → Prop} (h : C.Meets (f s) Q E s l) :
    C.Meets (read >>= f) Q E s l :=
  h

theorem meets_get {f : Ledger → Compile β} {Q : β → Ledger → Prop} (h : C.Meets (f l) Q E s l) :
    C.Meets (get >>= f) Q E s l :=
  h

/-- The errors of a call: its number of arguments may be refused. -/
def errorOf (C : Contract) (name : String) (raw : Json) (e : CompileError) : Prop :=
  C.error e ∨ ∃ cause, e = .ofCause cause ∧ Miscalled name raw cause

structure Lawful (C : Contract) : Prop where
  refl : ∀ l, C.grows l l
  trans : ∀ {l₁ l₂ l₃}, C.grows l₁ l₂ → C.grows l₂ l₃ → C.grows l₁ l₃
  /-- Of the scope only the schema and the table count. -/
  rescope : ∀ {s l} (s' : Scope), s'.schema = s.schema → s'.table = s.table →
    s'.label = s.label → C.inv s l → C.inv s' l
  lasting : ∀ {o l l'}, C.grows l l' → C.operand o l → C.operand o l'
  /-- What is asked of operands is asked of parameters. -/
  text : ∀ {o l}, o.param? = none → C.operand o l
  plain : ∀ {cause}, cause.Plain → C.error (.ofCause cause)
  unknownOperator : ∀ {name}, Operator.ofName? name = none →
    C.error (.ofCause (.unknownOperator name))
  miscalled : ∀ {name raw rest cause}, Miscalled name raw cause →
    C.error ((CompileError.ofCause cause).within ⟨.function, [.object ((name, raw) :: rest)]⟩)
  left : ∀ {e} (frame : Frame), C.error e → C.error (e.within frame)
  compileField : ∀ name, C.Gives (Path.compileField name) C.operand
  pushSite : ∀ name, C.Gives (Compile.pushSite name) fun ref => C.operand (.ofParam ref)
  inferParam : ∀ {o ref l} (type : ValueType) (s : Scope), o.param? = some ref → C.operand o l →
    C.Meets (Compile.inferParam ref type) (fun _ _ => True) C.error s l
  repeatSitesFrom : ∀ mark, C.Runs (Compile.repeatSitesFrom mark)

end Contract

/-! ## 2. Rules -/

namespace Contract.Lawful

section Rules

variable (hC : C.Lawful)

include hC

theorem pure {a : α} (h : Q a l) : C.Meets (Pure.pure a) Q E s l :=
  fun hl => ⟨hl, hC.refl l, h⟩

theorem fail {cause : CompileError.Cause} (h : E (.ofCause cause)) :
    C.Meets (Compile.fail cause : Compile α) Q E s l :=
  fun hl => ⟨hl, hC.refl l, h⟩

/-- A failure that is allowed everywhere. -/
theorem refuse {cause : CompileError.Cause} (h : cause.Plain) :
    C.Meets (Compile.fail cause : Compile α) Q C.error s l :=
  hC.fail (hC.plain h)

theorem bind {Q' : β → Ledger → Prop} (hm : C.Meets m Q E s l)
    (hf : ∀ a l', C.grows l l' → Q a l' → C.Meets (f a) Q' E s l') :
    C.Meets (m >>= f) Q' E s l := by
  intro hl
  rw [Compile.outcome_bind]
  rcases hm.ends hl with ⟨a, l₁, hm, hl₁, hgrows, ha⟩ | ⟨e, l₁, hm, hl₁, hgrows, he⟩
  · rw [hm]
    dsimp only
    rcases (hf a l₁ hgrows ha).ends hl₁ with
      ⟨b, l₂, hf, hl₂, hgrows', hb⟩ | ⟨e, l₂, hf, hl₂, hgrows', he⟩
    · rw [hf]
      exact ⟨hl₂, hC.trans hgrows hgrows', hb⟩
    · rw [hf]
      exact ⟨hl₂, hC.trans hgrows hgrows', he⟩
  · rw [hm]
    exact ⟨hl₁, hgrows, he⟩

/-- The result is made into another one. -/
theorem map {g : α → β} {Q' : β → Ledger → Prop} (hm : C.Meets m Q E s l)
    (h : ∀ a l', Q a l' → Q' (g a) l') : C.Meets (m >>= fun a => Pure.pure (g a)) Q' E s l :=
  hC.bind hm fun a l' _ ha => hC.pure (h a l' ha)

/-- The result is made into one of which nothing is said. -/
theorem returns {g : α → β} (hm : C.Meets m Q E s l) :
    C.Meets (m >>= fun a => Pure.pure (g a)) (fun _ _ => True) E s l :=
  hC.map hm fun _ _ _ => trivial

theorem mark : C.Runs Compile.mark := fun _ _ => meets_get (hC.pure trivial)

theorem require {cause : CompileError.Cause} {o : Option α} (hsome : ∀ a, o = some a → Q a l)
    (hnone : o = none → E (.ofCause cause)) : C.Meets (Compile.require cause o) Q E s l := by
  cases o with
  | none => exact hC.fail (hnone rfl)
  | some a => exact hC.pure (hsome a rfl)

theorem withReader (g : Scope → Scope) (hschema : (g s).schema = s.schema)
    (htable : (g s).table = s.table) (hlabel : (g s).label = s.label)
    (h : C.Meets m Q E (g s) l) : C.Meets (MonadWithReaderOf.withReader g m) Q E s l := by
  intro hl
  have hback {l' : Ledger} (hl' : C.inv (g s) l') : C.inv s l' :=
    hC.rescope s hschema.symm htable.symm hlabel.symm hl'
  show match m.outcome (g s) l with | (.ok a, l') => _ | (.error e, l') => _
  rcases h.ends (hC.rescope (g s) hschema htable hlabel hl) with
    ⟨a, l', hm, hl', h⟩ | ⟨e, l', hm, hl', h⟩
  · rw [hm]
    exact ⟨hback hl', h⟩
  · rw [hm]
    exact ⟨hback hl', h⟩

theorem withField (field : String) (h : C.Gives m Q) : C.Gives (Sql.withField field m) Q :=
  fun _ l => hC.withReader (fun s => { s with field := some field }) rfl rfl rfl (h _ l)

theorem within {kind : FrameKind} {args : List Json} (hE : ∀ e, E e → E' (e.within ⟨kind, args⟩))
    (h : ∀ s, C.Meets m Q E s l) : C.Meets (Compile.within kind args m) Q E' s l := by
  intro hl
  have hback {l' : Ledger} (hl' : C.inv { s with frames := kind :: s.frames } l') : C.inv s l' :=
    hC.rescope (s := { s with frames := kind :: s.frames }) s rfl rfl rfl hl'
  rw [Compile.outcome_within]
  rcases (h { s with frames := kind :: s.frames }).ends (hC.rescope (s := s) _ rfl rfl rfl hl) with
    ⟨a, l', hm, hl', hgrows, ha⟩ | ⟨e, l', hm, hl', hgrows, he⟩
  · rw [hm]
    exact ⟨hback hl', hgrows, ha⟩
  · rw [hm]
    exact ⟨hback hl', hgrows, hE e he⟩

/-- An entry point that is left with an error. -/
theorem entry {kind : FrameKind} {args : List Json} (h : C.Gives m Q) :
    C.Gives (Compile.within kind args m) Q :=
  fun _ l => hC.within (fun _ he => hC.left _ he) fun s => h s l

theorem mapM {f : α → Compile β} (xs : List α)
    (hf : ∀ x ∈ xs, ∀ l, C.Meets (f x) (fun _ _ => True) E s l) :
    C.Meets (xs.mapM f) (fun _ _ => True) E s l := by
  induction xs generalizing l with
  | nil => exact hC.pure trivial
  | cons x xs ih =>
    rw [List.mapM_cons]
    exact hC.bind (hf x List.mem_cons_self l) fun _ _ _ _ =>
      hC.returns (ih fun x hx => hf x (List.mem_cons_of_mem _ hx))

theorem forM {f : α → Compile PUnit} (xs : List α)
    (hf : ∀ x ∈ xs, ∀ l, C.Meets (f x) (fun _ _ => True) E s l) :
    C.Meets (xs.forM f) (fun _ _ => True) E s l := by
  induction xs generalizing l with
  | nil => exact hC.pure trivial
  | cons x xs ih =>
    exact hC.bind (hf x List.mem_cons_self l) fun _ _ _ _ =>
      ih fun x hx => hf x (List.mem_cons_of_mem _ hx)

end Rules

/-! ## 3. Operands -/

section Operands

variable (hC : C.Lawful)

include hC

theorem scalar (v : Json) : C.Gives (Operand.ofScalar v) C.operand := by
  intro s l
  cases v with
  | null | bool | string => exact hC.pure (hC.text rfl)
  | number n =>
    refine hC.pure (hC.text ?_)
    unfold Operand.ofNumber
    repeat' split
    all_goals rfl
  | array | object => exact hC.refuse trivial

theorem text_of (name : String) : C.Gives (compileText name) C.operand := by
  intro s l
  unfold compileText
  split
  · exact hC.compileField _ s l
  · exact hC.map (hC.pushSite _ s l) fun _ _ h => h
  · exact hC.scalar _ s l

omit hC in
theorem param?_retag {o : Operand} {type : ValueType} : (o.retag type).param? = none := by
  unfold Operand.retag Operand.param?
  cases o.source <;> rfl

theorem toDate {o : Operand} (ho : o.param? = none) :
    C.Meets o.toDate (fun o' _ => o'.param? = none) C.error s l := by
  unfold Operand.toDate
  split
  · exact hC.pure ho
  · split
    · dsimp only
      split
      · exact hC.pure rfl
      · exact hC.refuse trivial
    · exact hC.refuse trivial
  · exact hC.pure param?_retag
  · exact hC.refuse trivial

omit hC in
theorem param?_truncateDate {o : Operand} {digits : Nat} {type : ValueType} :
    (o.truncateDate digits type).param? = none := by
  unfold Operand.truncateDate
  split <;> rfl

theorem convert {o : Operand} {target : ValueType} (ho : o.param? = none) :
    C.Meets (o.convert target) (fun o' _ => o'.param? = none) C.error s l := by
  unfold Operand.convert
  split
  · exact hC.toDate ho
  · split
    all_goals first
      | exact hC.map (hC.toDate ho) fun _ _ _ => param?_truncateDate
      | exact hC.refuse trivial
  · split
    all_goals first
      | exact hC.map (hC.toDate ho) fun _ _ _ => param?_truncateDate
      | exact hC.pure param?_truncateDate
      | exact hC.refuse trivial
  · split
    all_goals first
      | exact hC.pure param?_retag
      | exact hC.refuse trivial

theorem cast {o : Operand} (target : ValueType) (ho : C.operand o l) :
    C.Meets (o.cast target) C.operand C.error s l := by
  unfold Operand.cast
  split
  · exact hC.pure ho
  · split
    · rename_i ref href
      exact hC.map (hC.inferParam target s href ho) fun _ _ _ => hC.text param?_retag
    · rename_i hparam
      split
      · split
        · exact hC.refuse trivial
        · split
          · exact hC.pure (hC.text rfl)
          · exact hC.pure ho
      · exact (hC.convert hparam).mono (fun _ _ h => hC.text h) fun _ h => h

theorem argument {o : Operand} (p : Parameter) (ho : C.operand o l) :
    C.Meets ( p.admit o) C.operand C.error s l := by
  cases p with
  | any => exact hC.pure ho
  | castable type =>
    exact hC.bind (hC.cast type ho) fun _ _ hgrows _ => hC.pure (hC.lasting hgrows ho)
  | cast type => exact hC.cast type ho

theorem equality {left right : Operand} (mark : Nat) (hright : C.operand right l) :
    C.Meets (Sql.equality mark left right) (fun _ _ => True) C.error s l := by
  unfold Sql.equality
  refine hC.bind (hC.cast left.type hright) fun right' l₁ _ _ => ?_
  split
  · exact hC.pure trivial
  · split
    · exact hC.returns (hC.repeatSitesFrom mark s l₁)
    · exact hC.pure trivial

end Operands

end Contract.Lawful

/-! ## 4. Calls -/

/-- A number of arguments that a function may be called with. -/
def Function.Fits (f : Function) (count : Nat) : Prop :=
  f.arity.1 ≤ count ∧ count ≤ f.arity.2

theorem meets_checkArity (hC : C.Lawful) (f : Function) (count : Nat) :
    C.Meets (f.checkArity count) (fun _ _ => f.Fits count)
      (fun e => ∃ cause, e = .ofCause cause ∧ ∀ s l, (f.checkArity count).Fails s l cause) s l := by
  unfold Function.checkArity
  dsimp only
  split
  · exact hC.fail ⟨_, rfl, fun _ _ => Compile.fails_fail.mpr rfl⟩
  · rename_i h
    exact hC.pure ⟨Nat.le_of_not_lt fun hlt => h (.inl hlt),
      Nat.le_of_not_lt fun hlt => h (.inr hlt)⟩

/-- A function of one parameter that is called at all is called with one argument. -/
theorem Function.Fits.one {f : Function} {count : Nat} {args : List Operand} (hfits : f.Fits count)
    (hf : f ≠ .substr ∧ f ≠ .idiv) (hargs : args.length = min f.parameters.length count) :
    ∃ a, args = [a] := by
  have harity : f.arity = (1, 1) := by cases f <;> first | rfl | simp at hf
  have hparameters : f.parameters.length = 1 := by cases f <;> first | rfl | simp at hf
  unfold Fits at hfits
  rw [harity] at hfits
  exact List.length_eq_one_iff.mp (by omega)

/-- A call with as many arguments as the function wants does not look for more of them. -/
theorem meets_apply (hC : C.Lawful) {f : Function} {count : Nat} {args : List Operand}
    {window : Compile Template} (hf : f ≠ .condition) (hfits : f.Fits count)
    (hlength : args.length = min f.parameters.length count)
    (hargs : ∀ o ∈ args, C.operand o l) (hw : C.Runs window) :
    C.Meets (f.apply args window) C.operand C.error s l := by
  by_cases hsubstr : f = .substr
  · subst hsubstr
    exact hC.pure (hC.text rfl)
  by_cases hidiv : f = .idiv
  · subst hidiv
    have hcount : count = 2 := Nat.le_antisymm hfits.2 hfits.1
    subst hcount
    obtain ⟨a, b, rfl⟩ := List.length_eq_two.mp hlength
    exact hC.pure (hC.text rfl)
  obtain ⟨a, rfl⟩ := hfits.one ⟨hsubstr, hidiv⟩ hlength
  have ha : C.operand a l := hargs a (List.mem_singleton.mpr rfl)
  cases f with
  | sum | count | lower | neg | abs | nocase => exact hC.pure (hC.text rfl)
  | sumOver => exact hC.map (hw s l) fun _ _ _ => hC.text rfl
  | month | year => exact hC.pure ha
  | literal =>
    show C.Meets (if a.literal then _ else _) _ _ s l
    split
    · exact hC.pure ha
    · exact hC.refuse trivial
  | substr | idiv | condition => contradiction

/-! ## 5. Parts -/

/-- The compilation of a part meets a contract. -/
def Part.Meets (C : Contract) (window : Compile Template) : Part → Prop
  | .expr e => C.Gives (exprWith window e) C.operand
  | .function fields => C.Gives (functionWith window fields) C.operand
  | .call name raw => ∀ s l, C.Meets (callWith window name raw) C.operand (C.errorOf name raw) s l
  | .arguments ps args => C.Gives (argumentsWith window ps args) fun os l =>
      os.length = min ps.length args.length ∧ ∀ o ∈ os, C.operand o l
  | .conditions conds => C.Runs (conditionsWith window conds)
  | .tests fields => C.Runs (testsWith window fields)
  | .test name v => C.Runs (testWith window name v)
  | .ops field items => C.Runs (opsWith window field items)
  | .op field v => C.Runs (opWith window field v)
  | .comparison field operator value transform =>
    C.Runs (comparisonWith window field operator value transform)
  | .left field transform => C.Gives (leftWith window field transform) C.operand
  | .elements items => ∀ type, C.Runs (elementsWith window type items)

section Parts

variable (hC : C.Lawful) {window : Compile Template}

include hC

theorem meets_expr {e : Json} (ih : (Part.expr e).Below (Part.Meets C window)) :
    (Part.expr e).Meets C window := by
  rw [Part.Meets, exprWith.eq_def]
  refine hC.entry ?_
  split
  · exact hC.text_of _
  · exact fun _ _ => hC.pure (hC.text rfl)
  · exact ih _ .exprObject
  · exact hC.scalar _

theorem meets_function {fields : Fields} (ih : (Part.function fields).Below (Part.Meets C window)) :
    (Part.function fields).Meets C window := by
  rw [Part.Meets, functionWith.eq_def]
  match fields, ih with
  | [], _ => exact hC.entry fun _ _ => hC.refuse trivial
  | (name, raw) :: rest, ih =>
    refine fun _ l => hC.within (fun e he => ?_) fun s => ih _ .functionHead s l
    rcases he with he | ⟨cause, rfl, hcause⟩
    · exact hC.left _ he
    · exact hC.miscalled hcause

theorem meets_call {name : String} {raw : Json} (hw : C.Runs window)
    (ih : (Part.call name raw).Below (Part.Meets C window)) :
    (Part.call name raw).Meets C window := by
  intro s l
  have hleft (e : CompileError) (he : C.error e) : C.errorOf name raw e := .inl he
  rw [callWith.eq_def]
  split
  · exact hC.fail (hleft _ (hC.plain trivial))
  · split
    · exact hC.fail (hleft _ (hC.plain trivial))
    · rename_i hf
      refine hC.map ((ih _ (.callCondition hf) s l).mono (fun _ _ h => h) hleft) fun _ _ _ => ?_
      exact hC.text rfl
    · rename_i f hne hf
      have hne : f ≠ .condition := by
        rintro rfl
        exact hne rfl
      have harity := meets_checkArity hC (s := s) (l := l) f (arguments raw).length
      refine hC.bind (harity.mono (fun _ _ h => h) fun e he => ?_) fun _ l₁ _ hfits => ?_
      · obtain ⟨cause, rfl, hcause⟩ := he
        exact .inr ⟨cause, rfl, f, hf, hcause⟩
      · refine hC.bind ((ih _ (.callArguments hf hne) s l₁).mono (fun _ _ h => h) hleft)
          fun args l₂ _ hargs => ?_
        exact (meets_apply hC hne hfits hargs.1 hargs.2 hw).mono (fun _ _ h => h) hleft

theorem meets_arguments {ps : List Parameter} {args : List Json}
    (ih : (Part.arguments ps args).Below (Part.Meets C window)) :
    (Part.arguments ps args).Meets C window := by
  intro s l
  rw [argumentsWith.eq_def]
  split
  · rename_i p ps v rest
    refine hC.bind (ih _ .argumentsHead s l) fun o l₁ _ ho => ?_
    refine hC.bind (hC.argument p ho) fun o' l₂ _ ho' => ?_
    refine hC.bind (ih _ .argumentsTail s l₂) fun os l₃ hgrows hos => hC.pure ⟨?_, ?_⟩
    · rw [List.length_cons, List.length_cons, List.length_cons, hos.1]
      omega
    · exact List.forall_mem_cons.mpr ⟨hC.lasting hgrows ho', hos.2⟩
  · rename_i hnone
    refine hC.pure ⟨?_, List.forall_mem_nil _⟩
    cases ps with
    | nil => simp
    | cons p ps =>
      cases args with
      | nil => simp
      | cons v rest => exact absurd rfl (hnone p ps v rest rfl)

theorem meets_conditions {conds : Json}
    (ih : (Part.conditions conds).Below (Part.Meets C window)) :
    (Part.conditions conds).Meets C window := by
  intro s l
  rw [conditionsWith.eq_def]
  split
  · rename_i cause h
    obtain ⟨text, rfl⟩ := tests_error h
    exact hC.refuse trivial
  · rename_i fields h
    exact ih _ (.conditionsTests h) s l

theorem meets_tests {fields : Fields} (ih : (Part.tests fields).Below (Part.Meets C window)) :
    (Part.tests fields).Meets C window := by
  intro s l
  rw [testsWith.eq_def]
  split
  · exact hC.pure trivial
  · exact hC.bind (ih _ .testsHead s l) fun _ l₁ _ _ =>
      hC.returns (ih _ .testsTail s l₁)

theorem meets_test {name : String} {v : Json}
    (ih : (Part.test name v).Below (Part.Meets C window)) : (Part.test name v).Meets C window := by
  rw [Part.Meets, testWith.eq_def]
  split
  · rename_i hname
    subst hname
    split
    · exact fun _ _ => hC.pure trivial
    · rename_i hv
      exact fun s l => hC.returns (ih _ (.testAnd hv) s l)
  · rename_i hand
    split
    · rename_i hname
      subst hname
      split
      · exact fun _ _ => hC.pure trivial
      · rename_i hv
        exact fun s l => hC.returns (ih _ (.testOr hv) s l)
    · rename_i hor
      split
      · exact ih _ (.testOps hand hor)
      · exact fun s l => hC.returns (ih _ (.testOp hand hor) s l)
      · rename_i harray hobject
        have hscalar : Part.IsScalar v := ⟨fun items e => harray items e, fun fs e => hobject fs e⟩
        exact fun s l => hC.returns (hC.entry (ih _ (.testEq hand hor hscalar)) s l)

theorem meets_ops {field : String} {items : List Json}
    (ih : (Part.ops field items).Below (Part.Meets C window)) :
    (Part.ops field items).Meets C window := by
  intro s l
  rw [opsWith.eq_def]
  split
  · exact hC.pure trivial
  · exact hC.bind (ih _ .opsHead s l) fun _ l₁ _ _ => hC.returns (ih _ .opsTail s l₁)

theorem meets_op {field : String} {v : Json}
    (ih : (Part.op field v).Below (Part.Meets C window)) : (Part.op field v).Meets C window := by
  rw [Part.Meets, opWith.eq_def]
  refine hC.entry ?_
  split
  · split
    · exact fun _ _ => hC.refuse trivial
    · rename_i hf
      split
      · rename_i ho
        exact fun _ _ => hC.fail (hC.unknownOperator ho)
      · rename_i ho
        exact ih _ (.opComparison hf ho)
  · exact fun _ _ => hC.refuse trivial

theorem meets_comparison {field : String} {op : Operator} {value : Json} {transform : Option Json}
    (ih : (Part.comparison field op value transform).Below (Part.Meets C window)) :
    (Part.comparison field op value transform).Meets C window := by
  intro s l
  rw [comparisonWith.eq_def]
  refine hC.bind (hC.mark s l) fun mark l₁ _ _ => ?_
  refine hC.bind (ih _ .comparisonLeft s l₁) fun left l₂ _ hleft => ?_
  refine hC.bind (ih _ .comparisonValue s l₂) fun right l₃ hgrows hright => ?_
  have hleft := hC.lasting hgrows hleft
  split
  · exact hC.returns (hC.cast left.type hright)
  · rename_i hsign
    split
    · split
      · exact hC.refuse trivial
      · rename_i items h
        split
        · exact hC.pure trivial
        · rename_i hne
          have hne : items ≠ [] := fun e => hne (List.isEmpty_iff.mpr e)
          exact hC.returns (ih _ (.comparisonElements h hne) left.type s l₃)
    · refine hC.bind (hC.cast .string hleft) fun left' l₄ hgrows _ => ?_
      exact hC.returns (hC.cast .string (hC.lasting hgrows hright))
    · exact hC.equality mark hright
    · -- Every operator that is no sign has its own case.
      cases op with
      | gte | lte | gt | lt => cases hsign
      | eq | oneOf | like => contradiction

theorem meets_left {field : String} {transform : Option Json}
    (ih : (Part.left field transform).Below (Part.Meets C window)) :
    (Part.left field transform).Meets C window := by
  rw [Part.Meets, leftWith.eq_def]
  split
  · exact ih _ .leftField
  · exact hC.withField field (ih _ .leftName)
  · exact hC.withField field (ih _ .leftCall)
  · exact fun _ _ => hC.refuse trivial

theorem meets_elements {items : List Json}
    (ih : (Part.elements items).Below (Part.Meets C window)) :
    (Part.elements items).Meets C window := by
  intro type s l
  rw [elementsWith.eq_def]
  split
  · exact hC.pure trivial
  · rename_i v rest
    have hcast : C.Gives (exprWith window v >>= fun o => o.cast type) C.operand :=
      fun s l => hC.bind (ih _ .elementsHead s l) fun _ _ _ ho => hC.cast type ho
    exact hC.bind (hC.entry hcast s l) fun _ l₁ _ _ =>
      hC.returns (ih _ .elementsTail type s l₁)

theorem meets_part (hw : C.Runs window) (p : Part) : p.Meets C window := by
  induction p using Part.induction with
  | step p ih =>
    cases p with
    | expr e => exact meets_expr hC ih
    | function fields => exact meets_function hC ih
    | call name raw => exact meets_call hC hw ih
    | arguments ps args => exact meets_arguments hC ih
    | conditions conds => exact meets_conditions hC ih
    | tests fields => exact meets_tests hC ih
    | test name v => exact meets_test hC ih
    | ops field items => exact meets_ops hC ih
    | op field v => exact meets_op hC ih
    | comparison field op value transform => exact meets_comparison hC ih
    | left field transform => exact meets_left hC ih
    | elements items => exact meets_elements hC ih

end Parts

/-! ## 6. Orders and windows -/

section Orders

variable (hC : C.Lawful)

include hC

theorem meets_directed (sql : Template) (direction : Option Json) :
    C.Runs (directed sql direction) := by
  intro s l
  unfold directed
  split
  · exact hC.pure trivial
  · exact hC.pure trivial
  · split
    · exact hC.pure trivial
    · exact hC.refuse trivial
  · exact hC.refuse trivial

theorem meets_orderByWith {window : Compile Template} (hw : C.Runs window) (orders : List Json) :
    C.Runs (orderByWith window orders) := by
  have hexpr (e : Json) : C.Gives (exprWith window e) C.operand := meets_part hC hw (.expr e)
  have horder (e : Json) : C.Runs (orderWith window e) := by
    intro s l
    unfold orderWith
    split
    · exact hC.returns (hexpr _ s l)
    · split
      · exact hC.refuse trivial
      · split
        · exact hC.bind (hexpr _ s l) fun _ l₁ _ _ => meets_directed hC _ _ s l₁
        · exact hC.bind (hexpr _ s l) fun _ l₁ _ _ => meets_directed hC _ _ s l₁
    · exact hC.returns (hexpr _ s l)
  refine hC.entry fun s l => ?_
  exact hC.returns (hC.mapM orders fun e _ l => horder e s l)

theorem meets_windowOf (nesting : Nat) : C.Runs (windowOf nesting) := by
  induction nesting with
  | zero =>
    intro s l
    unfold windowOf
    refine Contract.meets_read ?_
    split
    · exact hC.refuse trivial
    · exact hC.pure trivial
  | succ nesting ih =>
    intro s l
    unfold windowOf
    refine Contract.meets_read ?_
    split
    · exact hC.returns (meets_orderByWith hC ih _ s l)
    · exact hC.pure trivial

theorem meets_window : C.Runs window := meets_windowOf hC maxNesting

theorem meets_compileExpr (e : Json) : C.Gives (compileExpr e) C.operand :=
  meets_part hC (meets_window hC) (.expr e)

theorem meets_compileFunction (fields : Fields) : C.Gives (compileFunction fields) C.operand :=
  meets_part hC (meets_window hC) (.function fields)

theorem meets_compileOp (field : String) (op : Json) : C.Runs (compileOp field op) :=
  meets_part hC (meets_window hC) (.op field op)

theorem meets_compileConditions (conds : Json) : C.Runs (compileConditions conds) :=
  meets_part hC (meets_window hC) (.conditions conds)

theorem meets_compileAnd (conds : Json) : C.Runs (compileAnd conds) := by
  intro s l
  unfold compileAnd
  split
  · exact hC.pure trivial
  · exact hC.returns (meets_compileConditions hC conds s l)

theorem meets_compileOr (conds : Json) : C.Runs (compileOr conds) := by
  intro s l
  unfold compileOr
  split
  · exact hC.pure trivial
  · exact hC.returns (meets_compileConditions hC conds s l)

theorem meets_compileOrderBy (orders : List Json) : C.Runs (compileOrderBy orders) :=
  meets_orderByWith hC (meets_window hC) orders

end Orders

end Sql

end QuerySheet

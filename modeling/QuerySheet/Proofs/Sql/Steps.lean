import QuerySheet.Proofs.Sql.Lockstep

/-!
# Properties of the compilation of an expression

Expressions, conditions and orders are put together from a few steps: they compile the name of a
field, push a bind site, note the type of a parameter, and repeat sites. A property that these
`Steps` have, as far as they name fields of a kind, is one of every part that names no other field
(`holds_part`), and of orders (`holds_orderByWith`): it compares two compilations that run in
lockstep and have equal results (`PartSteps.lockstep`).

A part takes the window of its running sums as an argument, and may be compared with itself under
another window. So a property is one of two compilations that are put together in the same way.
-/

namespace QuerySheet.Sql

open Compile (Composes Holds Moves)
open Sql.Part (AnyName)

variable {Named : String → Prop} {P : (α : Type) → Compile α → Compile α → Prop}
  {window window' : Compile Template}

/-- A property that the steps of a part have, where they name a field of a kind. -/
structure PartSteps (Named : String → Prop) (P : (α : Type) → Compile α → Compile α → Prop) : Prop
    extends Composes P where
  within : ∀ {α : Type} (kind : FrameKind) (args : List Json) {m m' : Compile α}, P α m m' →
    P α (Compile.within kind args m) (Compile.within kind args m')
  mark : Holds P Compile.mark
  withField : ∀ {α : Type} {field : String} {m m' : Compile α}, Named field → P α m m' →
    P α (withField field m) (withField field m')
  compileField : ∀ name, Named name → Holds P (Path.compileField name)
  pushSite : ∀ name, Holds P (Compile.pushSite name)
  inferParam : ∀ ref type, Holds P (Compile.inferParam ref type)
  repeatSitesFrom : ∀ mark, Holds P (Compile.repeatSitesFrom mark)

/-- It is one of reading the scope and the ledger too. -/
structure Steps (Named : String → Prop) (P : (α : Type) → Compile α → Compile α → Prop) : Prop
    extends Compile.Closed P where
  withField : ∀ {α : Type} {field : String} {m m' : Compile α}, Named field → P α m m' →
    P α (withField field m) (withField field m')
  compileField : ∀ name, Named name → Holds P (Path.compileField name)
  pushSite : ∀ name, Holds P (Compile.pushSite name)
  inferParam : ∀ ref type, Holds P (Compile.inferParam ref type)
  repeatSitesFrom : ∀ mark, Holds P (Compile.repeatSitesFrom mark)

/-! ## 1. Paths -/

namespace Path

/-- The join along a field of a table, which is read under a label. -/
def joinAlong (schema : Schema) (table label field : String) : Compile Join := do
  let fields ← Compile.require (.pathTableMissing table) (schema.table? table)
  let desc ← Compile.require (.unknownField table field) (Schema.field? fields field)
  let target ← Compile.require (.notJoinable table field) desc.references
  return ⟨target, ← Compile.nextAlias target, field, label, false⟩

/-- The join that a path without empty names lands on. -/
def landing (path : String) : Compile Join := do
  let table := (← read).table
  ensureJoins none table (segments path)
  Compile.require (.missingParentPath (key table path)) ((← get).joins.get? (key table path))

/-- A new join to the row that a field refers to. -/
def joinRow (target field label key : String) : Compile Join := do
  let j : Join := ⟨target, ← Compile.nextAlias target, field, label, true⟩
  modify fun l => { l with joins := l.joins.insert key j }
  return j

/-- A field of a table; `parent` is the path to the table. -/
def readField (scope : Scope) (parent : Option String) (table label field : String) :
    Compile Operand := do
  let fields ← Compile.require (.unknownTable table) (scope.schema.table? table)
  let desc ← Compile.require (.unknownField table field) (Schema.field? fields field)
  match desc.references with
  | some target =>
    if scope.validateRefs ∧ field ≠ "id" then
      let j ← resolveRef parent field target
      return .fragment (j.label ++ ".id") .id
    else return .fragment (label ++ "." ++ field) desc.type.valueType
  | none => return .fragment (label ++ "." ++ field) desc.type.valueType

/-- A field at the end of a path, if there is one. -/
def readAt (name : String) : Compile Operand := do
  let scope ← read
  match (split name).1 with
  | some path => do
    let j ← resolve path
    readField scope (some path) j.table j.label (split name).2
  | none => readField scope none scope.table scope.label (split name).2

theorem compileField_eq (reference : String) :
    compileField reference = fieldName reference >>= fun name =>
      if (split name).2.isEmpty then Compile.fail (.invalidPath name) else readAt name := by
  unfold compileField readAt
  refine congrArg _ (funext fun name => ?_)
  dsimp only
  split
  · rfl
  · refine congrArg _ (funext fun scope => ?_)
    cases (split name).1 <;> rfl

end Path

/-- What a path is resolved with: the join of each of its fields is found or added, and the last
    one is looked up. -/
structure PathSteps (P : (α : Type) → Compile α → Compile α → Prop) : Prop
    extends Composes P where
  read : P Scope MonadReader.read MonadReader.read
  ensureJoin : ∀ parent field key, Holds P (Path.ensureJoin parent field key)
  find : ∀ cause key, cause ≠ .endlessWindow →
    Holds P (do Compile.require cause ((← get).joins.get? key))

section Paths

variable (hP : PathSteps P)

include hP

theorem holds_ensureJoins (parent : Option String) (base : String) (path : List String) :
    Holds P (Path.ensureJoins parent base path) := by
  induction path generalizing parent base with
  | nil => exact hP.pure _
  | cons field rest ih => exact hP.bind (hP.ensureJoin _ _ _) fun _ => ih _ _

theorem holds_resolve (path : String) : Holds P (Path.resolve path) := by
  have hlanding : Holds P (Path.landing path) :=
    hP.bind hP.read fun _ => hP.bind (holds_ensureJoins hP _ _ _) fun _ => hP.find _ _ (by simp)
  unfold Path.resolve
  dsimp only
  split
  · exact hP.bind (hP.fail _ (by simp)) fun _ => hlanding
  · exact hlanding

omit hP in
theorem holds_fieldName (hP : Composes P) (hread : P Scope MonadReader.read MonadReader.read)
    (name : String) : Holds P (Path.fieldName name) := by
  unfold Path.fieldName
  split
  · exact hP.bind hread fun _ => hP.require _ _ (by simp)
  · exact hP.pure _

/-- A field is read with the paths in front of it, and with the row it may refer to. -/
theorem holds_field_of_paths
    (hresolveRef : ∀ parent field target, Holds P (Path.resolveRef parent field target))
    (reference : String) : Holds P (Path.compileField reference) := by
  have hfield (scope : Scope) (parent : Option String) (table label field : String) :
      Holds P (Path.readField scope parent table label field) := by
    refine hP.bind (hP.require _ _ (by simp)) fun _ =>
      hP.bind (hP.require _ _ (by simp)) fun _ => ?_
    split
    · split
      · exact hP.bind (hresolveRef _ _ _) fun _ => hP.pure _
      · exact hP.pure _
    · exact hP.pure _
  have hat (name : String) : Holds P (Path.readAt name) := by
    refine hP.bind hP.read fun scope => ?_
    cases (Path.split name).1 with
    | none => exact hfield scope _ _ _ _
    | some path => exact hP.bind (holds_resolve hP path) fun _ => hfield scope _ _ _ _
  rw [Path.compileField_eq]
  refine hP.bind (holds_fieldName hP.toComposes hP.read reference) fun name => ?_
  split
  · exact hP.fail _ (by simp)
  · exact hat name

end Paths

section Joins

/-- The joins and the number of aliases are changed, and nothing else. -/
def ChangesJoins (g : Ledger → Ledger) : Prop :=
  ∀ l, ∃ joins aliasCount, g l = { l with joins, aliasCount }

variable (hP : Compile.Closed P) (hjoins : ∀ g, ChangesJoins g → Holds P (modify g : Compile Unit))

include hP hjoins

theorem holds_nextAlias (table : String) : Holds P (Compile.nextAlias table) :=
  hP.bind (hjoins _ fun l => ⟨l.joins, l.aliasCount + 1, rfl⟩) fun _ =>
    hP.bind hP.get fun _ => hP.pure _

omit hP in
theorem holds_insert (key : String) (j : Join) :
    Holds P (modify fun l => { l with joins := l.joins.insert key j } : Compile Unit) :=
  hjoins _ fun l => ⟨l.joins.insert key j, l.aliasCount, rfl⟩

theorem holds_makeJoin (parent : Option String) (field : String) :
    Holds P (Path.makeJoin parent field) := by
  have halong (scope : Scope) (table label : String) :
      Holds P (Path.joinAlong scope.schema table label field) :=
    hP.bind (hP.require _ _ (by simp)) fun _ => hP.bind (hP.require _ _ (by simp)) fun _ =>
      hP.bind (hP.require _ _ (by simp)) fun _ => hP.bind (holds_nextAlias hP hjoins _) fun _ =>
        hP.pure _
  unfold Path.makeJoin
  refine hP.bind hP.read fun scope => ?_
  cases parent with
  | none => exact halong scope _ _
  | some key =>
    exact hP.bind hP.get fun _ => hP.bind (hP.require _ _ (by simp)) fun _ => halong scope _ _

/-- A property of all changes to the joins is one of paths. -/
theorem pathSteps_of_joins : PathSteps P where
  toComposes := hP.toComposes
  read := hP.read
  ensureJoin parent field key := by
    unfold Path.ensureJoin
    refine hP.bind hP.get fun l => ?_
    split
    · exact hP.pure _
    · exact hP.bind (holds_makeJoin hP hjoins _ _) fun _ => holds_insert hjoins _ _
  find _ _ hcause := hP.bind hP.get fun _ => hP.require _ _ hcause

theorem holds_resolveRef (parent : Option String) (field target : String) :
    Holds P (Path.resolveRef parent field target) := by
  have hrow (label key : String) : Holds P (Path.joinRow target field label key) :=
    hP.bind (holds_nextAlias hP hjoins _) fun _ =>
      hP.bind (holds_insert hjoins _ _) fun _ => hP.pure _
  unfold Path.resolveRef
  refine hP.bind hP.read fun scope => hP.bind hP.get fun l => ?_
  split
  · exact hP.pure _
  · cases parent with
    | none => exact hrow _ _
    | some path =>
      exact hP.bind (holds_resolve (pathSteps_of_joins hP hjoins) path) fun _ => hrow _ _

theorem holds_compileField (reference : String) : Holds P (Path.compileField reference) :=
  holds_field_of_paths (pathSteps_of_joins hP hjoins) (holds_resolveRef hP hjoins) reference

end Joins

/-- A relation of ledgers that differ in their joins and the number of aliases. -/
theorem moves_joins {R : Scope → Ledger → Ledger → Prop}
    (h : ∀ s l joins aliasCount, R s l { l with joins, aliasCount }) (g : Ledger → Ledger)
    (hg : ChangesJoins g) : Moves R (modify g : Compile Unit) := by
  intro s l
  obtain ⟨joins, aliasCount, hl⟩ := hg l
  show R s l (g l)
  rw [hl]
  exact h s l joins aliasCount

/-! ## 2. Casts and calls -/

/-- The sites where the type of an occurrence is noted. -/
def noted (ref : ParamRef) (type : ValueType) (sites : List Site) : List Site :=
  sites.map fun site =>
    if site.id = ref.id ∧ site.type.isNone then { site with type := some type } else site

theorem outcome_inferParam (s : Scope) (l : Ledger) (ref : ParamRef) (type : ValueType) :
    (Compile.inferParam ref type).outcome s l =
      match l.paramTypes[ref.name]? with
      | some existing =>
        if existing.accepts type then (.ok (), { l with sites := noted ref type l.sites })
        else (.error (.ofCause (.paramConflict ref.name existing type)), l)
      | none => (.ok (), { l with
          sites := noted ref type l.sites, paramTypes := l.paramTypes.insert ref.name type }) := by
  unfold Compile.inferParam
  rw [Compile.outcome_bind]
  show Compile.outcome (match l.paramTypes[ref.name]? with | some _ => _ | none => _) s l = _
  cases l.paramTypes[ref.name]? with
  | none => rfl
  | some existing =>
    dsimp only
    cases existing.accepts type <;> rfl

/-- The type of a parameter is noted with its sites, and nowhere else. -/
theorem moves_inferParam {R : Scope → Ledger → Ledger → Prop}
    (hsites : ∀ s l sites paramTypes, R s l { l with sites, paramTypes })
    (ref : ParamRef) (type : ValueType) : Moves R (Compile.inferParam ref type) := by
  intro s l
  rw [outcome_inferParam]
  split
  · split
    · exact hsites s l _ l.paramTypes
    · exact hsites s l l.sites l.paramTypes
  · exact hsites s l _ _

theorem holds_toDate (hP : Composes P) (o : Operand) : Holds P o.toDate := by
  unfold Operand.toDate
  split
  · exact hP.pure _
  · split
    · dsimp only
      split
      · exact hP.pure _
      · exact hP.fail _ (by simp)
    · exact hP.fail _ (by simp)
  · exact hP.pure _
  · exact hP.fail _ (by simp)

theorem holds_convert (hP : Composes P) (o : Operand) (target : ValueType) :
    Holds P (o.convert target) := by
  unfold Operand.convert
  split
  · exact holds_toDate hP o
  · split
    all_goals first
      | exact hP.bind (holds_toDate hP o) fun _ => hP.pure _
      | exact hP.fail _ (by simp)
  · split
    all_goals first
      | exact hP.bind (holds_toDate hP o) fun _ => hP.pure _
      | exact hP.pure _
      | exact hP.fail _ (by simp)
  · split
    all_goals first
      | exact hP.pure _
      | exact hP.fail _ (by simp)

theorem holds_cast (hP : PartSteps Named P) (o : Operand) (target : ValueType) :
    Holds P (o.cast target) := by
  unfold Operand.cast
  split
  · exact hP.pure _
  · split
    · rename_i ref _
      exact hP.bind (hP.inferParam ref target) fun _ => hP.pure _
    · split
      · split
        · exact hP.fail _ (by simp)
        · split
          · exact hP.pure _
          · exact hP.pure _
      · exact holds_convert hP.toComposes o target

theorem holds_ofScalar (hP : Composes P) (v : Json) : Holds P (Operand.ofScalar v) := by
  cases v with
  | null | bool | number | string => exact hP.pure _
  | array | object => exact hP.fail _ (by simp)

theorem holds_compileText (hP : PartSteps Named P) {s : String}
    (hs : (Part.expr (.string s)).NamesHere Named) : Holds P (compileText s) := by
  unfold compileText
  split
  · rename_i name htext
    exact hP.compileField _ (hs name htext)
  · exact hP.bind (hP.pushSite _) fun _ => hP.pure _
  · exact holds_ofScalar hP.toComposes _

theorem holds_equality (hP : PartSteps Named P) (mark : Nat) (left right : Operand) :
    Holds P (equality mark left right) := by
  unfold equality
  refine hP.bind (holds_cast hP right left.type) fun right => ?_
  split
  · exact hP.pure _
  · split
    · exact hP.bind (hP.repeatSitesFrom mark) fun _ => hP.pure _
    · exact hP.pure _

/-! ## 3. Parts -/

/-- The compilations of a part under two windows have a property. -/
def Part.Relates (P : (α : Type) → Compile α → Compile α → Prop)
    (window window' : Compile Template) : Part → Prop
  | .expr e => P _ (exprWith window e) (exprWith window' e)
  | .function fields => P _ (functionWith window fields) (functionWith window' fields)
  | .call name raw => P _ (callWith window name raw) (callWith window' name raw)
  | .arguments ps args => P _ (argumentsWith window ps args) (argumentsWith window' ps args)
  | .conditions conds => P _ (conditionsWith window conds) (conditionsWith window' conds)
  | .tests fields => P _ (testsWith window fields) (testsWith window' fields)
  | .test name v => P _ (testWith window name v) (testWith window' name v)
  | .ops field items => P _ (opsWith window field items) (opsWith window' field items)
  | .op field v => P _ (opWith window field v) (opWith window' field v)
  | .comparison field operator value transform =>
    P _ (comparisonWith window field operator value transform)
      (comparisonWith window' field operator value transform)
  | .left field transform =>
    P _ (leftWith window field transform) (leftWith window' field transform)
  | .elements items =>
    ∀ type, P _ (elementsWith window type items) (elementsWith window' type items)

theorem holds_checkArity (hP : Compile.Closed P) (f : Function) (count : Nat) :
    Holds P (f.checkArity count) := by
  unfold Function.checkArity
  dsimp only
  split
  · exact hP.fail _ (by simp)
  · exact hP.pure _

theorem Steps.toPartSteps (hP : Steps Named P) : PartSteps Named P where
  toComposes := hP.toComposes
  within := hP.within
  mark := hP.mark
  withField := hP.withField
  compileField := hP.compileField
  pushSite := hP.pushSite
  inferParam := hP.inferParam
  repeatSitesFrom := hP.repeatSitesFrom

namespace PartSteps

/-- Equal results. -/
def same : Likeness := ⟨Eq, Eq, Eq, Eq⟩

theorem same_lawful : same.Lawful where
  type_refl _ := rfl
  type_of h := congrArg Operand.type h
  sql_of h := congrArg Operand.sql h
  fragment h h' := congrArg₂ Operand.fragment h h'
  array _ := rfl
  text _ := rfl
  append h h' := congrArg₂ (· ++ ·) h h'

theorem eq_of_same {k : Kind} {a a' : k.Carrier} (h : same.rel k a a') : a = a' := by
  cases k with
  | unit => rfl
  | operand | template | place => exact h
  | operands | templates => exact List.forall₂_eq_eq_eq ▸ h

theorem same_refl {k : Kind} (a : k.Carrier) : same.rel k a a := by
  cases k with
  | unit => trivial
  | operand | template | place => rfl
  | operands | templates => exact List.forall₂_same.mpr fun _ _ => rfl

/-- A property that the steps have compares two compilations with equal results. -/
theorem lockstep (hP : PartSteps Named P) : Lockstep same Named (fun k => P k.Carrier) where
  toLawful := same_lawful
  pure h := eq_of_same h ▸ hP.pure _
  fail cause hcause := hP.fail cause hcause
  mistyped := by
    rintro k type _ rfl
    exact hP.fail _ (by simp)
  bind hm hf := hP.bind hm fun a => hf a a (same_refl a)
  within kind args _ _ hm := hP.within kind args hm
  withField hfield hm := hP.withField hfield hm
  mark := hP.mark
  compileText hs := holds_compileText hP hs
  scalar := holds_ofScalar hP.toComposes
  cast := by
    rintro o _ type _ rfl rfl
    exact holds_cast hP o type
  literal := by
    rintro o _ rfl
    split
    · exact hP.pure _
    · exact hP.fail _ (by simp)
  equality := by
    rintro mark _ left _ right _ rfl rfl rfl
    exact holds_equality hP mark left right

end PartSteps

theorem Part.relates_of_inStep {p : Part}
    (h : p.InStep PartSteps.same (fun k => P k.Carrier) window window') :
    p.Relates P window window' := by
  cases p with
  | elements items => exact fun type => h type type rfl
  | _ => exact h

/-- A part that holds no running sum does not look at its window. -/
theorem holds_part (hP : Steps Named P) (p : Part) (hp : p.Names Named)
    (hw : p.Sums → P _ window window') : p.Relates P window window' :=
  Part.relates_of_inStep (inStep_part hP.toPartSteps.lockstep p hp hw)

/-! ## 4. Orders and entry points -/

section Orders

variable (hP : Steps AnyName P)

include hP

theorem holds_orderByWith (orders : List Json) (hw : OrdersSum orders → P _ window window') :
    P _ (orderByWith window orders) (orderByWith window' orders) :=
  inStep_orderByWith hP.toPartSteps.lockstep orders hw

theorem holds_windowOf_succ {n n' : Nat} (hw : P _ (windowOf n) (windowOf n')) :
    P _ (windowOf (n + 1)) (windowOf (n' + 1)) := by
  unfold windowOf
  refine hP.bind hP.read fun s => ?_
  split
  · exact hP.bind (holds_orderByWith hP _ fun _ => hw) fun _ => hP.pure _
  · exact hP.pure _

theorem holds_windowOf (hend : Holds P (Compile.fail .endlessWindow : Compile Template))
    (nesting : Nat) : Holds P (windowOf nesting) := by
  induction nesting with
  | zero =>
    unfold windowOf
    refine hP.bind hP.read fun s => ?_
    split
    · exact hend
    · exact hP.pure _
  | succ nesting ih => exact holds_windowOf_succ hP ih

section EntryPoints

variable (hw : Holds P Sql.window)

include hw

theorem holds_compileExpr (e : Json) : Holds P (compileExpr e) :=
  holds_part hP (.expr e) (Part.names_any _) fun _ => hw

theorem holds_compileFunction (fields : Fields) : Holds P (compileFunction fields) :=
  holds_part hP (.function fields) (Part.names_any _) fun _ => hw

theorem holds_compileOp (field : String) (op : Json) : Holds P (compileOp field op) :=
  holds_part hP (.op field op) (Part.names_any _) fun _ => hw

theorem holds_compileConditions (conds : Json) : Holds P (compileConditions conds) :=
  holds_part hP (.conditions conds) (Part.names_any _) fun _ => hw

theorem holds_compileOrderBy (orders : List Json) : Holds P (compileOrderBy orders) :=
  holds_orderByWith hP orders fun _ => hw

end EntryPoints

end Orders

end QuerySheet.Sql

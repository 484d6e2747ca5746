import Mathlib
import QuerySheet.Proofs.Sql.Routes
import QuerySheet.Proofs.Sql.Renumber
import QuerySheet.Proofs.Sql.Phases

/-!
# Compiling with other joins

A part may be compiled with a ledger that has other joins, in another order and under other aliases.
Its texts are others then, but whether it compiles does not depend on them.

* `Operand.Alike`: operands that are cast and compared in the same way; their texts may differ
  where they read columns;
* `Accompanies`: where a first run succeeds so does the second one, with alike results. Only if
  other parameters have types when it begins may it meet a parameter whose types conflict;
* `accompanies_lockstep`: so it is with all parts, and with what the phases of a statement compile
  (`accompanies_compileFilters`, `accompanies_compileJoin` and the like).
-/

namespace QuerySheet.Sql

/-! ## 1. Alike operands -/

/-- Operands of one type. Literals have the same text, and parameters the same name. -/
structure Operand.Alike (o o' : Operand) : Prop where
  type : o'.type = o.type
  literal : o'.literal = o.literal
  sql : o.literal = true → o'.sql = o.sql
  param : o'.param?.map ParamRef.name = o.param?.map ParamRef.name

/-- Texts and places do not matter. -/
def alike : Likeness where
  operand := Operand.Alike
  template _ _ := True
  type := Eq
  place _ _ := True

namespace Operand.Alike

variable {o o' : Operand}

theorem refl (o : Operand) : o.Alike o := ⟨rfl, rfl, fun _ => rfl, rfl⟩

theorem fragment (t t' : Template) (type : ValueType) :
    (Operand.fragment t type).Alike (.fragment t' type) :=
  ⟨rfl, rfl, fun h => absurd h Bool.false_ne_true, rfl⟩

theorem retag (h : o.Alike o') (type : ValueType) : (o.retag type).Alike (o'.retag type) :=
  ⟨rfl, h.literal, h.sql, by rw [param?_retag, param?_retag]⟩

theorem truncateDate (h : o.Alike o') (digits : Nat) (type : ValueType) :
    (o.truncateDate digits type).Alike (o'.truncateDate digits type) := by
  unfold Operand.truncateDate
  rw [h.literal]
  split
  · rename_i hliteral
    rw [h.sql hliteral]
    exact .refl _
  · exact .fragment _ _ _

end Operand.Alike

theorem alike_lawful : alike.Lawful where
  type_refl _ := rfl
  type_of h := h.type.symm
  sql_of _ := trivial
  fragment := by
    rintro t t' type _ - rfl
    exact .fragment t t' type
  array _ := .refl _
  text _ := trivial
  append _ _ := trivial

/-! ## 2. Two runs -/

variable {α β : Type} {R : α → α → Prop} {R' : β → β → Prop} {m m' : Compile α}
  {f f' : α → Compile β} {s s' : Scope} {l l' c c' : Ledger} {a : α}

/-- The same place, where the table in scope may be called otherwise. -/
def Scope.Renames (s s' : Scope) : Prop := ∃ label, s' = { s with label }

/-- The joins of two runs are well formed, and the first one has joined all that the second one
    has. -/
structure Includes (s s' : Scope) (l c : Ledger) : Prop where
  first : JoinsOk s l
  second : JoinsOk s' c
  contains : ∀ key : String, c.joins.contains key = true → l.joins.contains key = true

theorem Includes.of_joins (h : Includes s s' l c) (hl : l'.joins = l.joins)
    (hc : c'.joins = c.joins) : Includes s s' l' c' := by
  obtain ⟨hfirst, hsecond, hcontains⟩ := h
  unfold JoinsOk at hfirst hsecond
  rw [← hl] at hfirst hcontains
  rw [← hc] at hsecond hcontains
  exact ⟨hfirst, hsecond, hcontains⟩

/-- How a second run ends whose first one has ended with a result. -/
inductive Accompanied (R : α → α → Prop) (m' : Compile α) (s s' : Scope) (l c : Ledger) (a : α)
    (l' : Ledger) : Prop
  | yields {a' : α} {c' : Ledger} (h : m'.Yields s' c a' c') (halike : R a a')
      (hincludes : Includes s s' l' c')
      (htypes : c.paramTypes = l.paramTypes → c'.paramTypes = l'.paramTypes)
  | conflict {name : String} {existing type : ValueType} (htypes : c.paramTypes ≠ l.paramTypes)
      (h : m'.Fails s' c (.paramConflict name existing type))

/-- Where a compilation succeeds so does another one with other joins, unless it begins with other
    types of parameters and meets a conflict. -/
def Accompanies (R : α → α → Prop) (m m' : Compile α) : Prop :=
  ∀ s s' l c a l', s.Renames s' → Includes s s' l c → m.Yields s l a l' →
    Accompanied R m' s s' l c a l'

/-- A step that changes neither joins nor types. -/
theorem accompanies_step (h : ∀ {s s' l a l'} (c : Ledger), s.Renames s' → m.Yields s l a l' →
    (l'.joins = l.joins ∧ l'.paramTypes = l.paramTypes) ∧ ∃ a' c', m'.Yields s' c a' c' ∧ R a a' ∧
      c'.joins = c.joins ∧ c'.paramTypes = c.paramTypes) : Accompanies R m m' := by
  intro s s' l c a l' hs hincludes hyields
  obtain ⟨⟨hjoins, htypes⟩, a', c', hyields', halike, hjoins', htypes'⟩ := h c hs hyields
  refine .yields hyields' halike (hincludes.of_joins hjoins hjoins') ?_
  rw [htypes, htypes']
  exact id

theorem accompanies_pure {a' : α} (h : R a a') : Accompanies R (pure a) (pure a') := by
  refine accompanies_step fun c _ hyields => ?_
  obtain ⟨rfl, rfl⟩ := Compile.yields_pure.mp hyields
  exact ⟨⟨rfl, rfl⟩, a', c, Compile.yields_pure.mpr ⟨rfl, rfl⟩, h, rfl, rfl⟩

theorem accompanies_fail (cause : CompileError.Cause) :
    Accompanies R (Compile.fail cause) m' :=
  fun _ _ _ _ _ _ _ _ h => absurd h Compile.yields_fail

theorem accompanies_modify {g g' : Ledger → Ledger}
    (hg : ∀ l, (g l).joins = l.joins ∧ (g l).paramTypes = l.paramTypes)
    (hg' : ∀ l, (g' l).joins = l.joins ∧ (g' l).paramTypes = l.paramTypes)
    {R : Unit → Unit → Prop} (hR : R () ()) : Accompanies R (modify g) (modify g') := by
  refine accompanies_step fun c _ hyields => ?_
  rw [Compile.yields_modify.mp hyields]
  exact ⟨hg _, (), g' c, Compile.yields_modify.mpr rfl, hR, hg' c⟩

theorem Accompanies.bind (hm : Accompanies R m m')
    (hf : ∀ a a', R a a' → Accompanies R' (f a) (f' a')) :
    Accompanies R' (m >>= f) (m' >>= f') := by
  intro s s' l c b l' hs hincludes hyields
  obtain ⟨a, l₁, ha, hb⟩ := Compile.yields_bind.mp hyields
  cases hm s s' l c a l₁ hs hincludes ha with
  | yields ha' halike hincludes htypes =>
    cases hf _ _ halike s s' l₁ _ b l' hs hincludes hb with
    | yields hb' halike' hincludes' htypes' =>
      exact .yields (Compile.yields_bind.mpr ⟨_, _, ha', hb'⟩) halike' hincludes'
        fun h => htypes' (htypes h)
    | conflict hne h =>
      exact .conflict (fun h => hne (htypes h)) (Compile.fails_bind.mpr (.inr ⟨_, _, ha', h⟩))
  | conflict hne h => exact .conflict hne (Compile.fails_bind.mpr (.inl h))

/-- A part in another scope, for the same table under the same name. -/
theorem Accompanies.withReader {g : Scope → Scope}
    (hg : ∀ s label, g { s with label } = { g s with label })
    (htable : ∀ s, (g s).schema = s.schema ∧ (g s).table = s.table ∧ (g s).label = s.label)
    (hm : Accompanies R m m') :
    Accompanies R (MonadWithReaderOf.withReader g m) (MonadWithReaderOf.withReader g m') := by
  have hok (s : Scope) (l : Ledger) : JoinsOk (g s) l ↔ JoinsOk s l := by
    obtain ⟨hschema, htable, hlabel⟩ := htable s
    unfold JoinsOk
    rw [hschema, htable, hlabel]
  have hcongr (s s' : Scope) (l c : Ledger) : Includes (g s) (g s') l c ↔ Includes s s' l c :=
    ⟨fun h => ⟨(hok s l).mp h.first, (hok s' c).mp h.second, h.contains⟩,
      fun h => ⟨(hok s l).mpr h.first, (hok s' c).mpr h.second, h.contains⟩⟩
  intro s s' l c a l' hs hincludes hyields
  obtain ⟨label, rfl⟩ := hs
  cases hm _ _ _ _ _ _ ⟨label, hg s label⟩ ((hcongr _ _ _ _).mpr hincludes)
    (Compile.yields_withReader.mp hyields) with
  | yields h halike hincludes' htypes =>
    exact .yields (Compile.yields_withReader.mpr h) halike ((hcongr _ _ _ _).mp hincludes') htypes
  | conflict hne h => exact .conflict hne (Compile.fails_withReader.mpr h)

theorem Accompanies.within (kind : FrameKind) (args : List Json) (hm : Accompanies R m m') :
    Accompanies R (Compile.within kind args m) (Compile.within kind args m') := by
  have hframes := hm.withReader (g := fun s => { s with frames := kind :: s.frames })
    (fun _ _ => rfl) fun _ => ⟨rfl, rfl, rfl⟩
  intro s s' l c a l' hs hincludes hyields
  cases hframes s s' l c a l' hs hincludes (Compile.yields_within.mp hyields) with
  | yields h halike hincludes' htypes =>
    exact .yields (Compile.yields_within.mpr h) halike hincludes' htypes
  | conflict hne h => exact .conflict hne (Compile.fails_within.mpr h)

/-! ## 3. Steps -/

/-- The name of a field changes nothing but joins. -/
theorem paramTypes_compileField {reference : String} {o : Operand} (hl : JoinsOk s l)
    (h : (Path.compileField reference).Yields s l o l') : l'.paramTypes = l.paramTypes := by
  obtain ⟨hadds, -⟩ := (remembers_compileField reference s l (Joins.WellFormed.indexed hl)).yields h
  rw [hadds.rest]

/-- The route of a name does not depend on what has been joined. -/
theorem accompanies_compileField (reference : String) :
    Accompanies Operand.Alike (Path.compileField reference) (Path.compileField reference) := by
  intro s s' l c o l' hs hincludes hyields
  obtain ⟨label, rfl⟩ := hs
  obtain ⟨name, r, label₁, hname, hr, rfl, hlands⟩ := lands_of_compileField hincludes.first hyields
  obtain ⟨label₂, c', hyields', hlands'⟩ := lands_compileField hincludes.second
    (yields_fieldName.mpr ⟨(yields_fieldName.mp hname).1, rfl⟩) hr
  obtain ⟨hok, hgains⟩ := hlands.grown hincludes.first
  obtain ⟨hok', -⟩ := hlands'.grown hincludes.second
  refine .yields hyields' (.fragment _ _ _) ⟨hok, hok', fun key hkey => ?_⟩ fun htypes => ?_
  · obtain ⟨place, j, hj⟩ := hok'.contains_iff.mp hkey
    rcases hlands'.opened _ (List.mem_of_getElem? hj) with hmem | hopens
    · obtain ⟨place, hplace⟩ := List.mem_iff_getElem?.mp hmem
      exact hincludes.first.contains_of_prefix hok hgains.isPrefix
        (hincludes.contains key (hincludes.second.contains_iff.mpr ⟨place, j, hplace⟩))
    · exact hopens.contains hlands.known
  · rw [paramTypes_compileField hincludes.second hyields',
      paramTypes_compileField hincludes.first hyields, htypes]

theorem accompanies_pushSite (name : String) : Accompanies Operand.Alike
    (return .ofParam (← Compile.pushSite name)) (return .ofParam (← Compile.pushSite name)) := by
  refine accompanies_step fun c _ hyields => ?_
  cases hyields
  exact ⟨⟨rfl, rfl⟩, _, _, rfl, ⟨rfl, rfl, fun h => absurd h Bool.false_ne_true, rfl⟩, rfl, rfl⟩

/-- A parameter that has a type in both runs may conflict with it in one of them. -/
theorem accompanies_inferParam {ref ref' : ParamRef} (href : ref'.name = ref.name)
    (type : ValueType) :
    Accompanies (fun _ _ => True) (Compile.inferParam ref type) (Compile.inferParam ref' type) := by
  intro s s' l c u l' hs hincludes hyields
  have hjoins := ((sameJoins_inferParam ref type).yields hyields).1
  rw [Compile.Yields, outcome_inferParam] at hyields
  have hsecond := outcome_inferParam s' c ref' type
  rw [href] at hsecond
  by_cases htypes : c.paramTypes = l.paramTypes
  · rw [htypes] at hsecond
    cases hknown : l.paramTypes[ref.name]? with
    | none =>
      rw [hknown] at hyields hsecond
      cases hyields
      exact .yields hsecond trivial (hincludes.of_joins rfl rfl) fun _ => rfl
    | some existing =>
      rw [hknown] at hyields hsecond
      dsimp only at hyields hsecond
      split at hyields
      · rename_i haccepts
        rw [if_pos haccepts] at hsecond
        cases hyields
        exact .yields hsecond trivial (hincludes.of_joins rfl rfl) fun _ => rfl
      · cases hyields
  · cases hknown : c.paramTypes[ref.name]? with
    | none =>
      rw [hknown] at hsecond
      exact .yields hsecond trivial (hincludes.of_joins hjoins rfl) fun h => absurd h htypes
    | some existing =>
      rw [hknown] at hsecond
      dsimp only at hsecond
      split at hsecond
      · exact .yields hsecond trivial (hincludes.of_joins hjoins rfl) fun h => absurd h htypes
      · exact .conflict htypes ⟨_, _, hsecond, rfl⟩

theorem accompanies_repeatSitesFrom (mark mark' : Nat) : Accompanies (fun _ _ => True)
    (Compile.repeatSitesFrom mark) (Compile.repeatSitesFrom mark') := by
  unfold Compile.repeatSitesFrom
  refine accompanies_modify ?_ ?_ trivial
  · exact fun _ => ⟨rfl, rfl⟩
  · exact fun _ => ⟨rfl, rfl⟩

/-- Alike operands are converted alike, or not at all. -/
inductive Converts : Compile Operand → Compile Operand → Prop
  | pure {o o' : Operand} (h : o.Alike o') : Converts (Pure.pure o) (Pure.pure o')
  | fail {m' : Compile Operand} (cause : CompileError.Cause) : Converts (Compile.fail cause) m'

namespace Converts

variable {m m' : Compile Operand}

theorem accompanies (h : Converts m m') : Accompanies Operand.Alike m m' := by
  cases h with
  | pure h => exact accompanies_pure h
  | fail cause => exact accompanies_fail cause

theorem map (h : Converts m m') {g : Operand → Operand}
    (hg : ∀ o o', o.Alike o' → (g o).Alike (g o')) :
    Converts (m >>= fun o => Pure.pure (g o)) (m' >>= fun o => Pure.pure (g o)) := by
  cases h with
  | pure h => exact .pure (hg _ _ h)
  | fail cause => exact .fail cause

end Converts

theorem converts_toDate {o o' : Operand} (h : o.Alike o') : Converts o.toDate o'.toDate := by
  unfold Operand.toDate
  rw [h.type]
  cases o.type with
  | date => exact .pure h
  | string =>
    dsimp only
    rw [h.literal]
    split
    · rename_i hliteral
      rw [h.sql hliteral]
      split
      · exact .pure (.refl _)
      · exact .fail _
    · exact .fail _
  | any => exact .pure (h.retag .date)
  | _ => exact .fail _

theorem converts_convert {o o' : Operand} (h : o.Alike o') (target : ValueType) :
    Converts (o.convert target) (o'.convert target) := by
  have hleading (digits : Nat) (type : ValueType) : Converts
      (do return (← o.toDate).truncateDate digits type)
      (do return (← o'.toDate).truncateDate digits type) :=
    (converts_toDate h).map fun _ _ h => h.truncateDate digits type
  unfold Operand.convert
  rw [h.type]
  cases target with
  | date => exact converts_toDate h
  | dateMonth =>
    cases o.type with
    | date | string | any => exact hleading 6 .dateMonth
    | _ => exact .fail _
  | dateYear =>
    cases o.type with
    | date | string | any => exact hleading 4 .dateYear
    | dateMonth => exact .pure (h.truncateDate 4 .dateYear)
    | _ => exact .fail _
  | _ => cases o.type <;> first | exact .pure (h.retag _) | exact .fail _

theorem accompanies_cast {o o' : Operand} (h : o.Alike o') (target : ValueType) :
    Accompanies Operand.Alike (o.cast target) (o'.cast target) := by
  have hparam := h.param
  unfold Operand.cast
  rw [h.type, h.literal]
  split
  · exact accompanies_pure h
  · cases href : o.param? with
    | some ref =>
      rw [href] at hparam
      obtain ⟨ref', href', hname⟩ := Option.map_eq_some_iff.mp hparam
      rw [href']
      exact (accompanies_inferParam hname target).bind fun _ _ _ =>
        accompanies_pure (h.retag target)
    | none =>
      rw [href] at hparam
      rw [Option.map_eq_none_iff.mp hparam]
      dsimp only
      split
      · split
        · exact accompanies_fail _
        · split
          · exact accompanies_pure (.refl _)
          · exact accompanies_pure h
      · exact (converts_convert h target).accompanies

theorem accompanies_ofScalar (v : Json) :
    Accompanies Operand.Alike (Operand.ofScalar v) (Operand.ofScalar v) := by
  rcases settles_ofScalar (d := 0) v with ⟨o, -, ho, -⟩ | ⟨cause, -, hcause, -⟩
  · rw [ho]
    exact accompanies_pure (.refl o)
  · rw [hcause]
    exact accompanies_fail cause

theorem accompanies_equality (mark mark' : Nat) {left left' right right' : Operand}
    (hleft : left.Alike left') (hright : right.Alike right') : Accompanies (fun _ _ => True)
      (equality mark left right) (equality mark' left' right') := by
  have hparam : right'.param?.isSome = right.param?.isSome := by
    rw [← Option.isSome_map (f := ParamRef.name), hright.param, Option.isSome_map]
  unfold equality
  rw [hparam, hleft.type]
  refine (accompanies_cast hright left.type).bind fun o o' h => ?_
  rw [h.literal, h.type]
  split
  · exact accompanies_pure trivial
  · split
    · exact (accompanies_repeatSitesFrom mark mark').bind fun _ _ _ => accompanies_pure trivial
    · exact accompanies_pure trivial

/-! ## 4. Parts -/

theorem accompanies_lockstep :
    Lockstep alike Part.AnyName fun k m m' => Accompanies (alike.rel k) m m' where
  toLawful := alike_lawful
  pure := accompanies_pure
  fail cause _ := accompanies_fail cause
  mistyped _ := accompanies_fail _
  bind hm hf := hm.bind hf
  within kind args _ _ hm := hm.within kind args
  withField {_ field} _ _ _ hm :=
    hm.withReader (g := fun s => { s with field := some field }) (fun _ _ => rfl)
      fun _ => ⟨rfl, rfl, rfl⟩
  mark := by
    refine accompanies_step fun c _ hyields => ?_
    cases hyields
    exact ⟨⟨rfl, rfl⟩, c.sites.length, c, rfl, trivial, rfl, rfl⟩
  compileText {text} _ := by
    unfold compileText
    split
    · exact accompanies_compileField _
    · exact accompanies_pushSite _
    · exact accompanies_ofScalar _
  scalar := accompanies_ofScalar
  cast := by
    rintro o o' type _ h rfl
    exact accompanies_cast h type
  literal {o o'} h := by
    rw [show o'.literal = o.literal from Operand.Alike.literal h]
    split
    · exact accompanies_pure h
    · exact accompanies_fail _
  equality _ hleft hright := accompanies_equality _ _ hleft hright

theorem accompanies_byOrders :
    ByOrders fun k m m' => Accompanies (alike.rel k) m m' := by
  intro k m m' h s s' l c a l' hs hincludes hyields
  obtain ⟨n, n', hn, heq⟩ := h s.orders
  have horders : s'.orders = s.orders := by
    obtain ⟨label, rfl⟩ := hs
    rfl
  rw [Compile.Yields, (heq s l rfl).1] at hyields
  have heq' := (heq s' c horders).2
  cases hn s s' l c a l' hs hincludes hyields with
  | yields h halike hincludes' htypes =>
    rw [Compile.Yields, ← heq'] at h
    exact .yields h halike hincludes' htypes
  | conflict hne h => exact .conflict hne (h.of_outcome heq'.symm)

theorem accompanies_window : Accompanies alike.template window window :=
  inStep_windowOf accompanies_lockstep accompanies_byOrders (accompanies_fail _) maxNesting

/-! ## 5. Phases -/

theorem accompanies_compileFilters (filters : List Json) :
    Accompanies (fun _ _ => True) (compileFilters filters) (compileFilters filters) := by
  refine .within _ _ ?_
  unfold compileAnd
  split
  · exact accompanies_pure trivial
  · exact (inStep_part accompanies_lockstep (.conditions _) (Part.names_any _)
      fun _ => accompanies_window).bind fun _ _ _ => accompanies_pure trivial

theorem accompanies_compileGroupBy (groups : List Json) :
    Accompanies (fun _ _ => True) (compileGroupBy groups) (compileGroupBy groups) := by
  have hexpr (e : Json) : Accompanies alike.operand (compileExpr e) (compileExpr e) :=
    inStep_part accompanies_lockstep (.expr e) (Part.names_any _) fun _ => accompanies_window
  refine .within _ _ (.bind (inStep_mapM accompanies_lockstep groups fun e _ => ?_)
    fun _ _ _ => accompanies_pure trivial)
  unfold compileGroup
  split
  · exact (hexpr _).bind fun _ _ _ => accompanies_pure trivial
  · exact (hexpr _).bind fun _ _ _ => accompanies_pure trivial

theorem accompanies_compileOrderBy (orders : List Json) :
    Accompanies (fun _ _ => True) (compileOrderBy orders) (compileOrderBy orders) :=
  inStep_orderByWith accompanies_lockstep orders fun _ => accompanies_window

theorem accompanies_clause (keyword : String) (expressions : List Json)
    {compile : List Json → Compile Template}
    (h : Accompanies (fun _ _ => True) (compile expressions) (compile expressions)) :
    Accompanies (fun _ _ => True) (clause keyword expressions compile)
      (clause keyword expressions compile) := by
  unfold clause
  split
  · exact accompanies_pure trivial
  · exact h.bind fun _ _ _ => accompanies_pure trivial

theorem accompanies_compileTableFilters (policy : Policy) (table : String) :
    Accompanies (fun _ _ => True) (compileTableFilters policy table)
      (compileTableFilters policy table) := by
  unfold compileTableFilters
  dsimp only
  split
  · exact accompanies_pure trivial
  · split
    · exact accompanies_fail _
    · exact .withReader (g := fun s => { s with validateRefs := false }) (fun _ _ => rfl)
        (fun _ => ⟨rfl, rfl, rfl⟩)
        ((accompanies_compileFilters _).bind fun _ _ _ => accompanies_pure trivial)

/-- The rows of a join have the joins of the statement out of sight. -/
theorem accompanies_withJoined {j j' : Join} (hj : j'.table = j.table)
    (h : Accompanies R m m') : Accompanies R (withJoined j m) (withJoined j' m') := by
  intro s s' l c a l' hs hincludes hyields
  obtain ⟨label, rfl⟩ := hs
  obtain ⟨inner, hinner, rfl⟩ := yields_withJoined.mp hyields
  have hrenames : (joinedScope s j).Renames (joinedScope { s with label } j') :=
    ⟨j'.label, by unfold joinedScope; rw [hj]⟩
  have hempty : Includes (joinedScope s j) (joinedScope { s with label } j')
      { l with joins := .empty } { c with joins := .empty } :=
    ⟨joinsOk_empty _ _, joinsOk_empty _ _, fun _ h => h⟩
  cases h _ _ _ _ _ _ hrenames hempty hinner with
  | yields h halike _ htypes =>
    exact .yields (yields_withJoined.mpr ⟨_, h, rfl⟩) halike (hincludes.of_joins rfl rfl) htypes
  | conflict hne h =>
    obtain ⟨e, inner', he, hcause⟩ := h
    refine .conflict hne ⟨e, { inner' with joins := c.joins }, ?_, hcause⟩
    rw [outcome_withJoined, he]

/-- A join is written if one to the same table was, whichever came before. -/
theorem accompanies_compileJoin (policy : Policy) {q q' : Query} (hraw : q'.raw = q.raw)
    {j j' : Join} (hj : j'.table = j.table) :
    Accompanies (fun _ _ => True) (compileJoin policy q j) (compileJoin policy q' j') := by
  have hfilters : Accompanies (fun _ _ => True)
      (if q.raw then pure none else withJoined j (compileTableFilters policy j.table))
      (if q'.raw then pure none else withJoined j' (compileTableFilters policy j'.table)) := by
    rw [hraw, hj]
    split
    · exact accompanies_pure trivial
    · exact accompanies_withJoined hj (accompanies_compileTableFilters policy j.table)
  have hdependencies (table : String) (l : Ledger) :
      (if l.dependencies.contains table then l
        else { l with dependencies := l.dependencies ++ [table] }).joins = l.joins ∧
      (if l.dependencies.contains table then l
        else { l with dependencies := l.dependencies ++ [table] }).paramTypes = l.paramTypes := by
    split <;> exact ⟨rfl, rfl⟩
  have hread : Accompanies Scope.Renames (read : Compile Scope) (read : Compile Scope) := by
    refine accompanies_step fun c hs hyields => ?_
    obtain ⟨rfl, rfl⟩ := Compile.yields_read.mp hyields
    exact ⟨⟨rfl, rfl⟩, _, c, Compile.yields_read.mpr ⟨rfl, rfl⟩, hs, rfl, rfl⟩
  have hnote : Accompanies (fun _ _ => True)
      (modify fun l =>
        if l.dependencies.contains j.table then l
        else { l with dependencies := l.dependencies ++ [j.table] } : Compile Unit)
      (modify fun l =>
        if l.dependencies.contains j'.table then l
        else { l with dependencies := l.dependencies ++ [j'.table] } : Compile Unit) :=
    accompanies_modify (hdependencies _) (hdependencies _) trivial
  unfold compileJoin
  simp only [Compile.ite_bind]
  exact hfilters.bind fun _ _ _ => hnote.bind fun _ _ _ => hread.bind fun _ _ _ =>
    accompanies_pure trivial

end QuerySheet.Sql

import QuerySheet.Proofs.Sql.Aliases
import QuerySheet.Proofs.Sql.StatementContract

/-!
# Causes that cannot be

In a schema without dangling references a query can only be refused for what it says:

* a path is followed through tables that are there, since every join reads a table that some field
  refers to. So no table is missing on a path, and no parent of a path (`plain_compileField`);
* a call has as many arguments as its function wants before any of them is looked at;
* an operator that has a name is written.

`CompileError.Justified` says so of an error, and `resolving` is the contract of compilations that
raise no others. Only the root of a query may be no table of the schema (`cause_of_error`).
-/

namespace QuerySheet

/-- An error is raised for something that says the same anywhere, for a call in the innermost entry
    point that has a wrong number of arguments, or for an operator that there is not. -/
inductive CompileError.Justified (e : CompileError) : Prop
  | plain (h : e.cause.Plain)
  | miscalled {name : String} {raw : Json} {rest : Fields}
      (hframe : e.trail.head? = some ⟨.function, [.object ((name, raw) :: rest)]⟩)
      (h : Sql.Miscalled name raw e.cause)
  | unknownOperator {name : String} (h : e.cause = .unknownOperator name)
      (hname : Sql.Operator.ofName? name = none)

theorem CompileError.Justified.within {e : CompileError} (h : e.Justified) (frame : Frame) :
    (e.within frame).Justified := by
  cases h with
  | plain h => exact .plain h
  | @miscalled name raw rest hframe h =>
    have hkept : (e.within frame).trail.head? = e.trail.head? := by
      rw [CompileError.within, List.head?_append, hframe]
      rfl
    exact .miscalled (hkept.trans hframe) h
  | unknownOperator h hname => exact .unknownOperator h hname

namespace Sql

open CompiledQuery (withPayees)
open Std (ExtTreeMap)

theorem Miscalled.arity {name : String} {raw : Json} {cause : CompileError.Cause}
    (h : Miscalled name raw cause) :
    ∃ function expected got, cause = .arity function expected got := by
  obtain ⟨f, -, hfails⟩ := h
  have hfails := hfails (.root .empty "" "" true) (.root "")
  unfold Function.checkArity at hfails
  dsimp only at hfails
  split at hfails
  · exact ⟨_, _, _, (Compile.fails_fail.mp hfails).symm⟩
  · exact absurd hfails Compile.fails_pure

variable {s : Scope} {l l' : Ledger} {cause : CompileError.Cause}

/-! ## 1. Schemas without dangling references -/

/-- What a field refers to is a table. -/
def ReferencesClosed (schema : Schema) : Prop :=
  ∀ {table field target : String}, Refers schema table field target →
    ∃ t, schema.table? target = some t

theorem closed_of_validate {schema : Schema} (h : schema.validate = .ok ()) :
    ReferencesClosed schema := by
  have hdangling : schema.dangling? = none := by
    unfold Schema.validate at h
    split at h
    · cases h
    · assumption
  rintro table field target ⟨t, desc, ht, hdesc, htarget⟩
  have hfields := List.findSome?_eq_none_iff.mp hdangling (table, t)
    (ExtTreeMap.mem_toList_iff_getElem?_eq_some.mpr ht)
  have hfield := List.findSome?_eq_none_iff.mp hfields (field, desc)
    (ExtTreeMap.mem_toList_iff_getElem?_eq_some.mpr hdesc)
  simp only [htarget, ite_eq_left_iff, reduceCtorEq, imp_false, not_not] at hfield
  rw [ExtTreeMap.contains_eq_isSome_getElem?] at hfield
  exact Option.isSome_iff_exists.mp hfield

/-- The table in scope is one of a schema without dangling references. -/
structure Resolvable (s : Scope) : Prop where
  closed : ReferencesClosed s.schema
  known : ∃ t, s.schema.table? s.table = some t

/-- The rows of a join are those of a table. -/
theorem Resolvable.joined (hs : Resolvable s) (hl : JoinsOk s l) {j : Join} (hj : Joined l j) :
    ∃ t, s.schema.table? j.table = some t := by
  obtain ⟨place, key, hplace⟩ := hj
  obtain ⟨path, parentTable, hfollows⟩ := hl.follows place key j hplace
  exact hs.closed hfollows.refers

/-! ## 2. Paths -/

theorem plain_joinAlong {table label field : String} (ht : ∃ t, s.schema.table? table = some t)
    (h : (Path.joinAlong s.schema table label field).Fails s l cause) : cause.Plain := by
  obtain ⟨t, ht⟩ := ht
  unfold Path.joinAlong Compile.nextAlias at h
  simp only [Compile.fails_bind, Compile.fails_require, Compile.yields_require, ht, reduceCtorEq,
    false_and, false_or, Compile.not_fails_modify, Compile.not_fails_get, Compile.fails_pure,
    and_false, exists_false, or_false] at h
  obtain ⟨_, _, -, ⟨-, rfl⟩ | ⟨_, _, -, -, rfl⟩⟩ := h
  · trivial
  · trivial

theorem plain_makeJoin (hs : Resolvable s) (hl : JoinsOk s l) {path : List String} {field : String}
    (hknown : Known l.joins s.table path)
    (h : (Path.makeJoin (parentKey s.table path) field).Fails s l cause) : cause.Plain := by
  unfold Path.makeJoin parentKey at h
  rw [Compile.fails_read_bind] at h
  by_cases hpath : path = []
  · rw [if_pos hpath] at h
    exact plain_joinAlong hs.known h
  · rw [if_neg hpath] at h
    obtain ⟨place, j, hplace⟩ := hl.contains_iff.mp (hknown path hpath (List.prefix_refl _))
    have hget : l.joins.get? (Joins.pathKey s.table path) = some j :=
      hl.get?_eq_some.mpr ⟨place, hplace⟩
    have h := Compile.fails_get_bind.mp h
    rw [hget] at h
    exact plain_joinAlong (hs.joined hl ⟨place, _, hplace⟩) h

theorem plain_ensureJoins (hs : Resolvable s) (hl : JoinsOk s l) {path : List String}
    (fields : List String) (hknown : Known l.joins s.table path)
    (hseg : ∀ f ∈ path ++ fields, IsSegment f)
    (h : (Path.ensureJoins (parentKey s.table path) (Joins.pathKey s.table path) fields).Fails s l
      cause) : cause.Plain := by
  -- As in `ensureJoins_spec`, the part of the path that is known grows.
  induction fields generalizing path l with
  | nil => exact absurd h Compile.fails_pure
  | cons field rest ih =>
    have hsplit : path ++ field :: rest = (path ++ [field]) ++ rest := by simp
    rw [hsplit] at hseg
    have hhere : ∀ f ∈ path ++ [field], IsSegment f :=
      fun f hf => hseg f (List.mem_append_left _ hf)
    unfold Path.ensureJoins at h
    dsimp only at h
    rw [← pathKey_concat] at h
    rcases Compile.fails_bind.mp h with h | ⟨_, l₁, hjoin, h⟩
    · unfold Path.ensureJoin at h
      have h := Compile.fails_get_bind.mp h
      split at h
      · exact absurd h Compile.fails_pure
      · rcases Compile.fails_bind.mp h with h | ⟨_, _, -, h⟩
        · exact plain_makeJoin hs hl hknown h
        · exact absurd h Compile.not_fails_modify
    · obtain ⟨hext, hlast⟩ := (ensureJoin_spec hl hhere).yields hjoin
      have hnext : parentKey s.table (path ++ [field]) =
          some (Joins.pathKey s.table (path ++ [field])) := if_neg (by simp)
      rw [← hnext] at h
      exact ih (hext hl).1 ((hknown.extend hl hext).concat hlast) hseg h

theorem plain_resolve (hs : Resolvable s) (hl : JoinsOk s l) {path : String}
    (h : (Path.resolve path).Fails s l cause) : cause.Plain := by
  unfold Path.resolve at h
  dsimp only at h
  split at h
  · rcases Compile.fails_bind.mp h with h | ⟨_, _, hfail, -⟩
    · rw [← Compile.fails_fail.mp h]
      trivial
    · exact absurd hfail Compile.yields_fail
  · rename_i hempty
    have hseg : ∀ f ∈ [] ++ Path.segments path, IsSegment f :=
      fun f hf => isSegment_of_mem hf hempty
    have hnothing : Known l.joins s.table [] := known_nil
    have h := Compile.fails_read_bind.mp h
    rcases Compile.fails_bind.mp h with h | ⟨_, l₁, hjoins, h⟩
    · exact plain_ensureJoins hs hl _ hnothing hseg h
    · obtain ⟨hext, hknown⟩ :=
        (ensureJoins_spec hl (Path.segments path) hnothing hseg).yields hjoins
      have hpath : Path.segments path ≠ [] := Separated.split_ne_nil _ _
      obtain ⟨place, j, hplace⟩ :=
        (hext hl).1.contains_iff.mp (hknown (Path.segments path) hpath (List.prefix_refl _))
      have hget : l₁.joins.get? (Path.key s.table path) = some j := by
        rw [key_eq_pathKey]
        exact (hext hl).1.get?_eq_some.mpr ⟨place, hplace⟩
      have h := Compile.fails_get_bind.mp h
      rw [hget] at h
      exact absurd h Compile.fails_pure

theorem plain_resolveRef (hs : Resolvable s) (hl : JoinsOk s l) {parent : Option String}
    {field target : String} (h : (Path.resolveRef parent field target).Fails s l cause) :
    cause.Plain := by
  have hrow {label key : String} {l : Ledger} :
      ¬ (Path.joinRow target field label key).Fails s l cause := by
    unfold Path.joinRow Compile.nextAlias
    simp only [Compile.fails_bind, Compile.not_fails_modify, Compile.not_fails_get,
      Compile.fails_pure, and_false, exists_false, or_false, not_false_eq_true]
  unfold Path.resolveRef at h
  have h := Compile.fails_get_bind.mp (Compile.fails_read_bind.mp h)
  split at h
  · exact absurd h Compile.fails_pure
  · cases parent with
    | none => exact absurd h hrow
    | some path =>
      rcases Compile.fails_bind.mp h with h | ⟨_, _, -, h⟩
      · exact plain_resolve hs hl h
      · exact absurd h hrow

/-- The name of a field is refused for what it says. -/
theorem plain_compileField (hs : Resolvable s) (hl : JoinsOk s l) {reference : String}
    (h : (Path.compileField reference).Fails s l cause) : cause.Plain := by
  have hread {parent : Option String} {table label field : String} {l : Ledger}
      (hl : JoinsOk s l) (ht : ∃ t, s.schema.table? table = some t)
      (h : (Path.readField s parent table label field).Fails s l cause) : cause.Plain := by
    obtain ⟨t, ht⟩ := ht
    unfold Path.readField at h
    simp only [Compile.fails_bind, Compile.fails_require, Compile.yields_require, ht, reduceCtorEq,
      false_and, false_or] at h
    obtain ⟨_, _, ⟨-, rfl⟩, ⟨-, rfl⟩ | ⟨_, _, ⟨-, rfl⟩, h⟩⟩ := h
    · trivial
    · split at h
      · split at h
        · rcases Compile.fails_bind.mp h with h | ⟨_, _, -, h⟩
          · exact plain_resolveRef hs hl h
          · exact absurd h Compile.fails_pure
        · exact absurd h Compile.fails_pure
      · exact absurd h Compile.fails_pure
  have hat {name : String} (h : (Path.readAt name).Fails s l cause) : cause.Plain := by
    unfold Path.readAt at h
    have h := Compile.fails_read_bind.mp h
    cases hsplit : (Path.split name).1 with
    | none =>
      rw [hsplit] at h
      exact hread hl hs.known h
    | some path =>
      rw [hsplit] at h
      rcases Compile.fails_bind.mp h with h | ⟨j, l₁, hresolve, h⟩
      · exact plain_resolve hs hl h
      · obtain ⟨hext, hj⟩ := (resolve_spec hl path).yields hresolve
        obtain ⟨place, hplace⟩ := hj.entry
        exact hread (hext hl).1 (hs.joined (hext hl).1 ⟨place, _, hplace⟩) h
  have hname {l₁ : Ledger} {name : String} (h : (Path.fieldName reference).Yields s l name l₁) :
      l₁ = l := by
    unfold Path.fieldName at h
    split at h
    · obtain ⟨_, _, hscope, hfield⟩ := Compile.yields_bind.mp h
      obtain ⟨-, rfl⟩ := Compile.yields_read.mp hscope
      exact (Compile.yields_require.mp hfield).2
    · exact (Compile.yields_pure.mp h).2
  rw [Path.compileField_eq] at h
  rcases Compile.fails_bind.mp h with h | ⟨name, l₁, hyields, h⟩
  · unfold Path.fieldName at h
    split at h
    · obtain ⟨-, rfl⟩ := Compile.fails_require.mp (Compile.fails_read_bind.mp h)
      trivial
    · exact absurd h Compile.fails_pure
  · rw [hname hyields] at h
    split at h
    · rw [← Compile.fails_fail.mp h]
      trivial
    · exact hat h

/-! ## 3. Statements -/

/-- Tables are found wherever they are looked for, and errors are justified. -/
def resolving : Contract where
  inv s l := Resolvable s ∧ JoinsOk s l
  grows _ _ := True
  operand _ _ := True
  error := CompileError.Justified

/-- A step that keeps the joins well formed, and is refused for what it says. -/
theorem resolving_of_moves {α : Type} {m : Compile α} (hm : Compile.Moves Extends m)
    (hplain : ∀ {s l cause}, Resolvable s → JoinsOk s l → m.Fails s l cause → cause.Plain) :
    resolving.Gives m fun _ _ => True := by
  rintro s l ⟨hs, hl⟩
  have hjoins : JoinsOk s (m.outcome s l).2 := (hm s l hl).1
  rcases h : m.outcome s l with ⟨e | a, l'⟩
  · rw [h] at hjoins
    exact ⟨⟨hs, hjoins⟩, trivial, .plain (hplain hs hl ⟨e, l', h, rfl⟩)⟩
  · rw [h] at hjoins
    exact ⟨⟨hs, hjoins⟩, trivial, trivial⟩

theorem plain_inferParam {ref : ParamRef} {type : ValueType}
    (h : (Compile.inferParam ref type).Fails s l cause) : cause.Plain := by
  obtain ⟨e, l', he, rfl⟩ := h
  rw [outcome_inferParam] at he
  split at he
  · split at he
    · cases he
    · cases he
      trivial
  · cases he

theorem resolving_lawful : resolving.Lawful where
  refl _ := trivial
  trans _ _ := trivial
  rescope s' hschema htable hlabel h := by
    obtain ⟨⟨hclosed, hknown⟩, hjoins⟩ := h
    refine ⟨⟨hschema ▸ hclosed, by rw [hschema, htable]; exact hknown⟩, ?_⟩
    unfold JoinsOk at hjoins ⊢
    rw [hschema, htable, hlabel]
    exact hjoins
  lasting _ _ := trivial
  text _ := trivial
  plain h := .plain h
  unknownOperator h := .unknownOperator rfl h
  miscalled h := .miscalled rfl h
  left frame h := h.within frame
  compileField name := resolving_of_moves (steps_extends.compileField name trivial)
    fun hs hl h => plain_compileField hs hl h
  pushSite name := resolving_of_moves (steps_extends.pushSite name) fun _ _ h => by
    unfold Compile.pushSite at h
    simp only [Compile.fails_bind, Compile.not_fails_modify, Compile.not_fails_get,
      Compile.fails_pure, and_false, exists_false, or_false] at h
  inferParam type s _ _ := resolving_of_moves (steps_extends.inferParam _ type)
    (fun _ _ h => plain_inferParam h) s _
  repeatSitesFrom mark := resolving_of_moves (steps_extends.repeatSitesFrom mark)
    fun _ _ h => absurd h Compile.not_fails_modify

theorem resolving_clauses : resolving.Clauses where
  toLawful := resolving_lawful
  notes _ _ h := ⟨h, trivial⟩
  moveSites _ _ _ _ h := ⟨h, trivial, trivial⟩
  unknownTable h hnone := by
    obtain ⟨t, ht⟩ := h.1.known
    rw [ht] at hnone
    cases hnone
  joined h hentry _ := by
    obtain ⟨hs, hl⟩ := h
    exact ⟨⟨hs.closed, hs.joined hl (joined_of_mem hentry)⟩, joinsOk_empty _ _⟩
  returned h _ _ := ⟨h, trivial⟩

/-- A query is refused because its root is no table of the schema, or for what it says. -/
theorem justified_of_error {q : Query} {schema : Schema} {policy : Policy} {e : CompileError}
    (hschema : schema.validate = .ok ()) (h : q.compile schema policy = .error e) :
    (e = .ofCause (.unknownTable (policy.customize q).table) ∧
      schema.table? (policy.customize q).table = none) ∨ e.Justified := by
  unfold Query.compile at h
  dsimp only at h
  split at h
  · rename_i hnone
    cases h
    exact .inl ⟨rfl, Option.isNone_iff_eq_none.mp hnone⟩
  · rename_i hknown
    have hknown : ∃ t, schema.table? (policy.customize q).table = some t :=
      Option.ne_none_iff_exists'.mp fun hnone => hknown (Option.isNone_iff_eq_none.mpr hnone)
    split at h
    · rename_i hpieces
      cases h
      have hroot : Resolvable (rootScope policy schema (policy.customize q)) :=
        ⟨closed_of_validate hschema, hknown⟩
      have hmeets := meets_compilePieces resolving_clauses policy (policy.customize q)
        (rootScope policy schema (policy.customize q)) (.root (policy.customize q).table)
      exact .inr (hmeets.of_error ⟨hroot, Joins.wellFormed_empty⟩ hpieces).2.2
    · cases h

variable {q : Query} {schema : Schema} {policy : Policy} {e : CompileError}

/-- In a schema without dangling references no table and no parent is missing on a path, a number
    of arguments is wrong only before the arguments are compiled, an operator that is unknown has
    no meaning, and no table is unknown but the root of the query. -/
theorem cause_of_error (hschema : schema.validate = .ok ())
    (h : q.compile schema policy = .error e) :
    (∀ table, e.cause ≠ .pathTableMissing table) ∧ (∀ key, e.cause ≠ .missingParentPath key) ∧
      (∀ function expected got, e.cause = .arity function expected got → ∃ name raw rest,
        e.trail.head? = some ⟨.function, [.object ((name, raw) :: rest)]⟩ ∧
          Miscalled name raw e.cause) ∧
      (∀ name, e.cause = .unknownOperator name → Operator.ofName? name = none) ∧
      ∀ table, e.cause = .unknownTable table →
        table = (policy.customize q).table ∧ schema.table? table = none ∧ e.trail = [] := by
  rcases justified_of_error hschema h with
    ⟨rfl, hroot⟩ | hplain | @⟨name, raw, rest, hframe, hcall⟩ | ⟨hname, hnone⟩
  · refine ⟨fun _ => nofun, fun _ => nofun, fun _ _ _ => nofun, fun _ => nofun, ?_⟩
    rintro table hcause
    cases hcause
    exact ⟨rfl, hroot, rfl⟩
  · have hne {cause : CompileError.Cause} (hcause : ¬ cause.Plain) : e.cause ≠ cause :=
      fun h => hcause (h ▸ hplain)
    exact ⟨fun _ => hne id, fun _ => hne id, fun _ _ _ h => absurd h (hne id),
      fun _ h => absurd h (hne id), fun _ h => absurd h (hne id)⟩
  · obtain ⟨function, expected, got, hcause⟩ := hcall.arity
    rw [hcause]
    exact ⟨fun _ => nofun, fun _ => nofun, fun _ _ _ _ => ⟨name, raw, rest, hframe, hcause ▸ hcall⟩,
      fun _ => nofun, fun _ => nofun⟩
  · rw [hname]
    refine ⟨fun _ => nofun, fun _ => nofun, fun _ _ _ => nofun, ?_, fun _ => nofun⟩
    rintro _ hcause
    cases hcause
    exact hnone

/-- Half of a payee: a division with one argument. -/
def halved : Query :=
  { table := "transactions"
    selection := [.object [("id", .object [("$idiv", .string "$payee")])]] }

/-- The division is refused before its argument is compiled. -/
theorem compileFunction_idiv : compileFunction [("$idiv", .string "$payee")] =
    Compile.within .function [.object [("$idiv", .string "$payee")]]
      (Compile.fail (.arity "$idiv" "2" 1)) := by
  rw [compileFunction, functionWith.eq_def]
  dsimp only
  rw [callWith.eq_def]
  rfl

theorem compileSelect_halved : compileSelect halved =
    Compile.within .select [.array halved.selection] do
      let o ← withReader (fun s => { s with orders := some [] }) (Compile.within .function
        [.object [("$idiv", .string "$payee")]] (Compile.fail (.arity "$idiv" "2" 1)))
      let column ← column o "id"
      return .intercalate ", " [column] := by
  have hitems : selectItems halved = halved.selection := by
    simp [selectItems, halved, Query.isAggregate, selectsId, containsAggregate]
  have hdollar : ¬ hasDollar "id" = true := by decide
  unfold compileSelect
  rw [hitems]
  simp only [halved, List.mapM_cons, List.mapM_nil, compileSelectItem, compileNamedColumn,
    if_neg hdollar, compileFunction_idiv, bind_assoc, pure_bind, List.flatten_cons,
    List.flatten_nil, List.cons_append, List.nil_append]

theorem error_of_halved : halved.compile (withPayees "transactions") .none = .error
    ⟨.arity "$idiv" "2" 1, [⟨.function, [.object [("$idiv", .string "$payee")]]⟩,
      ⟨.select, [.array halved.selection]⟩]⟩ := by
  have htable : ¬ ((withPayees "transactions").table? "transactions").isNone = true := by decide
  unfold Query.compile compilePieces
  rw [Policy.none]
  dsimp only
  rw [compileSelect_halved, halved]
  dsimp only
  rw [if_neg htable]
  rfl

/-- A division of a payee is refused for its number of arguments. -/
theorem cause_of_halved : (withPayees "transactions").validate = .ok () ∧
    ∃ e, halved.compile (withPayees "transactions") .none = .error e ∧
      e.cause = .arity "$idiv" "2" 1 ∧ Miscalled "$idiv" (.string "$payee") e.cause := by
  have hschema : (withPayees "transactions").validate = .ok () := rfl
  obtain ⟨-, -, harity, -⟩ := cause_of_error hschema error_of_halved
  obtain ⟨name, raw, rest, hframe, hcall⟩ := harity _ _ _ rfl
  cases hframe
  exact ⟨hschema, _, error_of_halved, rfl, hcall⟩

end Sql

end QuerySheet

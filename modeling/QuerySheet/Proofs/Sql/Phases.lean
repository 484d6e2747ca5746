import QuerySheet.Sql.Statement
import QuerySheet.Proofs.Sql.Joins

/-!
# The phases of a statement

* `Phases`: a statement that compiles passes through select, filters, group by, order by and joins,
  each with the ledger that the one before leaves (`phases_of_compile`);
* `compile_of_piecesPass`: so a statement can be computed from its pieces;
* `yields_compileJoins`: joins are written one by one and keep the joins of the statement, since
  what is joined for the policy's filters of a table is dropped (`JoinStep`).
-/

namespace QuerySheet.Sql

variable {policy : Policy} {q : Query} {schema : Schema} {s : Scope}
  {l l' : Ledger}

/-! ## 1. Phases -/

/-- The policy's filters of a table, unless the query is raw. -/
def ownFilters (policy : Policy) (q : Query) (table : String) : Compile (Option Template) :=
  if q.raw then pure none else compileTableFilters policy table

/-- The texts and ledgers of a statement that compiles. -/
structure Phases (policy : Policy) (q : Query) (s : Scope) where
  select : Template
  own : Template
  extra : Option Template
  groupBy : Template
  orderBy : Template
  joins : Template
  selected : Ledger
  filtered : Ledger
  restricted : Ledger
  grouped : Ledger
  ordered : Ledger
  joined : Ledger

namespace Phases

/-- Every phase gives its text, from the ledger that the one before leaves. -/
structure Valid (p : Phases policy q s) (l : Ledger) : Prop where
  select : (compileSelect q).Yields s l p.select p.selected
  own : (compileFilters q.filters).Yields s p.selected p.own p.filtered
  extra : (ownFilters policy q q.table).Yields s p.filtered p.extra p.restricted
  groupBy : (clause "GROUP BY" q.groups compileGroupBy).Yields s p.restricted p.groupBy p.grouped
  orderBy : (clause "ORDER BY" q.orders compileOrderBy).Yields s p.grouped p.orderBy p.ordered
  joins : (compileJoins policy q).Yields s p.ordered p.joins p.joined

/-- The pieces that the phases give. -/
def pieces (p : Phases policy q s) : Pieces where
  select := p.select
  relation := s.label
  joins := p.joins
  filter := "WHERE " ++ p.own ++ andAlso p.extra
  groupBy := p.groupBy
  orderBy := p.orderBy
  limit := q.limit
  offset := q.offset

/-- The ledger in the end: the sites of the joins stand behind those of the select list. -/
def ledger (p : Phases policy q s) : Ledger :=
  { p.joined with
    sites := Site.move p.joined.sites p.ordered.sites.length p.selected.sites.length }

end Phases

theorem phases_of_compilePieces {pieces : Pieces}
    (h : (compilePieces policy q).Yields s l pieces l') :
    ∃ p : Phases policy q s, p.Valid l ∧ pieces = p.pieces ∧ l' = p.ledger := by
  unfold compilePieces Compile.mark Compile.moveSites at h
  rw [Compile.yields_bind] at h
  obtain ⟨_, _, hread, h⟩ := h
  obtain ⟨rfl, rfl⟩ := Compile.yields_read.mp hread
  simp only [Compile.yields_bind, Compile.yields_pure, Compile.yields_get, Compile.ite_bind] at h
  obtain ⟨select, _, hselect, _, _, ⟨_, _, ⟨rfl, rfl⟩, rfl, rfl⟩, own, filtered, hown, extra,
    restricted, hextra, groupBy, grouped, hgroup, orderBy, _, horder, _, _,
    ⟨_, _, ⟨rfl, rfl⟩, rfl, rfl⟩, joins, joined, hjoins, _, _, hmove, rfl, rfl⟩ := h
  exact ⟨⟨select, own, extra, groupBy, orderBy, joins, _, filtered, restricted, grouped, _,
    joined⟩, ⟨hselect, hown, hextra, hgroup, horder, hjoins⟩, rfl,
    Compile.yields_modify.mp hmove⟩

/-- The scope of the root table. -/
def rootScope (policy : Policy) (schema : Schema) (q : Query) : Scope :=
  let context := { withDead := q.withDead, isJoin := false, options := q.options }
  .root schema q.table ((policy.view q.table context).getD q.table) q.validateRefs

theorem phases_of_compile {c : CompiledQuery} (h : q.compile schema policy = .ok c) :
    c.query = policy.customize q ∧ (schema.table? c.query.table).isSome = true ∧
      ∃ p : Phases policy c.query (rootScope policy schema c.query),
        p.Valid (.root c.query.table) ∧ c.schema = schema ∧
          c.label = (rootScope policy schema c.query).label ∧ c.pieces = p.pieces ∧
          c.ledger = p.ledger := by
  unfold Query.compile at h
  dsimp only at h
  split at h
  · cases h
  · rename_i htable
    have htable : (schema.table? (policy.customize q).table).isSome = true := by
      cases ht : schema.table? (policy.customize q).table with
      | none => exact absurd (by rw [ht]; rfl) htable
      | some t => rfl
    split at h
    · cases h
    · rename_i hpieces
      cases h
      obtain ⟨p, hp, rfl, rfl⟩ := phases_of_compilePieces hpieces
      exact ⟨rfl, htable, p, hp, rfl, rfl, rfl, rfl⟩

/-- Whether the pieces of a query compile to a statement that passes a check. -/
def piecesPass (check : CompiledQuery → Bool) (policy : Policy) (schema : Schema) (q : Query) :
    Bool :=
  let scope := rootScope policy schema q
  match (compilePieces policy q).outcome scope (.root q.table) with
  | (.error _, _) => false
  | (.ok pieces, ledger) => check { pieces, query := q, schema, label := scope.label, ledger }

theorem compile_of_piecesPass {check : CompiledQuery → Bool}
    (htable : (schema.table? (policy.customize q).table).isSome = true)
    (h : piecesPass check policy schema (policy.customize q) = true) :
    ∃ c, q.compile schema policy = .ok c ∧ check c = true := by
  have htable : ¬ (schema.table? (policy.customize q).table).isNone = true := by
    intro hnone
    rw [Option.isNone_iff_eq_none.mp hnone] at htable
    cases htable
  obtain ⟨pieces, ledger, hpieces, hcheck⟩ : ∃ pieces ledger,
      (compilePieces policy (policy.customize q)).Yields
        (rootScope policy schema (policy.customize q)) (.root (policy.customize q).table)
        pieces ledger ∧
      check ⟨pieces, policy.customize q, schema,
        (rootScope policy schema (policy.customize q)).label, ledger⟩ = true := by
    unfold piecesPass at h
    dsimp only at h
    split at h
    · cases h
    · rename_i pieces ledger hpieces
      exact ⟨pieces, ledger, hpieces, h⟩
  refine ⟨_, ?_, hcheck⟩
  unfold Compile.Yields rootScope at hpieces
  unfold Query.compile
  dsimp only at hpieces ⊢
  rw [if_neg htable, hpieces]
  rfl

/-- A text is compiled in one step, which can be computed. -/
theorem compileExpr_string (text : String) :
    compileExpr (.string text) = Compile.within .expr [.string text] (compileText text) := by
  rw [compileExpr, exprWith.eq_def]

theorem compileFilters_nil :
    compileFilters [] = Compile.within .filter [.array []] (return Condition.all []) := by
  have hnone : compileConditions (.array []) = pure [] := by
    rw [compileConditions, conditionsWith.eq_def]
    simp only [Condition.tests, Condition.itemsTests, testsWith.eq_def]
  rw [compileFilters, compileAnd, hnone]
  rfl

theorem conditionsWith_equal (window : Compile Template) {name : String} (text : String)
    (hand : name ≠ "$and") (hor : name ≠ "$or") :
    conditionsWith window (.array [.object [(name, .string text)]]) = (do
      let t ← Compile.within .op [.string name, .object [("$eq", .string text)]] do
        let mark ← Compile.mark
        let left ← Compile.within .expr [.string ("$" ++ name)] (compileText ("$" ++ name))
        let right ← Compile.within .expr [.string text] (compileText text)
        equality mark left right
      return [t]) := by
  have htests : Condition.tests (.array [.object [(name, .string text)]]) =
      .ok [(name, .string text)] := rfl
  rw [conditionsWith.eq_def]
  split
  · rename_i h
    rw [htests] at h
    cases h
  · rename_i fields h
    rw [htests] at h
    cases h
    simp only [testsWith, testWith, if_neg hand, if_neg hor, comparisonWith, leftWith, exprWith,
      fieldReference, Operator.comparison?, bind_assoc, pure_bind]
    rfl

/-- The filters that want one field to equal a text, as far as they can be computed. -/
def equalFilter (name text : String) : Compile (Option Template) :=
  withReader (fun s => { s with validateRefs := false }) do
    let t ← Compile.within .filter [.array [.object [(name, .string text)]]] do
      let t ← Compile.within .op [.string name, .object [("$eq", .string text)]] do
        let mark ← Compile.mark
        let left ← Compile.within .expr [.string ("$" ++ name)] (compileText ("$" ++ name))
        let right ← Compile.within .expr [.string text] (compileText text)
        equality mark left right
      return Condition.all [t]
    return some t

theorem compileTableFilters_equal {table name text : String}
    (h : policy.filters table = [.object [(name, .string text)]]) (hand : name ≠ "$and")
    (hor : name ≠ "$or") (hname : name.toList.contains '.' = false) :
    compileTableFilters policy table = equalFilter name text := by
  have hkey : itemsPathKey? [.object [(name, .string text)]] = none := by
    simp only [itemsPathKey?, pathKey?, fieldsPathKey?, hname, hand, hor, or_self, ↓reduceIte,
      Bool.false_eq_true, Option.or_none]
  unfold compileTableFilters
  rw [h]
  dsimp only
  rw [hkey]
  unfold compileFilters compileAnd compileConditions
  rw [conditionsWith_equal window text hand hor]
  simp only [bind_assoc, pure_bind]
  rfl

/-! ## 2. Filters and joins one by one -/

/-- A condition `P` holds of the policy's filters of a table. There are some unless the query is
    raw or the policy has none. -/
def IsTableFilter {α : Type} (P : α → Prop) (policy : Policy) (q : Query) (table : String)
    (filter : Option α) : Prop :=
  (filter.isSome = true ↔ q.raw = false ∧ policy.filters table ≠ []) ∧ ∀ t, filter = some t → P t

theorem IsTableFilter.map {α β : Type} {P : α → Prop} {Q : β → Prop} {table : String}
    {filter : Option α} {f : α → β} (h : IsTableFilter P policy q table filter)
    (hf : ∀ t, P t → Q (f t)) : IsTableFilter Q policy q table (filter.map f) := by
  obtain ⟨hsome, hfilter⟩ := h
  refine ⟨by rw [Option.isSome_map, hsome], fun u hu => ?_⟩
  obtain ⟨t, ht, rfl⟩ := Option.map_eq_some_iff.mp hu
  exact hf t (hfilter t ht)

theorem isTableFilter_none {α : Type} {P : α → Prop} {table : String} (hraw : q.raw = true) :
    IsTableFilter P policy q table none := by
  refine ⟨⟨fun h => (by cases h), fun h => ?_⟩, fun t ht => (by cases ht)⟩
  rw [hraw] at h
  cases h.1

theorem isTableFilter_of_not_raw {α : Type} {P : α → Prop} {table : String} {filter : Option α}
    (hraw : ¬ q.raw = true) (hsome : filter.isSome = true ↔ policy.filters table ≠ [])
    (hfilter : ∀ t, filter = some t → P t) : IsTableFilter P policy q table filter := by
  refine ⟨?_, hfilter⟩
  rw [hsome]
  exact ⟨fun h => ⟨Bool.eq_false_iff.mpr hraw, h⟩, fun h => h.2⟩

/-- The scope in which the filters of a join are compiled. -/
def joinedScope (s : Scope) (j : Join) : Scope := { s with table := j.table, label := j.label }

/-- The joins of a ledger come back behind a part that reads the rows of one of them. -/
theorem outcome_withJoined {α : Type} {j : Join} {part : Compile α} :
    (withJoined j part).outcome s l =
      match part.outcome (joinedScope s j) { l with joins := .empty } with
      | (.ok a, l') => (.ok a, { l' with joins := l.joins })
      | (.error e, l') => (.error e, { l' with joins := l.joins }) := by
  have hget : (get : Compile Ledger).outcome s l = (.ok l, l) := rfl
  have hmodify : (modify fun l => { l with joins := .empty } : Compile Unit).outcome s l =
      (.ok (), { l with joins := .empty }) := rfl
  have hpart : (withReader (fun s => { s with table := j.table, label := j.label }) part).outcome s
      { l with joins := .empty } = part.outcome (joinedScope s j) { l with joins := .empty } := rfl
  unfold withJoined
  simp only [Compile.outcome_bind, Compile.outcome_tryCatch, hget, hmodify, hpart]
  cases part.outcome (joinedScope s j) { l with joins := .empty } with
  | mk r l' => cases r <;> rfl

theorem yields_withJoined {α : Type} {j : Join} {part : Compile α} {a : α} :
    (withJoined j part).Yields s l a l' ↔ ∃ l₁,
      part.Yields (joinedScope s j) { l with joins := .empty } a l₁ ∧
        l' = { l₁ with joins := l.joins } := by
  unfold Compile.Yields
  rw [outcome_withJoined]
  constructor
  · intro h
    split at h
    · rename_i l₁ hpart
      cases h
      exact ⟨l₁, hpart, rfl⟩
    · cases h
  · rintro ⟨l₁, hpart, rfl⟩
    rw [hpart]

theorem error_withJoined {α : Type} {j : Join} {part : Compile α} {e : CompileError} :
    (withJoined j part).outcome s l = (.error e, l') ↔ ∃ l₁,
      part.outcome (joinedScope s j) { l with joins := .empty } = (.error e, l₁) ∧
        l' = { l₁ with joins := l.joins } := by
  rw [outcome_withJoined]
  constructor
  · intro h
    split at h
    · cases h
    · rename_i l₁ hpart
      cases h
      exact ⟨l₁, hpart, rfl⟩
  · rintro ⟨l₁, hpart, rfl⟩
    rw [hpart]

theorem joinsOk_empty (s : Scope) (l : Ledger) : JoinsOk s { l with joins := .empty } :=
  Joins.wellFormed_empty

/-- The tables with one more, unless it is among them. -/
def withTable (tables : List String) (table : String) : List String :=
  if tables.contains table then tables else tables ++ [table]

/-- How a join is written. Its filters are compiled, unless the query is raw, from a ledger without
    joins; of what they leave in `inner` the joins are dropped. -/
structure JoinStep (policy : Policy) (q : Query) (s : Scope) (l : Ledger) (j : Join) (t : Template)
    (l' : Ledger) (filter : Option Template) (inner : Ledger) : Prop where
  text : t = joinHead policy q s.schema j ++ andAlso filter
  ledger : l' = { inner with
    joins := l.joins, dependencies := withTable inner.dependencies j.table }
  filters : q.raw = true ∧ filter = none ∧ inner = l ∨ ¬ q.raw = true ∧
    (compileTableFilters policy j.table).Yields (joinedScope s j) { l with joins := .empty } filter
      inner

theorem JoinStep.joins {j : Join} {t : Template} {filter : Option Template} {inner : Ledger}
    (h : JoinStep policy q s l j t l' filter inner) : l'.joins = l.joins := by rw [h.ledger]

theorem yields_compileJoin {j : Join} {t : Template}
    (h : (compileJoin policy q j).Yields s l t l') :
    ∃ filter inner, JoinStep policy q s l j t l' filter inner := by
  unfold compileJoin at h
  simp only [Compile.ite_bind, Compile.yields_bind, Compile.yields_read, Compile.yields_pure] at h
  obtain ⟨filter, l₁, hfilter, _, _, hmodify, _, _, ⟨rfl, rfl⟩, htext, rfl⟩ := h
  have hledger : l' = { l₁ with dependencies := withTable l₁.dependencies j.table } := by
    rw [Compile.yields_modify.mp hmodify]
    unfold withTable
    split <;> rfl
  split at hfilter
  · rename_i hraw
    obtain ⟨rfl, rfl⟩ := Compile.yields_pure.mp hfilter
    exact ⟨none, l₁, htext, hledger, .inl ⟨hraw, rfl, rfl⟩⟩
  · rename_i hraw
    obtain ⟨inner, hpart, rfl⟩ := yields_withJoined.mp hfilter
    exact ⟨filter, inner, htext, hledger, .inr ⟨hraw, hpart⟩⟩

/-- The joins of a statement are written one after the other. -/
inductive JoinSteps (policy : Policy) (q : Query) (s : Scope) :
    Ledger → List (String × Join) → List Template → Ledger → Prop
  | nil {l : Ledger} : JoinSteps policy q s l [] [] l
  | cons {l l₁ l' inner : Ledger} {entry : String × Join} {entries : List (String × Join)}
      {t : Template} {ts : List Template} {filter : Option Template}
      (h : JoinStep policy q s l entry.2 t l₁ filter inner)
      (rest : JoinSteps policy q s l₁ entries ts l') :
      JoinSteps policy q s l (entry :: entries) (t :: ts) l'

theorem joinSteps_of_mapM {entries : List (String × Join)} {ts : List Template}
    (h : (entries.mapM fun entry => compileJoin policy q entry.2).Yields s l ts l') :
    JoinSteps policy q s l entries ts l' := by
  induction entries generalizing l ts with
  | nil =>
    obtain ⟨rfl, rfl⟩ := Compile.yields_pure.mp h
    exact .nil
  | cons entry entries ih =>
    simp only [List.mapM_cons, Compile.yields_bind, Compile.yields_pure] at h
    obtain ⟨t, l₁, hjoin, more, l₂, hmore, rfl, rfl⟩ := h
    obtain ⟨filter, inner, hstep⟩ := yields_compileJoin hjoin
    exact .cons hstep (ih hmore)

theorem JoinSteps.joins {entries : List (String × Join)} {ts : List Template}
    (h : JoinSteps policy q s l entries ts l') : l'.joins = l.joins := by
  induction h with
  | nil => rfl
  | cons h _ ih => exact ih.trans h.joins

theorem yields_compileJoins {t : Template} (h : (compileJoins policy q).Yields s l t l') :
    l'.joins = l.joins ∧ ∃ ts, t = .intercalate "\n" ts ∧
      (l.joins.entries.mapM fun entry => compileJoin policy q entry.2).Yields s l ts l' := by
  unfold compileJoins at h
  simp only [Compile.yields_bind, Compile.yields_get, Compile.yields_pure] at h
  obtain ⟨_, l, ⟨rfl, rfl⟩, ts, l₁, hjoins, rfl, rfl⟩ := h
  exact ⟨(joinSteps_of_mapM hjoins).joins, ts, rfl, hjoins⟩

theorem joined_of_mem {entry : String × Join} (h : entry ∈ l.joins.entries) : Joined l entry.2 := by
  obtain ⟨place, hplace⟩ := List.mem_iff_getElem?.mp h
  exact ⟨place, entry.1, hplace⟩

end QuerySheet.Sql

import QuerySheet.Proofs.Sql.Nesting
import QuerySheet.Proofs.Sql.Phases

/-!
# Properties of the clauses of a statement

The clauses in front of the joins compile expressions and note the types of the selected columns.
Columns are compiled with the orders of the query in scope, and the policy's filters without looking
through references. A property that has these `ClauseSteps` too is one of every clause. Inside the
columns it may be another property than outside of them, since it may depend on the orders in scope.
With the `StatementSteps` it is one of whole statements (`holds_piecesWith`).

A relation of ledgers that is followed by the steps leads from the begin of a statement to its joins
(`Phases.Valid.moves`).
-/

namespace QuerySheet.Sql

open Compile (Moves Follows Holds)

variable {P P' : (α : Type) → Compile α → Compile α → Prop} {orders : List Json}
  {policy : Policy} {q : Query} {s : Scope} {l : Ledger} {window window' : Compile Template}

/-- A property `P` that the steps of the clauses have, and `P'` of the steps inside columns, where
    the orders are in scope. -/
structure ClauseSteps (orders : List Json) (P P' : (α : Type) → Compile α → Compile α → Prop) : Prop
    extends Steps Part.AnyName P where
  inner : Steps Part.AnyName P'
  withOrders : ∀ {α : Type} {m m' : Compile α}, P' α m m' →
    P α (withReader (fun s => { s with orders := some orders }) m)
      (withReader (fun s => { s with orders := some orders }) m')
  withoutRefs : ∀ {α : Type} {m m' : Compile α}, P α m m' →
    P α (withReader (fun s => { s with validateRefs := false }) m)
      (withReader (fun s => { s with validateRefs := false }) m')
  setOutputType : ∀ name type, Holds P (setOutputType name type)
  /-- Where no orders are in scope a window is empty. -/
  window : Holds P Sql.window

/-- A relation of ledgers, in which other orders or reading references as they are stored make no
    difference. -/
theorem clauseSteps_of_follows {R : Scope → Ledger → Ledger → Prop} (hR : Compile.Trace R)
    (hsteps : Steps Part.AnyName (Follows R))
    (horders : ∀ s orders l l', R { s with orders } l l' → R s l l')
    (hrefs : ∀ s validateRefs l l', R { s with validateRefs } l l' → R s l l')
    (htypes : ∀ name type, Moves R (setOutputType name type)) :
    ClauseSteps orders (Follows R) (Follows R) where
  toSteps := hsteps
  inner := hsteps
  withOrders h s l := horders s (some orders) l _ (h { s with orders := some orders } l)
  withoutRefs h s l := hrefs s false l _ (h { s with validateRefs := false } l)
  setOutputType := htypes
  window := holds_windowOf hsteps (.fail hR _) maxNesting

theorem extends_setOutputType (name : String) (type : ValueType) :
    Moves Extends (setOutputType name type) :=
  extends_of_joins fun _ _ => ⟨rfl, rfl⟩

theorem clauseSteps_extends (orders : List Json) :
    ClauseSteps orders (Follows Extends) (Follows Extends) :=
  clauseSteps_of_follows trace_extends steps_extends (fun _ _ _ _ h => h) (fun _ _ _ _ h => h)
    extends_setOutputType

/-! ## 1. Select -/

theorem holds_rowsWith (hP : Steps Part.AnyName P)
    (hw : OrdersSum orders → P _ window window') :
    P _ (rowsWith window orders) (rowsWith window' orders) :=
  inStep_rowsWith hP.toPartSteps.lockstep orders hw

section Clauses

variable (hP : ClauseSteps orders P P')

include hP

theorem holds_column (o : Operand) (name : String) : Holds P (column o name) :=
  hP.bind (hP.setOutputType name o.type) fun _ => hP.pure _

theorem holds_allColumns : Holds P allColumns := by
  unfold allColumns
  refine hP.bind hP.read fun _ => hP.bind (hP.require _ _ (by simp)) fun _ =>
    hP.bind (hP.forM _ fun _ => ?_) fun _ => hP.pure _
  exact hP.setOutputType _ _

theorem holds_namedColumnWith (name : String) (value : Json)
    (hw : ∀ call, value = .object call → (Part.function call).Sums → P' _ window window') :
    P _ (namedColumnWith window orders name value) (namedColumnWith window' orders name value) := by
  unfold namedColumnWith
  split
  · exact hP.fail _ (by simp)
  · split
    · exact hP.bind (holds_compileExpr hP.toSteps hP.window _) fun _ => holds_column hP _ _
    · rename_i call
      refine hP.bind (hP.withOrders ?_) fun _ => holds_column hP _ _
      exact holds_part hP.inner (.function call) (Part.names_any _) (hw call rfl)
    · exact hP.bind (holds_compileExpr hP.toSteps hP.window _) fun _ => holds_column hP _ _

theorem holds_selectItemWith (item : Json) (hw : ItemSums item → P' _ window window') :
    P _ (selectItemWith window orders item) (selectItemWith window' orders item) := by
  unfold selectItemWith
  split
  · split
    · exact hP.bind (holds_allColumns hP) fun _ => hP.pure _
    · exact hP.bind (holds_compileExpr hP.toSteps hP.window _) fun _ =>
        hP.bind (holds_column hP _ _) fun _ => hP.pure _
  · rename_i fields
    refine hP.mapM _ fun field hfield => holds_namedColumnWith hP _ _ fun call hcall hsums => ?_
    exact hw ⟨fields, field.1, call, rfl, hcall ▸ hfield, hsums⟩
  · exact hP.fail _ (by simp)

theorem holds_selectWith (hq : q.orders = orders)
    (hw : (∃ item ∈ q.selection, ItemSums item) → P' _ window window') :
    P _ (selectWith window q) (selectWith window' q) := by
  subst hq
  refine hP.within _ _ (hP.bind (hP.mapM _ fun item hitem => ?_) fun _ => hP.pure _)
  refine holds_selectItemWith hP item fun hsums => hw ⟨item, ?_, hsums⟩
  unfold selectItems at hitem
  split at hitem
  · exact hitem
  · rcases List.mem_cons.mp hitem with rfl | hitem
    · obtain ⟨_, _, _, he, -⟩ := hsums
      cases he
    · exact hitem

/-! ## 2. Filters and the other clauses -/

omit hP in
theorem holds_filters_of_conditions (hP : Compile.Closed P) {filters : List Json}
    (h : Holds P (compileConditions (.array filters))) : Holds P (compileFilters filters) := by
  unfold compileFilters compileAnd
  refine hP.within _ _ ?_
  split
  · exact hP.pure _
  · exact hP.bind h fun _ => hP.pure _

theorem holds_compileFilters (filters : List Json) : Holds P (compileFilters filters) :=
  holds_filters_of_conditions hP.toClosed (holds_compileConditions hP.toSteps hP.window _)

theorem holds_compileTableFilters (policy : Policy) (table : String) :
    Holds P (compileTableFilters policy table) := by
  unfold compileTableFilters
  dsimp only
  split
  · exact hP.pure _
  · split
    · exact hP.fail _ (by simp)
    · exact hP.withoutRefs (hP.bind (holds_compileFilters hP _) fun _ => hP.pure _)

theorem holds_ownFilters (table : String) : Holds P (ownFilters policy q table) := by
  unfold ownFilters
  split
  · exact hP.pure _
  · exact holds_compileTableFilters hP policy table

theorem holds_compileGroupBy (groups : List Json) : Holds P (compileGroupBy groups) := by
  have hgroup (e : Json) : Holds P (compileGroup e) := by
    unfold compileGroup
    split
    · exact hP.bind (holds_compileExpr hP.toSteps hP.window _) fun _ => hP.pure _
    · exact hP.bind (holds_compileExpr hP.toSteps hP.window _) fun _ => hP.pure _
  exact hP.within _ _ (hP.bind (hP.mapM groups fun e _ => hgroup e) fun _ => hP.pure _)

theorem holds_clause {keyword : String} {expressions : List Json}
    {compile : List Json → Compile Template} (h : Holds P (compile expressions)) :
    Holds P (clause keyword expressions compile) := by
  unfold clause
  split
  · exact hP.pure _
  · exact hP.bind h fun _ => hP.pure _

end Clauses

/-! ## 3. Up to the joins -/

theorem Phases.Valid.moves {R : Scope → Ledger → Ledger → Prop} (hR : Compile.Trace R)
    (hP : ClauseSteps q.orders (Follows R) (Follows R)) {p : Phases policy q s} (h : p.Valid l) :
    R s l p.ordered := by
  have hcolumns : Follows R Template (selectWith Sql.window q) (selectWith Sql.window q) :=
    holds_selectWith hP rfl fun _ => hP.window
  have horders : Moves R (clause "ORDER BY" q.orders compileOrderBy) :=
    holds_clause hP (holds_compileOrderBy hP.toSteps hP.window _)
  have hselect := Moves.yields hcolumns h.select
  have hown := Moves.yields (holds_compileFilters hP _) h.own
  have hextra := Moves.yields (holds_ownFilters hP _) h.extra
  have hgroup := Moves.yields (holds_clause hP (holds_compileGroupBy hP _)) h.groupBy
  have horder := horders.yields h.orderBy
  have htrans {l₁ l₂ l₃ : Ledger} : R s l₁ l₂ → R s l₂ l₃ → R s l₁ l₃ := hR.trans s l₁ l₂ l₃
  exact htrans hselect (htrans hown (htrans hextra (htrans hgroup horder)))

/-! ## 4. Whole statements -/

/-- A property that the steps of a whole statement have: the filters of a join are compiled among
    its rows, its table is noted, and its sites are moved to where its text stands. -/
structure StatementSteps (orders : List Json)
    (P P' : (α : Type) → Compile α → Compile α → Prop) : Prop extends ClauseSteps orders P P' where
  withJoined : ∀ {α : Type} {m m' : Compile α} (j : Join), P α m m' →
    P α (Sql.withJoined j m) (Sql.withJoined j m')
  modify : ∀ g, Holds P (modify g : Compile Unit)

section Statements

variable (hP : StatementSteps orders P P')

include hP

theorem holds_compileJoin (j : Join) : Holds P (compileJoin policy q j) := by
  have hrest (filters : Option Template) : Holds P (do
      modify fun l => if l.dependencies.contains j.table then l
        else { l with dependencies := l.dependencies ++ [j.table] }
      return joinHead policy q (← read).schema j ++ andAlso filters : Compile Template) :=
    hP.bind (hP.modify _) fun _ => hP.bind hP.read fun _ => hP.pure _
  unfold compileJoin
  split
  · exact hP.bind (hP.pure _) hrest
  · exact hP.bind (hP.withJoined j (holds_compileTableFilters hP.toClauseSteps policy _)) hrest

theorem holds_compileJoins : Holds P (compileJoins policy q) :=
  hP.bind hP.get fun _ =>
    hP.bind (hP.mapM _ fun entry _ => holds_compileJoin hP entry.2) fun _ => hP.pure _

theorem holds_piecesAfter (relation : String) (select : Template) :
    Holds P (piecesAfter policy q relation select) := by
  have hclauses := hP.toClauseSteps
  have hrest (selectEnd : Nat) (own : Template) (extra : Option Template) :
      Holds P (do
        let groupBy ← clause "GROUP BY" q.groups compileGroupBy
        let orderBy ← clause "ORDER BY" q.orders compileOrderBy
        let joinStart ← Compile.mark
        let joins ← compileJoins policy q
        Compile.moveSites joinStart selectEnd
        return ({
          select, relation, joins
          filter := "WHERE " ++ own ++ andAlso extra
          groupBy, orderBy
          limit := q.limit
          offset := q.offset } : Pieces)) :=
    hP.bind (holds_clause hclauses (holds_compileGroupBy hclauses _)) fun _ =>
      hP.bind (holds_clause hclauses (holds_compileOrderBy hP.toSteps hP.window _)) fun _ =>
        hP.bind hP.mark fun _ => hP.bind (holds_compileJoins hP) fun _ =>
          hP.bind (hP.modify _) fun _ => hP.pure _
  unfold piecesAfter
  refine hP.bind hP.mark fun selectEnd =>
    hP.bind (holds_compileFilters hclauses _) fun own => ?_
  split
  · exact hP.bind (hP.pure _) fun extra => hrest selectEnd own extra
  · exact hP.bind (holds_compileTableFilters hclauses _ _) fun extra => hrest selectEnd own extra

theorem holds_piecesWith (hq : q.orders = orders)
    (hw : (∃ item ∈ q.selection, ItemSums item) → P' _ window window') :
    P _ (piecesWith window policy q) (piecesWith window' policy q) :=
  hP.bind hP.read fun _ => hP.bind (holds_selectWith hP.toClauseSteps hq hw) fun _ =>
    holds_piecesAfter hP _ _

end Statements

end QuerySheet.Sql

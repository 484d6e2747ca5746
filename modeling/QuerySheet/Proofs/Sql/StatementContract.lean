import QuerySheet.Proofs.Sql.Contract
import QuerySheet.Proofs.Sql.Phases

/-!
# Contracts of statements

The clauses of a statement compile expressions, note the types of the selected columns, and put the
joins of the statement aside while the filters of one of them are compiled. A contract that allows
these steps too (`Contract.Clauses`) is met by the pieces of every statement
(`meets_compilePieces`).
-/

namespace QuerySheet.Sql

variable {C : Contract} {α : Type} {s : Scope} {l : Ledger}

/-- What a contract asks of the steps of a statement. The joins of the statement are put aside
    while the filters of one of its joins are compiled, and taken up again. -/
structure Contract.Clauses (C : Contract) : Prop extends C.Lawful where
  notes : ∀ {s l} (dependencies outputTypes), C.inv s l →
    C.inv s { l with dependencies, outputTypes } ∧ C.grows l { l with dependencies, outputTypes }
  moveSites : ∀ source target, C.Runs (Compile.moveSites source target)
  unknownTable : ∀ {s l}, C.inv s l → s.schema.table? s.table = none →
    C.error (.ofCause (.unknownTable s.table))
  joined : ∀ {s l l₁ entry}, C.inv s l → entry ∈ l.joins.entries → C.inv s l₁ →
    C.inv (joinedScope s entry.2) { l₁ with joins := .empty }
  returned : ∀ {s s' l l'}, C.inv s l → C.inv s' l' → C.grows { l with joins := .empty } l' →
    C.inv s { l' with joins := l.joins } ∧ C.grows l { l' with joins := l.joins }

section Clauses

variable (hC : C.Clauses) {policy : Policy} {q : Query}

include hC

theorem meets_setOutputType (name : String) (type : ValueType) : C.Runs (setOutputType name type) :=
  fun _ l => Contract.meets_modify fun hl =>
    have h := hC.notes l.dependencies (l.outputTypes.insert name type) hl
    ⟨h.1, h.2, trivial⟩

theorem meets_column (o : Operand) (name : String) : C.Runs (column o name) :=
  fun s l => hC.returns (meets_setOutputType hC name o.type s l)

theorem meets_allColumns : C.Runs allColumns := by
  intro s l hl
  refine Contract.meets_read (hC.bind (Q := fun _ _ => True) ?_ fun t l₁ _ _ => ?_) hl
  · exact hC.require (fun _ _ => trivial) (hC.unknownTable hl)
  · exact hC.returns (hC.forM _ fun _ _ l => meets_setOutputType hC _ _ s l)

theorem meets_compileNamedColumn (orders : List Json) (name : String) (value : Json) :
    C.Runs (compileNamedColumn orders name value) := by
  intro s l
  have hexpr (e : Json) : C.Meets (compileExpr e) C.operand C.error s l :=
    meets_compileExpr hC.toLawful e s l
  unfold compileNamedColumn
  split
  · exact hC.refuse trivial
  · split
    · exact hC.bind (hexpr _) fun _ l₁ _ _ => meets_column hC _ _ s l₁
    · rename_i call
      have hcall := meets_compileFunction hC.toLawful call { s with orders := some orders } l
      exact hC.bind (hC.withReader (fun s => { s with orders := some orders }) rfl rfl rfl hcall)
        fun _ l₁ _ _ => meets_column hC _ _ s l₁
    · exact hC.bind (hexpr _) fun _ l₁ _ _ => meets_column hC _ _ s l₁

theorem meets_compileSelectItem (orders : List Json) (item : Json) :
    C.Runs (compileSelectItem orders item) := by
  intro s l
  unfold compileSelectItem
  split
  · split
    · exact hC.returns (meets_allColumns hC s l)
    · exact hC.bind (meets_compileExpr hC.toLawful _ s l) fun _ l₁ _ _ =>
        hC.returns (meets_column hC _ _ s l₁)
  · exact hC.mapM _ fun _ _ l => meets_compileNamedColumn hC orders _ _ s l
  · exact hC.refuse trivial

theorem meets_compileSelect (q : Query) : C.Runs (compileSelect q) :=
  hC.entry fun s _ =>
    hC.returns (hC.mapM _ fun item _ l => meets_compileSelectItem hC q.orders item s l)

theorem meets_compileFilters (filters : List Json) : C.Runs (compileFilters filters) :=
  hC.entry (meets_compileAnd hC.toLawful _)

theorem meets_compileTableFilters (table : String) : C.Runs (compileTableFilters policy table) := by
  intro s l
  unfold compileTableFilters
  dsimp only
  split
  · exact hC.pure trivial
  · split
    · exact hC.refuse trivial
    · have hfilters : C.Runs (do return some (← compileFilters (policy.filters table)) :
          Compile (Option Template)) :=
        fun s l => hC.returns (meets_compileFilters hC _ s l)
      exact hC.withReader (fun s => { s with validateRefs := false }) rfl rfl rfl (hfilters _ l)

theorem meets_ownFilters (table : String) : C.Runs (ownFilters policy q table) := by
  unfold ownFilters
  split
  · exact fun _ _ => hC.pure trivial
  · exact meets_compileTableFilters hC table

theorem meets_compileGroupBy (groups : List Json) : C.Runs (compileGroupBy groups) := by
  have hgroup (e : Json) : C.Runs (compileGroup e) := by
    intro s l
    unfold compileGroup
    split
    · exact hC.returns (meets_compileExpr hC.toLawful _ s l)
    · exact hC.returns (meets_compileExpr hC.toLawful _ s l)
  exact hC.entry fun s _ => hC.returns (hC.mapM groups fun e _ l => hgroup e s l)

theorem meets_clause {keyword : String} {expressions : List Json}
    {compile : List Json → Compile Template} (h : C.Runs (compile expressions)) :
    C.Runs (clause keyword expressions compile) := by
  intro s l
  unfold clause
  split
  · exact hC.pure trivial
  · exact hC.returns (h s l)

theorem meets_withJoined {j : Join} {part : Compile α} (hpart : C.Runs part)
    (hj : ∀ l, C.inv s l → C.inv (joinedScope s j) { l with joins := .empty }) :
    C.Meets (withJoined j part) (fun _ _ => True) C.error s l := by
  intro hl
  rw [outcome_withJoined]
  rcases (hpart (joinedScope s j) { l with joins := .empty }).ends (hj l hl) with
    ⟨a, l', hm, hl', hgrows, -⟩ | ⟨e, l', hm, hl', hgrows, he⟩
  · rw [hm]
    obtain ⟨hback, hgrows⟩ := hC.returned hl hl' hgrows
    exact ⟨hback, hgrows, trivial⟩
  · rw [hm]
    obtain ⟨hback, hgrows⟩ := hC.returned hl hl' hgrows
    exact ⟨hback, hgrows, he⟩

theorem meets_compileJoin {j : Join}
    (hj : ∀ l, C.inv s l → C.inv (joinedScope s j) { l with joins := .empty }) :
    C.Meets (compileJoin policy q j) (fun _ _ => True) C.error s l := by
  have hrest (filters : Option Template) (l : Ledger) : C.Meets (do
      modify fun l => if l.dependencies.contains j.table then l
        else { l with dependencies := l.dependencies ++ [j.table] }
      return joinHead policy q (← MonadReader.read).schema j ++ andAlso filters : Compile Template)
      (fun _ _ => True) C.error s l := by
    refine hC.bind (Contract.meets_modify (Q := fun _ _ => True) fun hl => ?_) fun _ l₁ _ _ => ?_
    · split
      · exact ⟨hl, hC.refl l, trivial⟩
      · have h := hC.notes (l.dependencies ++ [j.table]) l.outputTypes hl
        exact ⟨h.1, h.2, trivial⟩
    · exact Contract.meets_read (hC.pure trivial)
  unfold compileJoin
  split
  · exact hC.bind (Q := fun _ _ => True) (hC.pure trivial) fun filters l₁ _ _ => hrest filters l₁
  · exact hC.bind (meets_withJoined hC (meets_compileTableFilters hC j.table) hj)
      fun filters l₁ _ _ => hrest filters l₁

theorem meets_compileJoins (policy : Policy) (q : Query) : C.Runs (compileJoins policy q) := by
  intro s l hl
  refine Contract.meets_get (hC.returns (hC.mapM _ fun entry hentry l => ?_)) hl
  exact meets_compileJoin hC fun _ => hC.joined hl hentry

/-- The pieces of a statement meet a contract. -/
theorem meets_compilePieces (policy : Policy) (q : Query) : C.Runs (compilePieces policy q) := by
  intro s l
  unfold compilePieces
  refine Contract.meets_read ?_
  refine hC.bind (meets_compileSelect hC q s l) fun _ l _ _ => ?_
  refine hC.bind (hC.mark s l) fun _ l _ _ => ?_
  refine hC.bind (meets_compileFilters hC _ s l) fun _ l _ _ => ?_
  rw [Compile.ite_bind]
  refine hC.bind (meets_ownFilters hC q.table s l) fun _ l _ _ => ?_
  refine hC.bind (meets_clause hC (meets_compileGroupBy hC _) s l) fun _ l _ _ => ?_
  refine hC.bind (meets_clause hC (meets_compileOrderBy hC.toLawful _) s l) fun _ l _ _ => ?_
  refine hC.bind (hC.mark s l) fun _ l _ _ => ?_
  refine hC.bind (meets_compileJoins hC policy q s l) fun _ l _ _ => ?_
  exact hC.returns (hC.moveSites _ _ s l)

end Clauses

end QuerySheet.Sql

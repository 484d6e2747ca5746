import Mathlib
import QuerySheet.Proofs.Sheet.Batching
import QuerySheet.Proofs.Sql.Introduced

/-!
# Changes of the database

A query notes the tables that it reads when it compiles, and a change of the database computes
again the cells whose queries have noted one of the changed tables.

* `dependencies_of_compile`: what is noted is the root table, and the table of every join in the
  order of the joins, each table once;
* `Cell.Stale`: a cell is bound to a query that reads a changed table. `tablesChanged_eq`: a change
  queues what can be reached from these cells;
* `SameBindings`: what a cell is bound to and what it reads. Computing changes neither;
* `invalidated_of_change`: all of it, for every query and every sheet that calls lead to.
-/

namespace QuerySheet

/-! ## 1. The tables of a query -/

theorem nodup_eraseDups (names : List String) : names.eraseDups.Nodup := by
  cases names with
  | nil => exact List.nodup_nil
  | cons name names =>
    rw [List.eraseDups_cons, List.nodup_cons]
    exact ⟨by simp, nodup_eraseDups _⟩
termination_by names.length
decreasing_by exact Nat.lt_succ_of_le (List.length_filter_le _ _)

namespace Sql

/-- A table that is noted behind others is erased if it is among them. -/
theorem eraseDups_concat (tables : List String) (table : String) :
    (tables ++ [table]).eraseDups = withTable tables.eraseDups table := by
  rw [List.eraseDups_append]
  by_cases h : table ∈ tables <;> simp [withTable, List.removeAll, h, List.eraseDups_cons]

/-- The joins note their tables in their order. -/
theorem JoinSteps.tables {policy : Policy} {q : Query} {s : Scope} {l l' : Ledger}
    {entries : List (String × Join)} {ts : List Template}
    (h : JoinSteps policy q s l entries ts l') {tables : List String}
    (htables : l.dependencies = tables.eraseDups) :
    l'.dependencies = (tables ++ entries.map (·.2.table)).eraseDups := by
  induction h generalizing tables with
  | nil => rw [List.map_nil, List.append_nil, htables]
  | @cons _ _ _ _ entry _ _ _ _ h _ ih =>
    have hnext := ih (h.dependencies.trans (htables ▸ (eraseDups_concat tables entry.2.table).symm))
    rw [hnext, List.append_assoc]
    rfl

end Sql

open Sql

/-- The tables that a query reads: the root, and the tables of the joins. -/
theorem CompiledQuery.dependencies_of_compile {q : Query} {schema : Schema} {policy : Policy}
    {c : CompiledQuery} (h : q.compile schema policy = .ok c) :
    c.dependencies = (c.query.table :: c.ledger.joins.entries.map (·.2.table)).eraseDups := by
  obtain ⟨-, -, p, hp, -, -, -, hledger⟩ := phases_of_compile h
  have hroot : p.ordered.dependencies = [c.query.table] :=
    hp.moves trace_sameTables (clauseSteps_sameTables _)
  obtain ⟨hsame, ts, -, hjoins⟩ := yields_compileJoins hp.joins
  have hall : c.ledger.joins = p.ordered.joins := by
    rw [hledger]
    exact hsame
  have hread : c.dependencies = p.joined.dependencies := by
    rw [dependencies, hledger]
    rfl
  have hnoted : p.ordered.dependencies = [c.query.table].eraseDups := hroot
  rw [hread, hall]
  exact (joinSteps_of_mapM hjoins).tables hnoted

/-! ## 2. The cells of a change -/

/-- The cell is bound to a query that reads one of some tables. -/
def Cell.Stale (tables : List String) (c : Cell) : Prop :=
  ∃ handle compiled, c.binding = .query handle compiled ∧
    ∃ table ∈ compiled.dependencies, table ∈ tables

namespace Sheet

variable {s s' t : Sheet} {name a : String}

theorem readsTable_iff {tables : List String} {c : Cell} :
    readsTable tables c = true ↔ c.Stale tables := by
  unfold readsTable Cell.Stale
  split
  · rename_i handle compiled h
    simp only [List.any_eq_true, List.contains_iff_mem]
    exact ⟨fun hread => ⟨handle, compiled, h, hread⟩, fun ⟨_, _, h', hread⟩ => by
      cases h.symm.trans h'; exact hread⟩
  · rename_i hnone
    exact ⟨nofun, fun ⟨handle, compiled, h, _⟩ => absurd h (hnone handle compiled)⟩

/-- The names of the cells that a change makes dirty. -/
def staleNames (s : Sheet) (tables : List String) : List String :=
  (s.cells.toList.filter fun (_, c) => readsTable tables c).map (·.1)

theorem mem_staleNames {tables : List String} :
    name ∈ s.staleNames tables ↔ ∃ c, s.cell? name = some c ∧ c.Stale tables := by
  unfold staleNames
  simp only [List.mem_map, List.mem_filter, readsTable_iff, Prod.exists,
    Std.ExtTreeMap.mem_toList_iff_getElem?_eq_some]
  exact ⟨fun ⟨_, c, h, e⟩ => ⟨c, e ▸ h⟩, fun ⟨c, h⟩ => ⟨name, c, h, rfl⟩⟩

/-- Where no transaction is open, a change queues what can be reached from the stale cells. -/
theorem tablesChanged_eq (hdepth : s.depth = 0) (hdirty : s.dirty = []) (tables : List String) :
    s.tablesChanged tables = s.enqueue (s.graph.topologicalSort (s.staleNames tables)) := by
  have hclosed : { s with depth := 0, dirty := [] } = s := by
    cases s
    cases hdepth
    cases hdirty
    rfl
  show s.invalidate (s.staleNames tables) = _
  unfold invalidate
  rw [foldl_markDirty]
  unfold endTransaction startTransaction
  simp only [hdepth, hdirty, Nat.zero_add, Nat.sub_self, List.nil_append, if_pos]
  rw [hclosed]

/-! ## 3. Bindings -/

/-- Two sheets with the same cells, each of which is bound to the same and reads the same. -/
def SameBindings (s t : Sheet) : Prop :=
  ∀ a, (t.cell? a).map (fun c => (c.binding.uncounted, c.dependencies)) =
    (s.cell? a).map fun c => (c.binding.uncounted, c.dependencies)

namespace SameBindings

theorem refl (s : Sheet) : SameBindings s s := fun _ => rfl

theorem trans (h : SameBindings s t) (h' : SameBindings t s') : SameBindings s s' :=
  fun a => (h' a).trans (h a)

theorem of_sameCells (h : SameCells s t) : SameBindings s t := fun a => by rw [h.cell?]

theorem update {f : Cell → Cell} (hf : ∀ c, s.cell? name = some c →
    (f c).binding.uncounted = c.binding.uncounted ∧ (f c).dependencies = c.dependencies) :
    SameBindings s (s.update name f) := by
  intro a
  by_cases e : a = name
  · subst e
    rw [cell?_update_self]
    cases hc : s.cell? a with
    | none => rfl
    | some c =>
      obtain ⟨hbinding, hreads⟩ := hf c hc
      simp [hbinding, hreads]
  · rw [cell?_update_of_ne e]

theorem assign (v : Json) : SameBindings s (s.assign name v) := update fun _ _ => ⟨rfl, rfl⟩

theorem compute (s : Sheet) (name : String) : SameBindings s (s.compute name).1 := by
  unfold Sheet.compute
  cases hc : s.cell? name with
  | none => exact refl s
  | some c =>
    cases hb : c.binding with
    | unbound => simpa only [hb] using refl s
    | fixed => simpa only [hb] using refl s
    | dynamic run calls =>
      simp only [hb]
      have hcount : SameBindings s (s.update name (recount run calls)) := by
        refine update fun c' hc' => ⟨?_, rfl⟩
        cases hc.symm.trans hc'
        rw [hb]
        rfl
      exact hcount.trans (of_sameCells ⟨rfl, rfl⟩)
    | query handle compiled =>
      simp only [hb]
      split
      · exact refl s
      · exact of_sameCells ⟨rfl, rfl⟩

theorem runQueue (waiting : Bool) (s : Sheet) (index : Nat) (rest : List String) :
    SameBindings s (runQueue waiting s index rest) := by
  induction rest generalizing s index with
  | nil => exact of_sameCells (finish_frame s).1
  | cons name rest ih =>
    have hcompute := compute s name
    unfold Sheet.runQueue
    split
    · rename_i s₁ h
      rw [h] at hcompute
      exact hcompute.trans (ih s₁ (index + 1))
    · rename_i s₁ computed h
      rw [h] at hcompute
      refine hcompute.trans ?_
      split
      · exact of_sameCells ⟨rfl, rfl⟩
      · split
        · exact (assign _).trans (ih _ (index + 1))
        · exact of_sameCells ⟨rfl, rfl⟩

end SameBindings

/-- What an idle sheet keeps when names are queued: it computes no other cell. -/
theorem enqueue_frame (hidle : s.running = false) (hqueue : s.queue = []) (names : List String) :
    SameBindings s (s.enqueue names) ∧ ∀ a, a ∉ names → (s.enqueue names).cell? a = s.cell? a := by
  unfold enqueue
  split
  · exact ⟨.refl s, fun _ _ => rfl⟩
  · have hcells : SameCells s (s.setStatus .dirty) := .setStatus s .dirty
    have hschedule : (s.setStatus .dirty).schedule = s.schedule := schedule_setStatus
    generalize s.setStatus .dirty = t at hcells hschedule
    have htidle : t.running = false := (congrArg Schedule.running hschedule).trans hidle
    have htqueue : t.queue = [] := (congrArg Schedule.queue hschedule).trans hqueue
    dsimp only
    rw [if_neg (by simp [htidle]), htqueue, List.nil_append]
    refine ⟨(SameBindings.of_sameCells (hcells.trans ⟨rfl, rfl⟩)).trans (.runQueue _ _ _ _),
      fun a ha => ?_⟩
    obtain ⟨u, hran, hends⟩ := runQueue_ends false
      (rfl : { t with queue := names, running := true }.queue.drop 0 = names)
    have hkept : u.cell? a = t.cell? a := by
      cases hc : t.cell? a with
      | none => exact hran.missing a hc
      | some c => exact hran.kept a c hc (.inl ha)
    exact hends.sameCells.cell?.trans (hkept.trans hcells.cell?)

/-! ## 4. Changes -/

/-- A query that compiles notes its root table first and then the tables of its joins, each where it
    occurs first. Take any sheet that calls lead to, on which nothing is running and no transaction
    is open. A change of tables queues exactly the cells bound to a query that notes one of these
    tables, with all that can be reached from them, each once. It changes no binding and no edge,
    and no cell outside of the queue. -/
theorem invalidated_of_change (schema : Schema) (policy : Policy) :
    (∀ (q : Query) (c : CompiledQuery), q.compile schema policy = .ok c →
      c.dependencies.Nodup ∧
        c.dependencies = (c.query.table :: c.ledger.joins.entries.map (·.2.table)).eraseDups) ∧
    ∀ (executor : Option Executor) (ops : List Operation) (before after : List String),
      let s := (new schema policy executor).run ops
      let s' := s.tablesChanged (before ++ after)
      s.running = false → s.depth = 0 →
        ∃ order, s' = s.enqueue order ∧ order.Nodup ∧
          (∀ name, name ∈ order ↔ ∃ source c, s.cell? source = some c ∧
            c.Stale (before ++ after) ∧ s.graph.Reaches source name) ∧
          SameBindings s s' ∧
          (∀ a b, s'.graph.hasEdge a b = true ↔ s.graph.hasEdge a b = true) ∧
          ∀ name, name ∉ order → s'.cell? name = s.cell? name := by
  refine ⟨fun q c h => ?_, ?_⟩
  · rw [CompiledQuery.dependencies_of_compile h]
    exact ⟨nodup_eraseDups _, rfl⟩
  · intro executor ops before after s s' hidle hdepth
    have hregular : s.schedule.Regular := regular_run (regular_new schema policy executor) ops
    have htied : s.Tied := tied_run (tied_new schema policy executor) ops
    have hchange : s' = s.enqueue (s.graph.topologicalSort (s.staleNames (before ++ after))) :=
      tablesChanged_eq hdepth (hregular.closed hdepth) _
    obtain ⟨hbindings, hkept⟩ := enqueue_frame hidle (hregular.queue hidle)
      (s.graph.topologicalSort (s.staleNames (before ++ after)))
    refine ⟨_, hchange, Graph.nodup_topologicalSort _ _, fun name => ?_, hchange ▸ hbindings,
      (SameReads.invalidate s _).edge, hchange ▸ hkept⟩
    rw [Graph.mem_topologicalSort htied.acyclic]
    constructor
    · rintro ⟨source, hsource, hreaches⟩
      obtain ⟨c, hc, hstale⟩ := mem_staleNames.mp hsource
      exact ⟨source, c, hc, hstale, hreaches⟩
    · rintro ⟨source, c, hc, hstale, hreaches⟩
      exact ⟨source, mem_staleNames.mpr ⟨c, hc, hstale⟩, hreaches⟩

open CompiledQuery in
theorem compile_payeesOf : ∃ c, (payeesOf "transactions").compile nested .none = .ok c ∧
    decide (c.dependencies = ["transactions", "payees"]) = true := by
  refine compile_of_piecesPass (by cbv) ?_
  unfold piecesPass compilePieces
  rw [show Policy.none.customize (payeesOf "transactions") = payeesOf "transactions" from rfl,
    compileSelect_payeesOf, payeesOf, compileFilters_nil]
  decide +kernel

/-- The rows of a query, and a cell that reads them. -/
def rowsOf (handle : QueryHandle) : List Operation :=
  [.createQuery "" "a" handle, .createDynamic "" "b" ⟨["a"], copyNow, .null, false⟩]

theorem run_rowsOf {schema : Schema} {policy : Policy} {handle : QueryHandle} {c : CompiledQuery}
    (h : handle.query.compile schema policy = .ok c) :
    let s := (new schema policy none).run (rowsOf handle)
    (s.running, s.depth, s.cell? "a", s.graph.hasEdge "a" "b") =
      (false, 0, some ⟨.null, .query handle c, []⟩, true) := by
  have hcreate : ((new schema policy none).createQuery "" "a" handle).1 =
      (({ new schema policy none with graph := Graph.empty.removeIncoming "a" }.touch
        "a").update "a" fun d =>
          { d with binding := .query handle c, dependencies := [] }).invalidate ["a"] := by
    have hnone : (new schema policy none).cell? (CellName.qualify "" "a") = none := by cbv
    have hname : CellName.qualify "" "a" = "a" := by cbv
    have hcompile : handle.query.compile (new schema policy none).schema
        (new schema policy none).policy = .ok c := h
    unfold createQuery
    simp only [hname, hcompile]
    rfl
  simp only [run, rowsOf, List.foldl, Operation.apply, hcreate, createDynamic, List.map, connect,
    Graph.addEdge, ite_or, ← Bool.cond_eq_ite]
  clear hcreate h
  cbv

open CompiledQuery in
/-- Transactions are read with their payees, so a change of the payees queues both cells. -/
theorem invalidated_of_payees :
    ∃ c, (payeesOf "transactions").compile nested .none = .ok c ∧ c.dependencies.Nodup ∧
      c.dependencies = ["transactions", "payees"] ∧
      let s := (new nested .none none).run (rowsOf ⟨1, payeesOf "transactions"⟩)
      s.running = false ∧ s.depth = 0 ∧
        ∃ order, s.tablesChanged (["payees"] ++ []) = s.enqueue order ∧ order.Nodup ∧
          "a" ∈ order ∧ "b" ∈ order := by
  obtain ⟨c, hc, hdeps⟩ := compile_payeesOf
  have hdeps : c.dependencies = ["transactions", "payees"] := of_decide_eq_true hdeps
  obtain ⟨hcompiled, hchanged⟩ := invalidated_of_change nested .none
  have hrows := @run_rowsOf nested .none ⟨1, payeesOf "transactions"⟩ c hc
  obtain ⟨hidle, hdepth, hcell, hedge⟩ := by
    simpa only [Prod.mk.injEq] using hrows
  obtain ⟨order, horder, hnodup, hmem, -⟩ := hchanged none _ ["payees"] [] hidle hdepth
  have hstale : Cell.Stale (["payees"] ++ []) ⟨.null, .query ⟨1, payeesOf "transactions"⟩ c, []⟩ :=
    ⟨_, c, rfl, "payees", by rw [hdeps]; simp, by simp⟩
  exact ⟨c, hc, (hcompiled _ c hc).1, hdeps, hidle, hdepth, order, horder, hnodup,
    (hmem "a").mpr ⟨"a", _, hcell, hstale, .refl⟩,
    (hmem "b").mpr ⟨"a", _, hcell, hstale, .single hedge⟩⟩

end Sheet

end QuerySheet

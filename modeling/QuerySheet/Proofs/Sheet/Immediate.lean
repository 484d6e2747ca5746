import Mathlib
import QuerySheet.Proofs.Sheet.Suspension

/-!
# Outcomes at once and outcomes later

Whether the outcome of a computation is deferred decides when its cell gets a value, but after a
wait nothing shows of it.

* `Sheet.immediate`, `Operation.immediate`: the same with no outcome deferred;
* `settle_runQueue`: a queue that was suspended anywhere ends, once it is settled, as if somebody
  had waited from the start. `runQueue_immediate`: so it ends as if nothing were deferred;
* `Operation.immediate_settle`: the same of a call on an idle sheet;
* `wait_of_deferred`: two sheets that differ in what is deferred cannot be told apart after a call
  and a wait.
-/

namespace QuerySheet

open Std (ExtTreeMap)

/-! ## 1. Nothing is deferred -/

/-- The same outcome at once. -/
def Computed.immediate (r : Computed) : Computed := { r with deferred := false }

def Run.immediate (run : Run) : Run := fun calls args => (run calls args).immediate

def Executor.immediate (execute : Executor) : Executor := fun executions compiled =>
  (execute executions compiled).immediate

def Binding.immediate : Binding → Binding
  | .dynamic run calls => .dynamic run.immediate calls
  | b => b

def Cell.immediate (c : Cell) : Cell := { c with binding := c.binding.immediate }

namespace Sheet

def Definition.immediate (d : Definition) : Definition := { d with run := d.run.immediate }

def Operation.immediate : Operation → Operation
  | .createDynamic sheet name d => .createDynamic sheet name d.immediate
  | op => op

/-- The sheet whose computations have the same outcomes, all of them at once. -/
def immediate (s : Sheet) : Sheet :=
  { s with
    executor := s.executor.map Executor.immediate
    cells := s.cells.map fun _ c => c.immediate }

variable {s s' t : Sheet} {name a : String}

/-! ## 2. Cells -/

theorem cell?_immediate : s.immediate.cell? a = (s.cell? a).map Cell.immediate :=
  ExtTreeMap.getElem?_map

theorem value_immediate : s.immediate.value a = s.value a := by
  rw [value, cell?_immediate, value]
  cases s.cell? a <;> rfl

theorem hasCell_immediate : s.immediate.hasCell a = s.hasCell a := by
  rw [hasCell, hasCell, ← ExtTreeMap.isSome_getElem?_eq_contains,
    ← ExtTreeMap.isSome_getElem?_eq_contains]
  exact (congrArg Option.isSome cell?_immediate).trans Option.isSome_map

theorem names_immediate {sheet : String} : s.immediate.names sheet = s.names sheet := by
  simp [names, immediate, ExtTreeMap.keys_map]

/-- Two sheets with the same cells of every name, which differ in nothing else, are the same. -/
theorem eq_of_cells {cells : ExtTreeMap String Cell} (h : ∀ a : String, s.cells[a]? = cells[a]?) :
    s = { s with cells } := by
  rw [← ExtTreeMap.ext_getElem? h]

theorem immediate_update {f g : Cell → Cell} (h : ∀ c, (f c).immediate = g c.immediate) :
    (s.update name f).immediate = s.immediate.update name g := by
  refine eq_of_cells fun a => ?_
  by_cases e : name = a
  · simp [immediate, update, e, Function.comp_def, h]
  · simp [immediate, update, ExtTreeMap.getElem?_alter, e]

theorem immediate_assign {v : Json} : (s.assign name v).immediate = s.immediate.assign name v :=
  immediate_update fun _ => rfl

theorem immediate_touch : (s.touch name).immediate = s.immediate.touch name := by
  unfold touch
  rw [hasCell_immediate]
  split
  · rfl
  · refine eq_of_cells fun a => ?_
    by_cases e : name = a
    · simp [immediate, e, Cell.immediate, Cell.blank, Binding.immediate]
    · simp [immediate, ExtTreeMap.getElem?_insert, e]

theorem immediate_foldl_touch (names : List String) :
    (names.foldl touch s).immediate = names.foldl touch s.immediate := by
  induction names generalizing s with
  | nil => rfl
  | cons n names ih => rw [List.foldl_cons, List.foldl_cons, ih, immediate_touch]

theorem isDynamic_immediate (b : Binding) : b.immediate.isDynamic = b.isDynamic := by
  cases b <;> rfl

/-! ## 3. The queue -/

theorem immediate_setStatus {status : CacheStatus} :
    (s.setStatus status).immediate = s.immediate.setStatus status := by
  unfold setStatus
  rw [show s.immediate.status = s.status from rfl]
  split <;> rfl

theorem immediate_markClean : s.markClean.immediate = s.immediate.markClean := by
  unfold markClean
  rw [show s.immediate.barrier = s.barrier from rfl]
  split
  · rfl
  · exact immediate_setStatus

theorem immediate_foldl_emit {α : Type} (event : α → Event) (l : List α) (s : Sheet) :
    (l.foldl (fun s x => s.emit (event x)) s).immediate =
      l.foldl (fun s x => s.emit (event x)) s.immediate :=
  (List.foldl_hom immediate fun _ _ => rfl).symm

/-- The listeners and the cache are told the same. -/
theorem immediate_finish : s.finish.immediate = s.immediate.finish := by
  unfold finish
  extract_lets batch idle told values batch' idle' told' values'
  have htold : told' = told.immediate :=
    (immediate_foldl_emit (fun l : Listener => .changed l.label batch) idle.listeners idle).symm
  have hvalues : values' = values := by
    refine congrArg (List.filterMap · batch) (funext fun a => ?_)
    rw [htold, cell?_immediate]
    cases told.cell? a <;> rfl
  rw [immediate_markClean, htold, hvalues]
  rfl

theorem compute_immediate :
    s.immediate.compute name =
      ((s.compute name).1.immediate, (s.compute name).2.map Computed.immediate) := by
  unfold compute
  rw [cell?_immediate]
  cases hc : s.cell? name with
  | none => rfl
  | some c =>
    rw [Option.map_some]
    obtain ⟨v, binding, dependencies⟩ := c
    cases binding with
    | unbound | fixed => rfl
    | query handle compiled =>
      simp only [Cell.immediate, Binding.immediate]
      rw [show s.immediate.executor = s.executor.map Executor.immediate from rfl]
      cases s.executor <;> rfl
    | dynamic run calls =>
      have hargs : dependencies.map s.immediate.value = dependencies.map s.value :=
        List.map_congr_left fun _ _ => value_immediate
      simp only [Cell.immediate, Binding.immediate, hargs]
      have hcount : (s.update name (recount run calls)).immediate =
          s.immediate.update name (recount run.immediate calls) := immediate_update fun _ => rfl
      exact Prod.ext (congrArg (·.emit (.ran name (dependencies.map s.value))) hcount.symm) rfl

/-- If nothing is deferred, it does not matter whether somebody waits. -/
theorem runQueue_immediate {waiting : Bool} {index : Nat} {rest : List String} :
    runQueue waiting s.immediate index rest = (runQueue true s index rest).immediate := by
  induction rest generalizing s index with
  | nil => exact immediate_finish.symm
  | cons name rest ih =>
    unfold runQueue
    rw [compute_immediate]
    obtain ⟨t, computed⟩ := s.compute name
    cases computed with
    | none => exact ih
    | some computed =>
      simp only [Option.map_some, Computed.immediate, Bool.false_and, Bool.not_true, Bool.and_false]
      cases computed.outcome with
      | ok v => exact (congrArg (runQueue waiting · _ _) immediate_assign.symm).trans ih
      | error e => rfl

theorem schedule_compute : (s.compute name).1.schedule = s.schedule := by
  rcases compute_spec s name with h | ⟨t, computed, c, h, hran, -⟩
  · rw [h]
  · rw [h]
    exact hran.schedule

/-- Wherever a queue is suspended, settling it leads to where a wait from the start leads. -/
theorem settle_runQueue {waiting : Bool} {index : Nat} {rest : List String}
    (hsusp : s.suspended = none) (hqueue : s.queue.drop index = rest) :
    (runQueue waiting s index rest).settle = runQueue true s index rest := by
  induction rest generalizing s index with
  | nil =>
    exact settle_of_none ((congrArg Schedule.suspended (finish_frame s).2).trans hsusp)
  | cons name rest ih =>
    have hnext : s.queue.drop (index + 1) = rest := by
      rw [← List.tail_drop, hqueue, List.tail_cons]
    have hschedule : (s.compute name).1.schedule = s.schedule := schedule_compute
    unfold runQueue
    revert hschedule
    obtain ⟨t, computed⟩ := s.compute name
    intro hschedule
    have hnext : t.queue.drop (index + 1) = rest :=
      (congrArg (·.queue.drop (index + 1)) hschedule).trans hnext
    have hsusp : t.suspended = none := (congrArg Schedule.suspended hschedule).trans hsusp
    cases computed with
    | none => exact ih hsusp hnext
    | some computed =>
      simp only [Bool.not_true, Bool.and_false]
      split
      · -- the queue is suspended at this name, and `settle` goes on at the next place
        have hresume : { { t with suspended := some ⟨index, name, computed.outcome⟩ } with
            suspended := none } = t := by rw [← hsusp]
        unfold settle
        dsimp only
        rw [hresume]
        cases computed.outcome with
        | ok v => exact congrArg (runQueue true _ _) hnext
        | error e => rfl
      · cases computed.outcome with
        | ok v => exact ih (s := t.assign name v) hsusp hnext
        | error e => exact settle_of_none hsusp

/-! ## 4. Batches -/

/-- No queue is running, and none is suspended. -/
structure Idle (s : Sheet) : Prop where
  running : s.running = false
  suspended : s.suspended = none

theorem Idle.of_schedule (h : s.Idle) (hs : t.schedule = s.schedule) : t.Idle :=
  ⟨(congrArg Schedule.running hs).trans h.running,
    (congrArg Schedule.suspended hs).trans h.suspended⟩

theorem Idle.immediate_settle (h : s.Idle) : s.settle.immediate = s.immediate :=
  congrArg immediate (settle_of_none h.suspended)

/-- A call that schedules nothing leaves nothing to be settled. -/
theorem Idle.immediate_of_schedule (h : s.Idle) (hs : t.schedule = s.schedule) :
    t.settle.immediate = t.immediate := (h.of_schedule hs).immediate_settle

theorem Idle.immediate_enqueue (h : s.Idle) (names : List String) :
    (s.enqueue names).settle.immediate = s.immediate.enqueue names := by
  unfold Sheet.enqueue
  rw [← immediate_setStatus]
  split
  · exact h.immediate_settle
  · have hs : (s.setStatus .dirty).Idle := h.of_schedule schedule_setStatus
    generalize s.setStatus .dirty = s at hs
    dsimp only
    rw [if_neg (by simp [hs.running]), if_neg (by simp [immediate, hs.running])]
    have hsettled := @settle_runQueue { s with queue := s.queue ++ names, running := true } false 0
      (s.queue ++ names) hs.suspended rfl
    exact (congrArg immediate hsettled).trans runQueue_immediate.symm

theorem Idle.immediate_endTransaction (h : s.Idle) :
    s.endTransaction.settle.immediate = s.immediate.endTransaction := by
  unfold Sheet.endTransaction
  dsimp only
  split
  · have hclose : { s with depth := s.depth - 1, dirty := [] }.Idle := ⟨h.running, h.suspended⟩
    exact (hclose.immediate_enqueue _).trans (if_pos ‹_›).symm
  · have hclose : { s with depth := s.depth - 1 }.Idle := ⟨h.running, h.suspended⟩
    exact hclose.immediate_settle.trans (if_neg ‹_›).symm

theorem Idle.immediate_invalidate (h : s.Idle) (names : List String) :
    (s.invalidate names).settle.immediate = s.immediate.invalidate names := by
  unfold Sheet.invalidate
  rw [foldl_markDirty, foldl_markDirty]
  have hmark : { s.startTransaction with dirty := s.dirty ++ names }.Idle :=
    ⟨h.running, h.suspended⟩
  exact hmark.immediate_endTransaction

/-! ## 5. Operations -/

theorem Idle.immediate_set (h : s.Idle) (name : String) (v : Json) :
    (s.set name v).settle.immediate = s.immediate.set name v := by
  have hwritten (c : Cell) : (written v c).immediate = written v c.immediate := by
    unfold written Cell.immediate
    cases c.binding <;> rfl
  rw [set_eq, set_eq, ← immediate_touch, ← immediate_update hwritten]
  exact (h.of_schedule (schedule_update.trans schedule_touch)).immediate_invalidate [name]

theorem Idle.immediate_createStatic (h : s.Idle) (sheet name : String) (v : Json) :
    (s.createStatic sheet name v).settle.immediate = s.immediate.createStatic sheet name v := by
  unfold Sheet.createStatic
  dsimp only
  rw [hasCell_immediate]
  split
  · exact h.immediate_settle
  · exact h.immediate_set _ v

theorem Idle.immediate_createDynamic (h : s.Idle) (sheet name : String) (d : Definition) :
    (s.createDynamic sheet name d).1.settle.immediate =
      (s.immediate.createDynamic sheet name d.immediate).1 := by
  unfold Sheet.createDynamic
  rw [show d.immediate.dependencies = d.dependencies from rfl,
    show d.immediate.refresh = d.refresh from rfl,
    show d.immediate.initial = d.initial from rfl]
  generalize CellName.qualify sheet name = cell
  generalize d.dependencies.map (CellName.resolve sheet) = deps
  have hdynamic : (s.immediate.cell? cell).any (·.binding.isDynamic) =
      (s.cell? cell).any (·.binding.isDynamic) := by
    rw [cell?_immediate, Option.any_map]
    exact congrArg (Option.any · _) (funext fun c => isDynamic_immediate c.binding)
  have ht : ((deps.foldl Sheet.touch s).touch cell).Idle :=
    h.of_schedule (schedule_touch.trans (schedule_foldl_touch deps))
  dsimp only
  rw [hdynamic, ← immediate_foldl_touch, ← immediate_touch]
  generalize (deps.foldl Sheet.touch s).touch cell = t at ht
  rw [show t.immediate.cyclic? cell deps = t.cyclic? cell deps from rfl,
    show t.immediate.graph = t.graph from rfl]
  split
  · exact h.immediate_settle
  · split
    · exact ht.immediate_settle
    · split
      · rename_i g cycle _
        exact Idle.immediate_settle (s := { t with graph := g }) ⟨ht.running, ht.suspended⟩
      · rename_i g _
        have hbind : ({ t with graph := g }.update cell fun c =>
              { c with binding := .dynamic d.run 0, dependencies := deps }).immediate =
            { t.immediate with graph := g }.update cell fun c =>
              { c with binding := .dynamic d.immediate.run 0, dependencies := deps } :=
          immediate_update fun _ => rfl
        rw [← hbind, value_immediate, ← immediate_assign]
        have hidle : ({ t with graph := g }.update cell fun c =>
            { c with binding := .dynamic d.run 0, dependencies := deps }).Idle :=
          ⟨ht.running, ht.suspended⟩
        split
        · exact (hidle.of_schedule schedule_update).immediate_invalidate [cell]
        · exact hidle.immediate_settle

theorem Idle.immediate_createQuery (h : s.Idle) (sheet name : String) (handle : QueryHandle) :
    (s.createQuery sheet name handle).1.settle.immediate =
      (s.immediate.createQuery sheet name handle).1 := by
  unfold Sheet.createQuery
  extract_lets cell unchanged blank unchanged' blank'
  have hunchanged : unchanged' = unchanged := by
    have hbinding : (s.immediate.cell? cell).map (·.binding) =
        ((s.cell? cell).map (·.binding)).map Binding.immediate := by
      rw [cell?_immediate, Option.map_map, Option.map_map]
      rfl
    simp only [unchanged', unchanged, hbinding]
    generalize (s.cell? cell).map (·.binding) = b
    rcases b with _ | ⟨_ | _ | _ | _⟩ <;> rfl
  rw [hunchanged]
  split
  · exact h.immediate_invalidate [cell]
  · rw [show s.immediate.schema = s.schema from rfl, show s.immediate.policy = s.policy from rfl]
    split
    · exact h.immediate_settle
    · rename_i compiled _
      have hidle : (blank.update cell fun c =>
          { c with binding := .query handle compiled, dependencies := [] }).Idle :=
        h.of_schedule (schedule_update.trans schedule_touch)
      have hbind : (blank.update cell fun c =>
            { c with binding := .query handle compiled, dependencies := [] }).immediate =
          blank'.update cell fun c =>
            { c with binding := .query handle compiled, dependencies := [] } := by
        have htouch : blank' = blank.immediate :=
          (@immediate_touch { s with graph := s.graph.removeIncoming cell } cell).symm
        rw [htouch]
        exact immediate_update fun _ => rfl
      exact (hidle.immediate_invalidate [cell]).trans (congrArg (Sheet.invalidate · [cell]) hbind)

theorem immediate_addEach (name : String) (deps : List String) (s : Sheet) :
    (s.addEach name deps).1.immediate = (s.immediate.addEach name deps).1 ∧
      (s.addEach name deps).2 = (s.immediate.addEach name deps).2 := by
  induction deps generalizing s with
  | nil => exact ⟨rfl, rfl⟩
  | cons d deps ih =>
    unfold addEach
    dsimp only
    rw [← immediate_touch, show (s.touch d).immediate.graph = (s.touch d).graph from rfl]
    split
    · exact ⟨rfl, rfl⟩
    · rename_i g _
      have hreading : ({ s.touch d with graph := g }.update name (reading d)).immediate =
          { (s.touch d).immediate with graph := g }.update name (reading d) := by
        refine immediate_update fun c => ?_
        unfold reading Cell.immediate
        dsimp only
        split <;> rfl
      have hnext := ih ({ s.touch d with graph := g }.update name (reading d))
      rw [hreading] at hnext
      exact hnext

theorem Idle.immediate_addDependencies (h : s.Idle) (sheet name : String) (deps : List String) :
    (s.addDependencies sheet name deps).1.settle.immediate =
      (s.immediate.addDependencies sheet name deps).1 := by
  unfold Sheet.addDependencies
  generalize CellName.qualify sheet name = cell
  dsimp only
  rw [hasCell_immediate]
  split
  · exact h.immediate_settle
  · generalize deps.map (CellName.resolve sheet) = deps
    obtain ⟨hadd, hresult⟩ := immediate_addEach cell deps s
    have hidle : (s.addEach cell deps).1.Idle := h.of_schedule (schedule_addEach deps)
    revert hadd hresult hidle
    obtain ⟨t, r⟩ := s.addEach cell deps
    obtain ⟨t', r'⟩ := s.immediate.addEach cell deps
    rintro rfl rfl hidle
    cases r with
    | error e => exact hidle.immediate_settle
    | ok _ => exact hidle.immediate_invalidate [cell]

theorem immediate_removeEach (deps : List String) (s : Sheet) :
    (deps.foldl (removeReading name) s).immediate =
      deps.foldl (removeReading name) s.immediate := by
  refine (List.foldl_hom immediate fun t d => ?_).symm
  have hremove (c : Cell) : { c with dependencies := c.dependencies.filter (· != d) }.immediate =
      { c.immediate with dependencies := c.immediate.dependencies.filter (· != d) } := rfl
  exact (immediate_update (s := { t with graph := t.graph.removeEdge d name }) hremove).symm

theorem Idle.immediate_removeDependencies (h : s.Idle) (sheet name : String) (deps : List String) :
    (s.removeDependencies sheet name deps).1.settle.immediate =
      (s.immediate.removeDependencies sheet name deps).1 := by
  unfold Sheet.removeDependencies
  generalize CellName.qualify sheet name = cell
  dsimp only
  rw [hasCell_immediate]
  split
  · exact h.immediate_settle
  · refine ((h.of_schedule (schedule_removeEach _)).immediate_invalidate [cell]).trans ?_
    exact congrArg (Sheet.invalidate · [cell]) (immediate_removeEach _ s)

theorem immediate_unbind : (s.unbind name).immediate = s.immediate.unbind name := by
  unfold unbind
  rw [hasCell_immediate]
  split
  · exact immediate_update fun _ => rfl
  · rfl

theorem immediate_void : (s.void name).immediate = s.immediate.void name :=
  immediate_assign.trans (congrArg (assign · name .null) immediate_unbind)

theorem immediate_delete : (s.delete name).immediate = s.immediate.delete name := by
  unfold delete
  rw [← immediate_void]
  generalize s.void name = s
  refine eq_of_cells fun a => ?_
  by_cases e : name = a
  · simp [immediate, e]
  · simp [immediate, ExtTreeMap.getElem?_erase, e]

theorem immediate_clear {sheet : String} : (s.clear sheet).immediate = s.immediate.clear sheet := by
  unfold clear
  rw [names_immediate]
  exact (List.foldl_hom immediate fun _ _ => immediate_delete.symm).symm

theorem immediate_prewarm {v : Json} : (s.prewarm name v).immediate = s.immediate.prewarm name v :=
  immediate_assign.trans (congrArg (assign · name v) immediate_touch)

theorem immediate_load {cells : List (String × Json)} :
    (s.load cells).immediate = s.immediate.load cells :=
  (List.foldl_hom immediate fun _ _ => immediate_prewarm.symm).symm

theorem immediate_endBarrier : s.endBarrier.immediate = s.immediate.endBarrier := by
  unfold endBarrier
  dsimp only
  rw [show s.immediate.running = s.running from rfl, show s.immediate.queue = s.queue from rfl]
  split
  · exact immediate_markClean
  · rfl

theorem Idle.immediate_tablesChanged (h : s.Idle) (tables : List String) :
    (s.tablesChanged tables).settle.immediate = s.immediate.tablesChanged tables := by
  unfold Sheet.tablesChanged
  refine (h.immediate_invalidate _).trans (congrArg s.immediate.invalidate ?_)
  have hreads (c : Cell) : readsTable tables c.immediate = readsTable tables c := by
    unfold readsTable Cell.immediate
    cases c.binding <;> rfl
  simp [immediate, ExtTreeMap.toList_map, List.filter_map, Function.comp_def, hreads]

/-- A settled wait is the wait of the sheet on which nothing was deferred. -/
theorem wait_immediate (s : Sheet) (h : s.settle.suspended = none) :
    s.settle.immediate.wait = (s.wait.1.immediate, s.wait.2) := by
  unfold wait
  rw [settle_of_none (s := s.settle.immediate) h]
  dsimp only
  rw [show s.settle.immediate.lastError = s.settle.lastError from rfl]
  cases s.settle.lastError <;> rfl

/-- After a call on an idle sheet, and a wait, nothing shows of what was deferred. -/
theorem Operation.immediate_settle (h : s.Idle) (op : Operation) :
    (op.apply s).settle.immediate = op.immediate.apply s.immediate := by
  cases op with
  | set name v => exact h.immediate_set name v
  | createStatic sheet name v => exact h.immediate_createStatic sheet name v
  | createDynamic sheet name d => exact h.immediate_createDynamic sheet name d
  | createQuery sheet name handle => exact h.immediate_createQuery sheet name handle
  | addDependencies sheet name deps => exact h.immediate_addDependencies sheet name deps
  | removeDependencies sheet name deps => exact h.immediate_removeDependencies sheet name deps
  | unbind name => exact (h.immediate_of_schedule schedule_unbind).trans immediate_unbind
  | void name => exact (h.immediate_of_schedule schedule_void).trans immediate_void
  | delete name => exact (h.immediate_of_schedule schedule_delete).trans immediate_delete
  | clear sheet =>
    exact (h.immediate_of_schedule (schedule_foldl_delete _)).trans immediate_clear
  | prewarm name v => exact (h.immediate_of_schedule schedule_prewarm).trans immediate_prewarm
  | load cells => exact (h.immediate_of_schedule (schedule_load cells)).trans immediate_load
  | subscribe label => exact h.immediate_of_schedule (t := (s.subscribe label).1) rfl
  | unsubscribe id => exact h.immediate_of_schedule (t := s.unsubscribe id) rfl
  | startBarrier => exact h.immediate_of_schedule (t := s.startBarrier) rfl
  | endBarrier => exact (h.immediate_of_schedule schedule_endBarrier).trans immediate_endBarrier
  | startTransaction =>
    exact Idle.immediate_settle (s := s.startTransaction) ⟨h.running, h.suspended⟩
  | endTransaction => exact h.immediate_endTransaction
  | tablesChanged tables => exact h.immediate_tablesChanged tables
  | wait =>
    have hsettle : s.settle = s := settle_of_none h.suspended
    have hwait : s.wait.1.Idle := h.of_schedule (schedule_wait.trans (congrArg schedule hsettle))
    have hlater := wait_immediate s ((congrArg suspended hsettle).trans h.suspended)
    rw [hsettle] at hlater
    exact hwait.immediate_settle.trans (congrArg Prod.fst hlater).symm

/-! ## 6. After a wait -/

theorem settle_idle_of_regular (h : s.schedule.Regular) :
    s.settle.running = false ∧ s.settle.queue = [] ∧ s.settle.suspended = none := by
  obtain hsusp | ⟨p, hp⟩ := Option.eq_none_or_eq_some s.suspended
  · rw [settle_of_none hsusp]
    have hrun := h.running
    simp only [schedule, hsusp, Option.isSome_none] at hrun
    exact ⟨hrun, h.idle hsusp, hsusp⟩
  · exact settle_idle hp

/-- Take a sheet of any run on which nothing is running, and any call on it, which may close the
    outermost transaction. In one run no outcome is deferred, neither of the computations nor of the
    executor. In the other one any of them may be, values as well as errors: it is on a sheet `t`
    with a call `op'` that are the same once nothing is deferred. After the call and a wait, nothing
    is running on both, the waits have the same result, and the sheets have the same values and
    bindings and told their surroundings the same: the listeners, the cache and the status. -/
theorem wait_of_deferred (schema : Schema) (policy : Policy) (executor : Option Executor)
    (ops : List Operation) (hidle : ((new schema policy executor).run ops).running = false)
    (op op' : Operation) (hop : op'.immediate = op.immediate) (t : Sheet)
    (ht : t.immediate = ((new schema policy executor).run ops).immediate) :
    let s := (new schema policy executor).run ops
    let a := (op.immediate.apply s.immediate).wait
    let b := (op'.apply t).wait
    (a.1.running = false ∧ a.1.queue = [] ∧ a.1.suspended = none) ∧
    (b.1.running = false ∧ b.1.queue = [] ∧ b.1.suspended = none) ∧
    b.2 = a.2 ∧
    (∀ name, b.1.value name = a.1.value name) ∧
    (∀ name, (b.1.cell? name).map Cell.immediate = a.1.cell? name) ∧
    b.1.events = a.1.events ∧
    b.1.immediate = a.1 := by
  intro s a b
  have hregular : s.schedule.Regular := regular_run (regular_new schema policy executor) ops
  have hschedule : t.immediate.schedule = s.immediate.schedule := congrArg schedule ht
  change t.schedule = s.schedule at hschedule
  have hcalm : t.Idle :=
    (show s.Idle from ⟨hidle, hregular.suspended hidle⟩).of_schedule hschedule
  have hsettle := settle_idle_of_regular (op'.regular_apply (hschedule ▸ hregular))
  have ha : a = (b.1.immediate, b.2) := by
    have hwait := wait_immediate (op'.apply t) hsettle.2.2
    rwa [op'.immediate_settle hcalm, hop, ht] at hwait
  have hb : b.1.running = false ∧ b.1.queue = [] ∧ b.1.suspended = none := by
    have hwait : b.1.schedule = (op'.apply t).settle.schedule := schedule_wait
    exact ⟨(congrArg Schedule.running hwait).trans hsettle.1,
      (congrArg Schedule.queue hwait).trans hsettle.2.1,
      (congrArg Schedule.suspended hwait).trans hsettle.2.2⟩
  rw [ha]
  exact ⟨hb, hb, rfl, fun _ => value_immediate.symm, fun _ => cell?_immediate.symm, rfl, rfl⟩

/-- `b` reads `a` and is computed later; `a` was written to in a transaction that is still open. -/
def writing : List Operation :=
  handingOn ++ [.wait, .startTransaction, .set "a" (.bool false)]

theorem run_writing :
    (((new .empty .none none).run writing).running,
      ((new .empty .none none).run writing).endTransaction.running,
      ((new .empty .none none).run writing).immediate.endTransaction.running,
      ((new .empty .none none).run writing).endTransaction.wait.1.value "b") =
    (false, true, false, .bool false) := by
  simp only [writing, handingOn, List.cons_append, List.nil_append, run, List.foldl,
    Operation.apply, createDynamic, List.map, connect, Graph.addEdge, ite_or, ← Bool.cond_eq_ite]
  cbv

/-- The batch is suspended only if something is deferred, and ends the same. -/
theorem wait_of_writing :
    let s := (new .empty .none none).run writing
    s.running = false ∧
    s.endTransaction.running = true ∧ s.immediate.endTransaction.running = false ∧
    s.endTransaction.wait.1.value "b" = s.immediate.endTransaction.wait.1.value "b" ∧
    s.endTransaction.wait.1.value "b" = .bool false := by
  intro s
  obtain ⟨hidle, hlater, hnow, hvalue⟩ := by simpa only [Prod.mk.injEq] using run_writing
  have hsame := wait_of_deferred .empty .none none writing hidle .endTransaction .endTransaction
    rfl s rfl
  exact ⟨hidle, hlater, hnow, hsame.2.2.2.1 "b", hvalue⟩

end Sheet

end QuerySheet

import Mathlib
import QuerySheet.Proofs.Sheet.Batch
import QuerySheet.Proofs.Sheet.Consistency
import QuerySheet.Proofs.Sheet.Links
import QuerySheet.Proofs.Sheet.Sorting

/-!
# Writes in transactions

Writes may be made one by one, or in transactions that are nested in any way. The batches that they
start differ, and so do the values that cells have meanwhile.

* `Prompt`: no computation fails or is deferred, and its value goes by its arguments only;
* `Cell.outline`: a cell without what its computation gave. To compute changes no outline
  (`Recomputed`), and writes lead to the same outlines in whatever transactions they are made
  (`sameOutline_run`);
* `uncounted_of_sameOutline`: where every computed cell has the value that its computation gives,
  the outlines determine the cells, because the graph has no cycle;
* `timesRan`: how often a cell was computed. A batch computes a cell once at most;
* `cells_of_transactions`: in whatever transactions writes are made, they leave the same cells.
-/

namespace QuerySheet

/-! ## 1. Prompt computations -/

/-- A computation that goes by its arguments only, does not fail and is not deferred. -/
def Run.Prompt (run : Run) : Prop :=
  ∃ f : List Json → Json, ∀ calls args, run calls args = ⟨.ok (f args), false⟩

/-- A binding to a prompt computation, or to none. -/
def Binding.Prompt : Binding → Prop
  | .dynamic run _ => run.Prompt
  | .query _ _ => False
  | .unbound | .fixed => True

theorem Binding.Prompt.pure {b : Binding} (h : b.Prompt) : b.Pure := by
  cases b with
  | dynamic run calls =>
    obtain ⟨f, hf⟩ := h
    exact ⟨f, fun calls args => by rw [hf]⟩
  | query handle compiled => exact h
  | unbound | fixed => trivial

/-! ## 2. Outlines -/

/-- The binding, however often its computation was called. -/
def Binding.uncounted : Binding → Binding
  | .dynamic run _ => .dynamic run 0
  | b => b

namespace Cell

def uncounted (c : Cell) : Cell := { c with binding := c.binding.uncounted }

/-- What does not come from a computation. -/
def outline (c : Cell) : Cell :=
  { c.uncounted with value := if c.binding.isDynamic then .null else c.value }

theorem outline_of_isDynamic {c : Cell} {v : Json} (h : c.binding.isDynamic = true) :
    { c with value := v }.outline = c.outline := by
  simp [outline, uncounted, h]

/-- The binding is seen from the outline, but for the calls. -/
theorem uncounted_binding_of_outline {c c' : Cell} (h : c'.outline = c.outline) :
    c'.binding.uncounted = c.binding.uncounted := congrArg Cell.binding h

theorem dependencies_of_outline {c c' : Cell} (h : c'.outline = c.outline) :
    c'.dependencies = c.dependencies := by
  have hdeps := congrArg Cell.dependencies h
  exact hdeps

end Cell

/-- The event of a computation of a cell. -/
def Event.isRun (name : String) : Event → Bool
  | .ran cell _ => cell == name
  | _ => false

namespace Sheet

variable {s s' t : Sheet} {name a : String} {names more : List String}

theorem outline_recount {c : Cell} {run : Run} {calls : Nat} (h : c.binding = .dynamic run calls) :
    (recount run calls c).outline = c.outline := by
  simp [recount, Cell.outline, Cell.uncounted, h, Binding.isDynamic, Binding.uncounted]

theorem outline_written {v : Json} {c c' : Cell} (h : c'.outline = c.outline) :
    (written v c').outline = (written v c).outline := by
  have hwritten (c : Cell) : (written v c).outline = (written v c.outline).outline := by
    obtain ⟨w, binding, dependencies⟩ := c
    cases binding <;> rfl
  rw [hwritten, h, ← hwritten]

/-- No computation fails or is deferred. -/
def Prompt (s : Sheet) : Prop := ∀ name c, s.cell? name = some c → c.binding.Prompt

/-- The cells differ in nothing but what their computations gave. -/
def SameOutline (s t : Sheet) : Prop :=
  ∀ a, (t.cell? a).map Cell.outline = (s.cell? a).map Cell.outline

namespace SameOutline

theorem refl (s : Sheet) : SameOutline s s := fun _ => rfl

theorem symm (h : SameOutline s t) : SameOutline t s := fun a => (h a).symm

theorem trans (h : SameOutline s t) (h' : SameOutline t s') : SameOutline s s' :=
  fun a => (h' a).trans (h a)

theorem of_sameCells (h : SameCells s t) : SameOutline s t := fun a => by rw [h.cell?]

/-- The cell of a name on the other sheet. -/
theorem cell {c : Cell} (h : SameOutline s t) (hc : t.cell? a = some c) :
    ∃ c', s.cell? a = some c' ∧ c'.outline = c.outline := by
  have ha := h a
  rw [hc] at ha
  exact Option.map_eq_some_iff.mp ha.symm

theorem update {f : Cell → Cell} (hf : ∀ c, s.cell? name = some c → (f c).outline = c.outline) :
    SameOutline s (s.update name f) := by
  intro a
  by_cases e : a = name
  · subst e
    rw [cell?_update_self]
    cases hc : s.cell? a with
    | none => rfl
    | some c => exact congrArg some (hf c hc)
  · rw [cell?_update_of_ne e]

theorem prompt (h : SameOutline s t) (hs : s.Prompt) : t.Prompt := by
  intro name c hc
  obtain ⟨c', hc', houtline⟩ := h.cell hc
  have huncounted (b : Binding) : b.uncounted.Prompt ↔ b.Prompt := by cases b <;> rfl
  rw [← huncounted, ← Cell.uncounted_binding_of_outline houtline, huncounted]
  exact hs name c' hc'

/-- The same write to two sheets. -/
theorem write (h : SameOutline s t) (name : String) (v : Json) :
    SameOutline ((s.touch name).update name (written v))
      ((t.touch name).update name (written v)) := by
  intro a
  by_cases e : a = name
  · subst e
    rw [cell?_update_self, cell?_update_self, cell?_touch, cell?_touch, if_pos rfl, if_pos rfl]
    refine congrArg some (outline_written ?_)
    have ha := h a
    cases hs : s.cell? a with
    | none =>
      rw [hs] at ha
      rw [Option.map_eq_none_iff.mp ha]
    | some c =>
      rw [hs] at ha
      obtain ⟨c', hc', houtline⟩ := Option.map_eq_some_iff.mp ha
      rw [hc']
      exact houtline
  · rw [cell?_update_of_ne e, cell?_update_of_ne e, cell?_touch, cell?_touch, if_neg e, if_neg e]
    exact h a

end SameOutline

/-! ## 3. Computing -/

/-- How often a cell was computed. -/
def timesRan (s : Sheet) (name : String) : Nat := s.events.countP (Event.isRun name)

/-- To tell of a batch computes nothing. -/
theorem Told.timesRan (h : Told s t) (a : String) : t.timesRan a = s.timesRan a := by
  obtain ⟨told, hevents, htells⟩ := h
  have hnone : told.countP (Event.isRun a) = 0 := by
    refine List.countP_eq_zero.mpr fun e he => ?_
    have htell := htells e he
    cases e with
    | ran cell args => exact htell.elim
    | _ => exact Bool.false_ne_true
  rw [Sheet.timesRan, hevents, List.countP_append, hnone, Nat.zero_add, Sheet.timesRan]

/-- `t` is `s` after some names were computed: no outline has changed, and no cell was computed
    more often than it is named. -/
structure Recomputed (names : List String) (s t : Sheet) : Prop where
  outline : SameOutline s t
  schedule : t.schedule = s.schedule
  runs : ∀ a, t.timesRan a ≤ s.timesRan a + names.count a

namespace Recomputed

theorem refl (names : List String) (s : Sheet) : Recomputed names s s :=
  ⟨.refl s, rfl, fun _ => Nat.le_add_right _ _⟩

theorem append (h : Recomputed names s t) (h' : Recomputed more t s') :
    Recomputed (names ++ more) s s' where
  outline := h.outline.trans h'.outline
  schedule := h'.schedule.trans h.schedule
  runs a := by
    rw [List.count_append, ← Nat.add_assoc]
    exact (h'.runs a).trans (Nat.add_le_add_right (h.runs a) _)

/-- A prompt cell gives nothing, or its value is assigned. -/
theorem compute (h : s.Prompt) (name : String) :
    s.compute name = (s, none) ∨
      ∃ t v, s.compute name = (t, some ⟨.ok v, false⟩) ∧ Recomputed [name] s (t.assign name v) := by
  have hquery (c : Cell) (hc : s.cell? name = some c) (handle : QueryHandle) (q : CompiledQuery) :
      c.binding ≠ .query handle q := by
    intro hb
    have hprompt := h name c hc
    rw [hb] at hprompt
    exact hprompt
  rcases compute_cases hquery with ⟨hcompute, -⟩ | ⟨c, run, calls, hc, hb, hcompute⟩
  · exact .inl hcompute
  · obtain ⟨f, hf⟩ : run.Prompt := by
      have hprompt := h name c hc
      rwa [hb] at hprompt
    rw [hf] at hcompute
    refine .inr ⟨_, _, hcompute, ?_, rfl, fun a => ?_⟩
    · have hcount : SameOutline s (s.update name (recount run calls)) := .update fun c' hc' => by
        cases hc.symm.trans hc'
        exact outline_recount hb
      have hassign : SameOutline (s.update name (recount run calls))
          ((s.update name (recount run calls)).assign name (f (s.args c))) := by
        refine .update fun c' hc' => ?_
        rw [cell?_update_self, hc] at hc'
        cases hc'
        exact Cell.outline_of_isDynamic rfl
      exact (hcount.trans hassign).trans (.of_sameCells ⟨rfl, rfl⟩)
    · have hevents : ((s.update name (recount run calls)).emit (.ran name (s.args c))).timesRan a =
          s.timesRan a + [name].count a := by
        rw [List.count_singleton]
        exact List.countP_cons
      exact Nat.le_of_eq hevents

/-- A prompt queue is computed to its end. -/
theorem runQueue (h : s.Prompt) (waiting : Bool) (index : Nat) (rest : List String) :
    ∃ t, Recomputed rest s t ∧ runQueue waiting s index rest = t.finish := by
  induction rest generalizing s index with
  | nil => exact ⟨s, .refl [] s, rfl⟩
  | cons name rest ih =>
    unfold Sheet.runQueue
    rcases compute h name with hcompute | ⟨t, v, hcompute, hname⟩
    · obtain ⟨u, hrest, hfinish⟩ := ih h (index + 1)
      rw [hcompute]
      exact ⟨u, (refl [name] s).append hrest, hfinish⟩
    · obtain ⟨u, hrest, hfinish⟩ := ih (hname.outline.prompt h) (index + 1)
      rw [hcompute]
      exact ⟨u, hname.append hrest, hfinish⟩

/-- Names that come to an idle sheet are computed at once. -/
theorem enqueue (h : s.Prompt) (hrun : s.running = false) (hqueue : s.queue = [])
    (names : List String) : Recomputed names s (s.enqueue names) := by
  unfold Sheet.enqueue
  split
  · exact refl names s
  · have hcells : SameCells s (s.setStatus .dirty) := .setStatus s .dirty
    have hschedule : (s.setStatus .dirty).schedule = s.schedule := schedule_setStatus
    have hruns (a : String) : (s.setStatus .dirty).timesRan a = s.timesRan a :=
      (Told.setStatus s .dirty).timesRan a
    generalize s.setStatus .dirty = t at hcells hschedule hruns
    have htrun : t.running = false := (congrArg Schedule.running hschedule).trans hrun
    have htqueue : t.queue = [] := (congrArg Schedule.queue hschedule).trans hqueue
    have hprompt : t.Prompt := (SameOutline.of_sameCells hcells).prompt h
    dsimp only
    rw [if_neg (by simp [htrun]), htqueue, List.nil_append]
    obtain ⟨u, hran, hfinish⟩ := @runQueue { t with queue := names, running := true } hprompt
      false 0 names
    obtain ⟨hend, hscheduled⟩ := finish_frame u
    rw [hfinish]
    refine ⟨?_, ?_, fun a => ?_⟩
    · exact ((SameOutline.of_sameCells hcells).trans hran.outline).trans (.of_sameCells hend)
    · rw [hscheduled, hran.schedule, ← hschedule]
      have hidle : t.schedule = ⟨t.depth, t.dirty, [], false, t.suspended⟩ := by
        simp only [Sheet.schedule, htrun, htqueue]
      exact hidle.symm
    · rw [(Told.finish u).timesRan, ← hruns]
      exact hran.runs a

end Recomputed

/-! ## 4. Transactions -/

namespace Operation

/-- A call that writes a value, or that opens or closes a transaction. -/
def Transacts : Operation → Prop
  | .set _ _ | .startTransaction | .endTransaction => True
  | _ => False

/-- The name and the value that a call writes. -/
def write? : Operation → Option (String × Json)
  | .set name v => some (name, v)
  | _ => none

end Operation

/-- A sheet that is consistent, and on which nothing is running or will be. -/
structure Ready (s : Sheet) : Prop where
  consistent : s.Consistent
  prompt : s.Prompt
  running : s.running = false

namespace Ready

theorem suspended (h : s.Ready) : s.suspended = none := by
  have hrun := h.consistent.orderly.running
  simpa [schedule, h.running] using hrun

theorem queue (h : s.Ready) : s.queue = [] := h.consistent.orderly.idle h.suspended

end Ready

/-- What the end of a transaction does: it leaves the outlines, and computes a cell once at most,
    and only if it was the outermost one. -/
theorem endTransaction_spec (h : s.Prompt) (hrun : s.running = false) (hqueue : s.queue = []) :
    SameOutline s s.endTransaction ∧ s.endTransaction.running = false ∧
      s.endTransaction.depth = s.depth - 1 ∧
      ∀ a, s.endTransaction.timesRan a ≤ s.timesRan a + if s.depth - 1 = 0 then 1 else 0 := by
  unfold endTransaction
  dsimp only
  split
  · obtain ⟨houtline, hschedule, hruns⟩ :=
      @Recomputed.enqueue { s with depth := s.depth - 1, dirty := [] } h hrun hqueue
        (s.graph.topologicalSort s.dirty)
    refine ⟨houtline, (congrArg Schedule.running hschedule).trans hrun,
      congrArg Schedule.depth hschedule, fun a => ?_⟩
    exact (hruns a).trans (Nat.add_le_add_left
      (List.nodup_iff_count_le_one.mp (Graph.nodup_topologicalSort _ _) a) _)
  · exact ⟨.refl s, hrun, rfl, fun _ => Nat.le_refl _⟩

theorem prompt_write (h : s.Prompt) (name : String) (v : Json) :
    ((s.touch name).update name (written v)).Prompt := by
  intro a c hc
  by_cases e : a = name
  · subst e
    rw [cell?_update_self] at hc
    obtain ⟨c', hc', rfl⟩ := Option.map_eq_some_iff.mp hc
    have hb : c'.binding.Prompt := by
      rcases cell?_of_touch hc' with hc' | ⟨-, rfl⟩
      · exact h a c' hc'
      · trivial
    unfold written
    dsimp only
    split
    · trivial
    · exact hb
  · rw [cell?_update_of_ne e, cell?_touch, if_neg e] at hc
    exact h a c hc

/-- A write is an end of a transaction in which one cell was changed. -/
theorem set_spec (h : s.Ready) (name : String) (v : Json) :
    SameOutline ((s.touch name).update name (written v)) (s.set name v) ∧
      (s.set name v).running = false ∧ (s.set name v).depth = s.depth ∧
      ∀ a, (s.set name v).timesRan a ≤ s.timesRan a + if s.depth = 0 then 1 else 0 := by
  have hprompt := prompt_write h.prompt name v
  have hschedule : ((s.touch name).update name (written v)).schedule = s.schedule :=
    schedule_update.trans schedule_touch
  have hruns (a : String) :
      ((s.touch name).update name (written v)).timesRan a = s.timesRan a := by
    unfold touch
    split <;> rfl
  rw [set_eq]
  generalize (s.touch name).update name (written v) = t at hprompt hschedule hruns
  have hdepth : t.depth = s.depth := congrArg Schedule.depth hschedule
  obtain ⟨houtline, hrun, hclosed, hran⟩ := @endTransaction_spec
    ([name].foldl markDirty t.startTransaction) hprompt
    ((congrArg Schedule.running hschedule).trans h.running)
    ((congrArg Schedule.queue hschedule).trans h.queue)
  exact ⟨houtline, hrun, hclosed.trans hdepth, fun a => hruns a ▸ hdepth ▸ hran a⟩

theorem Ready.set (h : s.Ready) (name : String) (v : Json) : (s.set name v).Ready where
  consistent := h.consistent.set name v
  prompt := (set_spec h name v).1.prompt (prompt_write h.prompt name v)
  running := (set_spec h name v).2.1

/-- What a call does to a ready sheet: it stays ready, and cells are computed only if no transaction
    is open afterwards, and once at most. -/
theorem Ready.transact (h : s.Ready) {op : Operation} (hop : op.Transacts) :
    (op.apply s).Ready ∧
      ∀ a, (op.apply s).timesRan a ≤ s.timesRan a + if (op.apply s).depth = 0 then 1 else 0 := by
  cases op with
  | set name v =>
    obtain ⟨-, -, hdepth, hruns⟩ := set_spec h name v
    refine ⟨h.set name v, fun a => ?_⟩
    rw [show (Operation.set name v).apply s = s.set name v from rfl, hdepth]
    exact hruns a
  | startTransaction =>
    exact ⟨⟨h.consistent.startTransaction, h.prompt, h.running⟩, fun a => Nat.le_add_right _ _⟩
  | endTransaction =>
    obtain ⟨houtline, hrun, hdepth, hruns⟩ := endTransaction_spec h.prompt h.running h.queue
    refine ⟨⟨h.consistent.endTransaction, houtline.prompt h.prompt, hrun⟩, fun a => ?_⟩
    rw [show Operation.endTransaction.apply s = s.endTransaction from rfl, hdepth]
    exact hruns a
  | _ => exact hop.elim

theorem Ready.run (h : s.Ready) {ops : List Operation} (hops : ∀ op ∈ ops, op.Transacts) :
    (s.run ops).Ready := by
  induction ops generalizing s with
  | nil => exact h
  | cons op ops ih =>
    exact ih (h.transact (hops op List.mem_cons_self)).1 fun op' hop' =>
      hops op' (List.mem_cons_of_mem _ hop')

/-- Writes made one by one. -/
def setEach (s : Sheet) (cells : List (String × Json)) : Sheet :=
  cells.foldl (fun s (name, v) => s.set name v) s

theorem Ready.setEach (h : s.Ready) (cells : List (String × Json)) :
    (s.setEach cells).Ready ∧ (s.setEach cells).depth = s.depth := by
  induction cells generalizing s with
  | nil => exact ⟨h, rfl⟩
  | cons cell cells ih =>
    obtain ⟨name, v⟩ := cell
    obtain ⟨hready, hdepth⟩ := ih (h.set name v)
    exact ⟨hready, hdepth.trans (set_spec h name v).2.2.1⟩

/-- Calls that transact lead to the same outlines as their writes one by one. -/
theorem sameOutline_run (hs : s.Ready) (ht : t.Ready) (h : SameOutline s t) {ops : List Operation}
    (hops : ∀ op ∈ ops, op.Transacts) :
    SameOutline (s.run ops) (t.setEach (ops.filterMap Operation.write?)) := by
  induction ops generalizing s t with
  | nil => exact h
  | cons op ops ih =>
    have hop := hops op List.mem_cons_self
    have hready : (op.apply s).Ready := (hs.transact hop).1
    have hnext {u : Sheet} (hu : u.Ready) (h : SameOutline (op.apply s) u) :=
      ih hready hu h fun op' hop' => hops op' (List.mem_cons_of_mem _ hop')
    cases op with
    | set name v =>
      refine hnext (ht.set name v) ?_
      exact ((set_spec hs name v).1.symm.trans (h.write name v)).trans (set_spec ht name v).1
    | startTransaction => exact hnext ht (.trans (.of_sameCells ⟨rfl, rfl⟩) h)
    | endTransaction =>
      exact hnext ht ((endTransaction_spec hs.prompt hs.running hs.queue).1.symm.trans h)
    | _ => exact hop.elim

/-! ## 5. Outlines determine cells -/

/-- With nothing left to do, every computed cell has the value that its computation gives. -/
theorem Ready.gives (h : s.Ready) (hdepth : s.depth = 0) {c : Cell} (hc : s.cell? name = some c) :
    s.Gives c c.value := by
  have hdirty : s.dirty = [] := h.consistent.orderly.closed hdepth
  have hwork : s.schedule.work = ⟨[], none, []⟩ := by
    simp [Schedule.work, schedule, h.suspended, hdirty]
  have hsound := h.consistent.sound
  rw [hwork] at hsound
  rcases hsound.current name c hc with (ha | ha | ⟨d, -, hd⟩) | hgives
  · cases ha
  · cases ha
  · cases hd
  · exact hgives

theorem value_of_uncounted
    (h : (t.cell? a).map Cell.uncounted = (s.cell? a).map Cell.uncounted) :
    t.value a = s.value a := by
  rw [value, value]
  revert h
  cases t.cell? a <;> cases s.cell? a <;> intro h
  · rfl
  · cases h
  · cases h
  · have hvalue := congrArg Cell.value (Option.some.inj h)
    exact hvalue

/-- Two cells with one outline whose computations get the same arguments and give their values. -/
theorem uncounted_of_outline {c c' : Cell} (h : c'.outline = c.outline)
    (hargs : t.args c' = s.args c) (hc : s.Gives c c.value) (hc' : t.Gives c' c'.value) :
    c'.uncounted = c.uncounted := by
  have hbinding := Cell.uncounted_binding_of_outline h
  have hvalue : c'.value = c.value := by
    cases hb : c.binding with
    | dynamic run calls =>
      cases hb' : c'.binding with
      | dynamic run' calls' =>
        rw [hb, hb'] at hbinding
        obtain rfl : run' = run := by
          injection hbinding
        have hgives := hc' run' calls' hb' 0
        rw [hargs, hc run' calls hb 0] at hgives
        exact (Except.ok.inj hgives).symm
      | _ => rw [hb, hb'] at hbinding; cases hbinding
    | _ =>
      have hv := congrArg Cell.value h
      simp only [Cell.outline, hb, Binding.isDynamic] at hv
      cases hb' : c'.binding with
      | dynamic run' calls' => rw [hb, hb'] at hbinding; cases hbinding
      | _ => simpa only [hb', Bool.false_eq_true, ↓reduceIte] using hv
  simp only [Cell.uncounted, hvalue, hbinding, Cell.dependencies_of_outline h]

/-- The system of cells has one solution: what a cell reads comes before it in the graph. -/
theorem uncounted_of_sameOutline (hs : s.Ready) (ht : t.Ready) (h : SameOutline s t)
    (hsdepth : s.depth = 0) (htdepth : t.depth = 0) (name : String) :
    (t.cell? name).map Cell.uncounted = (s.cell? name).map Cell.uncounted := by
  induction name using hs.consistent.sound.acyclic.wellFounded.induction with
  | _ name ih =>
    cases hc' : t.cell? name with
    | none =>
      have hnone := h name
      rw [hc'] at hnone
      rw [Option.map_eq_none_iff.mp hnone.symm]
    | some c' =>
      obtain ⟨c, hc, houtline⟩ := h.cell hc'
      rw [hc]
      have hdeps := Cell.dependencies_of_outline houtline
      have hargs : t.args c' = s.args c := by
        rw [args, args, ← hdeps]
        exact List.map_congr_left fun d hd =>
          value_of_uncounted (ih d (hs.consistent.sound.edge name c hc d hd))
      exact congrArg some (uncounted_of_outline houtline.symm hargs (hs.gives hsdepth hc)
        (ht.gives htdepth hc'))

/-! ## 6. Writes in any transactions -/

/-- Calls of which only the last one may leave no transaction open compute a cell once at most. -/
theorem timesRan_of_outermost (h : s.Ready) {ops : List Operation}
    (hops : ∀ op ∈ ops, op.Transacts)
    (hopen : ∀ n, 0 < n → n < ops.length → (s.run (ops.take n)).depth ≠ 0) (a : String) :
    (s.run ops).timesRan a ≤ s.timesRan a + 1 := by
  induction ops generalizing s with
  | nil => exact Nat.le_add_right _ _
  | cons op ops ih =>
    obtain ⟨hready, hruns⟩ := h.transact (hops op List.mem_cons_self)
    cases ops with
    | nil =>
      refine (hruns a).trans (Nat.add_le_add_left ?_ _)
      split
      · exact Nat.le_refl 1
      · exact Nat.zero_le 1
    | cons op' ops =>
      have hdepth : (op.apply s).depth ≠ 0 := hopen 1 Nat.one_pos (by simp)
      have hrest := ih hready (fun o ho => hops o (List.mem_cons_of_mem _ ho)) fun n hn hlt =>
        hopen (n + 1) n.succ_pos (Nat.succ_lt_succ hlt)
      have hfirst := hruns a
      rw [if_neg hdepth, Nat.add_zero] at hfirst
      exact hrest.trans (Nat.add_le_add_right hfirst 1)

/-- A sheet on which no transaction is open and nothing is running, with prompt computations only.
    What its cells list is what the graph knows, and every computed cell has the value that its
    computation gives. -/
structure AtRest (s : Sheet) : Prop where
  closed : s.depth = 0
  running : s.running = false
  prompt : s.Prompt
  linked : s.Linked
  current : ∀ name c, s.cell? name = some c → s.Gives c c.value

theorem AtRest.ready (h : s.AtRest) (hregular : s.schedule.Regular) (htied : s.Tied) :
    s.Ready := by
  have hsusp : s.suspended = none := hregular.suspended h.running
  have hwork : s.schedule.work = ⟨[], none, []⟩ := by
    have hdirty : s.dirty = [] := hregular.closed h.closed
    simp [Schedule.work, schedule, hsusp, hdirty]
  refine ⟨⟨⟨hregular.running, hregular.idle, fun p hp => ?_, hregular.closed⟩, ?_⟩, h.prompt,
    h.running⟩
  · rw [show s.schedule.suspended = none from hsusp] at hp
    cases hp
  · rw [hwork]
    exact {
      acyclic := htied.acyclic
      node := fun name c hc => (h.linked.node name).mpr (hasCell_iff.mpr ⟨c, hc⟩)
      edge := fun name c hc d hd => (h.linked.reads name c hc d).mp hd
      pure := fun name c hc => (h.prompt name c hc).pure
      inOrder := trivial
      waits := fun name v hheld => by cases hheld
      current := fun name c hc => .inr (h.current name c hc) }

/-- Take any sheet of a run that is at rest, and any writes. Made in any transactions, opened and
    closed between the writes in any way, they leave the cells that they leave one by one, with the
    same bindings and the same values, and every computed cell has the value that its computation
    gives. If the outermost transaction stays open until the last call, then every cell is computed
    once at most. -/
theorem cells_of_transactions (schema : Schema) (policy : Policy) (executor : Option Executor)
    (ops : List Operation) (hrest : ((new schema policy executor).run ops).AtRest)
    (writes : List (String × Json)) (script : List Operation)
    (hscript : ∀ op ∈ script, op.Transacts)
    (hwrites : script.filterMap Operation.write? = writes)
    (hclosed : (((new schema policy executor).run ops).run script).depth = 0) :
    let s := (new schema policy executor).run ops
    (s.run script).running = false ∧
    (∀ name, ((s.run script).cell? name).map Cell.uncounted =
      ((s.setEach writes).cell? name).map Cell.uncounted) ∧
    (∀ name c, (s.run script).cell? name = some c → (s.run script).Gives c c.value) ∧
    ((∀ n, 0 < n → n < script.length → (s.run (script.take n)).depth ≠ 0) →
      ∀ name, (s.run script).timesRan name ≤ s.timesRan name + 1) := by
  intro s
  have hready : s.Ready := hrest.ready (regular_run (regular_new schema policy executor) ops)
    (tied_run (tied_new schema policy executor) ops)
  have hrun : (s.run script).Ready := hready.run hscript
  obtain ⟨heach, hdepth⟩ := hready.setEach writes
  have houtline : SameOutline (s.setEach writes) (s.run script) :=
    hwrites ▸ (sameOutline_run hready hready (.refl s) hscript).symm
  exact ⟨hrun.running, uncounted_of_sameOutline heach hrun houtline (hdepth.trans hrest.closed)
    hclosed, fun _ _ => hrun.gives hclosed, timesRan_of_outermost hready hscript⟩

/-- A computation that hands on its first argument. -/
def copyNow : Run := fun _ args => ⟨.ok (args.headD .null), false⟩

/-- `b` reads `a`. -/
def pairing : List Operation :=
  [.set "a" (.bool true), .createDynamic "" "b" ⟨["a"], copyNow, .null, false⟩]

/-- Writes to a computed cell, to a new one and twice to the same one, in nested transactions. -/
def nesting : List Operation :=
  [.startTransaction, .set "a" .null, .startTransaction, .set "b" (.bool true), .endTransaction,
    .set "c" (.bool true), .set "a" (.bool false), .endTransaction]

theorem run_pairing :
    (((new .empty .none none).run pairing).cells.toList,
      ((new .empty .none none).run pairing).graph.hasEdge "a" "b",
      ((new .empty .none none).run pairing).value "a",
      ((new .empty .none none).run pairing).depth,
      ((new .empty .none none).run pairing).running) =
    ([("a", ⟨.bool true, .fixed, []⟩), ("b", ⟨.bool true, .dynamic copyNow 1, ["a"]⟩)], true,
      .bool true, 0, false) := by
  simp only [pairing, run, List.foldl, Operation.apply, createDynamic, List.map, connect,
    Graph.addEdge, ite_or, ← Bool.cond_eq_ite]
  cbv

theorem atRest_pairing : ((new .empty .none none).run pairing).AtRest := by
  obtain ⟨hlist, hedge, hvalue, hdepth, hidle⟩ := by simpa only [Prod.mk.injEq] using run_pairing
  have htied := tied_run (tied_new .empty .none none) pairing
  generalize (new .empty .none none).run pairing = s at *
  have hcells {name : String} {c : Cell} (hc : s.cell? name = some c) :
      (name = "a" ∧ c = ⟨.bool true, .fixed, []⟩) ∨
        name = "b" ∧ c = ⟨.bool true, .dynamic copyNow 1, ["a"]⟩ := by
    have hmem := Std.ExtTreeMap.mem_toList_iff_getElem?_eq_some.mpr hc
    simpa [hlist] using hmem
  refine ⟨hdepth, hidle, fun name c hc => ?_, htied.linked_iff.mpr fun name c hc d hd => ?_,
    fun name c hc run calls hb k => ?_⟩
  · rcases hcells hc with ⟨-, rfl⟩ | ⟨-, rfl⟩
    · trivial
    · exact ⟨fun args => args.headD .null, fun _ _ => rfl⟩
  · rcases hcells hc with ⟨rfl, rfl⟩ | ⟨rfl, rfl⟩
    · cases hd
    · exact List.mem_singleton.mp hd ▸ hedge
  · rcases hcells hc with ⟨-, rfl⟩ | ⟨-, rfl⟩
    · cases hb
    · cases hb
      simp [copyNow, args, hvalue]

theorem run_nesting :
    ((((new .empty .none none).run pairing).run nesting).depth,
      (List.range nesting.length).all fun n => n == 0 ||
        (((new .empty .none none).run pairing).run (nesting.take n)).depth != 0,
      (((new .empty .none none).run pairing).run nesting).value "b",
      ((new .empty .none none).run pairing).timesRan "b",
      (((new .empty .none none).run pairing).setEach
        [("a", .null), ("b", .bool true), ("c", .bool true), ("a", .bool false)]).timesRan "b") =
    (0, true, .bool false, 1, 4) := by
  simp only [pairing, run, List.foldl, Operation.apply, createDynamic, List.map, connect,
    Graph.addEdge, ite_or, ← Bool.cond_eq_ite]
  cbv

/-- In one transaction the writes compute `b` once, and three times one by one. -/
theorem cells_of_nesting :
    let s := (new .empty .none none).run pairing
    let each := s.setEach [("a", .null), ("b", .bool true), ("c", .bool true), ("a", .bool false)]
    (∀ name, ((s.run nesting).cell? name).map Cell.uncounted =
      (each.cell? name).map Cell.uncounted) ∧
    (s.run nesting).value "b" = .bool false ∧
    (s.run nesting).timesRan "b" ≤ s.timesRan "b" + 1 ∧
    each.timesRan "b" = s.timesRan "b" + 3 := by
  intro s each
  obtain ⟨hclosed, hopen, hvalue, honce, heach⟩ := by
    simpa only [Prod.mk.injEq] using run_nesting
  have hscript (op : Operation) (hop : op ∈ nesting) : op.Transacts := by
    simp only [nesting, List.mem_cons, List.not_mem_nil, or_false] at hop
    rcases hop with rfl | rfl | rfl | rfl | rfl | rfl | rfl | rfl <;> trivial
  obtain ⟨-, hcells, -, hruns⟩ := cells_of_transactions .empty .none none pairing atRest_pairing _
    nesting hscript rfl hclosed
  refine ⟨hcells, hvalue, hruns (fun n hn hlt => ?_) "b", ?_⟩
  · have hdepth := List.all_eq_true.mp hopen n (List.mem_range.mpr hlt)
    simpa [Nat.ne_of_gt hn] using hdepth
  · rw [heach, honce]

end Sheet

end QuerySheet

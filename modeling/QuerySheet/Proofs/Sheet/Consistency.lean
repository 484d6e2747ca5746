import Mathlib
import QuerySheet.Proofs.Sheet.Calls
import QuerySheet.Proofs.Sheet.Work

/-!
# A sheet at rest is consistent

* `Consistent`: the cells are sound for the work that the schedule of the sheet describes;
* `consistent_runQueue`: computing a queue leaves a consistent sheet, whether it is done or
  suspended;
* `Step` and `Reachable`: the operations on a sheet whose computations are pure, in any order;
* `Reachable.consistent`: every sheet they lead to is consistent;
* `outcome_of_reachable`: with no transaction open and nothing running, the value of every computed
  cell is what its computation gives for the values of its dependencies.
-/

namespace QuerySheet.Sheet

variable {s s' : Sheet} {name : String}

/-! ## 1. Consistent sheets -/

/-- What holds of a schedule between two operations. -/
structure Schedule.Orderly (t : Schedule) : Prop where
  running : t.running = t.suspended.isSome
  idle : t.suspended = none → t.queue = []
  pending : ∀ p, t.suspended = some p → p.index < t.queue.length ∧ ∃ v, p.outcome = .ok v
  closed : t.depth = 0 → t.dirty = []

structure Consistent (s : Sheet) : Prop where
  orderly : s.schedule.Orderly
  sound : s.Sound s.schedule.work

/-- The schedule is the same, and the cells are as sound as they were. -/
theorem Consistent.of_schedule (h : s.Consistent) (hs : s'.schedule = s.schedule)
    (hsound : s'.Sound s.schedule.work) : s'.Consistent :=
  ⟨hs ▸ h.orderly, hs ▸ hsound⟩

theorem Consistent.congr (h : s.Consistent) (hcells : SameCells s s')
    (hs : s'.schedule = s.schedule) : s'.Consistent :=
  h.of_schedule hs (h.sound.congr hcells)

theorem consistent_new (schema : Schema) (policy : Policy) (executor : Option Executor) :
    (Sheet.new schema policy executor).Consistent where
  orderly := ⟨rfl, fun _ => rfl, fun _ h => (nomatch h), fun _ => rfl⟩
  sound := by
    have hnone (a : String) (c : Cell) : (Sheet.new schema policy executor).cell? a ≠ some c := by
      simp [Sheet.cell?, Sheet.new]
    refine ⟨Graph.acyclic_empty, fun a c hc => absurd hc (hnone a c),
      fun a c hc => absurd hc (hnone a c), fun a c hc => absurd hc (hnone a c), trivial,
      fun a v hheld => (by cases hheld), fun a c hc => absurd hc (hnone a c)⟩

/-! ## 2. Computing the queue -/

/-- Without a suspended computation and without a queue there is no work but for dirty names. -/
theorem consistent_finish (hsusp : s.suspended = none) (hclosed : s.depth = 0 → s.dirty = [])
    (h : s.Sound ⟨[], none, s.dirty⟩) : s.finish.Consistent := by
  obtain ⟨hcells, hschedule⟩ := finish_frame s
  constructor
  · rw [hschedule]
    exact ⟨by simp [schedule, hsusp], fun _ => rfl,
      fun p hp => by simp [schedule, hsusp] at hp, hclosed⟩
  · have hwork : s.finish.schedule.work = ⟨[], none, s.dirty⟩ := by
      rw [hschedule]
      simp [Schedule.work, schedule, hsusp]
    rw [hwork]
    exact h.congr hcells

/-- The queue waits for the outcome of its computation. -/
theorem consistent_suspend {index : Nat} {rest : List String} {v : Json}
    (hqueue : s.queue.drop index = name :: rest) (hrun : s.running = true)
    (hclosed : s.depth = 0 → s.dirty = []) (h : s.Sound ⟨rest, some (name, v), s.dirty⟩) :
    { s with suspended := some ⟨index, name, .ok v⟩ }.Consistent := by
  have hlt : index < s.queue.length := by
    refine Nat.lt_of_not_le fun hle => ?_
    rw [List.drop_eq_nil_of_le hle] at hqueue
    cases hqueue
  have hrest : s.queue.drop (index + 1) = rest := by
    rw [← List.tail_drop, hqueue, List.tail_cons]
  constructor
  · refine ⟨hrun, fun hnone => (by cases hnone), fun p hp => ?_, hclosed⟩
    cases hp
    exact ⟨hlt, v, rfl⟩
  · have hwork : { s with suspended := some ⟨index, name, .ok v⟩ }.schedule.work =
        ⟨rest, some (name, v), s.dirty⟩ := by
      simp [Schedule.work, schedule, hrest, Except.toOption]
    rw [hwork]
    exact h.congr ⟨rfl, rfl⟩

theorem consistent_runQueue {waiting : Bool} {index : Nat} {rest : List String}
    (hqueue : s.queue.drop index = rest) (hsusp : s.suspended = none) (hrun : s.running = true)
    (hclosed : s.depth = 0 → s.dirty = []) (h : s.Sound ⟨rest, none, s.dirty⟩) :
    (runQueue waiting s index rest).Consistent := by
  -- Each name of the queue is skipped, or held until its value is assigned, now or on a wait.
  induction rest generalizing s index with
  | nil => exact consistent_finish hsusp hclosed h
  | cons name rest ih =>
    have hnext : s.queue.drop (index + 1) = rest := by
      rw [← List.tail_drop, hqueue, List.tail_cons]
    have hquery (c : Cell) (hc : s.cell? name = some c) (handle : QueryHandle) (q : CompiledQuery) :
        c.binding ≠ .query handle q := by
      intro hb
      have := h.pure name c hc
      rw [hb] at this
      exact this
    unfold runQueue
    rcases compute_cases hquery with ⟨hcompute, hfixed⟩ | ⟨c, run, calls, hc, hb, hcompute⟩
    · rw [hcompute]
      exact ih hnext hsusp hrun hclosed (h.skip hfixed)
    · obtain ⟨f, hf⟩ : Run.Pure run := by
        have := h.pure name c hc
        rwa [hb] at this
      have hv : (run calls (s.args c)).outcome = .ok (f (s.args c)) := hf calls _
      have hheld : ((s.update name (recount run calls)).emit (.ran name (s.args c))).Sound
          ⟨rest, some (name, f (s.args c)), s.dirty⟩ := (h.hold hc hb hv).congr ⟨rfl, rfl⟩
      rw [hcompute]
      dsimp only
      split
      · rw [hv]
        exact consistent_suspend hqueue hrun hclosed hheld
      · rw [hv]
        exact ih hnext hsusp hrun hclosed hheld.assign

/-! ## 3. Transactions and waiting -/

/-- A running queue grows, and a queue that is not running is computed. -/
theorem consistent_enqueue (h : s.schedule.Orderly) (hdirty : s.dirty = []) {names : List String}
    (hsound : s.Sound { s.schedule.work with ahead := s.schedule.work.ahead ++ names }) :
    (s.enqueue names).Consistent := by
  unfold Sheet.enqueue
  split
  · rename_i hempty
    rw [List.isEmpty_iff.mp hempty, List.append_nil] at hsound
    exact ⟨h, hsound⟩
  · dsimp only
    have hschedule : (s.setStatus .dirty).schedule = s.schedule := schedule_setStatus
    have hsound₁ := hsound.congr (SameCells.setStatus s .dirty)
    generalize s.setStatus .dirty = s₁ at hschedule hsound₁
    rw [← hschedule] at hsound₁ h
    have hdirty₁ : s₁.dirty = [] := (congrArg Schedule.dirty hschedule).trans hdirty
    obtain hp | ⟨p, hp⟩ := Option.eq_none_or_eq_some s₁.suspended
    · have hrun : s₁.running = false := by
        have := h.running
        simpa [schedule, hp] using this
      have hqueue : s₁.queue = [] := h.idle hp
      have hwork : s₁.schedule.work = ⟨[], none, s₁.dirty⟩ := by
        simp [Schedule.work, schedule, hp]
      rw [hwork] at hsound₁
      rw [if_neg (by simp [hrun]), hqueue]
      exact consistent_runQueue rfl hp rfl (fun _ => hdirty₁) (hsound₁.congr ⟨rfl, rfl⟩)
    · have hrun : s₁.running = true := by
        have := h.running
        simpa [schedule, hp] using this
      rw [if_pos hrun]
      obtain ⟨hlt, -⟩ := h.pending p hp
      constructor
      · refine ⟨h.running, fun hnone => ?_, fun p' hp' => ?_, h.closed⟩
        · cases hp.symm.trans hnone
        · obtain ⟨hlt', hv'⟩ := h.pending p' hp'
          exact ⟨Nat.lt_of_lt_of_le hlt' (List.length_append ▸ Nat.le_add_right _ _), hv'⟩
      · -- the new names come after all that the queue has still ahead
        have hdrop : (s₁.queue ++ names).drop (p.index + 1) =
            s₁.queue.drop (p.index + 1) ++ names := List.drop_append_of_le_length hlt
        have hwork : { s₁ with queue := s₁.queue ++ names }.schedule.work =
            { s₁.schedule.work with ahead := s₁.schedule.work.ahead ++ names } := by
          simp [Schedule.work, schedule, hp, hdrop]
        rw [hwork]
        exact hsound₁.congr ⟨rfl, rfl⟩

theorem Consistent.startTransaction (h : s.Consistent) : s.startTransaction.Consistent where
  orderly := ⟨h.orderly.running, h.orderly.idle, h.orderly.pending,
    fun hdepth => absurd hdepth (Nat.succ_ne_zero _)⟩
  sound := h.sound.congr ⟨rfl, rfl⟩

theorem Consistent.endTransaction (h : s.Consistent) : s.endTransaction.Consistent := by
  unfold Sheet.endTransaction
  dsimp only
  split
  · have horderly : { s with depth := s.depth - 1, dirty := [] }.schedule.Orderly :=
      ⟨h.orderly.running, h.orderly.idle, h.orderly.pending, fun _ => rfl⟩
    exact consistent_enqueue horderly rfl (h.sound.enqueue.congr ⟨rfl, rfl⟩)
  · rename_i hdepth
    exact ⟨⟨h.orderly.running, h.orderly.idle, h.orderly.pending, fun h0 => absurd h0 hdepth⟩,
      h.sound.congr ⟨rfl, rfl⟩⟩

/-- The suspended computation is settled, and the rest of the queue is computed at once. -/
theorem Consistent.settle (h : s.Consistent) : s.settle.Consistent := by
  unfold Sheet.settle
  obtain hp | ⟨p, hp⟩ := Option.eq_none_or_eq_some s.suspended
  · rw [hp]
    exact h
  · obtain ⟨hlt, v, hv⟩ := h.orderly.pending p hp
    have hrun : s.running = true := by
      have := h.orderly.running
      simpa [schedule, hp] using this
    have hwork : s.schedule.work = ⟨s.queue.drop (p.index + 1), some (p.name, v), s.dirty⟩ := by
      simp [Schedule.work, schedule, hp, hv, Except.toOption]
    have hsound := h.sound
    rw [hwork] at hsound
    rw [hp]
    dsimp only
    rw [hv]
    have hassigned : ({ s with suspended := none }.assign p.name v).Sound
        ⟨s.queue.drop (p.index + 1), none, s.dirty⟩ := hsound.assign.congr ⟨rfl, rfl⟩
    exact consistent_runQueue rfl rfl hrun h.orderly.closed hassigned

theorem Consistent.wait (h : s.Consistent) : s.wait.1.Consistent := by
  unfold Sheet.wait
  have hsettled := h.settle
  dsimp only
  split
  · exact hsettled.congr ⟨rfl, rfl⟩ rfl
  · exact hsettled

/-- Marking a cell dirty, in a transaction of its own, makes up for any change of the cell. -/
theorem consistent_invalidate (h : s.Consistent) (hschedule : s'.schedule = s.schedule)
    (hsound : s'.Sound { s.schedule.work with dirty := s.schedule.work.dirty ++ [name] }) :
    (s'.invalidate [name]).Consistent := by
  refine Consistent.endTransaction ⟨?_, ?_⟩
  · have ho := h.orderly
    rw [← hschedule] at ho
    exact ⟨ho.running, ho.idle, ho.pending, fun hdepth => absurd hdepth (Nat.succ_ne_zero _)⟩
  · rw [← hschedule] at hsound
    exact hsound.congr ⟨rfl, rfl⟩

theorem Consistent.edit (h : s.Consistent) (e : EditedAt name s s')
    (hschedule : s'.schedule = s.schedule) : (s'.invalidate [name]).Consistent :=
  consistent_invalidate h hschedule
    ((h.sound.mark name).edit e (List.mem_append_right _ List.mem_cons_self))

/-! ## 4. The operations -/

theorem Consistent.touch (h : s.Consistent) (name : String) : (s.touch name).Consistent :=
  h.of_schedule schedule_touch (h.sound.touch name)

theorem Consistent.foldl_touch (h : s.Consistent) (names : List String) :
    (names.foldl Sheet.touch s).Consistent :=
  h.of_schedule (schedule_foldl_touch names) (h.sound.foldl_touch names)

theorem Consistent.unbind (h : s.Consistent) (name : String) : (s.unbind name).Consistent :=
  h.of_schedule schedule_unbind (h.sound.unbind name)

theorem written_pure {v : Json} {c : Cell} (h : c.binding.Pure) : (written v c).binding.Pure := by
  unfold written
  dsimp only
  split
  · trivial
  · exact h

theorem Consistent.set (h : s.Consistent) (name : String) (v : Json) :
    (s.set name v).Consistent := by
  have ht := h.touch name
  rw [set_eq]
  refine ht.edit ⟨ht.sound.acyclic, fun a ha => ha, fun a b _ => Iff.rfl,
    fun a ha => cell?_update_of_ne ha, fun c hc => ?_, fun c hc d hd => ?_, fun c hc => ?_⟩
    schedule_update
  all_goals
    rw [cell?_update_self] at hc
    obtain ⟨c', hc', rfl⟩ := Option.map_eq_some_iff.mp hc
  · exact ht.sound.node name c' hc'
  · exact ht.sound.edge name c' hc' d hd
  · exact written_pure (ht.sound.pure name c' hc')

theorem Consistent.createStatic (h : s.Consistent) (sheet name : String) (v : Json) :
    (s.createStatic sheet name v).Consistent := by
  unfold Sheet.createStatic
  dsimp only
  split
  · exact h
  · exact h.set _ v

/-- The edges of a cell that is bound anew lead from its dependencies. -/
theorem editedAt_bind {deps : List String} {run : Run} (hnode : s.graph.hasNode name = true)
    (hrun : Run.Pure run) (hconnect : Connects s.graph name deps s'.graph)
    (hcell : ∀ a, a ≠ name → s'.cell? a = s.cell? a)
    (hself : ∀ c, s'.cell? name = some c → c.binding = .dynamic run 0 ∧ c.dependencies = deps) :
    EditedAt name s s' where
  acyclic := hconnect.acyclic
  node a := (hconnect.node a).mpr
  edge := hconnect.other
  cell := hcell
  self _ _ := (hconnect.node name).mpr hnode
  reads c hc d hd := (hconnect.into d).mpr ((hself c hc).2 ▸ hd)
  pure c hc := by
    rw [(hself c hc).1]
    exact hrun

theorem Consistent.readied (h : s.Consistent) (name : String) (deps : List String) :
    (s.readied name deps).Consistent := (h.foldl_touch deps).touch name

/-- All that a cell is to read can be connected with it. -/
theorem Consistent.connects {deps : List String} (h : s.Consistent)
    (hcyclic : (s.readied name deps).cyclic? name deps = none) {g : Graph}
    {r : Except Graph.Cycle Unit}
    (hconnect : connect ((s.readied name deps).graph.removeIncoming name) name deps = (g, r)) :
    r = .ok () ∧ Connects (s.readied name deps).graph name deps g :=
  connects_readied (h.readied name deps).sound.acyclic (h.readied name deps).sound.node hcyclic
    hconnect

theorem Binds.consistent {deps : List String} {d : Definition} {r : Sheet × Except CellError Unit}
    (hcall : s.Binds name deps d r) (h : s.Consistent) (hrun : Run.Pure d.run)
    (hstart : d.refresh = true ∨ s.value name = .null ∨
      (s.cell? name).any (·.binding.isDynamic) = true) : r.1.Consistent := by
  have ht : (s.readied name deps).Consistent := h.readied name deps
  cases hcall with
  | skipped => exact h
  | cyclic => exact ht
  | refused hcyclic hconnect => cases (h.connects hcyclic hconnect).1
  | started _ hcyclic hconnect =>
    obtain ⟨c, hc⟩ := @exists_cell_readied s name name deps List.mem_cons_self
    refine ht.edit (editedAt_bind (ht.sound.node name c hc) hrun (h.connects hcyclic hconnect).2
      (fun a ha => ?_) fun c hc => ?_) rfl
    · exact (cell?_update_of_ne ha).trans (cell?_update_of_ne ha)
    · rw [Sheet.assign, cell?_update_self, cell?_update_self] at hc
      obtain ⟨c', hc', rfl⟩ := Option.map_eq_some_iff.mp hc
      obtain ⟨c'', -, rfl⟩ := Option.map_eq_some_iff.mp hc'
      exact ⟨rfl, rfl⟩
  | kept hfixed hrefresh hvalue =>
    -- the cell would keep a value that its new computation need not give
    rcases hstart with hstart | hnull | hdynamic
    · exact Bool.noConfusion (hrefresh.symm.trans hstart)
    · exact absurd hnull hvalue
    · exact Bool.noConfusion (hfixed.symm.trans hdynamic)

theorem reading_binding {d : String} {c : Cell} : (reading d c).binding = c.binding := by
  unfold reading
  split <;> rfl

/-- One more dependency of a dirty cell. -/
theorem Sound.addEdge {w : Work} (h : s.Sound w) (hdirty : name ∈ w.dirty) {d : String} {g : Graph}
    (hadd : s.graph.addEdge d name = (g, .ok ())) :
    ({ s with graph := g }.update name (reading d)).Sound w := by
  have hnode (a : String) (ha : a = name ∨ s.graph.hasNode a = true) : g.hasNode a = true := by
    have := (Graph.hasNode_addEdge (g := s.graph) (u := d) (v := name)).mpr (.inr ha)
    rwa [hadd] at this
  have hedge {a b : String} := Graph.hasEdge_addEdge_of_ok hadd (a := a) (b := b)
  refine h.edit ⟨Graph.acyclic_addEdge h.acyclic hadd, fun a ha => hnode a (.inr ha),
    fun a b hb => ?_, fun a ha => cell?_update_of_ne ha, fun c _ => hnode name (.inl rfl),
    fun c hc a ha => ?_, fun c hc => ?_⟩ hdirty
  · exact hedge.trans ⟨fun hab => hab.resolve_left fun e => hb e.2, .inr⟩
  · rw [cell?_update_self] at hc
    obtain ⟨c', hc', rfl⟩ := Option.map_eq_some_iff.mp hc
    exact hedge.mpr ((mem_reading.mp ha).imp (fun e => ⟨e, rfl⟩) (h.edge name c' hc' a))
  · rw [cell?_update_self] at hc
    obtain ⟨c', hc', rfl⟩ := Option.map_eq_some_iff.mp hc
    rw [reading_binding]
    exact h.pure name c' hc'

theorem sound_addEach {w : Work} {deps : List String} (h : s.Sound w) (hdirty : name ∈ w.dirty)
    (hok : s.addEach name deps = (s', .ok ())) : s'.Sound w ∧ s'.schedule = s.schedule := by
  induction deps generalizing s with
  | nil =>
    cases hok
    exact ⟨h, rfl⟩
  | cons d deps ih =>
    unfold addEach at hok
    dsimp only at hok
    split at hok
    · cases hok
    · rename_i g hadd
      obtain ⟨hsound, hschedule⟩ := ih ((h.touch d).addEdge hdirty hadd) hok
      exact ⟨hsound, hschedule.trans schedule_touch⟩

theorem Adds.consistent {deps : List String} (hcall : s.Adds name deps (s', .ok ()))
    (h : s.Consistent) : s'.Consistent := by
  cases hcall with
  | added _ hadd =>
    obtain ⟨hsound, hschedule⟩ :=
      sound_addEach (h.sound.mark name) (List.mem_append_right _ List.mem_cons_self) hadd
    exact consistent_invalidate h hschedule hsound

theorem Sound.removeReading {w : Work} (h : s.Sound w) (hdirty : name ∈ w.dirty) (d : String) :
    (s.removeReading name d).Sound w := by
  refine h.edit ⟨h.acyclic.mono fun a b hab => (Graph.hasEdge_removeEdge.mp hab).1,
    fun a ha => Graph.hasNode_removeEdge.trans ha, fun a b hb => ?_,
    fun a ha => cell?_update_of_ne ha, fun c hc => ?_, fun c hc a ha => ?_, fun c hc => ?_⟩ hdirty
  · exact Graph.hasEdge_removeEdge.trans
      ⟨fun hab => hab.1, fun hab => ⟨hab, fun e => hb e.2⟩⟩
  all_goals
    rw [Sheet.removeReading, cell?_update_self] at hc
    obtain ⟨c', hc', rfl⟩ := Option.map_eq_some_iff.mp hc
  · exact Graph.hasNode_removeEdge.trans (h.node name c' hc')
  · obtain ⟨ha, hne⟩ := List.mem_filter.mp ha
    exact Graph.hasEdge_removeEdge.mpr
      ⟨h.edge name c' hc' a ha, fun e => bne_iff_ne.mp hne e.1⟩
  · exact h.pure name c' hc'

theorem sound_removeEach {w : Work} (h : s.Sound w) (hdirty : name ∈ w.dirty) (deps : List String) :
    (deps.foldl (Sheet.removeReading name) s).Sound w ∧
      (deps.foldl (Sheet.removeReading name) s).schedule = s.schedule := by
  induction deps generalizing s with
  | nil => exact ⟨h, rfl⟩
  | cons d deps ih => exact ih (h.removeReading hdirty d)

theorem Removes.consistent {deps : List String} (hcall : s.Removes name deps (s', .ok ()))
    (h : s.Consistent) : s'.Consistent := by
  cases hcall with
  | removed =>
    obtain ⟨hsound, hschedule⟩ :=
      sound_removeEach (h.sound.mark name) (List.mem_append_right _ List.mem_cons_self) deps
    exact consistent_invalidate h hschedule hsound

/-! ## 5. All runs -/

/-- One operation on a sheet whose computations are pure. -/
inductive Step (s : Sheet) : Sheet → Prop
  | set (name : String) (v : Json) : Step s (s.set name v)
  | createStatic (sheet name : String) (v : Json) : Step s (s.createStatic sheet name v)
  /-- A cell is bound on refresh or if it has no value; if it is bound to a computation already,
      nothing happens. -/
  | createDynamic (sheet name : String) (d : Definition) (hrun : Run.Pure d.run)
      (hstart : d.refresh = true ∨ s.value (CellName.qualify sheet name) = .null ∨
        (s.cell? (CellName.qualify sheet name)).any (·.binding.isDynamic) = true) :
      Step s (s.createDynamic sheet name d).1
  | addDependencies (sheet name : String) (deps : List String) {s' : Sheet}
      (hok : s.addDependencies sheet name deps = (s', .ok ())) : Step s s'
  | removeDependencies (sheet name : String) (deps : List String) {s' : Sheet}
      (hok : s.removeDependencies sheet name deps = (s', .ok ())) : Step s s'
  | unbind (name : String) : Step s (s.unbind name)
  | startTransaction : Step s s.startTransaction
  | endTransaction : Step s s.endTransaction
  | wait : Step s s.wait.1

/-- The sheets that operations lead to, in any order, from a new one. -/
inductive Reachable (schema : Schema) (policy : Policy) (executor : Option Executor) : Sheet → Prop
  | new : Reachable schema policy executor (Sheet.new schema policy executor)
  | step {s s' : Sheet} : Reachable schema policy executor s → Step s s' →
      Reachable schema policy executor s'

theorem Consistent.step (h : s.Consistent) (hstep : Step s s') : s'.Consistent := by
  cases hstep with
  | set name v => exact h.set name v
  | createStatic sheet name v => exact h.createStatic sheet name v
  | createDynamic sheet name d hrun hstart =>
    exact (binds_createDynamic s sheet name d).consistent h hrun hstart
  | addDependencies sheet name deps hok =>
    exact Adds.consistent (hok ▸ adds_addDependencies s sheet name deps) h
  | removeDependencies sheet name deps hok =>
    exact Removes.consistent (hok ▸ removes_removeDependencies s sheet name deps) h
  | unbind name => exact h.unbind name
  | startTransaction => exact h.startTransaction
  | endTransaction => exact h.endTransaction
  | wait => exact h.wait

theorem Reachable.consistent {schema : Schema} {policy : Policy} {executor : Option Executor}
    (h : Reachable schema policy executor s) : s.Consistent := by
  induction h with
  | new => exact consistent_new schema policy executor
  | step _ hstep ih => exact ih.step hstep

/-- With no transaction open and nothing running, the value of every computed cell is what its
    computation gives for the values that its dependencies have. -/
theorem outcome_of_reachable {schema : Schema} {policy : Policy} {executor : Option Executor}
    (h : Reachable schema policy executor s) (hdepth : s.depth = 0) (hidle : s.running = false)
    {c : Cell} (hc : s.cell? name = some c) {run : Run} {calls : Nat}
    (hb : c.binding = .dynamic run calls) (k : Nat) :
    (run k (c.dependencies.map s.value)).outcome = .ok c.value := by
  obtain ⟨horderly, hsound⟩ := h.consistent
  have hsusp : s.suspended = none := by
    have := horderly.running
    simpa [schedule, hidle] using this
  have hdirty : s.dirty = [] := horderly.closed hdepth
  have hwork : s.schedule.work = ⟨[], none, []⟩ := by
    simp [Schedule.work, schedule, hsusp, hdirty]
  rw [hwork] at hsound
  rcases hsound.current name c hc with (ha | ha | ⟨d, -, hd⟩) | hgives
  · cases ha
  · cases ha
  · cases hd
  -- With no work left the cell is current, and a pure computation gives the same at any call.
  · exact hgives run calls hb k

/-- A computation that hands on its first argument, later. -/
def copyLater : Run := fun _ args => ⟨.ok (args.headD .null), true⟩

/-- A sheet whose cell `b` waits for the value of `a`. -/
def copying : Sheet :=
  (((new .empty .none none).set "a" (.bool true)).createDynamic "" "b"
    ⟨["a"], copyLater, .null, false⟩).1

theorem reachable_copying : Reachable .empty .none none copying := by
  refine .step (.step .new (.set "a" (.bool true)))
    (.createDynamic "" "b" _ ⟨fun args => args.headD .null, fun _ _ => rfl⟩ (.inr (.inl ?_)))
  cbv

theorem run_copying :
    (copying.running, copying.wait.1.depth, copying.wait.1.running, copying.wait.1.cell? "b") =
    (true, 0, false, some ⟨.bool true, .dynamic copyLater 1, ["a"]⟩) := by
  simp only [copying, createDynamic, List.map, connect, Graph.addEdge, ite_or, ← Bool.cond_eq_ite]
  cbv

theorem outcome_of_copied :
    copying.running = true ∧ copying.wait.1.depth = 0 ∧ copying.wait.1.running = false ∧
      (copyLater 0 (["a"].map copying.wait.1.value)).outcome = .ok (.bool true) := by
  obtain ⟨hstart, hdepth, hidle, hc⟩ := by simpa only [Prod.mk.injEq] using run_copying
  exact ⟨hstart, hdepth, hidle,
    outcome_of_reachable (.step reachable_copying .wait) hdepth hidle hc rfl 0⟩

end QuerySheet.Sheet

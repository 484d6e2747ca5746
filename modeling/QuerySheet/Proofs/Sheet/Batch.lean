import QuerySheet.Proofs.Sheet.Calls
import QuerySheet.Proofs.Sheet.Operation

/-!
# Batches

A batch starts when names come to an idle queue, and ends when the queue is empty again.

* `Told`: nothing was computed, but the surroundings were told of the status and of batches;
* `Ran`: the cells after some names of the queue were computed;
* `Ends`: how the computing of a queue stops: it is finished, it waits, or it has failed.
  `runQueue_ends` says that nothing else happens;
* `Schedule.Regular`: what holds of the schedule between two calls. `regular_run` says so of every
  run;
* `Proceeds`: a change that keeps schedules regular and goes on waiting for what is suspended;
* `Commits`: a change of cells alone, unless it ends with names that are invalidated;
* `Operation.effect`: what a call does to the schedule. It may close a transaction
  (`Operation.ClosesOn`), and every call but `wait` proceeds;
* `schedule_of_run`: the schedule after any calls.
-/

namespace QuerySheet

/-- A binding that gives a value when the queue comes to its cell. -/
def Binding.Computes : Binding → Prop
  | .dynamic _ _ | .query _ _ => True
  | .unbound | .fixed => False

/-- The values of a batch, if the event hands them over to be saved. -/
def Event.batch? : Event → Option (List (String × Json))
  | .saved cells => some cells
  | _ => none

/-- An event that tells of the status of a sheet, or of a batch. -/
def Event.Tells : Event → Prop
  | .status _ | .saved _ | .changed _ _ => True
  | .ran _ _ | .queried _ => False

namespace Sheet

variable {s s' t : Sheet} {name a : String}

/-- The batches that were handed over to be saved, the latest first. -/
def batches (s : Sheet) : List (List (String × Json)) := s.events.filterMap Event.batch?

/-! ## 1. Telling the surroundings -/

/-- `t` is `s` after its surroundings were told of its status and of batches. -/
def Told (s t : Sheet) : Prop := ∃ told, t.events = told ++ s.events ∧ ∀ e ∈ told, e.Tells

namespace Told

theorem refl (s : Sheet) : Told s s := ⟨[], rfl, fun _ he => by cases he⟩

theorem trans (h : Told s t) (h' : Told t s') : Told s s' := by
  obtain ⟨told, hevents, htells⟩ := h
  obtain ⟨told', hevents', htells'⟩ := h'
  refine ⟨told' ++ told, by rw [hevents', hevents, List.append_assoc], fun e he => ?_⟩
  exact (List.mem_append.mp he).elim (htells' e) (htells e)

theorem emit (s : Sheet) {e : Event} (h : e.Tells) : Told s (s.emit e) :=
  ⟨[e], rfl, fun _ he => List.mem_singleton.mp he ▸ h⟩

theorem setStatus (s : Sheet) (status : CacheStatus) : Told s (s.setStatus status) := by
  unfold Sheet.setStatus
  split
  · exact refl s
  · exact emit s trivial

theorem markClean (s : Sheet) : Told s s.markClean := by
  unfold Sheet.markClean
  split
  · exact refl s
  · exact setStatus s _

theorem foldl_emit {α : Type} (event : α → Event) (h : ∀ x, (event x).Tells) (l : List α)
    (s : Sheet) : Told s (l.foldl (fun s x => s.emit (event x)) s) := by
  induction l generalizing s with
  | nil => exact refl s
  | cons x l ih => exact (emit s (h x)).trans (ih _)

theorem finish (s : Sheet) : Told s s.finish := by
  unfold Sheet.finish
  extract_lets batch idle told values
  have htold : Told s told :=
    foldl_emit (fun l : Listener => .changed l.label batch) (fun _ => trivial) _ idle
  have hsaved : Told told (told.emit (.saved values)) := emit told trivial
  exact (htold.trans hsaved).trans (markClean _)

end Told

/-! ## 2. Computing some names -/

/-- `t` is `s` after some of the names were computed. -/
structure Ran (names : List String) (s t : Sheet) : Prop where
  schedule : t.schedule = s.schedule
  batches : t.batches = s.batches
  missing : ∀ a, s.cell? a = none → t.cell? a = none
  kept : ∀ a c, s.cell? a = some c → a ∉ names ∨ ¬ c.binding.Computes → t.cell? a = some c
  computed : ∀ a c, s.cell? a = some c → c.binding.Computes →
    ∃ c', t.cell? a = some c' ∧ c'.binding.Computes

namespace Ran

variable {names more : List String}

theorem refl (names : List String) (s : Sheet) : Ran names s s :=
  ⟨rfl, rfl, fun _ h => h, fun _ _ h _ => h, fun _ c h hc => ⟨c, h, hc⟩⟩

theorem mono (h : Ran names s t) (hsub : ∀ a ∈ names, a ∈ more) : Ran more s t where
  schedule := h.schedule
  batches := h.batches
  missing := h.missing
  kept a c hc ha := h.kept a c hc (ha.imp_left fun hmore hmem => hmore (hsub a hmem))
  computed := h.computed

theorem trans (h : Ran names s t) (h' : Ran names t s') : Ran names s s' where
  schedule := h'.schedule.trans h.schedule
  batches := h'.batches.trans h.batches
  missing a ha := h'.missing a (h.missing a ha)
  kept a c hc ha := h'.kept a c (h.kept a c hc ha) ha
  computed a c hc hb := by
    obtain ⟨c', hc', hb'⟩ := h.computed a c hc hb
    exact h'.computed a c' hc' hb'

/-- A change of one cell that is computed. -/
theorem update {c : Cell} (hc : s.cell? name = some c) (hb : c.binding.Computes) {f : Cell → Cell}
    (hf : (f c).binding.Computes) : Ran [name] s (s.update name f) where
  schedule := rfl
  batches := rfl
  missing a ha := by
    have hne : a ≠ name := by
      rintro rfl
      rw [hc] at ha
      cases ha
    exact (cell?_update_of_ne hne).trans ha
  kept a c' hc' ha := by
    have hne : a ≠ name := by
      rintro rfl
      rw [hc] at hc'
      cases hc'
      exact ha.elim (fun h => h List.mem_cons_self) fun h => h hb
    exact (cell?_update_of_ne hne).trans hc'
  computed a c' hc' hb' := by
    by_cases e : a = name
    · subst e
      exact ⟨f c, by rw [cell?_update_self, hc, Option.map_some], hf⟩
    · exact ⟨c', (cell?_update_of_ne e).trans hc', hb'⟩

/-- What was told to the surroundings, but for batches, is left out. -/
theorem congr (h : Ran names s t) (hcells : SameCells t s') (hs : s'.schedule = t.schedule)
    (hbatches : s'.batches = t.batches) : Ran names s s' where
  schedule := hs.trans h.schedule
  batches := hbatches.trans h.batches
  missing a ha := hcells.cell?.trans (h.missing a ha)
  kept a c hc ha := hcells.cell?.trans (h.kept a c hc ha)
  computed a c hc hb := by
    obtain ⟨c', hc', hb'⟩ := h.computed a c hc hb
    exact ⟨c', hcells.cell?.trans hc', hb'⟩

end Ran

/-- A cell gives nothing, and nothing changes, or it is one that computes. -/
theorem compute_spec (s : Sheet) (name : String) :
    s.compute name = (s, none) ∨
      ∃ t computed c, s.compute name = (t, some computed) ∧ Ran [name] s t ∧
        t.cell? name = some c ∧ c.binding.Computes := by
  unfold compute
  cases hc : s.cell? name with
  | none => exact .inl rfl
  | some c =>
    cases hb : c.binding with
    | unbound => exact .inl (by simp only [hb])
    | fixed => exact .inl (by simp only [hb])
    | dynamic run calls =>
      have hcomputes : c.binding.Computes := by
        rw [hb]
        trivial
      have hcount : Ran [name] s (s.update name (recount run calls)) :=
        .update hc hcomputes trivial
      simp only [hb]
      refine .inr ⟨_, _, recount run calls c, rfl, hcount.congr ⟨rfl, rfl⟩ rfl rfl, ?_, trivial⟩
      exact cell?_update_self.trans (congrArg (Option.map _) hc)
    | query handle compiled =>
      have hcomputes : c.binding.Computes := by
        rw [hb]
        trivial
      simp only [hb]
      cases s.executor with
      | none => exact .inr ⟨_, _, c, rfl, .refl _ s, hc, hcomputes⟩
      | some execute =>
        exact .inr ⟨_, _, c, rfl, (Ran.refl [name] s).congr ⟨rfl, rfl⟩ rfl rfl, hc, hcomputes⟩

/-! ## 3. How a queue stops -/

/-- How the computing of a queue stops. It does not wait if somebody waits for it. -/
inductive Ends (t : Sheet) : Bool → Sheet → Prop
  | finished {waiting : Bool} : Ends t waiting t.finish
  | suspended (p : Suspended) (hp : t.queue[p.index]? = some p.name) (c : Cell)
      (hc : t.cell? p.name = some c) (hb : c.binding.Computes) :
      Ends t false { t with suspended := some p }
  | failed {waiting : Bool} (e : CellError) : Ends t waiting (t.fail e)

/-- How a batch ends is no matter of cells. -/
theorem Ends.sameCells {waiting : Bool} (h : Ends t waiting s') : SameCells t s' := by
  cases h with
  | finished => exact (finish_frame t).1
  | suspended p hp c hc hb => exact ⟨rfl, rfl⟩
  | failed e => exact ⟨rfl, rfl⟩

theorem runQueue_ends (waiting : Bool) {index : Nat} {rest : List String}
    (hqueue : s.queue.drop index = rest) :
    ∃ t, Ran rest s t ∧ Ends t waiting (runQueue waiting s index rest) := by
  induction rest generalizing s index with
  | nil => exact ⟨s, .refl _ s, .finished⟩
  | cons name rest ih =>
    have hnext : s.queue.drop (index + 1) = rest := by
      rw [← List.tail_drop, hqueue, List.tail_cons]
    have hmem (a : String) (ha : a ∈ [name]) : a ∈ name :: rest := by
      rw [List.mem_singleton.mp ha]
      exact List.mem_cons_self
    have hrest (a : String) (ha : a ∈ rest) : a ∈ name :: rest := List.mem_cons_of_mem _ ha
    unfold runQueue
    rcases compute_spec s name with hcompute | ⟨t, computed, c, hcompute, hran, hc, hb⟩
    · rw [hcompute]
      obtain ⟨t, hran, hends⟩ := ih hnext
      exact ⟨t, hran.mono hrest, hends⟩
    · rw [hcompute]
      have hsame : t.queue = s.queue := congrArg Schedule.queue hran.schedule
      dsimp only
      split
      · rename_i hdeferred
        obtain rfl : waiting = false := by simp_all
        refine ⟨t, hran.mono hmem, .suspended ⟨index, name, computed.outcome⟩ ?_ c hc hb⟩
        have hhead := congrArg List.head? hqueue
        rwa [List.head?_drop, List.head?_cons, ← hsame] at hhead
      · split
        · rename_i v _
          have hassign : Ran [name] t (t.assign name v) := .update hc hb hb
          obtain ⟨u, hran', hends⟩ := @ih (t.assign name v) (index + 1)
            ((congrArg (List.drop (index + 1)) hsame).trans hnext)
          exact ⟨u, (hran.trans hassign).mono hmem |>.trans (hran'.mono hrest), hends⟩
        · rename_i e _
          exact ⟨t, hran.mono hmem, .failed e⟩

/-! ## 4. Regular schedules -/

/-- What holds of a schedule between two calls. -/
structure Schedule.Regular (t : Schedule) : Prop where
  running : t.running = t.suspended.isSome
  idle : t.suspended = none → t.queue = []
  pending : ∀ p, t.suspended = some p → t.queue[p.index]? = some p.name
  closed : t.depth = 0 → t.dirty = []

/-- Nothing is waited for if nothing is running. -/
theorem Schedule.Regular.suspended {t : Schedule} (h : t.Regular) (hidle : t.running = false) :
    t.suspended = none :=
  Option.not_isSome_iff_eq_none.mp (by simp [← h.running, hidle])

theorem Schedule.Regular.queue {t : Schedule} (h : t.Regular) (hidle : t.running = false) :
    t.queue = [] := h.idle (h.suspended hidle)

theorem regular_new (schema : Schema) (policy : Policy) (executor : Option Executor) :
    (new schema policy executor).schedule.Regular :=
  ⟨rfl, fun _ => rfl, fun _ h => (by cases h), fun _ => rfl⟩

theorem Ends.regular {waiting : Bool} (h : Ends t waiting s') (hsusp : t.suspended = none)
    (hrun : t.running = true) (hclosed : t.depth = 0 → t.dirty = []) : s'.schedule.Regular := by
  cases h with
  | finished =>
    rw [(finish_frame t).2]
    exact ⟨by simp [schedule, hsusp], fun _ => rfl, fun p hp => by simp [schedule, hsusp] at hp,
      hclosed⟩
  | suspended p hp c hc hb =>
    refine ⟨hrun, fun h => (by cases h), fun p' hp' => ?_, hclosed⟩
    cases hp'
    exact hp
  | failed e =>
    exact ⟨by simp [fail, schedule, hsusp], fun _ => rfl,
      fun p hp => by simp [fail, schedule, hsusp] at hp, hclosed⟩

theorem regular_runQueue {waiting : Bool} {index : Nat} {rest : List String}
    (hqueue : s.queue.drop index = rest) (hsusp : s.suspended = none) (hrun : s.running = true)
    (hclosed : s.depth = 0 → s.dirty = []) :
    (runQueue waiting s index rest).schedule.Regular := by
  obtain ⟨t, hran, hends⟩ := runQueue_ends waiting hqueue
  have hs := hran.schedule
  refine hends.regular ?_ ?_ ?_
  · exact (congrArg Schedule.suspended hs).trans hsusp
  · exact (congrArg Schedule.running hs).trans hrun
  · intro hdepth
    have hdirty := hclosed ((congrArg Schedule.depth hs).symm.trans hdepth)
    exact (congrArg Schedule.dirty hs).trans hdirty

/-- A change that keeps schedules regular and goes on waiting for what is suspended. -/
structure Proceeds (s s' : Sheet) : Prop where
  regular : s.schedule.Regular → s'.schedule.Regular
  suspended : s.schedule.Regular → ∀ p, s.suspended = some p → s'.suspended = some p

namespace Proceeds

theorem of_schedule (h : s'.schedule = s.schedule) : Proceeds s s' where
  regular hs := h ▸ hs
  suspended _ _ hp := (congrArg Schedule.suspended h).trans hp

theorem refl (s : Sheet) : Proceeds s s := of_schedule rfl

theorem trans (h : Proceeds s t) (h' : Proceeds t s') : Proceeds s s' where
  regular hs := h'.regular (h.regular hs)
  suspended hs p hp := h'.suspended (h.regular hs) p (h.suspended hs p hp)

/-- A running queue grows, and a queue that is not running is computed. -/
theorem enqueue (s : Sheet) (names : List String) : Proceeds s (s.enqueue names) := by
  unfold Sheet.enqueue
  split
  · exact refl s
  · refine (of_schedule (@schedule_setStatus s .dirty)).trans ?_
    generalize s.setStatus .dirty = s
    dsimp only
    split
    · rename_i hrun
      constructor
      · intro h
        refine ⟨h.running, fun hnone => ?_, fun p hp => ?_, h.closed⟩
        · have := h.running
          simp [schedule, hrun, show s.suspended = none from hnone] at this
        · obtain ⟨hlt, -⟩ := List.getElem?_eq_some_iff.mp (h.pending p hp)
          exact (List.getElem?_append_left hlt).trans (h.pending p hp)
      · exact fun _ p hp => hp
    · rename_i hrun
      have hsusp (h : s.schedule.Regular) : s.suspended = none :=
        h.suspended (Bool.eq_false_iff.mpr hrun)
      constructor
      · intro h
        exact regular_runQueue rfl (hsusp h) rfl h.closed
      · intro h p hp
        rw [hsusp h] at hp
        cases hp

theorem startTransaction (s : Sheet) : Proceeds s s.startTransaction where
  regular h := ⟨h.running, h.idle, h.pending, fun hdepth => absurd hdepth (Nat.succ_ne_zero _)⟩
  suspended _ _ hp := hp

theorem endTransaction (s : Sheet) : Proceeds s s.endTransaction := by
  unfold Sheet.endTransaction
  dsimp only
  split
  · have hclose : Proceeds s { s with depth := s.depth - 1, dirty := [] } :=
      ⟨fun h => ⟨h.running, h.idle, h.pending, fun _ => rfl⟩, fun _ _ hp => hp⟩
    exact hclose.trans (enqueue _ _)
  · rename_i hdepth
    exact ⟨fun h => ⟨h.running, h.idle, h.pending, fun h0 => absurd h0 hdepth⟩, fun _ _ hp => hp⟩

theorem foldl_markDirty (names : List String) (s : Sheet) (hdepth : s.depth ≠ 0) :
    Proceeds s (names.foldl markDirty s) := by
  induction names generalizing s with
  | nil => exact refl s
  | cons name names ih =>
    have hmark : Proceeds s (s.markDirty name) :=
      ⟨fun h => ⟨h.running, h.idle, h.pending, fun h0 => absurd h0 hdepth⟩, fun _ _ hp => hp⟩
    exact hmark.trans (ih _ hdepth)

theorem invalidate (h : Proceeds s s') (names : List String) : Proceeds s (s'.invalidate names) :=
  h.trans ((startTransaction s').trans ((foldl_markDirty names _ (Nat.succ_ne_zero _)).trans
    (endTransaction _)))

end Proceeds

/-! ## 5. Changes of cells -/

/-- A sheet without its cells and its graph. -/
def withoutCells (s : Sheet) : Sheet := { s with graph := .empty, cells := ∅ }

theorem schedule_of_withoutCells (h : s'.withoutCells = s.withoutCells) :
    s'.schedule = s.schedule :=
  (congrArg schedule h : s'.withoutCells.schedule = s.withoutCells.schedule)

theorem withoutCells_touch : (s.touch name).withoutCells = s.withoutCells := by
  unfold touch
  split <;> rfl

theorem withoutCells_foldl_touch (names : List String) :
    (names.foldl touch s).withoutCells = s.withoutCells := by
  induction names generalizing s with
  | nil => rfl
  | cons name names ih => exact ih.trans withoutCells_touch

theorem withoutCells_prewarm {v : Json} : (s.prewarm name v).withoutCells = s.withoutCells :=
  withoutCells_touch (s := s)

theorem withoutCells_load (cells : List (String × Json)) :
    (s.load cells).withoutCells = s.withoutCells := by
  induction cells generalizing s with
  | nil => rfl
  | cons cell cells ih => exact ih.trans withoutCells_prewarm

theorem withoutCells_unbind : (s.unbind name).withoutCells = s.withoutCells := by
  unfold unbind
  split <;> rfl

theorem withoutCells_delete : (s.delete name).withoutCells = s.withoutCells :=
  withoutCells_unbind (s := s)

theorem withoutCells_foldl_delete (names : List String) :
    (names.foldl delete s).withoutCells = s.withoutCells := by
  induction names generalizing s with
  | nil => rfl
  | cons name names ih => exact ih.trans withoutCells_delete

theorem withoutCells_addEach (deps : List String) :
    (s.addEach name deps).1.withoutCells = s.withoutCells := by
  induction deps generalizing s with
  | nil => rfl
  | cons d deps ih =>
    unfold addEach
    dsimp only
    split
    · exact withoutCells_touch (s := s)
    · exact ih.trans (withoutCells_touch (s := s))

theorem withoutCells_removeEach (deps : List String) :
    (deps.foldl (removeReading name) s).withoutCells = s.withoutCells := by
  induction deps generalizing s with
  | nil => rfl
  | cons d deps ih => exact ih

theorem schedule_prewarm {v : Json} : (s.prewarm name v).schedule = s.schedule :=
  schedule_of_withoutCells withoutCells_prewarm

theorem schedule_load (cells : List (String × Json)) : (s.load cells).schedule = s.schedule :=
  schedule_of_withoutCells (withoutCells_load cells)

theorem schedule_void : (s.void name).schedule = s.schedule :=
  schedule_update.trans schedule_unbind

theorem schedule_delete : (s.delete name).schedule = s.schedule :=
  schedule_of_withoutCells withoutCells_delete

theorem schedule_foldl_delete (names : List String) :
    (names.foldl delete s).schedule = s.schedule :=
  schedule_of_withoutCells (withoutCells_foldl_delete names)

theorem schedule_addEach (deps : List String) : (s.addEach name deps).1.schedule = s.schedule :=
  schedule_of_withoutCells (withoutCells_addEach deps)

theorem schedule_removeEach (deps : List String) :
    (deps.foldl (removeReading name) s).schedule = s.schedule :=
  schedule_of_withoutCells (withoutCells_removeEach deps)

/-- A change of cells alone, unless it invalidates names when all else is done. -/
def Commits (s s' : Sheet) : Prop :=
  s'.withoutCells = s.withoutCells ∨
    ∃ (t : Sheet) (names : List String), t.withoutCells = s.withoutCells ∧ s' = t.invalidate names

theorem commits_set (s : Sheet) (name : String) (v : Json) : Commits s (s.set name v) := by
  rw [set_eq]
  refine .inr ⟨_, [name], ?_, rfl⟩
  exact withoutCells_touch (s := s)

theorem commits_createStatic (s : Sheet) (sheet name : String) (v : Json) :
    Commits s (s.createStatic sheet name v) := by
  unfold createStatic
  dsimp only
  split
  · exact .inl rfl
  · exact commits_set s _ v

theorem withoutCells_readied {deps : List String} :
    (s.readied name deps).withoutCells = s.withoutCells :=
  withoutCells_touch.trans (withoutCells_foldl_touch deps)

theorem Binds.commits {deps : List String} {d : Definition} {r : Sheet × Except CellError Unit}
    (h : s.Binds name deps d r) : Commits s r.1 := by
  cases h with
  | skipped => exact .inl rfl
  | cyclic => exact .inl withoutCells_readied
  | refused =>
    refine .inl ?_
    exact withoutCells_readied (s := s)
  | started =>
    refine .inr ⟨_, [name], ?_, rfl⟩
    exact withoutCells_readied (s := s)
  | kept =>
    refine .inl ?_
    exact withoutCells_readied (s := s)

theorem BindsQuery.commits {handle : QueryHandle} {r : Sheet × Except CompileError Unit}
    (h : s.BindsQuery name handle r) : Commits s r.1 := by
  cases h with
  | unchanged => exact .inr ⟨s, [name], rfl, rfl⟩
  | failed => exact .inl rfl
  | bound =>
    refine .inr ⟨_, [name], ?_, rfl⟩
    exact withoutCells_touch (s := { s with graph := s.graph.removeIncoming name })

theorem Adds.commits {deps : List String} {r : Sheet × Except CellError Unit}
    (h : s.Adds name deps r) : Commits s r.1 := by
  have hadd : (s.addEach name deps).1.withoutCells = s.withoutCells := withoutCells_addEach deps
  cases h with
  | unknown => exact .inl rfl
  | refused _ hrefused =>
    rw [hrefused] at hadd
    exact .inl hadd
  | added _ hadded =>
    rw [hadded] at hadd
    exact .inr ⟨_, [name], hadd, rfl⟩

theorem Removes.commits {deps : List String} {r : Sheet × Except CellError Unit}
    (h : s.Removes name deps r) : Commits s r.1 := by
  cases h with
  | unknown => exact .inl rfl
  | removed => exact .inr ⟨_, [name], withoutCells_removeEach deps, rfl⟩

/-! ## 6. All operations -/

/-- A change that leaves the schedule, unless it invalidates names when all else is done. -/
def Invalidates (s s' : Sheet) : Prop :=
  s'.schedule = s.schedule ∨
    ∃ (t : Sheet) (names : List String), t.schedule = s.schedule ∧ s' = t.invalidate names

theorem Commits.invalidates (h : Commits s s') : Invalidates s s' := by
  rcases h with h | ⟨t, names, h, hcall⟩
  · exact .inl (schedule_of_withoutCells h)
  · exact .inr ⟨t, names, schedule_of_withoutCells h, hcall⟩

theorem schedule_endBarrier : s.endBarrier.schedule = s.schedule := by
  unfold endBarrier
  dsimp only
  split
  · exact schedule_markClean
  · rfl

namespace Operation

/-- A call closes a transaction on a sheet: on the one that it was made on, or, if it invalidates
    names in a transaction of its own, on the one with these names marked. -/
inductive ClosesOn (s : Sheet) : Operation → Sheet → Prop
  | endTransaction : ClosesOn s .endTransaction s
  | invalidate {op : Operation} {t : Sheet} {names : List String} (hremoved : op.removed s = [])
      (hschedule : t.schedule = s.schedule) (hcall : op.apply s = t.invalidate names) :
      ClosesOn s op (names.foldl markDirty t.startTransaction)

theorem ClosesOn.apply {op : Operation} (h : op.ClosesOn s t) : op.apply s = t.endTransaction := by
  cases h with
  | endTransaction => rfl
  | invalidate hremoved hschedule hcall => exact hcall

/-- What a call does to the schedule. -/
inductive Effect (s : Sheet) (op : Operation) : Prop
  | schedule (h : (op.apply s).schedule = s.schedule)
  | opens (h : op = .startTransaction)
  | closes (t : Sheet) (h : op.ClosesOn s t)
  | waits (h : op = .wait)

theorem Effect.of_invalidates {op : Operation} (h : Invalidates s (op.apply s))
    (hremoved : op.removed s = []) : op.Effect s := by
  rcases h with h | ⟨t, names, h, hcall⟩
  · exact .schedule h
  · exact .closes _ (.invalidate hremoved h hcall)

theorem effect (s : Sheet) (op : Operation) : op.Effect s := by
  cases op with
  | set name v => exact .of_invalidates (commits_set s name v).invalidates rfl
  | createStatic sheet name v =>
    exact .of_invalidates (commits_createStatic s sheet name v).invalidates rfl
  | createDynamic sheet name d =>
    exact .of_invalidates (binds_createDynamic s sheet name d).commits.invalidates rfl
  | createQuery sheet name handle =>
    exact .of_invalidates (bindsQuery_createQuery s sheet name handle).commits.invalidates rfl
  | addDependencies sheet name deps =>
    exact .of_invalidates (adds_addDependencies s sheet name deps).commits.invalidates rfl
  | removeDependencies sheet name deps =>
    exact .of_invalidates (removes_removeDependencies s sheet name deps).commits.invalidates rfl
  | unbind name => exact .schedule schedule_unbind
  | void name => exact .schedule schedule_void
  | delete name => exact .schedule schedule_delete
  | clear sheet => exact .schedule (schedule_foldl_delete _)
  | prewarm name v => exact .schedule schedule_prewarm
  | load cells => exact .schedule (schedule_load cells)
  | subscribe label | unsubscribe id | startBarrier => exact .schedule rfl
  | endBarrier => exact .schedule schedule_endBarrier
  | startTransaction => exact .opens rfl
  | endTransaction => exact .closes s .endTransaction
  | tablesChanged tables => exact .of_invalidates (.inr ⟨s, _, rfl, rfl⟩) rfl
  | wait => exact .waits rfl

/-- Only a wait ends a suspension. -/
theorem proceeds_apply {op : Operation} (hop : op ≠ .wait) : Proceeds s (op.apply s) := by
  cases op.effect s with
  | schedule h => exact .of_schedule h
  | opens h => exact h ▸ Proceeds.startTransaction s
  | closes t h =>
    cases h with
    | endTransaction => exact .endTransaction s
    | invalidate hremoved hschedule hcall =>
      exact hcall ▸ (Proceeds.of_schedule hschedule).invalidate _
  | waits h => exact absurd h hop

end Operation

theorem settle_of_none (h : s.suspended = none) : s.settle = s := by
  unfold settle
  rw [h]

/-- The sheet once the suspended outcome is there: a batch that nothing interrupts any more. -/
theorem settle_ends {p : Suspended} (hp : s.suspended = some p) :
    (∃ v t, p.outcome = .ok v ∧
      Ran (s.queue.drop (p.index + 1)) ({ s with suspended := none }.assign p.name v) t ∧
        Ends t true s.settle) ∨
      ∃ e, p.outcome = .error e ∧ s.settle = { s with suspended := none }.fail e := by
  unfold settle
  rw [hp]
  dsimp only
  cases hv : p.outcome with
  | ok v =>
    obtain ⟨t, hran, hends⟩ := runQueue_ends true
      (rfl : ({ s with suspended := none }.assign p.name v).queue.drop (p.index + 1) = _)
    exact .inl ⟨v, t, rfl, hran, hends⟩
  | error e => exact .inr ⟨e, rfl, rfl⟩

theorem regular_settle (h : s.schedule.Regular) : s.settle.schedule.Regular := by
  obtain hp | ⟨p, hp⟩ := Option.eq_none_or_eq_some s.suspended
  · simp only [settle, hp]
    exact h
  · have hrun : s.running = true := by
      have := h.running
      simpa [schedule, hp] using this
    rcases settle_ends hp with ⟨v, t, -, hran, hends⟩ | ⟨e, -, heq⟩
    · have hs := hran.schedule
      refine hends.regular (congrArg Schedule.suspended hs)
        ((congrArg Schedule.running hs).trans hrun) fun hdepth => ?_
      exact (congrArg Schedule.dirty hs).trans
        (h.closed ((congrArg Schedule.depth hs).symm.trans hdepth))
    · rw [heq]
      exact ⟨rfl, fun _ => rfl, fun _ hp => (by cases hp), h.closed⟩

theorem schedule_wait : s.wait.1.schedule = s.settle.schedule := by
  unfold wait
  dsimp only
  split <;> rfl

theorem Operation.regular_apply (h : s.schedule.Regular) (op : Operation) :
    (op.apply s).schedule.Regular := by
  by_cases hop : op = .wait
  · subst hop
    exact schedule_wait ▸ regular_settle h
  · exact (op.proceeds_apply hop).regular h

theorem regular_run (h : s.schedule.Regular) (ops : List Operation) :
    (s.run ops).schedule.Regular := by
  induction ops generalizing s with
  | nil => exact h
  | cons op ops ih => exact ih (op.regular_apply h)

/-- Between two calls something is running exactly if a computation is waited for, and then the
    queue has its name in its place; the queue is empty if nothing is running, and so are the dirty
    names if no transaction is open. -/
theorem schedule_of_run (schema : Schema) (policy : Policy) (executor : Option Executor)
    (ops : List Operation) :
    let s := (new schema policy executor).run ops
    (s.running = true ↔ ∃ p, s.suspended = some p) ∧
    (s.running = false → s.queue = []) ∧
    (∀ p, s.suspended = some p → p.index < s.queue.length ∧ s.queue[p.index]? = some p.name) ∧
    (s.depth = 0 → s.dirty = []) := by
  intro s
  have h : s.schedule.Regular := regular_run (regular_new schema policy executor) ops
  have hrunning : s.running = s.suspended.isSome := h.running
  refine ⟨?_, h.queue, fun p hp => ?_, h.closed⟩
  · rw [hrunning, Option.isSome_iff_exists]
  · have hplace := h.pending p hp
    exact ⟨(List.getElem?_eq_some_iff.mp hplace).1, hplace⟩

/-- Without a wait, a run goes on waiting for what was suspended before it. -/
theorem suspended_run (h : s.schedule.Regular) {p : Suspended} (hp : s.suspended = some p)
    {ops : List Operation} (hops : .wait ∉ ops) : (s.run ops).suspended = some p := by
  induction ops generalizing s with
  | nil => exact hp
  | cons op ops ih =>
    obtain ⟨hop, hops⟩ := not_or.mp (mt List.mem_cons.mpr hops)
    have hproceeds := op.proceeds_apply (s := s) (Ne.symm hop)
    exact ih (hproceeds.regular h) (hproceeds.suspended h p hp) hops

end Sheet

end QuerySheet

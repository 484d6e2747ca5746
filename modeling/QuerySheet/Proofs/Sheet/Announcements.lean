import Mathlib
import QuerySheet.Proofs.Sheet.Invalidation
import QuerySheet.Proofs.Sheet.Visits

/-!
# What a sheet tells of its batches

Whoever listens is told of every batch that comes to its end, and of nothing else.

* `stop`: how a queue stops, read off its visits. `stops_queue` says so of the loop, which tells
  nothing before it stops (`Computes`);
* `log_finish`: what is told at the end of a batch;
* `Flips`: no status is told twice in a row;
* `Sheet.Begins`, `Sheet.Announces`: what is told while a batch is computed, and when it stops;
* `Operation.Carries`: the calls that go through a batch, with its names and with what stops it.
  `Operation.idle_cases` says what the other calls do;
* `Vocal`: what holds of a sheet between two calls;
* `announced_of_run`: what each call of a run tells.
-/

namespace QuerySheet

/-! ## 1. How a batch stops -/

/-- The status that an event tells of. -/
def Event.status? : Event → Option CacheStatus
  | .status t => some t
  | _ => none

/-- What a queue does when it has computed a cell. -/
inductive Next where
  | goesOn
  | waits
  | fails (e : CellError)

/-- A deferred outcome is waited for, unless somebody waits already; an error drops the queue. -/
def Visit.next (waiting : Bool) (visit : Visit) : Next :=
  match visit.computed with
  | none => .goesOn
  | some r =>
    if r.deferred && !waiting then .waits
    else
      match r.outcome with
      | .ok _ => .goesOn
      | .error e => .fails e

/-- What stops a queue: the first visit after which it does not go on. -/
def stop (waiting : Bool) : List Visit → Next
  | [] => .goesOn
  | visit :: rest =>
    match visit.next waiting with
    | .goesOn => stop waiting rest
    | next => next

namespace Sheet

variable {s s' t u : Sheet} {name a : String} {names rest : List String}

/-- What happened, the latest last. -/
def log (s : Sheet) : List Event := s.events.reverse

theorem log_emit (s : Sheet) (e : Event) : (s.emit e).log = s.log ++ [e] := List.reverse_cons

/-- Who is told of a batch, and whether the barrier is up. -/
structure Audience where
  listeners : List Listener
  nextListener : Nat
  barrier : Bool

def audience (s : Sheet) : Audience := ⟨s.listeners, s.nextListener, s.barrier⟩

/-- The names of a batch, told to every listener. -/
def Audience.changes (a : Audience) (names : List String) : List Event :=
  a.listeners.map fun l => .changed l.label names

/-- What is told of a batch: its names, then its values to be saved, and the status. -/
def Audience.told (a : Audience) (names : List String) (values : List (String × Json)) :
    List Event :=
  a.changes names ++ .saved values :: if a.barrier then [] else [.status .clean]

/-- The values of the cells that are there among some names. -/
def snapshots (s : Sheet) (names : List String) : List (String × Json) :=
  names.filterMap fun name => (s.cell? name).map fun c => (name, c.value)

theorem snapshots_congr (h : SameCells s t) (names : List String) :
    t.snapshots names = s.snapshots names := by
  unfold snapshots
  congr 1
  funext name
  rw [h.cell?]

/-! ## 2. The queue -/

/-- `t` is `s` after some computations, of which nobody was told. -/
structure Computes (s t : Sheet) : Prop where
  log : ∃ computed, t.log = s.log ++ computed ∧ ∀ e ∈ computed, ¬ e.Tells
  schedule : t.schedule = s.schedule
  audience : t.audience = s.audience
  status : t.status = s.status
  lastError : t.lastError = s.lastError

namespace Computes

theorem refl (s : Sheet) : Computes s s :=
  ⟨⟨[], (List.append_nil _).symm, List.forall_mem_nil _⟩, rfl, rfl, rfl, rfl⟩

theorem trans (h : Computes s t) (h' : Computes t u) : Computes s u where
  log := by
    obtain ⟨computed, hlog, hsilent⟩ := h.log
    obtain ⟨more, hmore, hsilent'⟩ := h'.log
    refine ⟨computed ++ more, by rw [hmore, hlog, List.append_assoc], fun e he => ?_⟩
    exact (List.mem_append.mp he).elim (hsilent e) (hsilent' e)
  schedule := h'.schedule.trans h.schedule
  audience := h'.audience.trans h.audience
  status := h'.status.trans h.status
  lastError := h'.lastError.trans h.lastError

theorem update (s : Sheet) (name : String) (f : Cell → Cell) : Computes s (s.update name f) :=
  ⟨⟨[], (List.append_nil _).symm, List.forall_mem_nil _⟩, rfl, rfl, rfl, rfl⟩

theorem emit {e : Event} (he : ¬ e.Tells) : Computes s (s.emit e) :=
  ⟨⟨[e], log_emit s e, List.forall_mem_singleton.mpr he⟩, rfl, rfl, rfl, rfl⟩

theorem compute (s : Sheet) (name : String) : Computes s (s.compute name).1 := by
  unfold Sheet.compute
  split
  · exact refl s
  · split
    · exact (update s name _).trans (emit fun h => h)
    · split
      · exact refl s
      · have hcount : Computes s { s with executions := s.executions + 1 } :=
          ⟨⟨[], (List.append_nil _).symm, List.forall_mem_nil _⟩, rfl, rfl, rfl, rfl⟩
        exact hcount.trans (emit fun h => h)
    · exact refl s
    · exact refl s

end Computes

/-- What becomes of a sheet whose queue stops. -/
inductive Stops (t : Sheet) : Next → Sheet → Prop
  | finished : Stops t .goesOn t.finish
  | suspended (p : Suspended) : Stops t .waits { t with suspended := some p }
  | failed (e : CellError) : Stops t (.fails e) (t.fail e)

theorem stops_queue (waiting : Bool) (s : Sheet) (index : Nat) (rest : List String) :
    ∃ t, Computes s t ∧
      Stops t (stop waiting (traceQueue waiting s index rest).1)
        (runQueue waiting s index rest) := by
  induction rest generalizing s index with
  | nil => exact ⟨s, .refl s, .finished⟩
  | cons name rest ih =>
    have hcompute := Computes.compute s name
    unfold traceQueue runQueue
    rcases h : s.compute name with ⟨t, _ | r⟩
    · rw [h] at hcompute
      obtain ⟨u, hu, hstops⟩ := ih t (index + 1)
      exact ⟨u, hcompute.trans hu, hstops⟩
    · rw [h] at hcompute
      dsimp only
      by_cases hdeferred : (r.deferred && !waiting) = true
      · rw [if_pos hdeferred, if_pos hdeferred]
        have hnext : stop waiting [⟨name, some r⟩] = .waits := by
          simp only [stop, Visit.next, if_pos hdeferred]
        rw [hnext]
        exact ⟨t, hcompute, .suspended _⟩
      · rw [if_neg hdeferred, if_neg hdeferred]
        cases hv : r.outcome with
        | ok v =>
          obtain ⟨u, hu, hstops⟩ := ih (t.assign name v) (index + 1)
          refine ⟨u, hcompute.trans ((Computes.update t name _).trans hu), ?_⟩
          have hnext (visits : List Visit) :
              stop waiting (⟨name, some r⟩ :: visits) = stop waiting visits := by
            simp only [stop, Visit.next, if_neg hdeferred, hv]
          dsimp only [Prod.map]
          rw [hnext]
          exact hstops
        | error e =>
          have hnext : stop waiting [⟨name, some r⟩] = .fails e := by
            simp only [stop, Visit.next, if_neg hdeferred, hv]
          dsimp only
          rw [hnext]
          exact ⟨t, hcompute, .failed e⟩

/-! ## 3. The end of a batch -/

theorem log_setStatus (s : Sheet) (status : CacheStatus) :
    (s.setStatus status).log = s.log ++ if s.status = status then [] else [.status status] := by
  unfold setStatus
  split
  · exact (List.append_nil _).symm
  · exact log_emit _ _

theorem status_setStatus (s : Sheet) (status : CacheStatus) :
    (s.setStatus status).status = status := by
  unfold setStatus
  split
  · assumption
  · rfl

theorem audience_setStatus (s : Sheet) (status : CacheStatus) :
    (s.setStatus status).audience = s.audience := by
  unfold setStatus
  split <;> rfl

theorem log_markClean (h : s.status = .dirty) :
    s.markClean.log = s.log ++ if s.barrier then [] else [.status .clean] := by
  unfold markClean
  split
  · exact (List.append_nil _).symm
  · rw [log_setStatus, h]
    rfl

theorem status_markClean (s : Sheet) :
    s.markClean.status = if s.barrier then s.status else .clean := by
  unfold markClean
  split
  · rfl
  · exact status_setStatus s _

theorem audience_markClean (s : Sheet) : s.markClean.audience = s.audience := by
  unfold markClean
  split
  · rfl
  · exact audience_setStatus s _

theorem foldl_emit_eq {α : Type} (event : α → Event) (l : List α) (s : Sheet) :
    l.foldl (fun s x => s.emit (event x)) s =
      { s with events := (l.map event).reverse ++ s.events } := by
  induction l generalizing s with
  | nil => rfl
  | cons x l ih =>
    rw [List.foldl_cons, ih, List.map_cons, List.reverse_cons, List.append_assoc]
    rfl

theorem finish_eq (s : Sheet) :
    s.finish = { s with
      queue := []
      running := false
      events := .saved (s.snapshots (distinctNames s.queue)) ::
        ((s.audience.changes (distinctNames s.queue)).reverse ++ s.events) }.markClean := by
  unfold finish
  dsimp only
  rw [foldl_emit_eq fun l : Listener => Event.changed l.label (distinctNames s.queue)]
  rfl

/-- A batch that is finished is told of to the whole audience. -/
theorem log_finish (h : s.status = .dirty) :
    s.finish.log =
      s.log ++ s.audience.told (distinctNames s.queue) (s.snapshots (distinctNames s.queue)) := by
  rw [finish_eq, log_markClean]
  · simp only [log, Audience.told, List.reverse_cons, List.reverse_append, List.reverse_reverse,
      List.append_assoc]
    rfl
  · exact h

theorem status_finish (s : Sheet) : s.finish.status = if s.barrier then s.status else .clean := by
  rw [finish_eq]
  exact status_markClean _

theorem audience_finish (s : Sheet) : s.finish.audience = s.audience := by
  rw [finish_eq]
  exact audience_markClean _

/-! ## 4. The status -/

/-- The statuses that were told, after the one that a sheet begins with. -/
def statuses (s : Sheet) : List CacheStatus := .clean :: s.log.filterMap Event.status?

/-- No status was told twice in a row, and the latest one is that of the sheet. -/
structure Flips (s : Sheet) : Prop where
  chain : s.statuses.IsChain (· ≠ ·)
  latest : s.statuses.getLast? = some s.status

theorem statuses_of_log {told : List Event} (h : t.log = s.log ++ told) :
    t.statuses = s.statuses ++ told.filterMap Event.status? := by
  rw [statuses, h, List.filterMap_append, statuses, List.cons_append]

namespace Flips

theorem of_log (h : s.Flips) (told : List Event) (hlog : t.log = s.log ++ told)
    (hnone : ∀ e ∈ told, e.status? = none) (hstatus : t.status = s.status) : t.Flips := by
  have hsame : t.statuses = s.statuses := by
    rw [statuses_of_log hlog, List.filterMap_eq_nil_iff.mpr hnone, List.append_nil]
  exact ⟨hsame ▸ h.chain, by rw [hsame, h.latest, hstatus]⟩

theorem congr (h : s.Flips) (hlog : t.log = s.log) (hstatus : t.status = s.status) : t.Flips :=
  h.of_log [] (hlog.trans (List.append_nil _).symm) (List.forall_mem_nil _) hstatus

theorem computes (h : s.Flips) (hst : Computes s t) : t.Flips := by
  obtain ⟨computed, hlog, hsilent⟩ := hst.log
  refine h.of_log computed hlog (fun e he => ?_) hst.status
  cases e with
  | status st => exact absurd trivial (hsilent _ he)
  | _ => rfl

theorem setStatus (h : s.Flips) (status : CacheStatus) : (s.setStatus status).Flips := by
  have hlog := log_setStatus s status
  have hstatus := status_setStatus s status
  split at hlog
  · rename_i hsame
    exact h.of_log [] hlog (List.forall_mem_nil _) (hstatus.trans hsame.symm)
  · rename_i hother
    have htold := statuses_of_log hlog
    constructor
    · rw [htold]
      refine List.isChain_append.mpr ⟨h.chain, List.isChain_singleton _, ?_⟩
      rw [h.latest]
      rintro _ ⟨⟩ _ ⟨⟩
      exact hother
    · rw [htold, hstatus]
      exact List.getLast?_concat

theorem markClean (h : s.Flips) : s.markClean.Flips := by
  unfold Sheet.markClean
  split
  · exact h
  · exact h.setStatus _

theorem finish (h : s.Flips) : s.finish.Flips := by
  rw [finish_eq]
  refine markClean (h.of_log (s.audience.changes (distinctNames s.queue) ++
    [.saved (s.snapshots (distinctNames s.queue))]) ?_ (fun e he => ?_) rfl)
  · simp only [log, List.reverse_cons, List.reverse_append, List.reverse_reverse,
      List.append_assoc]
  · rcases List.mem_append.mp he with he | he
    · obtain ⟨l, -, rfl⟩ := List.mem_map.mp he
      rfl
    · rw [List.mem_singleton.mp he]
      rfl

theorem stops {next : Next} (h : t.Flips) (hstops : Stops t next s') : s'.Flips := by
  cases hstops with
  | finished => exact h.finish
  | suspended p => exact h.congr rfl rfl
  | failed e => exact h.congr rfl rfl

theorem runQueue (h : s.Flips) (waiting : Bool) (index : Nat) (rest : List String) :
    (runQueue waiting s index rest).Flips := by
  obtain ⟨t, ht, hstops⟩ := stops_queue waiting s index rest
  exact (h.computes ht).stops hstops

end Flips

/-! ## 5. The close of a transaction -/

/-- The names that are queued when the outermost transaction closes. -/
def planned (t : Sheet) : List String := t.graph.topologicalSort t.dirty

/-- A sheet whose transaction is closed. -/
def closed (t : Sheet) : Sheet := { t with depth := t.depth - 1, dirty := [] }

/-- A sheet whose queue has got the names as well. -/
def queued (t : Sheet) : Sheet :=
  let u := t.closed.setStatus .dirty
  { u with queue := u.queue ++ t.planned }

/-- A sheet without its cells and without what is marked on it. -/
def bare (s : Sheet) : Sheet := { s with graph := .empty, cells := ∅, depth := 0, dirty := [] }

theorem bare_of_withoutCells (h : t.withoutCells = s.withoutCells) : t.bare = s.bare :=
  (congrArg bare h : t.withoutCells.bare = s.withoutCells.bare)

/-- What is told, to whom, and what is queued is no matter of cells and marks. -/
theorem eq_of_bare (h : t.bare = s.bare) :
    t.log = s.log ∧ t.status = s.status ∧ t.audience = s.audience ∧ t.running = s.running ∧
      t.queue = s.queue := by
  have hlog := congrArg log h
  have hstatus := congrArg Sheet.status h
  have haudience := congrArg audience h
  have hrun := congrArg Sheet.running h
  exact ⟨hlog, hstatus, haudience, hrun, congrArg Schedule.queue (congrArg schedule h)⟩

theorem bare_foldl_markDirty (t : Sheet) (names : List String) :
    (names.foldl markDirty t.startTransaction).bare = t.bare := by
  rw [foldl_markDirty]
  rfl

theorem log_queued (t : Sheet) :
    t.queued.log = t.log ++ if t.status = .dirty then [] else [.status .dirty] :=
  log_setStatus t.closed .dirty

theorem queue_queued (t : Sheet) : t.queued.queue = t.queue ++ t.planned :=
  congrArg (fun u : Schedule => u.queue ++ t.planned) (@schedule_setStatus t.closed .dirty)

theorem running_queued (t : Sheet) : t.queued.running = t.running :=
  congrArg Schedule.running (@schedule_setStatus t.closed .dirty)

/-- An inner transaction, or one with nothing to queue. -/
theorem bare_endTransaction (h : ¬ (t.depth ≤ 1 ∧ t.planned ≠ [])) :
    t.endTransaction.bare = t.bare := by
  unfold endTransaction
  dsimp only
  split
  · rename_i hdepth
    have hplanned : t.graph.topologicalSort t.dirty = [] :=
      not_not.mp fun hplanned => h ⟨by omega, hplanned⟩
    rw [hplanned]
    rfl
  · rfl

theorem traceClose_of_planned (hdepth : t.depth ≤ 1) (hplanned : t.planned ≠ []) :
    t.traceClose = if t.running then ([], t.queued)
      else traceQueue false { t.queued with running := true } 0 t.queued.queue := by
  have hnames : (t.graph.topologicalSort t.dirty).isEmpty = false :=
    List.isEmpty_eq_false_iff.mpr hplanned
  rw [← running_queued]
  unfold traceClose
  dsimp only
  rw [if_pos (by omega)]
  unfold traceEnqueue
  rw [hnames]
  rfl

theorem endTransaction_of_running (hdepth : t.depth ≤ 1) (hplanned : t.planned ≠ [])
    (hrun : t.running = true) : t.endTransaction = t.queued := by
  rw [← traceClose_snd, traceClose_of_planned hdepth hplanned, if_pos hrun]

theorem endTransaction_of_idle (hdepth : t.depth ≤ 1) (hplanned : t.planned ≠ [])
    (hrun : t.running = false) :
    t.endTransaction = runQueue false { t.queued with running := true } 0 t.queued.queue ∧
      t.visits = (traceQueue false { t.queued with running := true } 0 t.queued.queue).1 := by
  have htrace := traceClose_of_planned hdepth hplanned
  rw [hrun, if_neg Bool.false_ne_true] at htrace
  refine ⟨?_, congrArg Prod.fst htrace⟩
  rw [← traceClose_snd, htrace, traceQueue_snd]

/-- While something is running, the names come behind those that are queued. -/
theorem queue_endTransaction (hbare : t.bare = s.bare) (hdepth : t.depth ≤ 1)
    (hrun : s.running = true) : t.endTransaction.queue = s.queue ++ t.planned := by
  obtain ⟨-, -, -, htrun, htqueue⟩ := eq_of_bare hbare
  by_cases hplanned : t.planned = []
  · obtain ⟨-, -, -, -, hqueue⟩ := eq_of_bare (bare_endTransaction fun h => h.2 hplanned)
    rw [hqueue, htqueue, hplanned, List.append_nil]
  · rw [endTransaction_of_running hdepth hplanned (htrun.trans hrun), queue_queued, htqueue]

/-! ## 6. Batches -/

/-- The log of a sheet may become this one while some of a batch is computed: the status turns
    dirty, unless it is, and nothing else is told. -/
def Begins (s : Sheet) (log : List Event) : Prop :=
  ∃ computed, (∀ e ∈ computed, ¬ e.Tells) ∧
    log = s.log ++ (if s.status = .dirty then [] else [.status .dirty]) ++ computed

/-- What is told when a batch with some names stops, and what becomes of the queue. The names are
    told to every listener, and the values that their cells have in the end are handed over to be
    saved; then the status turns clean, unless the barrier is up. While a batch waits, and after it
    has failed, nothing of it is told. -/
def Announces (s : Sheet) (names : List String) (s' : Sheet) : Next → Prop
  | .goesOn =>
    (∃ begun, s.Begins begun ∧ s'.log = begun ++
      s'.audience.told (distinctNames names) (s'.snapshots (distinctNames names))) ∧
    s'.status = (if s'.barrier then .dirty else .clean) ∧ s'.running = false ∧ s'.queue = []
  | .waits => s.Begins s'.log ∧ s'.status = .dirty ∧ s'.running = true ∧ s'.queue = names
  | .fails _ => s.Begins s'.log ∧ s'.status = .dirty ∧ s'.running = false ∧ s'.queue = []

theorem Begins.computes (h : s.Begins t.log) (hcomputes : Computes t u) : s.Begins u.log := by
  obtain ⟨computed, hsilent, hlog⟩ := h
  obtain ⟨more, hmore, hsilent'⟩ := hcomputes.log
  refine ⟨computed ++ more, fun e he => ?_, by rw [hmore, hlog, List.append_assoc]⟩
  exact (List.mem_append.mp he).elim (hsilent e) (hsilent' e)

theorem Stops.announces {next : Next} (h : Stops t next s') (hbegins : s.Begins t.log)
    (hstatus : t.status = .dirty) (hrun : t.running = true) : s.Announces t.queue s' next := by
  cases h with
  | finished =>
    obtain ⟨hcells, hschedule⟩ := finish_frame t
    refine ⟨⟨t.log, hbegins, ?_⟩, ?_, congrArg Schedule.running hschedule,
      congrArg Schedule.queue hschedule⟩
    · rw [log_finish hstatus, audience_finish, snapshots_congr hcells]
    · have hbarrier := congrArg Audience.barrier (audience_finish t)
      rw [status_finish, hstatus, show t.finish.barrier = t.barrier from hbarrier]
  | suspended p => exact ⟨hbegins, hstatus, hrun, rfl⟩
  | failed e => exact ⟨hbegins, hstatus, rfl, rfl⟩

/-- What a wait visits: the cell whose outcome is there now, and the rest of the queue. -/
def resumed (s : Sheet) (p : Suspended) : List Visit :=
  ⟨p.name, some ⟨p.outcome, false⟩⟩ ::
    match p.outcome with
    | .ok v =>
      (traceQueue true ({ s with suspended := none }.assign p.name v) (p.index + 1)
        (s.queue.drop (p.index + 1))).1
    | .error _ => []

theorem stops_settle {p : Suspended} (hp : s.suspended = some p) :
    ∃ t, Computes { s with suspended := none } t ∧ Stops t (stop true (s.resumed p)) s.settle := by
  unfold settle resumed
  rw [hp]
  dsimp only
  cases hv : p.outcome with
  | ok v =>
    obtain ⟨t, ht, hstops⟩ := stops_queue true ({ s with suspended := none }.assign p.name v)
      (p.index + 1) (s.queue.drop (p.index + 1))
    exact ⟨t, (Computes.update _ p.name _).trans ht, hstops⟩
  | error e => exact ⟨_, .refl _, .failed e⟩

theorem wait_eq (s : Sheet) : s.wait.1 = { s.settle with lastError := none } := by
  unfold wait
  dsimp only
  split
  · rfl
  · rename_i h
    rw [← h]

namespace Operation

/-- A call goes through a batch: it closes the outermost transaction when nothing is running, with
    names to be queued, or it waits for a queue that is suspended. -/
inductive Carries (s : Sheet) : Operation → List String → Next → Prop
  | starts {op : Operation} {t : Sheet} (hclose : op.ClosesOn s t) (hbare : t.bare = s.bare)
      (hdepth : t.depth ≤ 1) (hplanned : t.planned ≠ []) (hrun : s.running = false) :
      Carries s op t.planned (stop false t.visits)
  | resumes {p : Suspended} (hp : s.suspended = some p) :
      Carries s .wait s.queue (stop true (s.resumed p))

/-- Whatever a call goes through is announced. -/
theorem Carries.announces {op : Operation} {next : Next} (h : op.Carries s names next)
    (hs : s.schedule.Regular) (hdirty : s.running = true → s.status = .dirty) :
    s.Announces names (op.apply s) next := by
  cases h with
  | @starts _ t hclose hbare hdepth hplanned hrun =>
    obtain ⟨hlog, hstatus, -, hrunning, htqueue⟩ := eq_of_bare hbare
    have hqueue : t.queued.queue = t.planned := by
      rw [queue_queued, htqueue, show s.queue = [] from hs.queue hrun, List.nil_append]
    obtain ⟨hend, hvisits⟩ := endTransaction_of_idle hdepth hplanned (hrunning.trans hrun)
    obtain ⟨u, hu, hstops⟩ :=
      stops_queue false { t.queued with running := true } 0 t.queued.queue
    have hbegins : s.Begins t.queued.log :=
      ⟨[], List.forall_mem_nil _, by rw [log_queued, hlog, hstatus, List.append_nil]⟩
    have huqueue : u.queue = t.planned := (congrArg Schedule.queue hu.schedule).trans hqueue
    rw [hclose.apply, hend, hvisits, ← huqueue]
    exact hstops.announces (Begins.computes (t := { t.queued with running := true }) hbegins hu)
      (hu.status.trans (status_setStatus t.closed .dirty)) (congrArg Schedule.running hu.schedule)
  | @resumes p hp =>
    have hrun : s.running = true := by
      have hrunning := hs.running
      simpa [schedule, hp] using hrunning
    obtain ⟨u, hu, hstops⟩ := stops_settle hp
    have hbegins : s.Begins s.log :=
      ⟨[], List.forall_mem_nil _, by rw [if_pos (hdirty hrun), List.append_nil, List.append_nil]⟩
    have huqueue : u.queue = s.queue := congrArg Schedule.queue hu.schedule
    show s.Announces s.queue s.wait.1 _
    rw [wait_eq, ← huqueue]
    have h := hstops.announces (Begins.computes (t := { s with suspended := none }) hbegins hu)
      (hu.status.trans (hdirty hrun)) ((congrArg Schedule.running hu.schedule).trans hrun)
    generalize stop true (s.resumed p) = next at h
    cases next <;> exact h

end Operation

/-! ## 7. All operations -/

theorem Stops.audience {next : Next} (h : Stops t next s') : s'.audience = t.audience := by
  cases h with
  | finished => exact audience_finish t
  | suspended p => rfl
  | failed e => rfl

theorem audience_runQueue (waiting : Bool) (s : Sheet) (index : Nat) (rest : List String) :
    (runQueue waiting s index rest).audience = s.audience := by
  obtain ⟨t, ht, hstops⟩ := stops_queue waiting s index rest
  exact hstops.audience.trans ht.audience

theorem audience_settle (s : Sheet) : s.settle.audience = s.audience := by
  cases hp : s.suspended with
  | none => rw [settle_of_none hp]
  | some p =>
    obtain ⟨t, ht, hstops⟩ := stops_settle hp
    exact hstops.audience.trans ht.audience

theorem Flips.settle (h : s.Flips) : s.settle.Flips := by
  cases hp : s.suspended with
  | none =>
    rw [settle_of_none hp]
    exact h
  | some p =>
    obtain ⟨t, ht, hstops⟩ := stops_settle hp
    have hwoken : { s with suspended := none }.Flips := h.congr rfl rfl
    exact (hwoken.computes ht).stops hstops

theorem audience_endTransaction (t : Sheet) : t.endTransaction.audience = t.audience := by
  by_cases h : t.depth ≤ 1 ∧ t.planned ≠ []
  · have hqueued : t.queued.audience = t.audience := audience_setStatus t.closed .dirty
    cases hrun : t.running with
    | true => rw [endTransaction_of_running h.1 h.2 hrun, hqueued]
    | false =>
      rw [(endTransaction_of_idle h.1 h.2 hrun).1]
      exact (audience_runQueue _ _ _ _).trans hqueued
  · exact (eq_of_bare (bare_endTransaction h)).2.2.1

theorem Flips.endTransaction (h : t.Flips) : t.endTransaction.Flips := by
  by_cases hclose : t.depth ≤ 1 ∧ t.planned ≠ []
  · have hclosed : t.closed.Flips := h.congr rfl rfl
    have hqueued : t.queued.Flips := (hclosed.setStatus .dirty).congr rfl rfl
    cases hrun : t.running with
    | true =>
      rw [endTransaction_of_running hclose.1 hclose.2 hrun]
      exact hqueued
    | false =>
      rw [(endTransaction_of_idle hclose.1 hclose.2 hrun).1]
      have hrunning : { t.queued with running := true }.Flips := hqueued.congr rfl rfl
      exact hrunning.runQueue false 0 _
  · obtain ⟨hlog, hstatus, -⟩ := eq_of_bare (bare_endTransaction hclose)
    exact h.congr hlog hstatus

/-- A sheet with another audience. -/
def heard (s : Sheet) (a : Audience) : Sheet :=
  { s with listeners := a.listeners, nextListener := a.nextListener, barrier := a.barrier }

namespace Operation

/-- What a call makes of the audience. -/
def audience (a : Audience) : Operation → Audience
  | .subscribe label =>
    { a with
      listeners := a.listeners ++ [⟨a.nextListener, label⟩]
      nextListener := a.nextListener + 1 }
  | .unsubscribe id => { a with listeners := a.listeners.filter (·.id != id) }
  | .startBarrier => { a with barrier := true }
  | .endBarrier => { a with barrier := false }
  | _ => a

/-- Which part of a sheet a call is about. -/
inductive Touches (s : Sheet) : Operation → Prop
  | cells {op : Operation} (h : (op.apply s).bare = s.bare) (ha : ∀ a, op.audience a = a) :
      Touches s op
  | closes {op : Operation} {t : Sheet} (h : op.ClosesOn s t) (hbare : t.bare = s.bare)
      (ha : ∀ a, op.audience a = a) : Touches s op
  | hears {op : Operation} (h : op.apply s = s.heard (op.audience s.audience)) : Touches s op
  | endBarrier : Touches s .endBarrier
  | wait : Touches s .wait

theorem Touches.of_commits {op : Operation} (h : Commits s (op.apply s))
    (hremoved : op.removed s = []) (ha : ∀ a, op.audience a = a) : op.Touches s := by
  rcases h with h | ⟨t, names, h, hcall⟩
  · exact .cells (bare_of_withoutCells h) ha
  · exact .closes (.invalidate hremoved (schedule_of_withoutCells h) hcall)
      ((bare_foldl_markDirty t names).trans (bare_of_withoutCells h)) ha

theorem touches (s : Sheet) (op : Operation) : op.Touches s := by
  cases op with
  | set name v => exact .of_commits (commits_set s name v) rfl fun _ => rfl
  | createStatic sheet name v =>
    exact .of_commits (commits_createStatic s sheet name v) rfl fun _ => rfl
  | createDynamic sheet name d =>
    exact .of_commits (binds_createDynamic s sheet name d).commits rfl fun _ => rfl
  | createQuery sheet name handle =>
    exact .of_commits (bindsQuery_createQuery s sheet name handle).commits rfl fun _ => rfl
  | addDependencies sheet name deps =>
    exact .of_commits (adds_addDependencies s sheet name deps).commits rfl fun _ => rfl
  | removeDependencies sheet name deps =>
    exact .of_commits (removes_removeDependencies s sheet name deps).commits rfl fun _ => rfl
  | unbind name => exact .of_commits (.inl withoutCells_unbind) rfl fun _ => rfl
  | void name => exact .of_commits (.inl (withoutCells_unbind (s := s))) rfl fun _ => rfl
  | delete name => exact .cells (bare_of_withoutCells withoutCells_delete) fun _ => rfl
  | clear sheet => exact .cells (bare_of_withoutCells (withoutCells_foldl_delete _)) fun _ => rfl
  | prewarm name v => exact .of_commits (.inl withoutCells_prewarm) rfl fun _ => rfl
  | load cells => exact .of_commits (.inl (withoutCells_load cells)) rfl fun _ => rfl
  | subscribe label | unsubscribe id | startBarrier => exact .hears rfl
  | endBarrier => exact .endBarrier
  | startTransaction => exact .cells rfl fun _ => rfl
  | endTransaction => exact .closes .endTransaction rfl fun _ => rfl
  | tablesChanged tables => exact .of_commits (.inr ⟨s, _, rfl, rfl⟩) rfl fun _ => rfl
  | wait => exact .wait

/-- The sheet that the barrier is taken from. -/
theorem endBarrier_eq (s : Sheet) :
    Operation.endBarrier.apply s = s.heard (Operation.endBarrier.audience s.audience) ∨
      Operation.endBarrier.apply s =
        (s.heard (Operation.endBarrier.audience s.audience)).setStatus .clean ∧
        s.running = false := by
  show s.endBarrier = _ ∨ s.endBarrier = _ ∧ _
  unfold Sheet.endBarrier
  dsimp only
  split
  · rename_i hidle
    simp only [Bool.and_eq_true, Bool.not_eq_true'] at hidle
    exact .inr ⟨rfl, hidle.1⟩
  · exact .inl rfl

theorem audience_apply (s : Sheet) (op : Operation) :
    (op.apply s).audience = op.audience s.audience := by
  cases op.touches s with
  | cells h ha => exact (eq_of_bare h).2.2.1.trans (ha _).symm
  | @closes _ t h hbare ha =>
    rw [h.apply, audience_endTransaction, (eq_of_bare hbare).2.2.1, ha]
  | hears h => exact congrArg Sheet.audience h
  | endBarrier =>
    rcases endBarrier_eq s with h | ⟨h, -⟩
    · exact congrArg Sheet.audience h
    · rw [h, audience_setStatus]
      rfl
  | wait =>
    show s.wait.1.audience = s.audience
    rw [wait_eq]
    exact audience_settle s

/-- A call that goes through no batch. It may queue names behind others, and the status may turn
    clean at the end of the barrier. -/
theorem idle_cases {op : Operation} (hno : ∀ names next, ¬ op.Carries s names next) :
    ((op.apply s).log = s.log ∧ (op.apply s).status = s.status ∧
      (op.apply s).running = s.running ∧ (op.apply s).queue = s.queue) ∨
    (∃ t, op.ClosesOn s t ∧ t.bare = s.bare ∧ s.running = true ∧ op.apply s = t.queued) ∨
    (op = .endBarrier ∧ s.running = false ∧
      op.apply s = (s.heard (op.audience s.audience)).setStatus .clean) := by
  cases op.touches s with
  | cells h ha =>
    obtain ⟨hlog, hstatus, -, hrun, hqueue⟩ := eq_of_bare h
    exact .inl ⟨hlog, hstatus, hrun, hqueue⟩
  | @closes _ t h hbare ha =>
    obtain ⟨hlog, hstatus, -, hrun, hqueue⟩ := eq_of_bare hbare
    by_cases hclose : t.depth ≤ 1 ∧ t.planned ≠ []
    · cases hidle : s.running with
      | true =>
        refine .inr (.inl ⟨t, h, hbare, rfl, ?_⟩)
        rw [h.apply, endTransaction_of_running hclose.1 hclose.2 (hrun.trans hidle)]
      | false => exact absurd (Carries.starts h hbare hclose.1 hclose.2 hidle) (hno _ _)
    · obtain ⟨hlog', hstatus', -, hrun', hqueue'⟩ := eq_of_bare (bare_endTransaction hclose)
      rw [h.apply]
      exact .inl ⟨hlog'.trans hlog, hstatus'.trans hstatus, hrun'.trans hrun,
        hqueue'.trans hqueue⟩
  | hears h =>
    rw [h]
    exact .inl ⟨rfl, rfl, rfl, rfl⟩
  | endBarrier =>
    rcases endBarrier_eq s with h | ⟨h, hidle⟩
    · rw [h]
      exact .inl ⟨rfl, rfl, rfl, rfl⟩
    · exact .inr (.inr ⟨rfl, hidle, h⟩)
  | wait =>
    have hp : s.suspended = none :=
      Option.eq_none_iff_forall_ne_some.mpr fun p hp => hno _ _ (.resumes hp)
    show (s.wait.1.log = _ ∧ s.wait.1.status = _ ∧ s.wait.1.running = _ ∧ s.wait.1.queue = _) ∨ _
    rw [wait_eq, settle_of_none hp]
    exact .inl ⟨rfl, rfl, rfl, rfl⟩

end Operation

/-! ## 8. Runs -/

/-- The listeners have different numbers, in the order in which they came. -/
structure Audience.Numbered (a : Audience) : Prop where
  ordered : a.listeners.Pairwise (·.id < ·.id)
  fresh : ∀ l ∈ a.listeners, l.id < a.nextListener

theorem Audience.Numbered.audience {a : Audience} (h : a.Numbered) (op : Operation) :
    (op.audience a).Numbered := by
  cases op with
  | subscribe label =>
    constructor
    · refine List.pairwise_append.mpr ⟨h.ordered, List.pairwise_singleton _ _, fun l hl m hm => ?_⟩
      rw [List.mem_singleton.mp hm]
      exact h.fresh l hl
    · intro l hl
      rcases List.mem_append.mp hl with hl | hl
      · exact Nat.lt_succ_of_lt (h.fresh l hl)
      · rw [List.mem_singleton.mp hl]
        exact Nat.lt_succ_self _
  | unsubscribe id =>
    exact ⟨h.ordered.sublist List.filter_sublist, fun l hl => h.fresh l (List.mem_of_mem_filter hl)⟩
  | startBarrier | endBarrier => exact ⟨h.ordered, h.fresh⟩
  | _ => exact h

/-- What holds of a sheet between two calls. -/
structure Vocal (s : Sheet) : Prop where
  regular : s.schedule.Regular
  dirty : s.running = true → s.status = .dirty
  flips : s.Flips
  numbered : s.audience.Numbered

theorem vocal_new (schema : Schema) (policy : Policy) (executor : Option Executor) :
    (new schema policy executor).Vocal where
  regular := regular_new schema policy executor
  dirty h := by cases h
  flips := ⟨List.isChain_singleton _, rfl⟩
  numbered := ⟨List.Pairwise.nil, List.forall_mem_nil _⟩

theorem Flips.apply (h : s.Flips) (op : Operation) : (op.apply s).Flips := by
  cases op.touches s with
  | cells hbare ha =>
    obtain ⟨hlog, hstatus, -⟩ := eq_of_bare hbare
    exact h.congr hlog hstatus
  | @closes _ t hclose hbare ha =>
    obtain ⟨hlog, hstatus, -⟩ := eq_of_bare hbare
    rw [hclose.apply]
    exact (h.congr hlog hstatus).endTransaction
  | hears happly =>
    rw [happly]
    exact h.congr rfl rfl
  | endBarrier =>
    have hheard : (s.heard (Operation.endBarrier.audience s.audience)).Flips := h.congr rfl rfl
    rcases Operation.endBarrier_eq s with happly | ⟨happly, -⟩
    · rw [happly]
      exact hheard
    · rw [happly]
      exact hheard.setStatus _
  | wait =>
    show s.wait.1.Flips
    rw [wait_eq]
    exact h.settle.congr rfl rfl

/-- While something is running, the status is dirty. -/
theorem Vocal.dirty_apply (h : s.Vocal) (op : Operation) (hrun : (op.apply s).running = true) :
    (op.apply s).status = .dirty := by
  by_cases hcarries : ∃ names next, op.Carries s names next
  · obtain ⟨names, next, hcarries⟩ := hcarries
    have hannounces := hcarries.announces h.regular h.dirty
    cases next with
    | goesOn => exact absurd hrun (by rw [hannounces.2.2.1]; exact Bool.false_ne_true)
    | waits => exact hannounces.2.1
    | fails e => exact hannounces.2.1
  · rcases Operation.idle_cases fun names next hc => hcarries ⟨names, next, hc⟩ with
      ⟨-, hstatus, hsame, -⟩ | ⟨t, -, -, -, happly⟩ | ⟨rfl, hidle, happly⟩
    · rw [hstatus]
      exact h.dirty (hsame ▸ hrun)
    · rw [happly]
      exact status_setStatus t.closed .dirty
    · rw [happly] at hrun
      have hsame := congrArg Schedule.running
        (@schedule_setStatus (s.heard (Operation.endBarrier.audience s.audience)) .clean)
      exact absurd ((hsame.symm.trans hrun).symm.trans hidle) (by simp)

theorem Vocal.apply (h : s.Vocal) (op : Operation) : (op.apply s).Vocal where
  regular := op.regular_apply h.regular
  dirty := h.dirty_apply op
  flips := h.flips.apply op
  numbered := by
    rw [op.audience_apply]
    exact h.numbered.audience op

theorem vocal_run (h : s.Vocal) (ops : List Operation) : (s.run ops).Vocal := by
  induction ops generalizing s with
  | nil => exact h
  | cons op ops ih => exact ih (h.apply op)

/-- Take any sheet that calls lead to, and a call. Listeners are told in the order in which they
    came, each once, as no two have the same number. No status is told twice in a row. If the call
    goes through a batch, then what is told depends on how the batch stops: all of its names, each
    once, and the values that their cells have in the end, or nothing. Any other call tells nothing,
    but that the status turns clean at the end of the barrier. While a queue is suspended, the names
    that are queued come behind the others. -/
theorem announced_of_run (schema : Schema) (policy : Policy) (executor : Option Executor)
    (ops : List Operation) (op : Operation) :
    let s := (new schema policy executor).run ops
    let s' := op.apply s
    (s'.audience = op.audience s.audience ∧ s'.listeners.Pairwise (·.id < ·.id)) ∧
    (s'.statuses.IsChain (· ≠ ·) ∧ s'.statuses.getLast? = some s'.status) ∧
    (∀ names next, op.Carries s names next →
      (distinctNames names).Nodup ∧ s.Announces names s' next) ∧
    ((∀ names next, ¬ op.Carries s names next) →
      (∃ told, s'.log = s.log ++ told ∧ ∀ e ∈ told, op = .endBarrier ∧ e = .status .clean) ∧
      s'.running = s.running ∧
      (s'.queue = s.queue ∨ s.running = true ∧
        ∃ t, op.ClosesOn s t ∧ t.bare = s.bare ∧ s'.queue = s.queue ++ t.planned)) ∧
    ∀ t, op.ClosesOn s t → t.bare = s.bare → t.depth ≤ 1 → s.running = true →
      s'.queue = s.queue ++ t.planned := by
  intro s s'
  have hs : s.Vocal := vocal_run (vocal_new schema policy executor) ops
  have hs' : s'.Vocal := hs.apply op
  refine ⟨⟨op.audience_apply s, hs'.numbered.ordered⟩, ⟨hs'.flips.chain, hs'.flips.latest⟩,
    fun names next hcarries => ?_, fun hno => ?_, fun t hclose hbare hdepth hrun => ?_⟩
  · exact ⟨nodup_eraseDups names, hcarries.announces hs.regular hs.dirty⟩
  · rcases Operation.idle_cases hno with
      ⟨hlog, -, hrun, hqueue⟩ | ⟨t, hclose, hbare, hrun, happly⟩ | ⟨hop, hidle, happly⟩
    · exact ⟨⟨[], hlog.trans (List.append_nil _).symm, List.forall_mem_nil _⟩, hrun, .inl hqueue⟩
    · obtain ⟨hlog, hstatus, -, htrun, htqueue⟩ := eq_of_bare hbare
      have htold : t.queued.log = s.log := by
        rw [log_queued, hlog, hstatus, if_pos (hs.dirty hrun), List.append_nil]
      refine ⟨⟨[], ?_, List.forall_mem_nil _⟩, ?_, .inr ⟨hrun, t, hclose, hbare, ?_⟩⟩
      · exact (congrArg log happly).trans (htold.trans (List.append_nil _).symm)
      · exact (congrArg Sheet.running happly).trans ((running_queued t).trans htrun)
      · exact (congrArg Sheet.queue happly).trans ((queue_queued t).trans (by rw [htqueue]))
    · have hschedule := @schedule_setStatus (s.heard (op.audience s.audience)) .clean
      refine ⟨⟨_, (congrArg log happly).trans (log_setStatus _ _), fun e he => ?_⟩,
        (congrArg Sheet.running happly).trans (congrArg Schedule.running hschedule),
        .inl ((congrArg Sheet.queue happly).trans (congrArg Schedule.queue hschedule))⟩
      split at he
      · cases he
      · exact ⟨hop, List.mem_singleton.mp he⟩
  · exact (congrArg Sheet.queue hclose.apply).trans (queue_endTransaction hbare hdepth hrun)

/-- Somebody listens; in a transaction `a` is written, which `b` reads. -/
def listening : List Operation :=
  [.subscribe "view", .createDynamic "" "b" ⟨["a"], gather, .bool false, false⟩, .startTransaction,
    .set "a" (.bool true)]

theorem run_listening :
    (((new .empty .none none).run listening).running, ((new .empty .none none).run listening).depth,
      ((new .empty .none none).run listening).planned,
      stop false ((new .empty .none none).run listening).visits,
      ((new .empty .none none).run listening).audience,
      ((new .empty .none none).run listening).endTransaction.snapshots ["a", "b"]) =
    (false, 1, ["a", "b"], .goesOn, ⟨[⟨1, "view"⟩], 2, false⟩,
      [("a", .bool true), ("b", .array [.bool true])]) := by
  simp only [listening, run, List.foldl, Operation.apply, createDynamic, List.map, connect,
    Graph.addEdge, ite_or, ← Bool.cond_eq_ite]
  cbv

/-- The end of the transaction goes through a batch that is told of. -/
theorem announced_of_listening :
    let s := (new .empty .none none).run listening
    Operation.endTransaction.Carries s ["a", "b"] .goesOn ∧
      ∃ begun, s.Begins begun ∧ s.endTransaction.log = begun ++
        [.changed "view" ["a", "b"],
          .saved [("a", .bool true), ("b", .array [.bool true])], .status .clean] := by
  intro s
  obtain ⟨hrun, hdepth, hplanned, hnext, haudience, hvalues⟩ := by
    simpa only [Prod.mk.injEq] using run_listening
  have hcarries : Operation.endTransaction.Carries s s.planned (stop false s.visits) := by
    refine .starts .endTransaction rfl (Nat.le_of_eq hdepth) ?_ hrun
    rw [show s.planned = ["a", "b"] from hplanned]
    exact List.cons_ne_nil _ _
  rw [show s.planned = ["a", "b"] from hplanned, show stop false s.visits = .goesOn from hnext]
    at hcarries
  obtain ⟨⟨hheard, -⟩, -, hannounces, -⟩ :=
    announced_of_run .empty .none none listening .endTransaction
  obtain ⟨-, ⟨begun, hbegins, hlog⟩, -⟩ := hannounces _ _ hcarries
  refine ⟨hcarries, begun, hbegins, hlog.trans ?_⟩
  rw [hheard, haudience, show distinctNames ["a", "b"] = ["a", "b"] by decide]
  exact congrArg _ (congrArg _ hvalues)

end Sheet

end QuerySheet

import Mathlib
import QuerySheet.Proofs.Sheet.Links
import QuerySheet.Proofs.Sheet.Batch
import QuerySheet.Proofs.Sheet.Sorting

/-!
# What a batch computes

When the outermost transaction closes, a batch goes through the names that can be reached from the
dirty ones. If all its computations give their values at once, every cell is computed on the values
that its dependencies have in the end.

* `traceQueue`, `traceEnqueue`, `traceClose`: the loop of the queue and what leads to it, with the
  names that it comes to. Without the names they are the loop itself (`traceQueue_snd` and so on);
* `Refreshed`: every computed one of some names was run once, on arguments that still are the values
  of its dependencies. `Refreshed.cons` puts one more name in front, if the rest are no dependencies
  of it;
* `refreshed_queue`: so it is after a queue in the order of the graph;
* `computed_once_of_close`: which cells are visited, run and changed when a call closes the
  outermost transaction of a sheet.
-/

namespace QuerySheet

/-- A name that a queue comes to, and what its computation gives if the cell has one. -/
structure Visit where
  name : String
  computed : Option Computed

/-- A value that is there at once. -/
def Computed.Prompt (r : Computed) : Prop := r.deferred = false ∧ ∃ v, r.outcome = .ok v

/-- The cell gives nothing, or its value is there at once. -/
def Visit.Prompt (visit : Visit) : Prop := ∀ r, visit.computed = some r → r.Prompt

/-- The arguments of an event that computes a cell. -/
def Event.args? (name : String) : Event → Option (List Json)
  | .ran cell args => if cell = name then some args else none
  | _ => none

namespace Sheet

variable {s s' t u : Sheet} {name a : String} {names rest : List String}

/-! ## 1. The names that a queue comes to -/

/-- The loop of the queue with the names that it comes to, until it is suspended or fails. -/
def traceQueue (waiting : Bool) (s : Sheet) (index : Nat) : List String → List Visit × Sheet
  | [] => ([], s.finish)
  | name :: rest =>
    match s.compute name with
    | (s, none) => (traceQueue waiting s (index + 1) rest).map (⟨name, none⟩ :: ·) id
    | (s, some computed) =>
      if computed.deferred && !waiting then
        ([⟨name, some computed⟩], { s with suspended := some ⟨index, name, computed.outcome⟩ })
      else
        match computed.outcome with
        | .ok v =>
          (traceQueue waiting (s.assign name v) (index + 1) rest).map (⟨name, some computed⟩ :: ·)
            id
        | .error e => ([⟨name, some computed⟩], s.fail e)

def traceEnqueue (s : Sheet) (names : List String) : List Visit × Sheet :=
  if names.isEmpty then ([], s)
  else
    let s := s.setStatus .dirty
    let s := { s with queue := s.queue ++ names }
    if s.running then ([], s) else traceQueue false { s with running := true } 0 s.queue

def traceClose (s : Sheet) : List Visit × Sheet :=
  let s := { s with depth := s.depth - 1 }
  if s.depth = 0 then
    { s with dirty := [] }.traceEnqueue (s.graph.topologicalSort s.dirty)
  else ([], s)

/-- What the end of a transaction visits. -/
def visits (s : Sheet) : List Visit := s.traceClose.1

theorem traceQueue_snd {waiting : Bool} {index : Nat} :
    (traceQueue waiting s index rest).2 = runQueue waiting s index rest := by
  induction rest generalizing s index with
  | nil => rfl
  | cons name rest ih =>
    unfold traceQueue runQueue
    rcases s.compute name with ⟨t, _ | computed⟩
    · exact ih
    · dsimp only
      split
      · rfl
      · cases computed.outcome with
        | ok v => exact ih
        | error e => rfl

theorem traceEnqueue_snd : (s.traceEnqueue names).2 = s.enqueue names := by
  unfold traceEnqueue enqueue
  dsimp only
  split
  · rfl
  · split
    · rfl
    · exact traceQueue_snd

theorem traceClose_snd : s.traceClose.2 = s.endTransaction := by
  unfold traceClose endTransaction
  dsimp only
  split
  · exact traceEnqueue_snd
  · rfl

/-! ## 2. Computing each name once -/

/-- The arguments that a cell was computed on, the latest first. -/
def runs (s : Sheet) (name : String) : List (List Json) := s.events.filterMap (Event.args? name)

theorem Told.runs (h : Told s t) (a : String) : t.runs a = s.runs a := by
  obtain ⟨told, hevents, htells⟩ := h
  have hnone : told.filterMap (Event.args? a) = [] := by
    refine List.filterMap_eq_nil_iff.mpr fun e he => ?_
    have htell := htells e he
    cases e with
    | ran cell args => exact htell.elim
    | _ => rfl
  rw [Sheet.runs, hevents, List.filterMap_append, hnone, List.nil_append, Sheet.runs]

theorem runs_ran {args : List Json} :
    (s.emit (.ran name args)).runs a = if name = a then args :: s.runs a else s.runs a := by
  unfold Sheet.runs emit
  split <;> simp [Event.args?, *]

/-- A cell of the name is run when the queue comes to it. -/
def Runs (s : Sheet) (name : String) : Prop :=
  ∃ c, s.cell? name = some c ∧ c.binding.isDynamic = true

/-- `t` is `s` after some names were computed, each once, and none of them on an argument that was
    changed later. -/
structure Refreshed (names : List String) (s t : Sheet) : Prop where
  graph : t.graph = s.graph
  kept : ∀ a, a ∉ names → t.cell? a = s.cell? a
  dependencies : ∀ a, (t.cell? a).map (·.dependencies) = (s.cell? a).map (·.dependencies)
  idle : ∀ a, a ∉ names ∨ ¬ s.Runs a → t.runs a = s.runs a
  ran : ∀ a ∈ names, ∀ c run calls, s.cell? a = some c → c.binding = .dynamic run calls →
    t.runs a = t.args c :: s.runs a ∧
      ∃ v, run calls (t.args c) = ⟨.ok v, false⟩ ∧
        t.cell? a = some { c with value := v, binding := .dynamic run (calls + 1) }

namespace Refreshed

theorem nil (s : Sheet) : Refreshed [] s s where
  graph := rfl
  kept _ _ := rfl
  dependencies _ := rfl
  idle _ _ := rfl
  ran _ ha := by cases ha

/-- One more name in front of names that do not have it, and that are no dependencies of it. -/
theorem cons (h : Refreshed [name] s t) (h' : Refreshed rest t u) (hname : name ∉ rest)
    (hreads : ∀ c, s.cell? name = some c → ∀ d ∈ c.dependencies, d ∉ rest) :
    Refreshed (name :: rest) s u where
  graph := h'.graph.trans h.graph
  kept a ha := by
    obtain ⟨hne, ha⟩ := not_or.mp (mt List.mem_cons.mpr ha)
    exact (h'.kept a ha).trans (h.kept a (mt List.mem_singleton.mp hne))
  dependencies a := (h'.dependencies a).trans (h.dependencies a)
  idle a ha := by
    by_cases e : a = name
    · subst e
      exact (h'.idle a (.inl hname)).trans
        (h.idle a (.inr (ha.resolve_left fun hmem => hmem List.mem_cons_self)))
    · have hsame : t.cell? a = s.cell? a := h.kept a (mt List.mem_singleton.mp e)
      have ha' : a ∉ rest ∨ ¬ t.Runs a := by
        rw [Runs, hsame]
        exact ha.imp_left (mt (List.mem_cons_of_mem _))
      exact (h'.idle a ha').trans (h.idle a (.inl (mt List.mem_singleton.mp e)))
  ran a ha c run calls hc hb := by
    by_cases e : a = name
    · subst e
      obtain ⟨hruns, v, hv, hcell⟩ := h.ran a List.mem_cons_self c run calls hc hb
      have hargs : u.args c = t.args c := List.map_congr_left fun d hd => by
        rw [value, h'.kept d (hreads c hc d hd), value]
      rw [hargs]
      exact ⟨(h'.idle a (.inl hname)).trans hruns, v, hv, (h'.kept a hname).trans hcell⟩
    · have hmem : a ∈ rest := (List.mem_cons.mp ha).resolve_left e
      have hsame : t.cell? a = s.cell? a := h.kept a (mt List.mem_singleton.mp e)
      obtain ⟨hruns, v, hv, hcell⟩ := h'.ran a hmem c run calls (hsame.trans hc) hb
      exact ⟨hruns.trans (congrArg _ (h.idle a (.inl (mt List.mem_singleton.mp e)))), v, hv, hcell⟩

theorem args_congr (h : SameCells s t) (c : Cell) : t.args c = s.args c :=
  List.map_congr_left fun _ _ => h.value

/-- The surroundings may be told before and after. -/
theorem congr (h : Refreshed names s t) {s₀ t' : Sheet} (hs : SameCells s₀ s) (htold : Told s₀ s)
    (ht : SameCells t t') (htold' : Told t t') : Refreshed names s₀ t' where
  graph := ht.1.trans (h.graph.trans hs.1)
  kept a ha := ht.cell?.trans ((h.kept a ha).trans hs.cell?)
  dependencies a := by rw [ht.cell?, h.dependencies, hs.cell?]
  idle a ha := by
    rw [htold'.runs, h.idle a (by rwa [Runs, hs.cell?]), htold.runs]
  ran a ha c run calls hc hb := by
    obtain ⟨hruns, v, hv, hcell⟩ := h.ran a ha c run calls (hs.cell?.trans hc) hb
    rw [args_congr ht, htold'.runs, ← htold.runs]
    exact ⟨hruns, v, hv, ht.cell?.trans hcell⟩

/-- One cell is changed that does not read itself. If it is run, then on the values of its
    dependencies, and the change assigns what it gives. -/
theorem of_cell {f : Cell → Cell} (hself : ∀ c, s.cell? name = some c → name ∉ c.dependencies)
    (hgraph : t.graph = s.graph) (hname : t.cell? name = (s.cell? name).map f)
    (hkept : ∀ a, a ≠ name → t.cell? a = s.cell? a) (hf : ∀ c, (f c).dependencies = c.dependencies)
    (hidle : ∀ a, a ≠ name ∨ ¬ s.Runs a → t.runs a = s.runs a)
    (hran : ∀ c run calls, s.cell? name = some c → c.binding = .dynamic run calls →
      t.runs name = s.args c :: s.runs name ∧ ∃ v, run calls (s.args c) = ⟨.ok v, false⟩ ∧
        f c = { c with value := v, binding := .dynamic run (calls + 1) }) :
    Refreshed [name] s t where
  graph := hgraph
  kept a ha := hkept a (mt List.mem_singleton.mpr ha)
  dependencies a := by
    by_cases e : a = name
    · subst e
      rw [hname, Option.map_map]
      exact congrArg (Option.map · _) (funext hf)
    · rw [hkept a e]
  idle a ha := hidle a (ha.imp_left (mt List.mem_singleton.mpr))
  ran a ha c run calls hc hb := by
    obtain rfl := List.mem_singleton.mp ha
    obtain ⟨hruns, v, hv, hcell⟩ := hran c run calls hc hb
    have hargs : t.args c = s.args c := List.map_congr_left fun d hd => by
      rw [value, hkept d fun e => hself c hc (e ▸ hd), value]
    rw [hargs]
    exact ⟨hruns, v, hv, by rw [hname, hc, Option.map_some, hcell]⟩

theorem listed (h : Refreshed names s t) (hs : s.Listed) : t.Listed := by
  intro a c' hc' d hd
  have hdeps := h.dependencies a
  rw [hc'] at hdeps
  obtain ⟨c, hc, hsame⟩ := Option.map_eq_some_iff.mp hdeps.symm
  rw [h.graph]
  exact hs a c hc d (hsame ▸ hd)

end Refreshed

/-- A cell gives nothing and is not run, or its value is there at once and is assigned, or else the
    queue does not go on. -/
theorem compute_refreshes (hself : ∀ c, s.cell? name = some c → name ∉ c.dependencies) :
    (s.compute name = (s, none) ∧ Refreshed [name] s s) ∨
      ∃ t r, s.compute name = (t, some r) ∧
        ∀ v, r = ⟨.ok v, false⟩ → Refreshed [name] s (t.assign name v) := by
  have hnothing (hruns : ¬ s.Runs name) : Refreshed [name] s s :=
    .of_cell (f := id) hself rfl (by simp) (fun _ _ => rfl) (fun _ => rfl)
      (fun _ _ => rfl) fun c run calls hc hb => absurd ⟨c, hc, by rw [hb]; rfl⟩ hruns
  have hruns {c : Cell} (hc : s.cell? name = some c) (hb : c.binding.isDynamic = false) :
      ¬ s.Runs name := by
    rintro ⟨c', hc', hb'⟩
    cases hc.symm.trans hc'
    rw [hb] at hb'
    cases hb'
  unfold compute
  cases hc : s.cell? name with
  | none => exact .inl ⟨rfl, hnothing fun ⟨c, hc', _⟩ => by rw [hc] at hc'; cases hc'⟩
  | some c =>
    cases hb : c.binding with
    | unbound => exact .inl ⟨by simp only [hb], hnothing (hruns hc (by rw [hb]; rfl))⟩
    | fixed => exact .inl ⟨by simp only [hb], hnothing (hruns hc (by rw [hb]; rfl))⟩
    | dynamic run calls =>
      simp only [hb]
      refine .inr ⟨_, _, rfl, fun v hv =>
        .of_cell (f := fun c => { recount run calls c with value := v }) hself rfl ?_
          (fun a e => ?_) ?_ ?_ ?_⟩
      · refine cell?_update_self.trans ((congrArg (Option.map _) cell?_update_self).trans ?_)
        exact Option.map_map ..
      · exact (cell?_update_of_ne e).trans (cell?_update_of_ne e)
      · exact fun _ => rfl
      · intro a ha
        refine runs_ran.trans (if_neg fun e => ?_)
        exact ha.elim (fun hne => hne e.symm) fun hne => hne ⟨c, e ▸ hc, by rw [hb]; rfl⟩
      · intro c' run' calls' hc' hb'
        cases hc.symm.trans hc'
        cases hb.symm.trans hb'
        exact ⟨runs_ran.trans (if_pos rfl), v, hv, rfl⟩
    | query handle compiled =>
      simp only [hb]
      cases hexecutor : s.executor with
      | none => exact .inr ⟨_, _, rfl, fun v hv => by cases hv⟩
      | some execute =>
        refine .inr ⟨_, _, rfl, fun v _ => .of_cell hself rfl cell?_update_self
          (fun a e => cell?_update_of_ne e) (fun _ => rfl) (fun _ _ => rfl) ?_⟩
        intro c' run calls hc' hb'
        cases hc.symm.trans hc'
        cases hb.symm.trans hb'

/-! ## 3. The batch -/


theorem mem_traceQueue {waiting : Bool} {index : Nat} {r : Computed}
    (hcompute : s.compute name = (t, some r)) :
    ⟨name, some r⟩ ∈ (traceQueue waiting s index (name :: rest)).1 := by
  unfold traceQueue
  rw [hcompute]
  dsimp only
  split
  · exact List.mem_cons_self
  · cases r.outcome with
    | ok v => exact List.mem_cons_self
    | error e => exact List.mem_cons_self

/-- A queue in the order of the graph, all of whose computations give their values at once, is
    computed to its end. -/
theorem refreshed_queue {waiting : Bool} {index : Nat} (hlisted : s.Listed)
    (hord : s.graph.Ordered rest) (hnodup : rest.Nodup)
    (hprompt : ∀ visit ∈ (traceQueue waiting s index rest).1, visit.Prompt) :
    (traceQueue waiting s index rest).1.map Visit.name = rest ∧
      ∃ t, Refreshed rest s t ∧ (traceQueue waiting s index rest).2 = t.finish := by
  induction rest generalizing s index with
  | nil => exact ⟨rfl, s, .nil s, rfl⟩
  | cons name rest ih =>
    obtain ⟨hname, hnodup⟩ := List.nodup_cons.mp hnodup
    have hreads (c : Cell) (hc : s.cell? name = some c) (d : String) (hd : d ∈ c.dependencies) :
        d ∉ name :: rest := by
      have hedge := hlisted name c hc d hd
      intro hmem
      rcases List.mem_cons.mp hmem with rfl | hmem
      · exact hname (hord.1 _ hedge)
      · exact hname (hord.2.reader_mem hmem hedge)
    have hnext {t : Sheet} (h : Refreshed [name] s t)
        (hprompt : ∀ visit ∈ (traceQueue waiting t (index + 1) rest).1, visit.Prompt) :
        (traceQueue waiting t (index + 1) rest).1.map Visit.name = rest ∧
          ∃ u, Refreshed (name :: rest) s u ∧
            (traceQueue waiting t (index + 1) rest).2 = u.finish := by
      obtain ⟨hvisits, u, hu, hfinish⟩ :=
        ih (h.listed hlisted) (h.graph ▸ hord.2) hnodup hprompt
      exact ⟨hvisits, u, h.cons hu hname fun c hc d hd hmem =>
        hreads c hc d hd (List.mem_cons_of_mem _ hmem), hfinish⟩
    rcases compute_refreshes fun c hc hd => hreads c hc name hd List.mem_cons_self with
      ⟨hcompute, hvisit⟩ | ⟨t, r, hcompute, hvisit⟩
    · unfold traceQueue at hprompt ⊢
      rw [hcompute] at hprompt ⊢
      obtain ⟨hvisits, hrest⟩ :=
        hnext hvisit fun visit hmem => hprompt visit (List.mem_cons_of_mem _ hmem)
      exact ⟨congrArg (name :: ·) hvisits, hrest⟩
    · obtain ⟨hdeferred, v, hv⟩ := hprompt _ (mem_traceQueue hcompute) r rfl
      obtain rfl : r = ⟨.ok v, false⟩ := by rw [← hdeferred, ← hv]
      unfold traceQueue at hprompt ⊢
      rw [hcompute] at hprompt ⊢
      obtain ⟨hvisits, hrest⟩ :=
        hnext (hvisit v rfl) fun visit hmem => hprompt visit (List.mem_cons_of_mem _ hmem)
      exact ⟨congrArg (name :: ·) hvisits, hrest⟩

/-- The end of the outermost transaction, when nothing is running. -/
theorem refreshed_close (hrun : s.running = false) (hqueue : s.queue = []) (hdepth : s.depth ≤ 1)
    (hacyclic : s.graph.Acyclic) (hlisted : s.Listed) (hprompt : ∀ visit ∈ s.visits, visit.Prompt) :
    s.visits.map Visit.name = s.graph.topologicalSort s.dirty ∧
      Refreshed (s.graph.topologicalSort s.dirty) s s.endTransaction ∧
        s.endTransaction.running = false := by
  have hord : s.graph.Ordered (s.graph.topologicalSort s.dirty) :=
    Graph.ordered_topologicalSort hacyclic s.dirty
  have hnodup : (s.graph.topologicalSort s.dirty).Nodup := Graph.nodup_topologicalSort _ _
  revert hprompt
  rw [← traceClose_snd, visits]
  unfold traceClose
  dsimp only
  rw [if_pos (Nat.sub_eq_zero_of_le hdepth)]
  generalize s.graph.topologicalSort s.dirty = order at hord hnodup
  unfold traceEnqueue
  split
  · rename_i hempty
    rw [List.isEmpty_iff.mp hempty]
    exact fun _ => ⟨rfl, (Refreshed.nil s).congr ⟨rfl, rfl⟩ (.refl s) ⟨rfl, rfl⟩ ⟨[], rfl, by simp⟩,
      hrun⟩
  · have hcells : SameCells s ({ s with depth := s.depth - 1, dirty := [] }.setStatus .dirty) :=
      .setStatus _ .dirty
    have htold : Told s ({ s with depth := s.depth - 1, dirty := [] }.setStatus .dirty) :=
      .setStatus { s with depth := s.depth - 1, dirty := [] } .dirty
    have hschedule : ({ s with depth := s.depth - 1, dirty := [] }.setStatus .dirty).schedule = _ :=
      schedule_setStatus
    generalize { s with depth := s.depth - 1, dirty := [] }.setStatus .dirty = t
      at hcells htold hschedule
    have htrun : t.running = false := (congrArg Schedule.running hschedule).trans hrun
    have htqueue : t.queue = [] := (congrArg Schedule.queue hschedule).trans hqueue
    dsimp only
    rw [if_neg (by simp [htrun]), htqueue, List.nil_append]
    intro hprompt
    have hlisted' : t.Listed := fun a c hc d hd =>
      hcells.1 ▸ hlisted a c (hcells.cell?.symm.trans hc) d hd
    have hord' : t.graph.Ordered order := hcells.1 ▸ hord
    obtain ⟨hvisits, u, hu, hfinish⟩ := @refreshed_queue { t with queue := order, running := true }
      order false 0 hlisted' hord' hnodup hprompt
    obtain ⟨hend, hended⟩ := finish_frame u
    rw [hfinish]
    exact ⟨hvisits, hu.congr hcells htold hend (.finish u), congrArg Schedule.running hended⟩

/-! ## 4. The close of the outermost transaction -/

/-- When a call closes a transaction, the queue is as before the call, and the lists are those of a
    tied sheet. -/
theorem Operation.ClosesOn.spec {op : Operation} (h : op.ClosesOn s t) (hs : s.Tied)
    (hlisted : s.Listed) :
    t.running = s.running ∧ t.queue = s.queue ∧ t.graph.Acyclic ∧ t.Listed := by
  cases h with
  | endTransaction => exact ⟨rfl, rfl, hs.acyclic, hlisted⟩
  | @invalidate _ t names hremoved hschedule hcall =>
    have hnone : ¬ op.Severs s := by
      rintro ⟨name, c, d, -, -, -, hd⟩
      rw [hremoved] at hd
      cases hd
    have htied : (t.invalidate names).Tied := hcall ▸ op.tied_apply hs
    have hlists : (t.invalidate names).Listed :=
      hcall ▸ (op.listed_apply_iff hs hlisted).mpr hnone
    obtain ⟨ht, hback⟩ := Keeps.of_sameReads (SameReads.invalidate t names).symm htied
    rw [foldl_markDirty]
    exact ⟨congrArg Schedule.running hschedule, congrArg Schedule.queue hschedule, ht.acyclic,
      hback hlists⟩

/-- Take any sheet that calls lead to, on which nothing is running and whose cells list what the
    graph knows, and a call that closes the outermost transaction. If the computations give their
    values at once, the batch visits what can be reached from the dirty names, each name once. It
    runs each visited cell that is bound to a computation once, on the values that its dependencies
    have in the end, and it runs no other cell. Cells that are not visited stay as they are. -/
theorem computed_once_of_close (schema : Schema) (policy : Policy) (executor : Option Executor)
    (ops : List Operation) (hrun : ((new schema policy executor).run ops).running = false)
    (hlinked : ((new schema policy executor).run ops).Linked) {op : Operation} {t : Sheet}
    (hclose : op.ClosesOn ((new schema policy executor).run ops) t) (hdepth : t.depth ≤ 1)
    (hprompt : ∀ visit ∈ t.visits, visit.Prompt) :
    let visited := t.visits.map Visit.name
    let s' := op.apply ((new schema policy executor).run ops)
    visited.Nodup ∧
    (∀ a, a ∈ visited ↔ ∃ d ∈ t.dirty, t.graph.Reaches d a) ∧
    (∀ a ∈ visited, ∀ c run calls, t.cell? a = some c → c.binding = .dynamic run calls →
      s'.runs a = c.dependencies.map s'.value :: t.runs a ∧
        ∃ v, run calls (c.dependencies.map s'.value) = ⟨.ok v, false⟩ ∧
          s'.cell? a = some { c with value := v, binding := .dynamic run (calls + 1) }) ∧
    (∀ a, a ∉ visited ∨ ¬ t.Runs a → s'.runs a = t.runs a) ∧
    (∀ a, a ∉ visited → s'.cell? a = t.cell? a) ∧
    s'.running = false := by
  intro visited s'
  have hregular := regular_run (regular_new schema policy executor) ops
  have htied := tied_run (tied_new schema policy executor) ops
  have happly : s' = t.endTransaction := hclose.apply
  obtain ⟨htrun, htqueue, hacyclic, hlisted⟩ := hclose.spec htied (htied.linked_iff.mp hlinked)
  have hqueue : ((new schema policy executor).run ops).queue = [] := hregular.queue hrun
  obtain ⟨hvisits, hrefreshed, hend⟩ :=
    refreshed_close (htrun.trans hrun) (htqueue.trans hqueue) hdepth hacyclic hlisted hprompt
  rw [happly, show visited = _ from hvisits]
  exact ⟨Graph.nodup_topologicalSort _ _, fun a => Graph.mem_topologicalSort hacyclic,
    hrefreshed.ran, hrefreshed.idle, hrefreshed.kept, hend⟩

/-- A computation that puts its arguments together. -/
def gather : Run := fun _ args => ⟨.ok (.array args), false⟩

/-- In a transaction `b` is bound, which reads `a`, and `c`, which reads both; then `a` is
    written. -/
def triangle : List Operation :=
  [.startTransaction, .createDynamic "" "b" ⟨["a"], gather, .null, false⟩,
    .createDynamic "" "c" ⟨["a", "b"], gather, .null, false⟩, .set "a" (.bool true)]

theorem run_triangle :
    (((new .empty .none none).run triangle).running, ((new .empty .none none).run triangle).depth,
      ((new .empty .none none).run triangle).cells.toList.all fun cell =>
        cell.2.dependencies.all fun d =>
          ((new .empty .none none).run triangle).graph.hasEdge d cell.1,
      ((new .empty .none none).run triangle).cell? "c",
      ((new .empty .none none).run triangle).runs "c",
      ((new .empty .none none).run triangle).visits) =
    (false, 1, true, some ⟨.null, .dynamic gather 0, ["a", "b"]⟩, [],
      [⟨"a", none⟩, ⟨"b", some ⟨.ok (.array [.bool true]), false⟩⟩,
        ⟨"c", some ⟨.ok (.array [.bool true, .array [.bool true]]), false⟩⟩]) := by
  simp only [triangle, run, List.foldl, Operation.apply, createDynamic, List.map, connect,
    Graph.addEdge, ite_or, ← Bool.cond_eq_ite]
  cbv

/-- The batch runs `c` once, on the values that `a` and `b` have in the end. -/
theorem computed_once_of_triangle :
    let s := (new .empty .none none).run triangle
    (s.running = false ∧ s.Linked ∧ s.depth = 1 ∧ ∀ visit ∈ s.visits, visit.Prompt) ∧
      s.visits.map Visit.name = ["a", "b", "c"] ∧
      s.endTransaction.runs "c" = [[s.endTransaction.value "a", s.endTransaction.value "b"]] := by
  intro s
  obtain ⟨hrun, hdepth, hall, hc, hruns, hvisits⟩ := by
    simpa only [Prod.mk.injEq] using run_triangle
  have hlisted : s.Listed := listed_iff.mpr fun cell hcell d hd =>
    List.all_eq_true.mp (List.all_eq_true.mp hall cell hcell) d hd
  have hlinked : s.Linked := (tied_run (tied_new .empty .none none) triangle).linked_iff.mpr hlisted
  have hprompt : ∀ visit ∈ s.visits, visit.Prompt := by
    rw [hvisits]
    simp [Visit.Prompt, Computed.Prompt]
  have hnames : s.visits.map Visit.name = ["a", "b", "c"] := by
    rw [hvisits]
    rfl
  obtain ⟨-, -, honce, -⟩ := computed_once_of_close .empty .none none triangle hrun hlinked
    .endTransaction (Nat.le_of_eq hdepth) hprompt
  obtain ⟨hran, -⟩ := honce "c" (by rw [hnames]; simp) _ gather 0 hc rfl
  exact ⟨⟨hrun, hlinked, hdepth, hprompt⟩, hnames, hran.trans (congrArg _ hruns)⟩

end Sheet

end QuerySheet

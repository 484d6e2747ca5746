import Mathlib
import QuerySheet.Proofs.Sheet.Moves

/-!
# What is saved

When a batch ends, the values of its cells are handed over to be saved; a batch that fails is
dropped, and nothing is handed over.

* `lastSaved`: the value that was handed over last for a name;
* `Moves.saved`: what was saved or waits is saved or waits after a move, unless the batch fails and
  the cell is given up (`Operation.GivesUp`);
* `saved_of_run`: so in a sheet at rest the value of a cell is the one that was saved last, or the
  cell was given up, and not saved since;
* `not_saved_of_failed`: in a run with a failure the status turns clean over such a cell.
-/

namespace QuerySheet.Sheet

variable {s s' t : Sheet} {name a : String}

/-! ## 1. Saved values -/

/-- The value of a name in the latest batch that had it. -/
def lastSaved (s : Sheet) (name : String) : Option Json := s.batches.findSome? (List.lookup name)

/-- The value of a cell is saved, or will be. -/
def Saved (s : Sheet) (name : String) : Prop :=
  s.Bound name → s.lastSaved name = some (s.value name) ∨ s.Waits name

/-- The batch that a sheet hands over when its queue is done. -/
def batch (s : Sheet) : List (String × Json) :=
  (distinctNames s.queue).filterMap fun name => (s.cell? name).map fun c => (name, c.value)

theorem lookup_filterMap (f : String → Option Json) (names : List String) :
    (names.filterMap fun n => (f n).map (n, ·)).lookup a = if a ∈ names then f a else none := by
  induction names with
  | nil => rfl
  | cons n names ih =>
    cases hn : f n with
    | none =>
      rw [List.filterMap_cons_none (by rw [hn]; rfl), ih]
      by_cases e : a = n
      · subst e
        simp [hn]
      · simp [e]
    | some v =>
      rw [List.filterMap_cons_some (by rw [hn]; rfl), List.lookup_cons, ih]
      by_cases e : a = n
      · subst e
        simp [hn]
      · simp [e, beq_eq_false_iff_ne.mpr e]

theorem lookup_batch :
    s.batch.lookup name = if name ∈ s.queue then (s.cell? name).map (·.value) else none := by
  have hlookup := lookup_filterMap (fun n => (s.cell? n).map (·.value)) (distinctNames s.queue)
    (a := name)
  simp only [distinctNames, List.mem_eraseDups, Option.map_map, Function.comp_def] at hlookup
  exact hlookup

theorem batches_finish : t.finish.batches = t.batch :: t.batches := by
  have hlisteners (l : List Listener) (s : Sheet) (names : List String) :
      (l.foldl (fun s l => s.emit (.changed l.label names)) s).batches = s.batches := by
    induction l generalizing s with
    | nil => rfl
    | cons x l ih => exact ih (s.emit (.changed x.label names))
  have hcells (l : List Listener) (s : Sheet) (names : List String) :
      (l.foldl (fun s l => s.emit (.changed l.label names)) s).cell? = s.cell? := by
    induction l generalizing s with
    | nil => rfl
    | cons x l ih => exact ih (s.emit (.changed x.label names))
  unfold finish
  dsimp only
  rw [batches_markClean, hcells]
  exact congrArg (List.cons _) (hlisteners _ _ _)

theorem lastSaved_cons {cells : List (String × Json)} (h : s.batches = cells :: t.batches) :
    s.lastSaved name = (cells.lookup name).or (t.lastSaved name) := by
  rw [lastSaved, h, List.findSome?_cons, lastSaved]
  cases cells.lookup name <;> rfl

theorem lastSaved_congr (h : s.batches = t.batches) : s.lastSaved name = t.lastSaved name := by
  rw [lastSaved, h, lastSaved]

namespace Operation

/-- The error that is there when a call is done, before a wait collects it. -/
def error? (s : Sheet) (op : Operation) : Option CellError := (op.settled s).lastError

/-- A call after which a cell does not wait any more and no batch was handed over, though the cell
    was waiting, or the call has bound it or changed its value. -/
def GivesUp (s : Sheet) (op : Operation) (name : String) : Prop :=
  (op.apply s).Bound name ∧ ¬ (op.apply s).Waits name ∧ (op.apply s).batches = s.batches ∧
    (s.Waits name ∨ ¬ s.Bound name ∨ (op.apply s).value name ≠ s.value name)

/-- A call that hands over a batch which has the name. -/
def Saves (s : Sheet) (op : Operation) (name : String) : Prop :=
  ∃ cells, (op.apply s).batches = cells :: s.batches ∧ name ∈ cells.map (·.1)

end Operation

/-! ## 2. What a move saves -/

/-- The cells of the queue are saved when it is done. -/
theorem lastSaved_finish (hqueue : name ∈ t.queue) (hb : t.Bound name) :
    t.finish.lastSaved name = some (t.finish.value name) := by
  obtain ⟨c, hc, -⟩ := hb
  rw [lastSaved_cons batches_finish, lookup_batch, if_pos hqueue, (finish_frame t).1.value, value,
    hc]
  rfl

theorem lastSaved_finish_of_not_mem (hqueue : name ∉ t.queue) :
    t.finish.lastSaved name = t.lastSaved name := by
  rw [lastSaved_cons batches_finish, lookup_batch, if_neg hqueue, Option.none_or]

namespace Moves

/-- An edited cell that does not wait has its binding and its value from before. -/
theorem saved_of_edits (h : Edits [] s t) (hs : s.Saved name) : t.Saved name := by
  intro hb
  rcases h.binds name hb with hbs | hw
  · rcases h.value name with hv | hv
    · rw [hv, lastSaved_congr h.batches]
      exact (hs hbs).imp_right (h.waits name)
    · exact .inr (hv.2.resolve_left List.not_mem_nil)
  · exact .inr (hw.resolve_left List.not_mem_nil)

/-- A cell that is saved or waits is so after a move, or there was an error, and the cell does not
    wait though it waited before or has changed. -/
theorem saved (h : Moves s s') (hs : s.Saved name) :
    s'.Saved name ∨ (∃ e, s'.lastError = some e) ∧ s'.Bound name ∧ ¬ s'.Waits name ∧
      s'.batches = s.batches ∧
        (s.Waits name ∨ ¬ s.Bound name ∨ s'.value name ≠ s.value name) := by
  rcases h with h | ⟨t, waiting, h, hends⟩
  · exact .inl (saved_of_edits h hs)
  · have ht := saved_of_edits h hs
    cases hends with
    | finished =>
      refine .inl fun hb => ?_
      have hbt : t.Bound name := (Ends.binds_iff (@Ends.finished _ waiting)).mp hb
      by_cases hqueue : name ∈ t.queue
      · exact .inl (lastSaved_finish hqueue hbt)
      · rw [lastSaved_finish_of_not_mem hqueue, (finish_frame t).1.value]
        refine (ht hbt).imp_right fun hw => .inl ?_
        rw [show t.finish.dirty = t.dirty from congrArg Schedule.dirty (finish_frame t).2]
        exact hw.resolve_right hqueue
    | suspended p hp c hc hb => exact .inl ht
    | failed e =>
      by_cases hs' : (t.fail e).Saved name
      · exact .inl hs'
      · obtain ⟨hb, hnone⟩ := Classical.not_imp.mp hs'
        obtain ⟨hvalue, hwaits⟩ := not_or.mp hnone
        refine .inr ⟨⟨e, rfl⟩, hb, hwaits, h.batches, ?_⟩
        -- a cell that neither waited nor changed was saved, and nothing was handed over since
        by_contra hsame
        obtain ⟨hwait, hsame⟩ := not_or.mp hsame
        obtain ⟨hbs, hv⟩ := not_or.mp hsame
        have hlast := (hs (not_not.mp hbs)).resolve_right hwait
        rw [← not_not.mp hv] at hlast
        exact hvalue ((lastSaved_congr h.batches).trans hlast)

/-- What a batch hands over is saved when the move is done. -/
theorem saved_of_batch (h : Moves s s') {cells : List (String × Json)}
    (hbatch : s'.batches = cells :: s.batches) (hmem : name ∈ cells.map (·.1)) :
    s'.Saved name := by
  have hne {l : List (List (String × Json))} (hl : l = s.batches) (hc : l = cells :: s.batches) :
      False := List.cons_ne_self cells s.batches (hc.symm.trans hl)
  rcases h with h | ⟨t, waiting, h, hends⟩
  · exact (hne h.batches hbatch).elim
  · cases hends with
    | finished =>
      rw [batches_finish, h.batches] at hbatch
      obtain rfl := (List.cons.inj hbatch).1
      obtain ⟨⟨n, v⟩, hcell, rfl⟩ := List.mem_map.mp hmem
      obtain ⟨m, hm, hnv⟩ := List.mem_filterMap.mp hcell
      obtain ⟨c, hc, hnv⟩ := Option.map_eq_some_iff.mp hnv
      obtain ⟨rfl, rfl⟩ := Prod.mk.inj hnv
      refine fun hb => .inl (lastSaved_finish (List.mem_eraseDups.mp hm) ?_)
      exact (Ends.binds_iff (@Ends.finished _ waiting)).mp hb
    | suspended p hp c hc hb => exact (hne h.batches hbatch).elim
    | failed e => exact (hne h.batches hbatch).elim

end Moves

/-! ## 3. Runs -/

namespace Operation

theorem saved_apply (h : s.Tracked) {op : Operation} (hop : op.Writes) (hs : s.Saved name) :
    (op.apply s).Saved name ∨ op.GivesUp s name ∧ ∃ e, op.error? s = some e := by
  have hmoves := (moves_settled h hop).saved hs
  obtain ⟨e, heq⟩ := settled_cases s op
  rw [GivesUp, heq]
  exact hmoves.imp_right fun ⟨herror, hgives⟩ => ⟨hgives, herror⟩

theorem saved_of_saves (h : s.Tracked) {op : Operation} (hop : op.Writes) (hs : op.Saves s name) :
    (op.apply s).Saved name := by
  obtain ⟨cells, hbatch, hmem⟩ := hs
  have hmoves := moves_settled h hop
  obtain ⟨e, heq⟩ := settled_cases s op
  rw [heq] at hbatch ⊢
  exact hmoves.saved_of_batch hbatch hmem

end Operation

/-- Some call of a run has failed and given the cell up, and no later one saves it. -/
def Abandons (s : Sheet) (ops : List Operation) (name : String) : Prop :=
  ∃ (i : Nat) (op : Operation), ops[i]? = some op ∧ op.GivesUp (s.run (ops.take i)) name ∧
    (∃ e, op.error? (s.run (ops.take i)) = some e) ∧
    ∀ (j : Nat) (op' : Operation), i < j → ops[j]? = some op' →
      ¬ op'.Saves (s.run (ops.take j)) name

theorem take_concat {ops : List Operation} (op : Operation) {i : Nat} (hi : i < ops.length) :
    (ops ++ [op]).take i = ops.take i ∧ (ops ++ [op])[i]? = ops[i]? :=
  ⟨List.take_append_of_le_length (Nat.le_of_lt hi), List.getElem?_append_left hi⟩

theorem take_length_concat {ops : List Operation} {op : Operation} :
    (ops ++ [op]).take ops.length = ops ∧ (ops ++ [op])[ops.length]? = some op := by
  simp

/-- What was abandoned before the last call stays so, unless that call saves it. -/
theorem Abandons.concat {ops : List Operation} {op : Operation} (h : s.Abandons ops name)
    (hop : ¬ op.Saves (s.run ops) name) : s.Abandons (ops ++ [op]) name := by
  obtain ⟨i, op₁, hi, hgives, herror, hlater⟩ := h
  obtain ⟨hlt, -⟩ := List.getElem?_eq_some_iff.mp hi
  obtain ⟨htake, hget⟩ := take_concat op hlt
  refine ⟨i, op₁, hget.trans hi, htake ▸ hgives, htake ▸ herror, fun j op₂ hj hop₂ => ?_⟩
  rcases Nat.lt_trichotomy j ops.length with hlt | rfl | hgt
  · obtain ⟨htake, hget⟩ := take_concat op hlt
    exact htake ▸ hlater j op₂ hj (hget.symm.trans hop₂)
  · rw [take_length_concat.2] at hop₂
    cases hop₂
    rwa [take_length_concat.1]
  · rw [List.getElem?_eq_none (by simp; omega)] at hop₂
    cases hop₂

theorem saved_or_abandons (h : s.Tracked) (hs : s.Saved name) {ops : List Operation}
    (hops : ∀ op ∈ ops, op.Writes) : (s.run ops).Saved name ∨ s.Abandons ops name := by
  induction ops using List.reverseRecOn with
  | nil => exact .inl hs
  | append_singleton ops op ih =>
    have hbefore (op' : Operation) (hop' : op' ∈ ops) : op'.Writes :=
      hops op' (List.mem_append_left _ hop')
    have hop : op.Writes := hops op (List.mem_append_right _ List.mem_cons_self)
    have ht : (s.run ops).Tracked := tracked_run h hbefore
    rw [run_concat]
    rcases ih hbefore with hsaved | habandons
    · rcases op.saved_apply ht hop hsaved with hsaved | ⟨hgives, herror⟩
      · exact .inl hsaved
      · refine .inr ⟨ops.length, op, take_length_concat.2, ?_, ?_, fun j op' hj hop' => ?_⟩
        · rwa [take_length_concat.1]
        · rwa [take_length_concat.1]
        · rw [List.getElem?_eq_none (by simp; omega)] at hop'
          cases hop'
    · by_cases hsaves : op.Saves (s.run ops) name
      · exact .inl (op.saved_of_saves ht hop hsaves)
      · exact .inr (habandons.concat hsaves)

/-- In a sheet at rest that no cell and no binding was taken from, the value of every cell that was
    written or computed is the one that was saved last for it. The exception are cells that some
    call with an error has given up and that no later call has saved. -/
theorem saved_of_run (schema : Schema) (policy : Policy) (executor : Option Executor)
    {ops : List Operation} (hops : ∀ op ∈ ops, op.Writes)
    (hdepth : ((new schema policy executor).run ops).depth = 0)
    (hidle : ((new schema policy executor).run ops).running = false)
    (hb : ((new schema policy executor).run ops).Bound name) :
    ((new schema policy executor).run ops).lastSaved name =
        some (((new schema policy executor).run ops).value name) ∨
      (new schema policy executor).Abandons ops name := by
  have hnew : (new schema policy executor).Saved name := by
    rintro ⟨c, hc, -⟩
    simp [cell?, Sheet.new] at hc
  have hregular := regular_run (regular_new schema policy executor) ops
  rcases saved_or_abandons (tracked_new schema policy executor) hnew hops with hsaved | habandons
  · refine .inl ((hsaved hb).resolve_right fun hw => ?_)
    have hdirty : ((new schema policy executor).run ops).dirty = [] := hregular.closed hdepth
    have hqueue : ((new schema policy executor).run ops).queue = [] := hregular.queue hidle
    rcases hw with hw | hw
    · rw [hdirty] at hw
      cases hw
    · rw [hqueue] at hw
      cases hw
  · exact .inr habandons

/-- A computation that fails if its argument is true. -/
def refuse : Run := fun _ args =>
  match args with
  | [.bool true] => ⟨.error (.computation "b" "refused"), false⟩
  | _ => ⟨.ok .null, false⟩

/-- `b` refuses the second value of `a`, and then another cell is written. -/
def refusing : List Operation :=
  [.set "a" (.bool false), .createDynamic "" "b" ⟨["a"], refuse, .null, false⟩,
    .set "a" (.bool true), .set "c" .null]

theorem run_refusing :
    (((new .empty .none none).run refusing).depth, ((new .empty .none none).run refusing).running,
      ((new .empty .none none).run refusing).status,
      ((new .empty .none none).run refusing).cell? "a",
      ((new .empty .none none).run refusing).lastSaved "a") =
    (0, false, .clean, some ⟨.bool true, .fixed, []⟩, some (.bool false)) := by
  simp only [refusing, run, List.foldl, Operation.apply, createDynamic, List.map, connect,
    Graph.addEdge, ite_or, ← Bool.cond_eq_ite]
  cbv

/-- The status is clean, but the second value of `a` is not saved. -/
theorem not_saved_of_failed :
    (∀ op ∈ refusing, op.Writes) ∧
    ((new .empty .none none).run refusing).depth = 0 ∧
    ((new .empty .none none).run refusing).running = false ∧
    ((new .empty .none none).run refusing).status = .clean ∧
    ((new .empty .none none).run refusing).Bound "a" ∧
    ((new .empty .none none).run refusing).lastSaved "a" ≠
      some (((new .empty .none none).run refusing).value "a") := by
  obtain ⟨hdepth, hidle, hclean, hc, hlast⟩ := by simpa only [Prod.mk.injEq] using run_refusing
  refine ⟨by simp [refusing, Operation.Writes], hdepth, hidle, hclean, ?_, ?_⟩
  · exact ⟨_, hc, fun h => by cases h⟩
  · rw [hlast, value, hc]
    exact fun h => by cases h

/-- Until the failure, what was written is saved. -/
theorem saved_of_refusing :
    ((new .empty .none none).run (refusing.take 2)).lastSaved "a" = some (.bool false) ∨
      (new .empty .none none).Abandons (refusing.take 2) "a" := by
  have hend : (((new .empty .none none).run (refusing.take 2)).depth,
      ((new .empty .none none).run (refusing.take 2)).running,
      ((new .empty .none none).run (refusing.take 2)).cell? "a") =
      (0, false, some ⟨.bool false, .fixed, []⟩) := by
    simp only [refusing, List.take, run, List.foldl, Operation.apply, createDynamic, List.map,
      connect, Graph.addEdge, ite_or, ← Bool.cond_eq_ite]
    cbv
  obtain ⟨hdepth, hidle, hc⟩ := by simpa only [Prod.mk.injEq] using hend
  have hops : ∀ op ∈ refusing.take 2, op.Writes := by simp [refusing, Operation.Writes]
  have hvalue : ((new .empty .none none).run (refusing.take 2)).value "a" = .bool false := by
    rw [value, hc]
    rfl
  rw [← hvalue]
  exact saved_of_run _ _ _ hops hdepth hidle ⟨_, hc, fun h => by cases h⟩

end QuerySheet.Sheet

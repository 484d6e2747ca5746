import QuerySheet.Sheet.Edit
import QuerySheet.Proofs.Sheet.Topological

/-!
# What an operation on a sheet leaves alone

A sheet is its cells with the graph, a schedule of what is to be computed, and what it tells its
surroundings. Most operations touch only one of the three.

* `Sheet.schedule`: the open transactions, the dirty cells and the queue;
* `Sheet.SameCells`: two sheets with the same cells and the same graph;
* the cell of a name after `touch` and `update`;
* `written`, `reading`, `removeReading`: what a write and a change of dependencies make of a cell;
* `compute_cases`: what computing one cell can do, when no cell is bound to a query.
-/

namespace QuerySheet.Sheet

open Std (ExtTreeMap)

variable {s s' : Sheet} {name a : String}

/-! ## 1. The schedule -/

structure Schedule where
  depth : Nat
  dirty : List String
  queue : List String
  running : Bool
  suspended : Option Suspended

/-- What is to be computed, and when. -/
def schedule (s : Sheet) : Schedule := ⟨s.depth, s.dirty, s.queue, s.running, s.suspended⟩

theorem schedule_update {f : Cell → Cell} : (s.update name f).schedule = s.schedule := rfl

theorem schedule_touch : (s.touch name).schedule = s.schedule := by
  unfold touch
  split <;> rfl

theorem schedule_foldl_touch (names : List String) :
    (names.foldl touch s).schedule = s.schedule := by
  induction names generalizing s with
  | nil => rfl
  | cons n names ih => rw [List.foldl_cons, ih, schedule_touch]

theorem schedule_setStatus {status : CacheStatus} : (s.setStatus status).schedule = s.schedule := by
  unfold setStatus
  split <;> rfl

theorem schedule_markClean : s.markClean.schedule = s.schedule := by
  unfold markClean
  split
  · rfl
  · exact schedule_setStatus

theorem foldl_markDirty (names : List String) :
    names.foldl markDirty s = { s with dirty := s.dirty ++ names } := by
  induction names generalizing s with
  | nil => simp
  | cons n names ih =>
    rw [List.foldl_cons, ih]
    simp [markDirty]

/-! ## 2. Cells and graph -/

/-- Two sheets that differ in their schedule and their surroundings only. -/
def SameCells (s s' : Sheet) : Prop := s'.graph = s.graph ∧ s'.cells = s.cells

namespace SameCells

theorem cell? (h : SameCells s s') : s'.cell? a = s.cell? a := by rw [Sheet.cell?, h.2, Sheet.cell?]

theorem value (h : SameCells s s') : s'.value a = s.value a := by
  rw [Sheet.value, h.cell?, Sheet.value]

theorem trans {s'' : Sheet} (h : SameCells s s') (h' : SameCells s' s'') : SameCells s s'' :=
  ⟨h'.1.trans h.1, h'.2.trans h.2⟩

theorem setStatus (s : Sheet) (status : CacheStatus) : SameCells s (s.setStatus status) := by
  unfold Sheet.setStatus
  split <;> exact ⟨rfl, rfl⟩

theorem markClean (s : Sheet) : SameCells s s.markClean := by
  unfold Sheet.markClean
  split
  · exact ⟨rfl, rfl⟩
  · exact setStatus s _

end SameCells

theorem foldl_emit {α : Type} (event : α → Event) (l : List α) (s : Sheet) :
    ∃ events, l.foldl (fun s x => s.emit (event x)) s = { s with events } := by
  induction l generalizing s with
  | nil => exact ⟨s.events, rfl⟩
  | cons x l ih => exact ih (s.emit (event x))

/-- The end of a batch empties the queue, and changes no cell. -/
theorem finish_frame (s : Sheet) :
    SameCells s s.finish ∧
      s.finish.schedule = { s.schedule with queue := [], running := false } := by
  unfold finish
  dsimp only
  obtain ⟨events, h⟩ :=
    foldl_emit (fun l : Listener => Event.changed l.label (distinctNames s.queue))
    s.listeners { s with queue := [], running := false }
  rw [h]
  exact ⟨SameCells.trans ⟨rfl, rfl⟩ (SameCells.markClean _), schedule_markClean⟩

/-! ## 3. The cell of a name -/

theorem cell?_update_self {f : Cell → Cell} :
    (s.update name f).cell? name = (s.cell? name).map f := by
  simp [update, cell?]

theorem cell?_update_of_ne {f : Cell → Cell} (h : a ≠ name) :
    (s.update name f).cell? a = s.cell? a := by
  simp [update, cell?, ExtTreeMap.getElem?_alter, h.symm]

/-- An update keeps all values if it keeps the value of its cell. -/
theorem value_update {f : Cell → Cell} (hf : ∀ c, (f c).value = c.value) :
    (s.update name f).value a = s.value a := by
  by_cases e : a = name
  · subst e
    rw [value, cell?_update_self, value]
    cases s.cell? a with
    | none => rfl
    | some c => exact hf c
  · rw [value, cell?_update_of_ne e, value]

theorem hasCell_iff : s.hasCell a = true ↔ ∃ c, s.cell? a = some c := by
  rw [hasCell, ← ExtTreeMap.isSome_getElem?_eq_contains, Option.isSome_iff_exists]
  rfl

/-- What a touched name stands for: its cell, or a blank one. -/
theorem cell?_touch :
    (s.touch name).cell? a = if a = name then some ((s.cell? name).getD .blank) else s.cell? a := by
  unfold touch
  split
  · rename_i h
    obtain ⟨c, hc⟩ := hasCell_iff.mp h
    split
    · rename_i e
      rw [e, hc, Option.getD_some]
    · rfl
  · rename_i h
    have hnone : s.cell? name = none := Option.not_isSome_iff_eq_none.mp fun hs =>
      h (hasCell_iff.mpr (Option.isSome_iff_exists.mp hs))
    rw [hnone, Option.getD_none]
    by_cases e : a = name
    · simp [cell?, e]
    · simp [cell?, ExtTreeMap.getElem?_insert, e, Ne.symm e]

theorem cell?_touch_of_some {c : Cell} (h : s.cell? a = some c) :
    (s.touch name).cell? a = some c := by
  rw [cell?_touch]
  split
  · rename_i e
    rw [← e, h, Option.getD_some]
  · exact h

/-- A cell of the touched sheet was there, or it is blank. -/
theorem cell?_of_touch {c : Cell} (h : (s.touch name).cell? a = some c) :
    s.cell? a = some c ∨ a = name ∧ c = .blank := by
  rw [cell?_touch] at h
  split at h
  · rename_i e
    cases hn : s.cell? name with
    | none =>
      rw [hn] at h
      exact .inr ⟨e, (Option.some.inj h).symm⟩
    | some c' =>
      rw [hn] at h
      exact .inl (by rw [e, hn, ← h, Option.getD_some])
  · exact .inl h

theorem value_touch : (s.touch name).value a = s.value a := by
  rw [value, cell?_touch, value]
  split
  · rename_i e
    rw [e]
    cases s.cell? name <;> rfl
  · rfl

theorem hasEdge_touch {b : String} :
    (s.touch name).graph.hasEdge a b = true ↔ s.graph.hasEdge a b = true := by
  unfold touch
  split
  · rfl
  · exact Graph.hasEdge_addNode

theorem hasNode_touch (h : s.graph.hasNode a = true) :
    (s.touch name).graph.hasNode a = true := by
  unfold touch
  split
  · exact h
  · exact Graph.hasNode_addNode.mpr (.inr h)

theorem cell?_touch_self : ∃ c, (s.touch name).cell? name = some c :=
  ⟨_, by rw [cell?_touch, if_pos rfl]⟩

/-- All names of a list are there once they are touched. -/
theorem cell?_foldl_touch (names : List String) :
    (∀ c, s.cell? a = some c → ∃ c, (names.foldl touch s).cell? a = some c) ∧
      (a ∈ names → ∃ c, (names.foldl touch s).cell? a = some c) := by
  induction names generalizing s with
  | nil => exact ⟨fun c hc => ⟨c, hc⟩, fun h => absurd h List.not_mem_nil⟩
  | cons n names ih =>
    refine ⟨fun c hc => (ih (s := s.touch n)).1 c (cell?_touch_of_some hc), fun h => ?_⟩
    rcases List.mem_cons.mp h with rfl | h
    · obtain ⟨c, hc⟩ : ∃ c, (s.touch a).cell? a = some c := cell?_touch_self
      exact (ih (s := s.touch a)).1 c hc
    · exact ih.2 h

theorem value_foldl_touch (names : List String) : (names.foldl touch s).value a = s.value a := by
  induction names generalizing s with
  | nil => rfl
  | cons n names ih => rw [List.foldl_cons, ih, value_touch]

/-- A cell without its binding. -/
def unbound (c : Cell) : Cell := { c with binding := .unbound, dependencies := [] }

/-- What is at a name after a cell has lost its binding. -/
theorem cell?_of_unbind {c : Cell} (h : (s.unbind name).cell? a = some c) :
    (a = name ∧ ∃ c', s.cell? a = some c' ∧ c = unbound c') ∨ (a ≠ name ∧ s.cell? a = some c) := by
  unfold unbind at h
  split at h
  · by_cases e : a = name
    · subst e
      rw [cell?_update_self] at h
      obtain ⟨c', hc', rfl⟩ := Option.map_eq_some_iff.mp h
      exact .inl ⟨rfl, c', hc', rfl⟩
    · rw [cell?_update_of_ne e] at h
      exact .inr ⟨e, h⟩
  · rename_i hcell
    exact .inr ⟨fun e => hcell (hasCell_iff.mpr ⟨c, e ▸ h⟩), h⟩

theorem value_unbind : (s.unbind name).value a = s.value a := by
  unfold unbind
  split
  · exact value_update fun c => rfl
  · rfl

theorem hasEdge_of_unbind {b : String} (h : (s.unbind name).graph.hasEdge a b = true) :
    s.graph.hasEdge a b = true := by
  unfold unbind at h
  split at h
  · exact (Graph.hasEdge_removeIncoming.mp h).1
  · exact h

theorem hasEdge_unbind_of_ne {b : String} (hb : b ≠ name) (h : s.graph.hasEdge a b = true) :
    (s.unbind name).graph.hasEdge a b = true := by
  unfold unbind
  split
  · exact Graph.hasEdge_removeIncoming.mpr ⟨h, hb⟩
  · exact h

theorem hasNode_unbind : (s.unbind name).graph.hasNode a = s.graph.hasNode a := by
  unfold unbind
  split
  · exact Graph.hasNode_removeIncoming
  · rfl

theorem schedule_unbind : (s.unbind name).schedule = s.schedule := by
  unfold unbind
  split <;> rfl

/-! ## 4. Edits of one cell -/

/-- The binding of a cell that a value is written to. -/
def written (v : Json) (c : Cell) : Cell :=
  { c with
    value := v
    binding := match c.binding with
      | .unbound => .fixed
      | b => b }

/-- To write a value is to change a cell and to mark it. -/
theorem set_eq {v : Json} :
    s.set name v = ((s.touch name).update name (written v)).invalidate [name] := by
  have htouch : s.startTransaction.touch name = (s.touch name).startTransaction := by
    unfold Sheet.touch
    by_cases hcell : s.hasCell name = true
    · rw [if_pos hcell]
      exact if_pos hcell
    · rw [if_neg hcell]
      exact if_neg hcell
  unfold Sheet.set
  rw [htouch]
  rfl

/-- A cell that reads one more cell. -/
def reading (d : String) (c : Cell) : Cell :=
  if c.dependencies.contains d then c else { c with dependencies := c.dependencies ++ [d] }

theorem mem_reading {d : String} {c : Cell} :
    a ∈ (reading d c).dependencies ↔ a = d ∨ a ∈ c.dependencies := by
  unfold reading
  split
  · rename_i h
    exact ⟨.inr, fun ha => ha.elim (fun e => e ▸ List.contains_iff_mem.mp h) id⟩
  · simp only [List.mem_append, List.mem_singleton]
    exact or_comm

/-- One dependency less. -/
def removeReading (name : String) (s : Sheet) (d : String) : Sheet :=
  { s with graph := s.graph.removeEdge d name }.update name fun c =>
    { c with dependencies := c.dependencies.filter (· != d) }

/-! ## 5. Computing one cell -/

/-- The arguments of a cell's computation. -/
def args (s : Sheet) (c : Cell) : List Json := c.dependencies.map s.value

/-- A call more of a cell's computation. -/
def recount (run : Run) (calls : Nat) (c : Cell) : Cell :=
  { c with binding := .dynamic run (calls + 1) }

/-- A cell that is bound to no query gives nothing, or it is computed and its calls are counted. -/
theorem compute_cases
    (hquery : ∀ c, s.cell? name = some c → ∀ handle q, c.binding ≠ .query handle q) :
    (s.compute name = (s, none) ∧
      ∀ c, s.cell? name = some c → ∀ run calls, c.binding ≠ .dynamic run calls) ∨
    ∃ c run calls, s.cell? name = some c ∧ c.binding = .dynamic run calls ∧
      s.compute name = ((s.update name (recount run calls)).emit (.ran name (s.args c)),
        some (run calls (s.args c))) := by
  unfold compute
  cases hc : s.cell? name with
  | none => exact .inl ⟨rfl, fun c h => absurd h (by simp)⟩
  | some c =>
    cases hb : c.binding with
    | unbound => exact .inl ⟨by simp only [hb], fun c' e => by cases e; simp [hb]⟩
    | fixed => exact .inl ⟨by simp only [hb], fun c' e => by cases e; simp [hb]⟩
    | dynamic run calls => exact .inr ⟨c, run, calls, rfl, hb, by simp only [hb]; rfl⟩
    | query handle q => exact absurd hb (hquery c hc handle q)

end QuerySheet.Sheet

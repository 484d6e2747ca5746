import QuerySheet.Proofs.Sheet.Frame

/-!
# What a sheet has still to compute

The order of the queue is fixed when a transaction closes, but cells, bindings and the graph may
change while a computation is suspended. What is out of date meanwhile is still known:

* `Work`: the names that are still ahead in the queue, the value that a suspended computation will
  give its cell, and the dirty names;
* `Sound`: every computed cell has the value that its computation gives, or is ahead, or is dirty,
  or reads a dirty cell. What reads a name in the queue stands behind it or is dirty;
* `Sound.edit`: a dirty cell may be changed in any way;
* `Sound.enqueue`, `Sound.skip`, `Sound.hold`, `Sound.assign`: the steps of a queue.
-/

namespace QuerySheet

open Std (ExtTreeMap)

/-- A computation that goes by its arguments only and does not fail. Whether its outcome is
    deferred is left open. -/
def Run.Pure (run : Run) : Prop :=
  ∃ f : List Json → Json, ∀ calls args, (run calls args).outcome = .ok (f args)

/-- A binding to a pure computation, or to none. -/
def Binding.Pure : Binding → Prop
  | .dynamic run _ => Run.Pure run
  | .query _ _ => False
  | .unbound | .fixed => True

namespace Sheet

variable {s s' : Sheet} {name : String}

/-! ## 1. What is still to be done -/

structure Work where
  /-- The rest of the queue. -/
  ahead : List String
  /-- The cell that the queue waits for, with its outcome. -/
  held : Option (String × Json)
  dirty : List String

/-- The work that a schedule describes. -/
def Schedule.work (t : Schedule) : Work where
  ahead := t.suspended.elim [] fun p => t.queue.drop (p.index + 1)
  held := t.suspended.bind fun p => p.outcome.toOption.map (p.name, ·)
  dirty := t.dirty

namespace Work

/-- A cell that will be computed. -/
def Covers (w : Work) (name : String) (c : Cell) : Prop :=
  name ∈ w.ahead ∨ name ∈ w.dirty ∨ ∃ d ∈ c.dependencies, d ∈ w.dirty

/-- The value of a cell once the suspended computation is settled. -/
def due (w : Work) (name : String) (c : Cell) : Json :=
  match w.held with
  | some (held, v) => if held = name then v else c.value
  | none => c.value

theorem due_none {w : Work} {c : Cell} (h : w.held = none) : w.due name c = c.value := by
  simp only [due, h]

theorem due_self {w : Work} {c : Cell} {v : Json} (h : w.held = some (name, v)) :
    w.due name c = v := by
  simp only [due, h, ↓reduceIte]

theorem due_of_ne {w : Work} {c : Cell} {held : String} {v : Json}
    (h : w.held = some (held, v)) (hne : held ≠ name) : w.due name c = c.value := by
  simp only [due, h, if_neg hne]

end Work

/-- A cell's computation gives a value. -/
def Gives (s : Sheet) (c : Cell) (v : Json) : Prop :=
  ∀ run calls, c.binding = .dynamic run calls → ∀ k, (run k (s.args c)).outcome = .ok v

/-- A name of the queue stands before all that read it, but for those that are dirty. -/
def InOrder (g : Graph) (dirty : List String) : List String → Prop
  | [] => True
  | a :: rest => (∀ b, g.hasEdge a b = true → b ∈ rest ∨ b ∈ dirty) ∧ InOrder g dirty rest

namespace InOrder

variable {g g' : Graph} {dirty dirty' : List String} {queue more : List String}

/-- Edges may be new if they lead to dirty names. -/
theorem mono (h : InOrder g dirty queue) (hdirty : ∀ b ∈ dirty, b ∈ dirty')
    (hedge : ∀ a b, g'.hasEdge a b = true → g.hasEdge a b = true ∨ b ∈ dirty') :
    InOrder g' dirty' queue := by
  induction queue with
  | nil => trivial
  | cons a rest ih =>
    refine ⟨fun b hb => ?_, ih h.2⟩
    rcases hedge a b hb with hb | hb
    · exact (h.1 b hb).imp_right (hdirty b)
    · exact .inr hb

/-- Behind the queue goes an ordered list that has all dirty names. -/
theorem append (h : InOrder g dirty queue) (hmore : g.Ordered more)
    (hdirty : ∀ b ∈ dirty, b ∈ more) : InOrder g [] (queue ++ more) := by
  induction queue with
  | nil =>
    clear h hdirty
    induction more with
    | nil => trivial
    | cons a rest ih => exact ⟨fun b hb => .inl (hmore.1 b hb), ih hmore.2⟩
  | cons a rest ih =>
    refine ⟨fun b hb => .inl ?_, ih h.2⟩
    rcases h.1 b hb with hb | hb
    · exact List.mem_append_left _ hb
    · exact List.mem_append_right _ (hdirty b hb)

end InOrder

/-! ## 2. Sound cells -/

/-- What holds of the cells and the graph when some work is still to be done. -/
structure Sound (s : Sheet) (w : Work) : Prop where
  acyclic : s.graph.Acyclic
  node : ∀ name c, s.cell? name = some c → s.graph.hasNode name = true
  /-- What a cell reads has an edge to it. -/
  edge : ∀ name c, s.cell? name = some c → ∀ d ∈ c.dependencies, s.graph.hasEdge d name = true
  pure : ∀ name c, s.cell? name = some c → c.binding.Pure
  inOrder : InOrder s.graph w.dirty w.ahead
  /-- What reads a suspended cell is still to come. -/
  waits : ∀ name v, w.held = some (name, v) →
    ∀ b, s.graph.hasEdge name b = true → b ∈ w.ahead ∨ b ∈ w.dirty
  current : ∀ name c, s.cell? name = some c → w.Covers name c ∨ s.Gives c (w.due name c)

namespace Sound

variable {w w' : Work}

theorem congr (h : s.Sound w) (hs : SameCells s s') : s'.Sound w where
  acyclic := by rw [hs.1]; exact h.acyclic
  node name c hc := by rw [hs.1]; exact h.node name c (hs.cell? ▸ hc)
  edge name c hc := by rw [hs.1]; exact h.edge name c (hs.cell? ▸ hc)
  pure name c hc := h.pure name c (hs.cell? ▸ hc)
  inOrder := by rw [hs.1]; exact h.inOrder
  waits := by rw [hs.1]; exact h.waits
  current name c hc := by
    refine (h.current name c (hs.cell? ▸ hc)).imp_right fun hgives run calls hb k => ?_
    have hvalue : s'.value = s.value := funext fun a => hs.value
    rw [args, hvalue]
    exact hgives run calls hb k

/-- One more dirty name. -/
theorem mark (h : s.Sound w) (name : String) :
    s.Sound { w with dirty := w.dirty ++ [name] } where
  acyclic := h.acyclic
  node := h.node
  edge := h.edge
  pure := h.pure
  inOrder := h.inOrder.mono (fun _ hb => List.mem_append_left _ hb) fun _ _ hab => .inl hab
  waits a v hheld b hab := (h.waits a v hheld b hab).imp_right (List.mem_append_left _)
  current a c hc := by
    refine (h.current a c hc).imp_left fun hcovers => ?_
    rcases hcovers with ha | ha | ⟨d, hd, hdirty⟩
    · exact .inl ha
    · exact .inr (.inl (List.mem_append_left _ ha))
    · exact .inr (.inr ⟨d, hd, List.mem_append_left _ hdirty⟩)

/-- When the transactions close, all that is out of date goes to the queue. -/
theorem enqueue (h : s.Sound w) :
    s.Sound { w with ahead := w.ahead ++ s.graph.topologicalSort w.dirty, dirty := [] } := by
  have hreach {a b : String} (ha : a ∈ w.dirty) (hab : s.graph.Reaches a b) :
      b ∈ s.graph.topologicalSort w.dirty :=
    (Graph.mem_topologicalSort h.acyclic).mpr ⟨a, ha, hab⟩
  refine ⟨h.acyclic, h.node, h.edge, h.pure, ?_, fun a v hheld b hab => .inl ?_, fun a c hc => ?_⟩
  · exact h.inOrder.append (Graph.ordered_topologicalSort h.acyclic _) fun b hb => hreach hb .refl
  · rcases h.waits a v hheld b hab with hb | hb
    · exact List.mem_append_left _ hb
    · exact List.mem_append_right _ (hreach hb .refl)
  · refine (h.current a c hc).imp_left fun hcovers => .inl ?_
    rcases hcovers with ha | ha | ⟨d, hd, hdirty⟩
    · exact List.mem_append_left _ ha
    · exact List.mem_append_right _ (hreach ha .refl)
    · exact List.mem_append_right _ (hreach hdirty (.single (h.edge a c hc d hd)))

theorem touch (h : s.Sound w) (name : String) : (s.touch name).Sound w where
  acyclic := h.acyclic.mono fun _ _ => hasEdge_touch.mp
  node a c hc := by
    rcases cell?_of_touch hc with hc | ⟨rfl, -⟩
    · exact hasNode_touch (h.node a c hc)
    · unfold Sheet.touch
      split
      · rename_i hcell
        obtain ⟨c', hc'⟩ := hasCell_iff.mp hcell
        exact h.node a c' hc'
      · exact Graph.hasNode_addNode.mpr (.inl rfl)
  edge a c hc d hd := by
    rcases cell?_of_touch hc with hc | ⟨-, rfl⟩
    · exact hasEdge_touch.mpr (h.edge a c hc d hd)
    · cases hd
  pure a c hc := by
    rcases cell?_of_touch hc with hc | ⟨-, rfl⟩
    · exact h.pure a c hc
    · trivial
  inOrder := h.inOrder.mono (fun _ hb => hb) fun _ _ hab => .inl (hasEdge_touch.mp hab)
  waits a v hheld b hab := h.waits a v hheld b (hasEdge_touch.mp hab)
  current a c hc := by
    rcases cell?_of_touch hc with hc | ⟨-, rfl⟩
    · refine (h.current a c hc).imp_right fun hgives run calls hb k => ?_
      have hvalue : (s.touch name).value = s.value := funext fun b => value_touch
      rw [args, hvalue]
      exact hgives run calls hb k
    · exact .inr fun run calls hb => by cases hb

theorem foldl_touch (h : s.Sound w) (names : List String) :
    (names.foldl Sheet.touch s).Sound w := by
  induction names generalizing s with
  | nil => exact h
  | cons n names ih => exact ih (h.touch n)

end Sound

/-! ## 3. Changing one cell -/

/-- `s'` differs from `s` in one cell, and in the edges that lead to it. -/
structure EditedAt (name : String) (s s' : Sheet) : Prop where
  acyclic : s'.graph.Acyclic
  node : ∀ a, s.graph.hasNode a = true → s'.graph.hasNode a = true
  edge : ∀ a b, b ≠ name → (s'.graph.hasEdge a b = true ↔ s.graph.hasEdge a b = true)
  cell : ∀ a, a ≠ name → s'.cell? a = s.cell? a
  self : ∀ c, s'.cell? name = some c → s'.graph.hasNode name = true
  reads : ∀ c, s'.cell? name = some c → ∀ d ∈ c.dependencies, s'.graph.hasEdge d name = true
  pure : ∀ c, s'.cell? name = some c → c.binding.Pure

namespace Sound

variable {w : Work}

/-- The values of a cell's dependencies, if the changed cell is none of them. -/
theorem args_congr {c : Cell} (h : ∀ d ∈ c.dependencies, s'.cell? d = s.cell? d) :
    s'.args c = s.args c := by
  refine List.map_congr_left fun d hd => ?_
  rw [value, h d hd, value]

/-- A dirty cell may be changed in any way: it will be computed, and all that reads it. -/
theorem edit (h : s.Sound w) (e : EditedAt name s s') (hdirty : name ∈ w.dirty) : s'.Sound w where
  acyclic := e.acyclic
  node a c hc := by
    by_cases ha : a = name
    · subst ha
      exact e.self c hc
    · exact e.node a (h.node a c (e.cell a ha ▸ hc))
  edge a c hc d hd := by
    by_cases ha : a = name
    · subst ha
      exact e.reads c hc d hd
    · exact (e.edge d a ha).mpr (h.edge a c (e.cell a ha ▸ hc) d hd)
  pure a c hc := by
    by_cases ha : a = name
    · subst ha
      exact e.pure c hc
    · exact h.pure a c (e.cell a ha ▸ hc)
  inOrder := by
    refine h.inOrder.mono (fun b hb => hb) fun a b hab => ?_
    by_cases hb : b = name
    · exact .inr (hb ▸ hdirty)
    · exact .inl ((e.edge a b hb).mp hab)
  waits a v hheld b hab := by
    by_cases hb : b = name
    · exact .inr (hb ▸ hdirty)
    · exact h.waits a v hheld b ((e.edge a b hb).mp hab)
  current a c hc := by
    by_cases ha : a = name
    · exact .inl (.inr (.inl (ha ▸ hdirty)))
    · by_cases hreads : name ∈ c.dependencies
      · exact .inl (.inr (.inr ⟨name, hreads, hdirty⟩))
      · refine (h.current a c (e.cell a ha ▸ hc)).imp_right fun hgives run calls hb k => ?_
        rw [args_congr fun d hd => e.cell d fun hd' => hreads (hd' ▸ hd)]
        exact hgives run calls hb k

/-- A cell that loses its binding keeps its value, so that what reads it stays as it is. -/
theorem unbind (h : s.Sound w) (name : String) : (s.unbind name).Sound w where
  acyclic := h.acyclic.mono fun _ _ => hasEdge_of_unbind
  node a c hc := by
    rw [hasNode_unbind]
    rcases cell?_of_unbind hc with ⟨-, c', hc', -⟩ | ⟨-, hc⟩
    · exact h.node a c' hc'
    · exact h.node a c hc
  edge a c hc d hd := by
    rcases cell?_of_unbind hc with ⟨-, c', -, rfl⟩ | ⟨ha, hc⟩
    · cases hd
    · exact hasEdge_unbind_of_ne ha (h.edge a c hc d hd)
  pure a c hc := by
    rcases cell?_of_unbind hc with ⟨-, c', -, rfl⟩ | ⟨-, hc⟩
    · trivial
    · exact h.pure a c hc
  inOrder := h.inOrder.mono (fun _ hb => hb) fun _ _ hab => .inl (hasEdge_of_unbind hab)
  waits a v hheld b hab := h.waits a v hheld b (hasEdge_of_unbind hab)
  current a c hc := by
    rcases cell?_of_unbind hc with ⟨-, c', -, rfl⟩ | ⟨-, hc⟩
    · exact .inr fun run calls hb => by cases hb
    · refine (h.current a c hc).imp_right fun hgives run calls hb k => ?_
      have hvalue : (s.unbind name).value = s.value := funext fun b => value_unbind
      rw [args, hvalue]
      exact hgives run calls hb k

end Sound

/-! ## 4. The steps of a queue -/

namespace Sound

variable {ahead dirty : List String} {v : Json}

/-- The first name of the queue is computed from nothing. -/
theorem skip (h : s.Sound ⟨name :: ahead, none, dirty⟩)
    (hfixed : ∀ c, s.cell? name = some c → ∀ run calls, c.binding ≠ .dynamic run calls) :
    s.Sound ⟨ahead, none, dirty⟩ where
  acyclic := h.acyclic
  node := h.node
  edge := h.edge
  pure := h.pure
  inOrder := h.inOrder.2
  waits a v hheld := nomatch hheld
  current a c hc := by
    rcases h.current a c hc with (ha | ha) | hgives
    · rcases List.mem_cons.mp ha with rfl | ha
      · exact .inr fun run calls hb => absurd hb (hfixed c hc run calls)
      · exact .inl (.inl ha)
    · exact .inl (.inr ha)
    · exact .inr hgives

/-- The first name of the queue has an outcome, which is not assigned yet. -/
theorem hold (h : s.Sound ⟨name :: ahead, none, dirty⟩) {c : Cell} {run : Run} {calls : Nat}
    (hc : s.cell? name = some c) (hb : c.binding = .dynamic run calls)
    (hv : (run calls (s.args c)).outcome = .ok v) :
    (s.update name (recount run calls)).Sound ⟨ahead, some (name, v), dirty⟩ := by
  have hvalue : (s.update name (recount run calls)).value = s.value :=
    funext fun a => value_update fun c => rfl
  have hpure : Run.Pure run := by
    have := h.pure name c hc
    rwa [hb] at this
  have hself : (s.update name (recount run calls)).cell? name = some (recount run calls c) := by
    rw [cell?_update_self, hc, Option.map_some]
  refine ⟨h.acyclic, fun a c' hc' => ?_, fun a c' hc' d hd => ?_, fun a c' hc' => ?_, h.inOrder.2,
    fun a w hheld b hab => ?_, fun a c' hc' => ?_⟩
  · by_cases ha : a = name
    · exact ha ▸ h.node name c hc
    · exact h.node a c' (cell?_update_of_ne ha ▸ hc')
  · by_cases ha : a = name
    · subst ha
      rw [hself] at hc'
      cases hc'
      exact h.edge a c hc d hd
    · exact h.edge a c' (cell?_update_of_ne ha ▸ hc') d hd
  · by_cases ha : a = name
    · subst ha
      rw [hself] at hc'
      cases hc'
      exact hpure
    · exact h.pure a c' (cell?_update_of_ne ha ▸ hc')
  · cases hheld
    exact h.inOrder.1 b hab
  · by_cases ha : a = name
    · subst ha
      rw [hself] at hc'
      cases hc'
      right
      intro run' calls' hb' k
      cases hb'
      obtain ⟨f, hf⟩ := hpure
      rw [Work.due_self rfl, args, hvalue, hf, ← hf calls]
      exact hv
    · rw [cell?_update_of_ne ha] at hc'
      rw [Work.due_of_ne rfl (Ne.symm ha)]
      rcases h.current a c' hc' with (ha' | ha') | hgives
      · exact .inl (.inl ((List.mem_cons.mp ha').resolve_left ha))
      · exact .inl (.inr ha')
      · right
        intro run' calls' hb' k
        rw [args, hvalue]
        exact hgives run' calls' hb' k

/-- The outcome is assigned. What reads the cell is still to come. -/
theorem assign (h : s.Sound ⟨ahead, some (name, v), dirty⟩) :
    (s.assign name v).Sound ⟨ahead, none, dirty⟩ := by
  have hcell (a : String) (c : Cell) (hc : (s.assign name v).cell? a = some c) :
      ∃ c', s.cell? a = some c' ∧ c'.dependencies = c.dependencies ∧ c'.binding = c.binding ∧
        c.value = Work.due ⟨ahead, some (name, v), dirty⟩ a c' := by
    unfold Sheet.assign at hc
    by_cases ha : a = name
    · subst ha
      rw [cell?_update_self] at hc
      obtain ⟨c', hc', rfl⟩ := Option.map_eq_some_iff.mp hc
      exact ⟨c', hc', rfl, rfl, (Work.due_self rfl).symm⟩
    · rw [cell?_update_of_ne ha] at hc
      exact ⟨c, hc, rfl, rfl, (Work.due_of_ne rfl (Ne.symm ha)).symm⟩
  refine ⟨h.acyclic, fun a c hc => ?_, fun a c hc d hd => ?_, fun a c hc => ?_, h.inOrder,
    fun a w hheld => (by cases hheld), fun a c hc => ?_⟩
  · obtain ⟨c', hc', -⟩ := hcell a c hc
    exact h.node a c' hc'
  · obtain ⟨c', hc', hdeps, -⟩ := hcell a c hc
    exact h.edge a c' hc' d (hdeps ▸ hd)
  · obtain ⟨c', hc', -, hb, -⟩ := hcell a c hc
    exact hb ▸ h.pure a c' hc'
  · obtain ⟨c', hc', hdeps, hb, hdue⟩ := hcell a c hc
    by_cases hreads : name ∈ c'.dependencies
    · exact .inl ((h.waits name v rfl a (h.edge a c' hc' name hreads)).imp_right .inl)
    · refine (h.current a c' hc').imp (fun hcovers => ?_) fun hgives run calls hbc k => ?_
      · rwa [Work.Covers, hdeps] at hcovers
      · have hargs : (s.assign name v).args c = s.args c' := by
          rw [args, ← hdeps]
          exact args_congr fun d hd => cell?_update_of_ne fun e => hreads (e ▸ hd)
        rw [hargs, Work.due_none rfl, hdue]
        exact hgives run calls (hb ▸ hbc) k

end Sound

end Sheet

end QuerySheet

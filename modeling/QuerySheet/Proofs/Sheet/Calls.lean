import QuerySheet.Proofs.Sheet.Frame

/-!
# How calls end

A call that binds a cell, or changes what it reads, ends in one of a few ways. For each of these
calls a relation lists the ways: the tests that lead there, and the sheet and the result that the
call leaves. What the other modules say of a call goes by its ways to end.

* `Connects`: edges lead to a cell from what it is to read, which is not refused unless one of these
  names reads the cell (`connects_of_not_cyclic`);
* `Binds`: a cell is bound to a computation (`binds_createDynamic`);
* `BindsQuery`: a cell is bound to a query (`bindsQuery_createQuery`);
* `Adds` and `Removes`: a cell reads more or less (`adds_addDependencies`,
  `removes_removeDependencies`).
-/

namespace QuerySheet.Sheet

variable {s : Sheet} {cell a : String} {deps : List String}

/-! ## 1. New edges into a cell -/

open QuerySheet.Graph in
/-- Edges into a cell are not refused if the cell does not reach their sources. -/
theorem connect_spec {g : Graph} {cell : String} {deps : List String} (hg : g.Acyclic)
    (hno : ∀ d ∈ deps, ¬ g.Reaches cell d) :
    ∃ g', connect g cell deps = (g', .ok ()) ∧ g'.Acyclic ∧
      ∀ a b, g'.hasEdge a b = true ↔ g.hasEdge a b = true ∨ a ∈ deps ∧ b = cell := by
  induction deps generalizing g with
  | nil => exact ⟨g, rfl, hg, fun a b => by simp⟩
  | cons d deps ih =>
    have hd : (g.addEdge d cell).2 = .ok () := by
      cases h : (g.addEdge d cell).2 with
      | ok _ => rfl
      | error cycle =>
        exact absurd ((addEdge_refused_iff hg).mp ⟨cycle, h⟩) (hno d List.mem_cons_self)
    have hadd : g.addEdge d cell = ((g.addEdge d cell).1, .ok ()) := Prod.ext rfl hd
    -- the new edge leads into the cell, so the cell reaches no more than before
    have hno' : ∀ e ∈ deps, ¬ (g.addEdge d cell).1.Reaches cell e := by
      intro e he hreach
      refine hno e (List.mem_cons_of_mem _ he) (reaches_of_edges_into (fun a b hab => ?_) hreach)
      exact ((hasEdge_addEdge_of_ok hadd).mp hab).elim (fun h => .inr h.2) .inl
    obtain ⟨g', hconnect, hacyclic, hedge⟩ := ih (acyclic_addEdge hg hadd) hno'
    refine ⟨g', ?_, hacyclic, fun a b => ?_⟩
    · rw [connect, hadd]
      exact hconnect
    · rw [hedge, hasEdge_addEdge_of_ok hadd, List.mem_cons]
      constructor
      · rintro ((⟨ha, hb⟩ | h) | ⟨ha, hb⟩)
        · exact .inr ⟨.inl ha, hb⟩
        · exact .inl h
        · exact .inr ⟨.inr ha, hb⟩
      · rintro (h | ⟨ha | ha, hb⟩)
        · exact .inl (.inr h)
        · exact .inl (.inl ⟨ha, hb⟩)
        · exact .inr ⟨ha, hb⟩

open QuerySheet.Graph in
/-- Edges between nodes bring no new nodes. -/
theorem hasNode_connect {g : Graph} {cell : String} {deps : List String}
    (hnodes : ∀ a ∈ cell :: deps, g.hasNode a = true) {a : String} :
    (connect g cell deps).1.hasNode a = true ↔ g.hasNode a = true := by
  induction deps generalizing g with
  | nil => exact Iff.rfl
  | cons d deps ih =>
    have hadd (b : String) : (g.addEdge d cell).1.hasNode b = true ↔ g.hasNode b = true := by
      rw [hasNode_addEdge]
      refine ⟨?_, fun hb => .inr (.inr hb)⟩
      rintro (rfl | rfl | hb)
      · exact hnodes b (List.mem_cons_of_mem _ List.mem_cons_self)
      · exact hnodes b List.mem_cons_self
      · exact hb
    unfold connect
    split
    · rename_i g' hok
      rw [hok] at hadd
      refine (ih fun b hb => (hadd b).mpr (hnodes b ?_)).trans (hadd a)
      rcases List.mem_cons.mp hb with rfl | hb
      · exact List.mem_cons_self
      · exact List.mem_cons_of_mem _ (List.mem_cons_of_mem _ hb)
    · rename_i g' cycle hrefused
      rw [hrefused] at hadd
      exact hadd a

/-- The edges that lead to a cell come from these names, and all others are as they were. -/
structure Connects (g : Graph) (cell : String) (deps : List String) (g' : Graph) : Prop where
  acyclic : g'.Acyclic
  node : ∀ a, g'.hasNode a = true ↔ g.hasNode a = true
  into : ∀ a, g'.hasEdge a cell = true ↔ a ∈ deps
  other : ∀ a b, b ≠ cell → (g'.hasEdge a b = true ↔ g.hasEdge a b = true)

/-- A cell and what it is to read can be connected unless a dependency reads the cell. -/
theorem connects_of_not_cyclic (hg : s.graph.Acyclic)
    (hnodes : ∀ a ∈ cell :: deps, s.graph.hasNode a = true) (hcyclic : s.cyclic? cell deps = none) :
    ∃ g, connect (s.graph.removeIncoming cell) cell deps = (g, .ok ()) ∧
      Connects s.graph cell deps g := by
  have hsub (a b : String) (hab : (s.graph.removeIncoming cell).hasEdge a b = true) :
      s.graph.hasEdge a b = true := (Graph.hasEdge_removeIncoming.mp hab).1
  obtain ⟨g, hconnect, hacyclic, hedge⟩ := @connect_spec (s.graph.removeIncoming cell) cell deps
    (hg.mono hsub) fun d hd hreach => by
      have hpath : s.graph.hasPath cell d = true := (Graph.hasPath_iff hg).mpr
        ⟨hnodes cell List.mem_cons_self, hnodes d (List.mem_cons_of_mem _ hd),
          Relation.ReflTransGen.mono hsub _ _ hreach⟩
      have := List.find?_eq_none.mp hcyclic d hd
      simp [hpath] at this
  refine ⟨g, hconnect, hacyclic, fun a => ?_, fun a => ?_, fun a b hb => ?_⟩
  · have hnode : (connect (s.graph.removeIncoming cell) cell deps).1.hasNode a = true ↔
        (s.graph.removeIncoming cell).hasNode a = true :=
      hasNode_connect fun a ha => Graph.hasNode_removeIncoming.trans (hnodes a ha)
    rwa [hconnect, Graph.hasNode_removeIncoming] at hnode
  · rw [hedge, Graph.hasEdge_removeIncoming]
    simp
  · rw [hedge, Graph.hasEdge_removeIncoming]
    simp [hb]

/-! ## 2. A computation -/

/-- The cell, and all that it is to read, have cells. -/
def readied (s : Sheet) (cell : String) (deps : List String) : Sheet :=
  (deps.foldl touch s).touch cell

theorem exists_cell_readied (ha : a ∈ cell :: deps) :
    ∃ c, (s.readied cell deps).cell? a = some c := by
  rcases List.mem_cons.mp ha with rfl | ha
  · exact cell?_touch_self
  · obtain ⟨c, hc⟩ := (cell?_foldl_touch deps).2 ha
    exact ⟨c, cell?_touch_of_some hc⟩

theorem value_readied : (s.readied cell deps).value a = s.value a :=
  value_touch.trans (value_foldl_touch deps)

theorem schedule_readied : (s.readied cell deps).schedule = s.schedule :=
  schedule_touch.trans (schedule_foldl_touch deps)

/-- If every cell has a node, a cell is connected with all that it is to read unless a dependency
    reads the cell. -/
theorem connects_readied (hg : (s.readied cell deps).graph.Acyclic)
    (hnode : ∀ a c, (s.readied cell deps).cell? a = some c →
      (s.readied cell deps).graph.hasNode a = true)
    (hcyclic : (s.readied cell deps).cyclic? cell deps = none) {g : Graph}
    {r : Except Graph.Cycle Unit}
    (hconnect : connect ((s.readied cell deps).graph.removeIncoming cell) cell deps = (g, r)) :
    r = .ok () ∧ Connects (s.readied cell deps).graph cell deps g := by
  have hnodes (a : String) (ha : a ∈ cell :: deps) :
      (s.readied cell deps).graph.hasNode a = true := by
    obtain ⟨c, hc⟩ := exists_cell_readied ha
    exact hnode a c hc
  obtain ⟨g', hconnect', hconnects⟩ := connects_of_not_cyclic hg hnodes hcyclic
  cases hconnect.symm.trans hconnect'
  exact ⟨rfl, hconnects⟩

/-- A cell with a computation, and with what that reads. -/
def computing (d : Definition) (deps : List String) (c : Cell) : Cell :=
  { c with binding := .dynamic d.run 0, dependencies := deps }

/-- How a call ends that is to bind a cell to a computation. -/
inductive Binds (s : Sheet) (cell : String) (deps : List String) (d : Definition) :
    Sheet × Except CellError Unit → Prop
  /-- The cell has a computation and is not to start over. -/
  | skipped (hdynamic : (s.cell? cell).any (·.binding.isDynamic) = true)
      (hrefresh : d.refresh = false) : Binds s cell deps d (s, .ok ())
  | cyclic {a : String}
      (hnew : ((s.cell? cell).any (·.binding.isDynamic) && !d.refresh) = false)
      (hcyclic : (s.readied cell deps).cyclic? cell deps = some a) :
      Binds s cell deps d (s.readied cell deps, .error (.graph ⟨a, cell⟩))
  /-- This is no way to end where every cell has a node (`connects_readied`). -/
  | refused {g : Graph} {cycle : Graph.Cycle}
      (hcyclic : (s.readied cell deps).cyclic? cell deps = none)
      (hconnect : connect ((s.readied cell deps).graph.removeIncoming cell) cell deps =
        (g, .error cycle)) :
      Binds s cell deps d ({ s.readied cell deps with graph := g }, .error (.graph cycle))
  /-- The cell starts over. -/
  | started {g : Graph}
      (hnew : ((s.cell? cell).any (·.binding.isDynamic) && !d.refresh) = false)
      (hcyclic : (s.readied cell deps).cyclic? cell deps = none)
      (hconnect : connect ((s.readied cell deps).graph.removeIncoming cell) cell deps =
        (g, .ok ())) :
      Binds s cell deps d
        ((({ s.readied cell deps with graph := g }.update cell (computing d deps)).assign cell
          d.initial).invalidate [cell], .ok ())
  /-- The cell has a value, and keeps it. -/
  | kept {g : Graph} (hfixed : (s.cell? cell).any (·.binding.isDynamic) = false)
      (hrefresh : d.refresh = false) (hvalue : s.value cell ≠ .null)
      (hcyclic : (s.readied cell deps).cyclic? cell deps = none)
      (hconnect : connect ((s.readied cell deps).graph.removeIncoming cell) cell deps =
        (g, .ok ())) :
      Binds s cell deps d
        ({ s.readied cell deps with graph := g }.update cell (computing d deps), .ok ())

theorem binds_createDynamic (s : Sheet) (sheet name : String) (d : Definition) :
    s.Binds (CellName.qualify sheet name) (d.dependencies.map (CellName.resolve sheet)) d
      (s.createDynamic sheet name d) := by
  unfold createDynamic
  generalize CellName.qualify sheet name = cell
  generalize d.dependencies.map (CellName.resolve sheet) = deps
  dsimp only
  rw [← readied]
  split
  · rename_i hskip
    rw [Bool.and_eq_true, Bool.not_eq_true'] at hskip
    exact .skipped hskip.1 hskip.2
  · rename_i hnew
    have hnew := Bool.eq_false_iff.mpr hnew
    split
    · rename_i a hcyclic
      exact .cyclic hnew hcyclic
    · rename_i hcyclic
      split
      · rename_i g cycle hconnect
        exact .refused hcyclic hconnect
      · rename_i g hconnect
        split
        · exact .started hnew hcyclic hconnect
        · rename_i hkeep
          rw [Bool.or_eq_true, decide_eq_true_eq, not_or, Bool.not_eq_true] at hkeep
          have hvalue : s.value cell ≠ .null := by
            refine fun hnull => hkeep.2 ((value_update ?_).trans (value_readied.trans hnull))
            exact fun c => rfl
          rw [hkeep.1, Bool.not_false, Bool.and_true] at hnew
          exact .kept hnew hkeep.1 hvalue hcyclic hconnect

/-! ## 3. A query -/

/-- A cell that is bound to a query reads no other cell. -/
def asking (handle : QueryHandle) (compiled : CompiledQuery) (c : Cell) : Cell :=
  { c with binding := .query handle compiled, dependencies := [] }

/-- The cell is bound to the query already. -/
def Asks (s : Sheet) (cell : String) (handle : QueryHandle) : Prop :=
  ∃ c bound compiled, s.cell? cell = some c ∧ c.binding = .query bound compiled ∧
    bound.number = handle.number

/-- How a call ends that is to bind a cell to a query. -/
inductive BindsQuery (s : Sheet) (cell : String) (handle : QueryHandle) :
    Sheet × Except CompileError Unit → Prop
  | unchanged (hasks : s.Asks cell handle) : BindsQuery s cell handle (s.invalidate [cell], .ok ())
  | failed {e : CompileError} (hnew : ¬ s.Asks cell handle)
      (hcompile : handle.query.compile s.schema s.policy = .error e) :
      BindsQuery s cell handle (s, .error e)
  | bound {compiled : CompiledQuery} (hnew : ¬ s.Asks cell handle)
      (hcompile : handle.query.compile s.schema s.policy = .ok compiled) :
      BindsQuery s cell handle
        ((({ s with graph := s.graph.removeIncoming cell }.touch cell).update cell
          (asking handle compiled)).invalidate [cell], .ok ())

theorem bindsQuery_createQuery (s : Sheet) (sheet name : String) (handle : QueryHandle) :
    s.BindsQuery (CellName.qualify sheet name) handle (s.createQuery sheet name handle) := by
  unfold createQuery
  extract_lets cell unchanged
  have hunchanged : unchanged = true ↔ s.Asks cell handle := by
    unfold Asks
    cases hc : s.cell? cell with
    | none => simp [unchanged, hc]
    | some c => cases hb : c.binding <;> simp [unchanged, hc, hb]
  split
  · rename_i h
    exact .unchanged (hunchanged.mp h)
  · rename_i h
    have hnew : ¬ s.Asks cell handle := fun hasks => h (hunchanged.mpr hasks)
    split
    · rename_i e hcompile
      exact .failed hnew hcompile
    · rename_i compiled hcompile
      exact .bound hnew hcompile

/-! ## 4. What a cell reads -/

/-- How a call ends that is to add to what a cell reads. -/
inductive Adds (s : Sheet) (cell : String) (deps : List String) :
    Sheet × Except CellError Unit → Prop
  | unknown (hcell : s.hasCell cell = false) : Adds s cell deps (s, .error (.unknownCell cell))
  /-- A dependency is refused, behind others that were added. -/
  | refused {t : Sheet} {e : CellError} (hcell : s.hasCell cell = true)
      (hadd : s.addEach cell deps = (t, .error e)) : Adds s cell deps (t, .error e)
  | added {t : Sheet} (hcell : s.hasCell cell = true) (hadd : s.addEach cell deps = (t, .ok ())) :
      Adds s cell deps (t.invalidate [cell], .ok ())

theorem adds_addDependencies (s : Sheet) (sheet name : String) (dependencies : List String) :
    s.Adds (CellName.qualify sheet name) (dependencies.map (CellName.resolve sheet))
      (s.addDependencies sheet name dependencies) := by
  unfold addDependencies
  dsimp only
  split
  · rename_i hcell
    exact .unknown (by simpa using hcell)
  · rename_i hcell
    have hcell : s.hasCell (CellName.qualify sheet name) = true := by simpa using hcell
    split
    · rename_i t e hadd
      exact .refused hcell hadd
    · rename_i t hadd
      exact .added hcell hadd

/-- How a call ends that is to take away from what a cell reads. -/
inductive Removes (s : Sheet) (cell : String) (deps : List String) :
    Sheet × Except CellError Unit → Prop
  | unknown (hcell : s.hasCell cell = false) : Removes s cell deps (s, .error (.unknownCell cell))
  | removed (hcell : s.hasCell cell = true) :
      Removes s cell deps ((deps.foldl (removeReading cell) s).invalidate [cell], .ok ())

theorem removes_removeDependencies (s : Sheet) (sheet name : String) (dependencies : List String) :
    s.Removes (CellName.qualify sheet name) (dependencies.map (CellName.resolve sheet))
      (s.removeDependencies sheet name dependencies) := by
  unfold removeDependencies
  dsimp only
  split
  · rename_i hcell
    exact .unknown (by simpa using hcell)
  · rename_i hcell
    exact .removed (by simpa using hcell)

end QuerySheet.Sheet

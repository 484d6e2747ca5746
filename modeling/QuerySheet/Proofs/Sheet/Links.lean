import Mathlib
import QuerySheet.Proofs.Sheet.Calls
import QuerySheet.Proofs.Sheet.Operation

/-!
# What cells list and what the graph knows

A sheet says twice what a cell reads: in the cell's list of dependencies and in the edges that lead
to the cell.

* `Linked`: both say the same, and the nodes of the graph are the names of the cells;
* `Tied`: what holds of every sheet. The nodes are the names of the cells, the graph has no cycle,
  and every edge leads to a cell that lists its source;
* `Keeps`: a change that keeps sheets tied and linked. All operations do that but for those that
  take a cell away and leave its name in the list of another one (`Operation.Severs`);
* `linked_iff_of_run`: so the sheets of a run are linked exactly if no operation of it severs.
-/

namespace QuerySheet.Sheet

open Std (ExtTreeMap)

variable {s s' : Sheet} {name a b : String}

/-! ## 1. Linked and tied sheets -/

/-- The nodes are the names of the cells, and a cell lists exactly the sources of the edges that
    lead to it. -/
structure Linked (s : Sheet) : Prop where
  node : ∀ a, s.graph.hasNode a = true ↔ s.hasCell a = true
  reads : ∀ name c, s.cell? name = some c →
    ∀ d, d ∈ c.dependencies ↔ s.graph.hasEdge d name = true

structure Tied (s : Sheet) : Prop where
  acyclic : s.graph.Acyclic
  node : ∀ a, s.graph.hasNode a = true ↔ s.hasCell a = true
  read : ∀ d name, s.graph.hasEdge d name = true → ∃ c, s.cell? name = some c ∧ d ∈ c.dependencies

/-- Every name that a cell lists has an edge to the cell. -/
def Listed (s : Sheet) : Prop :=
  ∀ name c, s.cell? name = some c → ∀ d ∈ c.dependencies, s.graph.hasEdge d name = true

theorem listed_iff :
    s.Listed ↔ ∀ cell ∈ s.cells.toList, ∀ d ∈ cell.2.dependencies,
      s.graph.hasEdge d cell.1 = true :=
  ⟨fun h cell hcell => h cell.1 cell.2 (ExtTreeMap.mem_toList_iff_getElem?_eq_some.mp hcell),
    fun h name c hc => h (name, c) (ExtTreeMap.mem_toList_iff_getElem?_eq_some.mpr hc)⟩

/-- Whether a tied sheet is linked is a question of its lists. -/
theorem Tied.linked_iff (h : s.Tied) : s.Linked ↔ s.Listed := by
  refine ⟨fun hl name c hc d hd => (hl.reads name c hc d).mp hd, fun hl => ⟨h.node, ?_⟩⟩
  refine fun name c hc d => ⟨hl name c hc d, fun hedge => ?_⟩
  obtain ⟨c', hc', hd⟩ := h.read d name hedge
  rw [hc] at hc'
  cases hc'
  exact hd

theorem tied_new (schema : Schema) (policy : Policy) (executor : Option Executor) :
    (new schema policy executor).Tied where
  acyclic := Graph.acyclic_empty
  node a := by simp [Sheet.new, Graph.hasNode, Graph.empty, hasCell]
  read d name h := absurd h Graph.hasEdge_empty

theorem listed_new (schema : Schema) (policy : Policy) (executor : Option Executor) :
    (new schema policy executor).Listed := by
  intro name c hc
  simp [cell?, Sheet.new] at hc

/-! ## 2. Changes of one cell -/

/-- A change that keeps sheets tied, and their lists as good as they were. -/
def Keeps (s s' : Sheet) : Prop := s.Tied → s'.Tied ∧ (s.Listed → s'.Listed)

/-- A cell and the edges that lead to it have changed, and nothing else. -/
structure Rewired (name : String) (s s' : Sheet) : Prop where
  acyclic : s'.graph.Acyclic
  node : ∀ a, s'.graph.hasNode a = true ↔ s.graph.hasNode a = true
  cell : ∀ a, a ≠ name → s'.cell? a = s.cell? a
  edge : ∀ a b, b ≠ name → (s'.graph.hasEdge a b = true ↔ s.graph.hasEdge a b = true)
  /-- The edges that lead to the cell now come from what it lists, and so do those that are listed
      if it was like that before. -/
  self : ∃ c c', s.cell? name = some c ∧ s'.cell? name = some c' ∧
    (∀ d, s'.graph.hasEdge d name = true → d ∈ c'.dependencies) ∧
    ((∀ d ∈ c.dependencies, s.graph.hasEdge d name = true) →
      ∀ d ∈ c'.dependencies, s'.graph.hasEdge d name = true)

namespace Keeps

theorem refl (s : Sheet) : Keeps s s := fun h => ⟨h, id⟩

theorem trans {s'' : Sheet} (h : Keeps s s') (h' : Keeps s' s'') : Keeps s s'' := by
  intro ht
  obtain ⟨ht', hl'⟩ := h ht
  obtain ⟨ht'', hl''⟩ := h' ht'
  exact ⟨ht'', fun hl => hl'' (hl' hl)⟩

theorem of_sameReads (h : SameReads s s') : Keeps s s' := by
  intro ht
  refine ⟨⟨ht.acyclic.mono fun a b => (h.edge a b).mp, fun a => ?_, fun d name hd => ?_⟩,
    fun hl name c' hc' d hd => ?_⟩
  · rw [h.node, ht.node, h.hasCell]
  · obtain ⟨c, hc, hmem⟩ := ht.read d name ((h.edge d name).mp hd)
    obtain ⟨c', hc', hdeps⟩ := h.symm.dependencies hc
    exact ⟨c', hc', hdeps ▸ hmem⟩
  · obtain ⟨c, hc, hdeps⟩ := h.dependencies hc'
    exact (h.edge d name).mpr (hl name c hc d (hdeps ▸ hd))

theorem of_rewired (hs : s.Tied → Rewired name s s') : Keeps s s' := by
  intro ht
  have h := hs ht
  obtain ⟨c, c', hc, hc', hread, hlist⟩ := h.self
  have hcell (a : String) : s'.hasCell a = true ↔ s.hasCell a = true := by
    rw [hasCell_iff, hasCell_iff]
    by_cases e : a = name
    · exact e ▸ ⟨fun _ => ⟨c, hc⟩, fun _ => ⟨c', hc'⟩⟩
    · rw [h.cell a e]
  refine ⟨⟨h.acyclic, fun a => ?_, fun d a hd => ?_⟩, fun hl a c₁ hc₁ d hd => ?_⟩
  · rw [h.node, ht.node, hcell]
  · by_cases e : a = name
    · subst e
      exact ⟨c', hc', hread d hd⟩
    · rw [h.cell a e]
      exact ht.read d a ((h.edge d a e).mp hd)
  · by_cases e : a = name
    · subst e
      rw [hc'] at hc₁
      cases hc₁
      exact hlist (hl a c hc) d hd
    · rw [h.cell a e] at hc₁
      exact (h.edge d a e).mpr (hl a c₁ hc₁ d hd)

/-- A name that is touched gets a node and a cell without edges. -/
theorem touch (s : Sheet) (name : String) : Keeps s (s.touch name) := by
  intro ht
  have hedge (a b : String) : (s.touch name).graph.hasEdge a b = true ↔
      s.graph.hasEdge a b = true := hasEdge_touch
  refine ⟨⟨ht.acyclic.mono fun a b => (hedge a b).mp, fun a => ?_, fun d b hd => ?_⟩,
    fun hl b c hc d hd => ?_⟩
  · unfold Sheet.touch
    split
    · exact ht.node a
    · rw [Graph.hasNode_addNode, ht.node]
      simp [hasCell, @eq_comm _ a name]
  · obtain ⟨c, hc, hmem⟩ := ht.read d b ((hedge d b).mp hd)
    exact ⟨c, cell?_touch_of_some hc, hmem⟩
  · rcases cell?_of_touch hc with hc | ⟨-, rfl⟩
    · exact (hedge d b).mpr (hl b c hc d hd)
    · cases hd

theorem foldl_touch (names : List String) (s : Sheet) : Keeps s (names.foldl Sheet.touch s) := by
  induction names generalizing s with
  | nil => exact refl s
  | cons n names ih => exact (touch s n).trans (ih (s.touch n))

theorem invalidate (h : Keeps s s') (names : List String) : Keeps s (s'.invalidate names) :=
  h.trans (of_sameReads (.invalidate s' names))

end Keeps

/-! ## 3. Operations -/

theorem keeps_set (s : Sheet) (name : String) (v : Json) : Keeps s (s.set name v) := by
  have hwrite : SameReads (s.touch name) ((s.touch name).update name (written v)) :=
    .update fun _ => rfl
  rw [set_eq]
  exact ((Keeps.touch s name).trans (.of_sameReads hwrite)).invalidate [name]

theorem keeps_createStatic (s : Sheet) (sheet name : String) (v : Json) :
    Keeps s (s.createStatic sheet name v) := by
  unfold createStatic
  dsimp only
  split
  · exact .refl s
  · exact keeps_set s _ v

theorem keeps_prewarm (s : Sheet) (name : String) (v : Json) : Keeps s (s.prewarm name v) :=
  (Keeps.touch s name).trans (.of_sameReads (.assign v))

theorem keeps_load (cells : List (String × Json)) (s : Sheet) : Keeps s (s.load cells) := by
  induction cells generalizing s with
  | nil => exact .refl s
  | cons cell cells ih => exact (keeps_prewarm s cell.1 cell.2).trans (ih _)

/-- A cell that lists nothing any more, and to which no edge leads. -/
theorem rewired_clear (ht : s.Tied) {f : Cell → Cell} (hf : ∀ c, (f c).dependencies = []) :
    Rewired name (s.touch name)
      (({ s with graph := s.graph.removeIncoming name }.touch name).update name f) where
  acyclic := by
    refine ht.acyclic.mono fun a b hab => ?_
    exact (Graph.hasEdge_removeIncoming.mp (hasEdge_touch.mp hab)).1
  node a := by
    have hcells : { s with graph := s.graph.removeIncoming name }.hasCell name = s.hasCell name :=
      rfl
    show Graph.hasNode (Sheet.touch _ name).graph a = true ↔ _
    unfold Sheet.touch
    rw [hcells]
    split
    · rw [Graph.hasNode_removeIncoming]
    · rw [Graph.hasNode_addNode, Graph.hasNode_addNode, Graph.hasNode_removeIncoming]
  cell a ha := by
    rw [cell?_update_of_ne ha, cell?_touch, cell?_touch]
    rfl
  edge a b hb := by
    refine hasEdge_touch.trans (Iff.trans ?_ hasEdge_touch.symm)
    exact Graph.hasEdge_removeIncoming.trans ⟨And.left, fun hab => ⟨hab, hb⟩⟩
  self := by
    obtain ⟨c, hc⟩ : ∃ c, (s.touch name).cell? name = some c := cell?_touch_self
    refine ⟨c, f c, hc, ?_, fun d hd => ?_, fun _ d hd => ?_⟩
    · rw [cell?_update_self]
      refine congrArg (Option.map f) (Eq.trans ?_ hc)
      rw [cell?_touch, cell?_touch]
      rfl
    · exact absurd rfl (Graph.hasEdge_removeIncoming.mp (hasEdge_touch.mp hd)).2
    · rw [hf] at hd
      cases hd

theorem touch_of_hasCell (h : s.hasCell name = true) : s.touch name = s := if_pos h

theorem keeps_unbind (s : Sheet) (name : String) : Keeps s (s.unbind name) := by
  unfold unbind
  split
  · rename_i hcell
    have hcell' : { s with graph := s.graph.removeIncoming name }.hasCell name = true := hcell
    have hclear (ht : s.Tied) : Rewired name s
        ({ s with graph := s.graph.removeIncoming name }.update name unbound) := by
      have h : Rewired name (s.touch name) (({ s with graph := s.graph.removeIncoming name }.touch
        name).update name unbound) := rewired_clear ht fun _ => rfl
      rwa [touch_of_hasCell hcell, touch_of_hasCell hcell'] at h
    exact .of_rewired hclear
  · exact .refl s

theorem keeps_void (s : Sheet) (name : String) : Keeps s (s.void name) :=
  (keeps_unbind s name).trans (.of_sameReads (.assign .null))

theorem BindsQuery.keeps {handle : QueryHandle} {r : Sheet × Except CompileError Unit}
    (h : s.BindsQuery name handle r) : Keeps s r.1 := by
  cases h with
  | unchanged => exact (Keeps.refl s).invalidate [name]
  | failed => exact .refl s
  | bound =>
    refine Keeps.invalidate (fun ht => ?_) [name]
    exact (Keeps.touch s name).trans (.of_rewired fun _ => rewired_clear ht fun _ => rfl) ht

/-- A cell lists what its computation reads, and edges lead to it from there. -/
theorem rewired_bind {deps : List String} {g : Graph} {c : Cell} (hc : s.cell? name = some c)
    (hconnect : Connects s.graph name deps g) (d : Definition) :
    Rewired name s ({ s with graph := g }.update name (computing d deps)) where
  acyclic := hconnect.acyclic
  node := hconnect.node
  cell _ ha := cell?_update_of_ne ha
  edge := hconnect.other
  self := ⟨c, computing d deps c, hc, cell?_update_self.trans (congrArg (Option.map _) hc),
    fun a => (hconnect.into a).mp, fun _ a => (hconnect.into a).mpr⟩

theorem Keeps.readied (s : Sheet) (name : String) (deps : List String) :
    Keeps s (s.readied name deps) :=
  (Keeps.foldl_touch deps s).trans (.touch _ name)

/-- All that a cell is to read can be connected with it. -/
theorem Tied.connects {deps : List String} (h : s.Tied)
    (hcyclic : (s.readied name deps).cyclic? name deps = none) {g : Graph}
    {r : Except Graph.Cycle Unit}
    (hconnect : connect ((s.readied name deps).graph.removeIncoming name) name deps = (g, r)) :
    r = .ok () ∧ Connects (s.readied name deps).graph name deps g := by
  have ht : (s.readied name deps).Tied := (Keeps.readied s name deps h).1
  exact connects_readied ht.acyclic
    (fun a c hc => (ht.node a).mpr (hasCell_iff.mpr ⟨c, hc⟩)) hcyclic hconnect

theorem Binds.keeps {deps : List String} {d : Definition} {r : Sheet × Except CellError Unit}
    (h : s.Binds name deps d r) : Keeps s r.1 := by
  obtain ⟨c, hc⟩ : ∃ c, (s.readied name deps).cell? name = some c :=
    exists_cell_readied List.mem_cons_self
  have hbind {g : Graph} (hcyclic : (s.readied name deps).cyclic? name deps = none)
      (hconnect : connect ((s.readied name deps).graph.removeIncoming name) name deps =
        (g, .ok ())) :
      Keeps s ({ s.readied name deps with graph := g }.update name (computing d deps)) :=
    fun ht => (Keeps.readied s name deps).trans
      (.of_rewired fun _ => rewired_bind hc (ht.connects hcyclic hconnect).2 d) ht
  cases h with
  | skipped => exact .refl s
  | cyclic => exact .readied s name deps
  | refused hcyclic hconnect => exact fun ht => by cases (ht.connects hcyclic hconnect).1
  | started _ hcyclic hconnect =>
    exact ((hbind hcyclic hconnect).trans (.of_sameReads (.assign d.initial))).invalidate [name]
  | kept _ _ _ hcyclic hconnect => exact hbind hcyclic hconnect

theorem hasCell_update {f : Cell → Cell} :
    (s.update name f).hasCell a = true ↔ s.hasCell a = true := by
  have hsome : ((s.update name f).cell? a).isSome = (s.cell? a).isSome := by
    by_cases e : a = name
    · subst e
      rw [cell?_update_self, Option.isSome_map]
    · rw [cell?_update_of_ne e]
  rw [hasCell_iff, hasCell_iff, ← Option.isSome_iff_exists, ← Option.isSome_iff_exists, hsome]

theorem hasCell_touch (h : s.hasCell a = true) : (s.touch name).hasCell a = true := by
  obtain ⟨c, hc⟩ := hasCell_iff.mp h
  exact hasCell_iff.mpr ⟨c, cell?_touch_of_some hc⟩

/-- A cell lists what it reads now, and an edge leads from there. -/
theorem rewired_addEdge (ht : s.Tied) (hcell : s.hasCell name = true) {d : String}
    (hd : s.hasCell d = true) {g : Graph} (hadd : s.graph.addEdge d name = (g, .ok ())) :
    Rewired name s ({ s with graph := g }.update name (reading d)) := by
  obtain ⟨c, hc⟩ := hasCell_iff.mp hcell
  have hedge {a b : String} := Graph.hasEdge_addEdge_of_ok hadd (a := a) (b := b)
  refine ⟨Graph.acyclic_addEdge ht.acyclic hadd, fun a => ?_, fun a ha => cell?_update_of_ne ha,
    fun a b hb => ?_, c, reading d c, hc, ?_, fun a ha => ?_, fun hl a ha => ?_⟩
  · have hnode := Graph.hasNode_addEdge (g := s.graph) (u := d) (v := name) (a := a)
    rw [hadd] at hnode
    refine hnode.trans ⟨?_, fun ha => .inr (.inr ha)⟩
    rintro (rfl | rfl | ha)
    · exact (ht.node a).mpr hd
    · exact (ht.node a).mpr hcell
    · exact ha
  · exact hedge.trans ⟨fun hab => hab.resolve_left fun e => hb e.2, .inr⟩
  · rw [cell?_update_self]
    exact congrArg (Option.map _) hc
  · rcases hedge.mp ha with ⟨rfl, -⟩ | ha
    · exact mem_reading.mpr (.inl rfl)
    · obtain ⟨c', hc', hmem⟩ := ht.read a name ha
      rw [hc] at hc'
      cases hc'
      exact mem_reading.mpr (.inr hmem)
  · exact hedge.mpr ((mem_reading.mp ha).imp (fun e => ⟨e, rfl⟩) (hl a))

theorem keeps_addEach (deps : List String) (hcell : s.hasCell name = true) :
    Keeps s (s.addEach name deps).1 := by
  induction deps generalizing s with
  | nil => exact .refl s
  | cons d deps ih =>
    unfold addEach
    dsimp only
    have hname : (s.touch d).hasCell name = true := hasCell_touch hcell
    have hd : (s.touch d).hasCell d = true := hasCell_iff.mpr cell?_touch_self
    refine (Keeps.touch s d).trans fun ht => ?_
    generalize s.touch d = t at hname hd ht
    split
    · -- the ends of a refused edge were nodes already
      rename_i g cycle hrefused
      refine Keeps.of_sameReads ⟨fun a => ?_, fun a b => Graph.hasEdge_addEdge_of_error hrefused,
        fun a => rfl⟩ ht
      have hnode := Graph.hasNode_addEdge (g := t.graph) (u := d) (v := name) (a := a)
      rw [hrefused] at hnode
      refine hnode.trans ⟨?_, fun ha => .inr (.inr ha)⟩
      rintro (rfl | rfl | ha)
      · exact (ht.node a).mpr hd
      · exact (ht.node a).mpr hname
      · exact ha
    · rename_i g hadd
      exact (Keeps.of_rewired fun ht => rewired_addEdge ht hname hd hadd).trans
        (ih (hasCell_update.mpr hname)) ht

theorem Adds.keeps {deps : List String} {r : Sheet × Except CellError Unit}
    (h : s.Adds name deps r) : Keeps s r.1 := by
  cases h with
  | unknown => exact .refl s
  | refused hcell hrefused =>
    have hadd : Keeps s (s.addEach name deps).1 := keeps_addEach deps hcell
    rwa [hrefused] at hadd
  | added hcell hadded =>
    have hadd : Keeps s (s.addEach name deps).1 := keeps_addEach deps hcell
    rw [hadded] at hadd
    exact hadd.invalidate [name]

/-- A cell lists one name less, and no edge leads from there. -/
theorem rewired_removeReading (ht : s.Tied) (hcell : s.hasCell name = true) (d : String) :
    Rewired name s (s.removeReading name d) := by
  obtain ⟨c, hc⟩ := hasCell_iff.mp hcell
  refine ⟨ht.acyclic.mono fun a b hab => (Graph.hasEdge_removeEdge.mp hab).1,
    fun a => Bool.eq_iff_iff.mp Graph.hasNode_removeEdge, fun a ha => cell?_update_of_ne ha,
    fun a b hb => ?_, c, { c with dependencies := c.dependencies.filter (· != d) }, hc, ?_,
    fun a ha => ?_, fun hl a ha => ?_⟩
  · exact Graph.hasEdge_removeEdge.trans
      ⟨And.left, fun hab => ⟨hab, fun e => hb e.2⟩⟩
  · rw [removeReading, cell?_update_self]
    exact congrArg (Option.map _) hc
  · obtain ⟨hab, hne⟩ := Graph.hasEdge_removeEdge.mp ha
    obtain ⟨c', hc', hmem⟩ := ht.read a name hab
    rw [hc] at hc'
    cases hc'
    exact List.mem_filter.mpr ⟨hmem, bne_iff_ne.mpr fun e => hne ⟨e, rfl⟩⟩
  · obtain ⟨ha, hne⟩ := List.mem_filter.mp ha
    exact Graph.hasEdge_removeEdge.mpr ⟨hl a ha, fun e => bne_iff_ne.mp hne e.1⟩

theorem keeps_removeEach (deps : List String) (hcell : s.hasCell name = true) :
    Keeps s (deps.foldl (removeReading name) s) := by
  induction deps generalizing s with
  | nil => exact .refl s
  | cons d deps ih =>
    exact (Keeps.of_rewired fun ht => rewired_removeReading ht hcell d).trans
      (ih (hasCell_update.mpr hcell))

theorem Removes.keeps {deps : List String} {r : Sheet × Except CellError Unit}
    (h : s.Removes name deps r) : Keeps s r.1 := by
  cases h with
  | unknown => exact .refl s
  | removed hcell => exact (keeps_removeEach deps hcell).invalidate [name]

/-! ## 4. Taking cells away -/

theorem cell?_delete : (s.delete name).cell? a = if a = name then none else s.cell? a := by
  have hvoid : a ≠ name → (s.void name).cell? a = s.cell? a := fun ha => by
    unfold void unbind
    split
    · rw [assign, cell?_update_of_ne ha, cell?_update_of_ne ha]
      rfl
    · rw [assign, cell?_update_of_ne ha]
  by_cases e : a = name
  · subst e
    simp [delete, cell?]
  · rw [if_neg e, ← hvoid e]
    simp [delete, cell?, ExtTreeMap.getElem?_erase, Ne.symm e]

theorem hasEdge_delete :
    (s.delete name).graph.hasEdge a b = true ↔
      s.graph.hasEdge a b = true ∧ a ≠ name ∧ b ≠ name := by
  refine Graph.hasEdge_removeNode.trans (and_congr_left fun ⟨_, hb⟩ => ?_)
  exact ⟨hasEdge_of_unbind, hasEdge_unbind_of_ne hb⟩

theorem hasNode_delete :
    (s.delete name).graph.hasNode a = true ↔ s.graph.hasNode a = true ∧ a ≠ name := by
  refine Graph.hasNode_removeNode.trans (and_congr_left fun _ => ?_)
  have hnode : (s.unbind name).graph.hasNode a = s.graph.hasNode a := hasNode_unbind
  rw [← hnode]
  rfl

theorem tied_delete (h : s.Tied) (name : String) : (s.delete name).Tied where
  acyclic := h.acyclic.mono fun a b hab => (hasEdge_delete.mp hab).1
  node a := by
    rw [hasNode_delete, h.node, hasCell_iff, hasCell_iff, cell?_delete]
    by_cases e : a = name <;> simp [e]
  read d a hd := by
    obtain ⟨hd, -, ha⟩ := hasEdge_delete.mp hd
    rw [cell?_delete, if_neg ha]
    exact h.read d a hd

theorem tied_foldl_delete (names : List String) (h : s.Tied) : (names.foldl delete s).Tied := by
  induction names generalizing s with
  | nil => exact h
  | cons n names ih => exact ih (tied_delete h n)

theorem cell?_foldl_delete (names : List String) :
    (names.foldl delete s).cell? a = if a ∈ names then none else s.cell? a := by
  induction names generalizing s with
  | nil => rfl
  | cons n names ih =>
    rw [List.foldl_cons, ih, cell?_delete]
    by_cases hn : a = n <;> by_cases hmem : a ∈ names <;> simp [hn, hmem]

theorem hasEdge_foldl_delete (names : List String) :
    (names.foldl delete s).graph.hasEdge a b = true ↔
      s.graph.hasEdge a b = true ∧ a ∉ names ∧ b ∉ names := by
  induction names generalizing s with
  | nil => simp
  | cons n names ih =>
    rw [List.foldl_cons, ih, hasEdge_delete, List.mem_cons, List.mem_cons, not_or, not_or]
    constructor
    · rintro ⟨⟨hab, ha, hb⟩, ha', hb'⟩
      exact ⟨hab, ⟨ha, ha'⟩, hb, hb'⟩
    · rintro ⟨hab, ⟨ha, ha'⟩, hb, hb'⟩
      exact ⟨⟨hab, ha, hb⟩, ha', hb'⟩

/-- A cell stays whose list has a name that is taken away. -/
def Operation.Severs (s : Sheet) (op : Operation) : Prop :=
  ∃ name c d, s.cell? name = some c ∧ name ∉ op.removed s ∧ d ∈ c.dependencies ∧ d ∈ op.removed s

/-- The names taken away have no edges any more, so no list may have them. -/
theorem listed_foldl_delete_iff (names : List String) (h : s.Listed) :
    (names.foldl delete s).Listed ↔
      ∀ name c, s.cell? name = some c → name ∉ names → ∀ d ∈ c.dependencies, d ∉ names := by
  constructor
  · intro hl name c hc hname d hd
    have hc' : (names.foldl delete s).cell? name = some c := by
      rw [cell?_foldl_delete, if_neg hname, hc]
    exact ((hasEdge_foldl_delete names).mp (hl name c hc' d hd)).2.1
  · intro hstay name c hc d hd
    rw [cell?_foldl_delete] at hc
    split at hc
    · cases hc
    · rename_i hname
      exact (hasEdge_foldl_delete names).mpr
        ⟨h name c hc d hd, hstay name c hc hname d hd, hname⟩

theorem not_severs_iff {op : Operation} :
    ¬ op.Severs s ↔
      ∀ name c, s.cell? name = some c → name ∉ op.removed s →
        ∀ d ∈ c.dependencies, d ∉ op.removed s :=
  ⟨fun h name c hc hname d hd hmem => h ⟨name, c, d, hc, hname, hd, hmem⟩,
    fun h ⟨name, c, d, hc, hname, hd, hmem⟩ => h name c hc hname d hd hmem⟩

/-! ## 5. Runs -/

namespace Operation

/-- An operation either takes cells away, or it keeps what is linked. -/
theorem apply_cases (s : Sheet) (op : Operation) :
    op.apply s = (op.removed s).foldl Sheet.delete s ∨
      op.removed s = [] ∧ Keeps s (op.apply s) := by
  cases op with
  | delete name => exact .inl rfl
  | clear sheet => exact .inl rfl
  | set name v => exact .inr ⟨rfl, keeps_set s name v⟩
  | createStatic sheet name v => exact .inr ⟨rfl, keeps_createStatic s sheet name v⟩
  | createDynamic sheet name d => exact .inr ⟨rfl, (binds_createDynamic s sheet name d).keeps⟩
  | createQuery sheet name handle =>
    exact .inr ⟨rfl, (bindsQuery_createQuery s sheet name handle).keeps⟩
  | addDependencies sheet name deps =>
    exact .inr ⟨rfl, (adds_addDependencies s sheet name deps).keeps⟩
  | removeDependencies sheet name deps =>
    exact .inr ⟨rfl, (removes_removeDependencies s sheet name deps).keeps⟩
  | unbind name => exact .inr ⟨rfl, keeps_unbind s name⟩
  | void name => exact .inr ⟨rfl, keeps_void s name⟩
  | prewarm name v => exact .inr ⟨rfl, keeps_prewarm s name v⟩
  | load cells => exact .inr ⟨rfl, keeps_load cells s⟩
  | subscribe label => exact .inr ⟨rfl, .of_sameReads (.of_sameCells ⟨rfl, rfl⟩)⟩
  | unsubscribe id => exact .inr ⟨rfl, .of_sameReads (.of_sameCells ⟨rfl, rfl⟩)⟩
  | startBarrier => exact .inr ⟨rfl, .of_sameReads (.of_sameCells ⟨rfl, rfl⟩)⟩
  | endBarrier => exact .inr ⟨rfl, .of_sameReads (.endBarrier s)⟩
  | startTransaction => exact .inr ⟨rfl, .of_sameReads (.of_sameCells ⟨rfl, rfl⟩)⟩
  | endTransaction => exact .inr ⟨rfl, .of_sameReads (.endTransaction s)⟩
  | tablesChanged tables => exact .inr ⟨rfl, (Keeps.refl s).invalidate _⟩
  | wait => exact .inr ⟨rfl, .of_sameReads (.wait s)⟩

theorem tied_apply (h : s.Tied) (op : Operation) : (op.apply s).Tied := by
  rcases op.apply_cases s with hfold | ⟨-, hkeeps⟩
  · rw [hfold]
    exact tied_foldl_delete _ h
  · exact (hkeeps h).1

theorem listed_apply_iff (ht : s.Tied) (hl : s.Listed) (op : Operation) :
    (op.apply s).Listed ↔ ¬ op.Severs s := by
  rw [not_severs_iff]
  rcases op.apply_cases s with hfold | ⟨hnone, hkeeps⟩
  · rw [hfold, listed_foldl_delete_iff _ hl]
  · rw [hnone]
    exact ⟨fun _ _ _ _ _ _ _ => List.not_mem_nil, fun _ => (hkeeps ht).2 hl⟩

end Operation

theorem tied_run (h : s.Tied) (ops : List Operation) : (s.run ops).Tied := by
  induction ops generalizing s with
  | nil => exact h
  | cons op ops ih => exact ih (op.tied_apply h)

/-- The sheets along a run of tied sheets are listed exactly if no operation severs. -/
theorem listed_run_iff (ht : s.Tied) (hl : s.Listed) (ops : List Operation) :
    (∀ n, (s.run (ops.take n)).Listed) ↔
      ∀ n (op : Operation), ops[n]? = some op → ¬ op.Severs (s.run (ops.take n)) := by
  constructor
  · intro h n op hop
    have hnext : s.run (ops.take (n + 1)) = op.apply (s.run (ops.take n)) := by
      rw [List.take_add_one, hop]
      exact run_concat _ op
    rw [← op.listed_apply_iff (tied_run ht _) (h n), ← hnext]
    exact h (n + 1)
  · intro h n
    induction n with
    | zero => exact hl
    | succ n ih =>
      rw [List.take_add_one]
      cases hop : ops[n]? with
      | none => simpa using ih
      | some op =>
        refine Eq.mpr (congrArg Listed (run_concat _ op)) ?_
        exact (op.listed_apply_iff (tied_run ht _) ih).mpr (h n op hop)

/-- On every sheet the nodes are the names of the cells, and every edge comes from a name that its
    target lists. The lists have no other names, on all sheets of a run, exactly if the run takes no
    cell away that another one lists and that stays. -/
theorem linked_iff_of_run (schema : Schema) (policy : Policy) (executor : Option Executor)
    (ops : List Operation) :
    (∀ a, ((new schema policy executor).run ops).graph.hasNode a = true ↔
      ((new schema policy executor).run ops).hasCell a = true) ∧
    (∀ d name, ((new schema policy executor).run ops).graph.hasEdge d name = true →
      ∃ c, ((new schema policy executor).run ops).cell? name = some c ∧ d ∈ c.dependencies) ∧
    ((∀ n, ((new schema policy executor).run (ops.take n)).Linked) ↔
      ∀ n (op : Operation), ops[n]? = some op →
        ¬ op.Severs ((new schema policy executor).run (ops.take n))) := by
  have ht := tied_new schema policy executor
  refine ⟨(tied_run ht ops).node, (tied_run ht ops).read, ?_⟩
  rw [← listed_run_iff ht (listed_new schema policy executor)]
  exact forall_congr' fun n => (tied_run ht _).linked_iff

/-- `b` reads `a`, and `a` is deleted. -/
def deleteRead : List Operation :=
  [.set "a" (.bool true),
    .createDynamic "" "b" ⟨["a"], fun _ args => ⟨.ok (args.headD .null), false⟩, .null, false⟩,
    .delete "a"]

theorem run_deleteRead :
    ((((new .empty .none none).run deleteRead).cell? "b").map (·.dependencies),
      ((new .empty .none none).run deleteRead).graph.hasEdge "a" "b") = (some ["a"], false) := by
  simp only [deleteRead, run, List.foldl, Operation.apply, createDynamic, List.map, connect,
    Graph.addEdge, ite_or, ← Bool.cond_eq_ite]
  cbv

/-- The name of the deleted cell stays in the list of the other one. -/
theorem not_linked_of_deleteRead : ¬ ((new .empty .none none).run deleteRead).Linked := by
  intro h
  obtain ⟨hlist, hnone⟩ := Prod.mk.inj run_deleteRead
  obtain ⟨c, hc, hdeps⟩ := Option.map_eq_some_iff.mp hlist
  have hedge := (h.reads "b" c hc "a").mp (by rw [hdeps]; exact List.mem_cons_self)
  rw [hnone] at hedge
  cases hedge

end QuerySheet.Sheet

import Mathlib
import QuerySheet.Proofs.Sheet.Topological

/-!
# Sorting the graphs that edits lead to

* `Graph.Edit` and `Graph.edit`: the calls that change a graph, and what a list of them leaves;
* `Graph.Built`: what every graph has that edits lead to. It has no cycle, and its edges lead from
  nodes to nodes;
* `Graph.Once`: no name is listed or open twice in a search half way, so that the sort has no
  duplicates (`nodup_topologicalSort`);
* `Graph.Ordered.idxOf_lt_idxOf`: in an ordered list without duplicates a name stands before all
  that read it. `Graph.Acyclic.wellFounded` follows: there is no endless chain of names of which
  each is read by the one before it;
* `topologicalSort_of_edits`: the sort of every such graph, whatever the seeds.
-/

namespace QuerySheet.Graph

open Relation (TransGen ReflTransGen)
open Std (ExtTreeMap ExtTreeSet)

variable {g : Graph} {a b u v : String}

/-! ## 1. Edits -/

/-- A call that changes a graph. -/
inductive Edit where
  | addNode (name : String)
  | addEdge (source target : String)
  | removeEdge (source target : String)
  | removeIncoming (name : String)
  | removeNode (name : String)

/-- The graph that a call leaves, whether it succeeds or fails. -/
def Edit.apply (g : Graph) : Edit → Graph
  | .addNode name => g.addNode name
  | .addEdge source target => (g.addEdge source target).1
  | .removeEdge source target => g.removeEdge source target
  | .removeIncoming name => g.removeIncoming name
  | .removeNode name => g.removeNode name

/-- The graph that calls leave one after the other. -/
def edit (g : Graph) (edits : List Edit) : Graph := edits.foldl Edit.apply g

/-- The source of an edge is a node. -/
theorem hasNode_of_hasEdge (h : g.hasEdge a b = true) : g.hasNode a = true := by
  obtain ⟨next, hnext, -⟩ := hasEdge_iff.mp h
  exact ExtTreeMap.contains_eq_isSome_getElem?.trans (congrArg Option.isSome hnext)

structure Built (g : Graph) : Prop where
  acyclic : g.Acyclic
  target : ∀ a b, g.hasEdge a b = true → g.hasNode b = true

theorem built_empty : Built empty where
  acyclic := acyclic_empty
  target _ _ h := absurd h hasEdge_empty

/-- Fewer edges between nodes that stay. -/
theorem Built.mono {g' : Graph} (h : g.Built)
    (hsub : ∀ a b, g'.hasEdge a b = true → g.hasEdge a b = true ∧
      (g.hasNode b = true → g'.hasNode b = true)) : g'.Built where
  acyclic := h.acyclic.mono fun a b hab => (hsub a b hab).1
  target a b hab := (hsub a b hab).2 (h.target a b (hsub a b hab).1)

theorem Built.addEdge (h : g.Built) (u v : String) : (g.addEdge u v).1.Built := by
  cases hadd : g.addEdge u v with
  | mk g' r =>
    have hnode {b : String} (hb : b = u ∨ b = v ∨ g.hasNode b = true) : g'.hasNode b = true := by
      have := hasNode_addEdge.mpr hb
      rwa [hadd] at this
    cases r with
    | ok _ =>
      refine ⟨acyclic_addEdge h.acyclic hadd, fun a b hab => hnode ?_⟩
      rcases (hasEdge_addEdge_of_ok hadd).mp hab with ⟨-, e⟩ | hab
      · exact .inr (.inl e)
      · exact .inr (.inr (h.target a b hab))
    | error cycle =>
      exact h.mono fun a b hab =>
        ⟨(hasEdge_addEdge_of_error hadd).mp hab, fun hb => hnode (.inr (.inr hb))⟩

theorem Built.apply (h : g.Built) (e : Edit) : (e.apply g).Built := by
  cases e with
  | addNode name =>
    exact h.mono fun a b hab => ⟨hasEdge_addNode.mp hab, fun hb => hasNode_addNode.mpr (.inr hb)⟩
  | addEdge source target => exact h.addEdge source target
  | removeEdge source target =>
    exact h.mono fun a b hab => ⟨(hasEdge_removeEdge.mp hab).1, hasNode_removeEdge.trans⟩
  | removeIncoming name =>
    exact h.mono fun a b hab => ⟨(hasEdge_removeIncoming.mp hab).1, hasNode_removeIncoming.trans⟩
  | removeNode name =>
    refine h.mono fun a b hab => ?_
    obtain ⟨hab, -, hb⟩ := hasEdge_removeNode.mp hab
    exact ⟨hab, fun hnode => hasNode_removeNode.mpr ⟨hnode, hb⟩⟩

theorem Built.edit (h : g.Built) (edits : List Edit) : (g.edit edits).Built := by
  induction edits generalizing g with
  | nil => exact h
  | cons e edits ih => exact ih (h.apply e)

/-- What can be reached from a node is a node. -/
theorem Built.hasNode_of_reaches (h : g.Built) (ha : g.hasNode a = true) (hab : g.Reaches a b) :
    g.hasNode b = true := by
  induction hab with
  | refl => exact ha
  | tail _ hbc _ => exact h.target _ _ hbc

/-- What is no node reaches nothing but itself. -/
theorem eq_of_reaches (ha : g.hasNode a = false) (hab : g.Reaches a b) : b = a := by
  rcases hab.cases_head with e | ⟨c, hac, -⟩
  · exact e.symm
  · rw [hasNode_of_hasEdge hac] at ha
    cases ha

/-! ## 2. Each name once -/

/-- The names that are open: what reads them is visited first. -/
def opened (tasks : List Task) : List String :=
  tasks.filterMap fun
    | .finish name => some name
    | .visit _ => none

theorem opened_visits (names : List String) (rest : List Task) :
    opened (names.map .visit ++ rest) = opened rest := by
  induction names with
  | nil => rfl
  | cons name names ih => exact ih

/-- No name is listed or open twice, and all of them have been visited. -/
structure Once (tasks : List Task) (visited : ExtTreeSet String) (order : List String) : Prop where
  nodup : (order ++ opened tasks).Nodup
  visited : ∀ a ∈ order ++ opened tasks, visited.contains a = true

namespace Once

variable {visited : ExtTreeSet String} {order : List String} {name : String} {rest : List Task}

theorem finish (h : Once (.finish name :: rest) visited order) :
    Once rest visited (name :: order) where
  nodup := List.nodup_middle.mp h.nodup
  visited a ha := h.visited a (List.perm_middle.symm.mem_iff.mp ha)

/-- A name that is visited for the first time is neither listed nor open. -/
theorem insert (h : Once (.visit name :: rest) visited order)
    (hv : ¬ visited.contains name = true) :
    (name :: (order ++ opened rest)).Nodup ∧
      ∀ a ∈ name :: (order ++ opened rest), (visited.insert name).contains a = true := by
  refine ⟨List.nodup_cons.mpr ⟨fun hmem => hv (h.visited name hmem), h.nodup⟩, fun a ha => ?_⟩
  rcases List.mem_cons.mp ha with rfl | ha
  · simp
  · simp [h.visited a ha]

theorem list (h : Once (.visit name :: rest) visited order) (hv : ¬ visited.contains name = true) :
    Once rest (visited.insert name) (name :: order) :=
  ⟨(h.insert hv).1, (h.insert hv).2⟩

theorem enter (h : Once (.visit name :: rest) visited order) (hv : ¬ visited.contains name = true)
    (names : List String) :
    Once (names.map .visit ++ .finish name :: rest) (visited.insert name) order where
  nodup := by
    rw [opened_visits]
    exact List.nodup_middle.mpr (h.insert hv).1
  visited a ha := by
    rw [opened_visits] at ha
    exact (h.insert hv).2 a (List.perm_middle.mem_iff.mp ha)

end Once

theorem nodup_search {tasks : List Task} {visited : ExtTreeSet String} {order : List String}
    (h : Once tasks visited order) : (g.search tasks visited order).Nodup := by
  induction tasks, visited, order using search.induct g with
  | case1 visited order =>
    rw [search]
    exact (List.nodup_append.mp h.nodup).1
  | case2 visited order name rest ih =>
    rw [search]
    exact ih h.finish
  | case3 visited order name rest hv ih =>
    rw [search, dif_pos hv]
    exact ih ⟨h.nodup, h.visited⟩
  | case4 visited order name rest hv hn ih =>
    rw [search_of_none hv hn]
    exact ih (h.list hv)
  | case5 visited order name rest hv next hn ih =>
    rw [search_of_some hv hn]
    exact ih (h.enter hv _)

theorem nodup_topologicalSort (g : Graph) (seeds : List String) :
    (g.topologicalSort seeds).Nodup := by
  have hnone : opened (seeds.map .visit) = [] := by
    have h := opened_visits seeds []
    rwa [List.append_nil] at h
  refine nodup_search ⟨?_, fun a ha => ?_⟩
  · rw [hnone]
    exact List.nodup_nil
  · rw [hnone] at ha
    cases ha

/-! ## 3. Places in an ordered list -/

theorem Ordered.idxOf_lt_idxOf {order : List String} (h : g.Ordered order) (hn : order.Nodup)
    (hu : u ∈ order) (huv : g.hasEdge u v = true) : order.idxOf u < order.idxOf v := by
  induction order with
  | nil => cases hu
  | cons a rest ih =>
    obtain ⟨ha, hrest⟩ := List.nodup_cons.mp hn
    have hne {b : String} (hb : b ∈ rest) : a ≠ b := fun e => ha (e ▸ hb)
    rcases List.mem_cons.mp hu with rfl | hu
    · rw [List.idxOf_cons_self, List.idxOf_cons_ne _ (hne (h.1 v huv))]
      exact Nat.succ_pos _
    · rw [List.idxOf_cons_ne _ (hne hu), List.idxOf_cons_ne _ (hne (h.2.reader_mem hu huv))]
      exact Nat.succ_lt_succ (ih h.2 hrest hu)

/-- Names can be taken in an order in which each comes after those that it reads. -/
theorem Acyclic.wellFounded (hg : g.Acyclic) :
    WellFounded fun a b : String => g.hasEdge a b = true := by
  have hord := ordered_topologicalSort hg g.nodes
  refine Subrelation.wf (r := InvImage (· < ·) (g.topologicalSort g.nodes).idxOf) (fun hab => ?_)
    (InvImage.wf _ Nat.lt_wfRel.wf)
  refine hord.idxOf_lt_idxOf (nodup_topologicalSort g _) ?_ hab
  exact (mem_topologicalSort hg).mpr ⟨_, ExtTreeMap.mem_keys.mpr (hasNode_of_hasEdge hab), .refl⟩

/-! ## 4. The sort after any edits -/

/-- The sort of a graph that edits lead to has no duplicates. It lists the nodes that can be reached
    from seeds that are nodes, and the seeds that are none; and every name stands before those that
    read it. That the search ends is part of its definition: its measure falls with every task. -/
theorem topologicalSort_of_edits (edits : List Edit) (seeds : List String) :
    let g := empty.edit edits
    let order := g.topologicalSort seeds
    order.Nodup ∧
    (∀ a, a ∈ order ↔
      (g.hasNode a = true ∧ ∃ seed ∈ seeds, g.hasNode seed = true ∧ g.Reaches seed a) ∨
      (g.hasNode a = false ∧ a ∈ seeds)) ∧
    ∀ u v, u ∈ order → g.hasEdge u v = true → v ∈ order ∧ order.idxOf u < order.idxOf v := by
  have hbuilt : (empty.edit edits).Built := built_empty.edit edits
  generalize empty.edit edits = g at hbuilt
  intro _ order
  have hord : g.Ordered order := ordered_topologicalSort hbuilt.acyclic seeds
  have hnodup : order.Nodup := nodup_topologicalSort g seeds
  refine ⟨hnodup, fun a => ?_, fun u v hu huv =>
    ⟨hord.reader_mem hu huv, hord.idxOf_lt_idxOf hnodup hu huv⟩⟩
  refine (mem_topologicalSort hbuilt.acyclic).trans ⟨?_, ?_⟩
  · rintro ⟨seed, hseed, hreach⟩
    cases hnode : g.hasNode seed with
    | true => exact .inl ⟨hbuilt.hasNode_of_reaches hnode hreach, seed, hseed, hnode, hreach⟩
    | false =>
      obtain rfl := eq_of_reaches hnode hreach
      exact .inr ⟨hnode, hseed⟩
  · rintro (⟨-, seed, hseed, -, hreach⟩ | ⟨-, ha⟩)
    · exact ⟨seed, hseed, hreach⟩
    · exact ⟨a, ha, .refl⟩

/-- Seeds that are given twice, that are read by each other, and that are no nodes. -/
example : (empty.edit [.addEdge "a" "b"]).topologicalSort ["b", "x", "a", "x"] =
    ["a", "x", "b"] := by
  simp only [edit, List.foldl, Edit.apply, addEdge, ite_or, ← Bool.cond_eq_ite]
  cbv

end QuerySheet.Graph

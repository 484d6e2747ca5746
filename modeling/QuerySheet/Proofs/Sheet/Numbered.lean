import Mathlib
import QuerySheet.Proofs.Sheet.Sorting

/-!
# Graphs with numbered nodes

A graph of names can be kept with numbers for its nodes. A number has a name, an index leads from a
name back to its number, and an edge is a pair of numbers. Numbers are given out and become free
again, so that a name that comes back may get another one.

* `NumberedGraph`: the same calls as on a `Graph`. Which free number a new node gets is up to a
  `Numbering`;
* `mem_reach`: the search along pairs finds exactly what they lead to;
* `NumberedGraph.Holds`: the index and the names are inverse to each other, no edge is there twice,
  none hangs loose, and nodes and edges are those of a graph. Every call keeps this
  (`Holds.apply`) and has the same result on both (`Holds.addEdge`);
* `Graph.addEdge_cases`: an edge is accepted exactly if the edges with it have no cycle;
* `numbered_of_edits`: all this of every graph that edits lead to.
-/

namespace QuerySheet

open Relation (TransGen ReflTransGen)
open Std (ExtTreeMap)

/-! ## 1. Numbers for nodes -/

/-- Gives a number that no node has. -/
structure Numbering where
  next : ExtTreeMap Nat String → Nat
  next_free : ∀ names : ExtTreeMap Nat String, names[next names]? = none

/-- One more than all numbers that are taken. -/
instance : Inhabited Numbering where
  default := {
    next := fun names => names.keys.sum + 1
    next_free := fun names => by
      refine ExtTreeMap.getElem?_eq_none fun hmem => ?_
      have := List.single_le_sum (fun _ _ => Nat.zero_le _) _ (ExtTreeMap.mem_keys.mpr hmem)
      omega }

structure NumberedGraph where
  /-- The nodes, with their names. -/
  names : ExtTreeMap Nat String
  /-- The node of each name. -/
  index : ExtTreeMap String Nat
  edges : List (Nat × Nat)

/-- What some pairs lead to from numbers that are found already. The pairs that start at a found
    number are followed, and not needed again. -/
def reach (edges : List (Nat × Nat)) (found : List Nat) : List Nat :=
  let parts := edges.partition fun e => found.contains e.1
  if _h : parts.1 = [] then found else reach parts.2 (found ++ parts.1.map (·.2))
termination_by edges.length
decreasing_by
  obtain ⟨e, he⟩ := List.exists_mem_of_ne_nil _ _h
  simp only [parts, List.partition_eq_filter_filter, List.mem_filter] at he ⊢
  exact List.length_filter_lt_length_iff_exists.mpr ⟨e, he.1, by simpa using he.2⟩

namespace NumberedGraph

def empty : NumberedGraph := ⟨∅, ∅, []⟩

/-- Adds a node unless it is there, and gives its number. -/
def addNode (fresh : Numbering) (n : NumberedGraph) (name : String) : NumberedGraph × Nat :=
  match n.index[name]? with
  | some i => (n, i)
  | none =>
    let i := fresh.next n.names
    ({ n with names := n.names.insert i name, index := n.index.insert name i }, i)

/-- Whether a path leads from one node to another. -/
def connects (n : NumberedGraph) (i j : Nat) : Bool := (reach n.edges [i]).contains j

/-- Adds an edge and its ends. The ends are added even if the edge is refused. -/
def addEdge (fresh : Numbering) (n : NumberedGraph) (source target : String) :
    NumberedGraph × Except Graph.Cycle Unit :=
  let (n, i) := n.addNode fresh source
  let (n, j) := n.addNode fresh target
  if n.edges.contains (i, j) then (n, .ok ())
  else if i = j ∨ n.connects j i then (n, .error ⟨source, target⟩)
  else ({ n with edges := (i, j) :: n.edges }, .ok ())

def removeEdge (n : NumberedGraph) (source target : String) : NumberedGraph :=
  match n.index[source]?, n.index[target]? with
  | some i, some j => { n with edges := n.edges.erase (i, j) }
  | _, _ => n

def removeIncoming (n : NumberedGraph) (name : String) : NumberedGraph :=
  match n.index[name]? with
  | some i => { n with edges := n.edges.filter (·.2 != i) }
  | none => n

/-- Takes away a node and every edge that touches it; its number is free again. -/
def removeNode (n : NumberedGraph) (name : String) : NumberedGraph :=
  let n := n.removeIncoming name
  match n.index[name]? with
  | some i =>
    { names := n.names.erase i
      index := n.index.erase name
      edges := n.edges.filter fun e => e.1 != i && e.2 != i }
  | none => n

def apply (fresh : Numbering) (n : NumberedGraph) : Graph.Edit → NumberedGraph
  | .addNode name => (n.addNode fresh name).1
  | .addEdge source target => (n.addEdge fresh source target).1
  | .removeEdge source target => n.removeEdge source target
  | .removeIncoming name => n.removeIncoming name
  | .removeNode name => n.removeNode name

/-- What calls leave one after the other. -/
def edit (fresh : Numbering) (n : NumberedGraph) (edits : List Graph.Edit) : NumberedGraph :=
  edits.foldl (apply fresh) n

end NumberedGraph

/-! ## 2. Following pairs -/

/-- One number leads to another by some pairs. -/
def Leads (edges : List (Nat × Nat)) : Nat → Nat → Prop :=
  ReflTransGen fun i j => (i, j) ∈ edges

theorem mem_reach {edges : List (Nat × Nat)} {found : List Nat} {j : Nat} :
    j ∈ reach edges found ↔ ∃ i ∈ found, Leads edges i j := by
  induction edges, found using reach.induct with
  | case1 edges found parts h =>
    have hnone (e : Nat × Nat) (he : e ∈ edges) : e.1 ∉ found := by
      have hall : edges.filter (fun e => found.contains e.1) = [] :=
        (congrArg Prod.fst (List.partition_eq_filter_filter ..)).symm.trans h
      simpa using List.filter_eq_nil_iff.mp hall e he
    rw [reach, dif_pos h]
    refine ⟨fun hj => ⟨j, hj, .refl⟩, ?_⟩
    rintro ⟨i, hi, hij⟩
    rcases hij.cases_head with rfl | ⟨k, hik, -⟩
    · exact hi
    · exact absurd hi (hnone (i, k) hik)
  | case2 edges found parts h ih =>
    have hused (e : Nat × Nat) : e ∈ parts.1 ↔ e ∈ edges ∧ e.1 ∈ found := by
      simp [parts, List.partition_eq_filter_filter]
    have hleft (e : Nat × Nat) : e ∈ parts.2 ↔ e ∈ edges ∧ e.1 ∉ found := by
      simp [parts, List.partition_eq_filter_filter]
    rw [reach, dif_neg h, ih]
    constructor
    · rintro ⟨i, hi, hij⟩
      have hleads : Leads edges i j :=
        ReflTransGen.mono (fun k l hkl => ((hleft (k, l)).mp hkl).1) _ _ hij
      rcases List.mem_append.mp hi with hi | hi
      · exact ⟨i, hi, hleads⟩
      · obtain ⟨⟨k, i⟩, hki, rfl⟩ := List.mem_map.mp hi
        obtain ⟨hki, hk⟩ := (hused (k, i)).mp hki
        exact ⟨k, hk, .head hki hleads⟩
    · clear ih
      rintro ⟨i, hi, hij⟩
      induction hij with
      | refl => exact ⟨i, List.mem_append_left _ hi, .refl⟩
      | @tail k l _ hkl ih =>
        obtain ⟨m, hm, hmk⟩ := ih
        by_cases hk : k ∈ found
        · refine ⟨l, List.mem_append_right _ (List.mem_map.mpr ⟨(k, l), ?_, rfl⟩), .refl⟩
          exact (hused (k, l)).mpr ⟨hkl, hk⟩
        · exact ⟨m, hm, hmk.tail ((hleft (k, l)).mpr ⟨hkl, hk⟩)⟩

namespace NumberedGraph

variable {n : NumberedGraph} {g : Graph} {a b u v name : String} {i j : Nat}

theorem connects_iff : n.connects i j = true ↔ Leads n.edges i j := by
  rw [connects, List.contains_iff_mem, mem_reach]
  simp

/-! ## 3. The graph that a numbered graph holds -/

structure Holds (n : NumberedGraph) (g : Graph) : Prop where
  index : ∀ (a : String) (i : Nat), n.index[a]? = some i ↔ n.names[i]? = some a
  once : n.edges.Nodup
  ends : ∀ i j : Nat, (i, j) ∈ n.edges → (∃ a, n.names[i]? = some a) ∧ ∃ b, n.names[j]? = some b
  node : ∀ a, g.hasNode a = true ↔ ∃ i : Nat, n.names[i]? = some a
  edge : ∀ a b, g.hasEdge a b = true ↔
    ∃ i j : Nat, n.names[i]? = some a ∧ n.names[j]? = some b ∧ (i, j) ∈ n.edges

namespace Holds

theorem empty : NumberedGraph.empty.Holds .empty where
  index a i := by simp [NumberedGraph.empty]
  once := List.nodup_nil
  ends i j h := by cases h
  node a := by simp [NumberedGraph.empty, Graph.empty, Graph.hasNode]
  edge a b := by simp [NumberedGraph.empty, Graph.hasEdge_empty]

/-- A name has one number. -/
theorem number_unique (h : n.Holds g) (hi : n.names[i]? = some a) (hj : n.names[j]? = some a) :
    i = j :=
  Option.some.inj (((h.index a i).mpr hi).symm.trans ((h.index a j).mpr hj))

theorem number_eq_iff (h : n.Holds g) (hi : n.names[i]? = some a) (hj : n.names[j]? = some b) :
    i = j ↔ a = b :=
  ⟨fun e => Option.some.inj (hi.symm.trans (e ▸ hj)), fun e => h.number_unique hi (e ▸ hj)⟩

theorem edge_iff (h : n.Holds g) (hi : n.names[i]? = some a) (hj : n.names[j]? = some b) :
    g.hasEdge a b = true ↔ (i, j) ∈ n.edges := by
  refine (h.edge a b).trans ⟨?_, fun hmem => ⟨i, j, hi, hj, hmem⟩⟩
  rintro ⟨i', j', hi', hj', hmem⟩
  rwa [h.number_unique hi hi', h.number_unique hj hj']

theorem reaches_iff (h : n.Holds g) (hi : n.names[i]? = some a) (hj : n.names[j]? = some b) :
    g.Reaches a b ↔ Leads n.edges i j := by
  constructor
  · intro hab
    induction hab generalizing j with
    | refl => exact h.number_unique hi hj ▸ .refl
    | tail _ hbc ih =>
      obtain ⟨k, l, hk, hl, hmem⟩ := (h.edge _ _).mp hbc
      obtain rfl := h.number_unique hj hl
      exact (ih hk).tail hmem
  · intro hij
    induction hij generalizing b with
    | refl =>
      rw [hi] at hj
      cases hj
      exact .refl
    | tail _ hmem ih =>
      obtain ⟨⟨c, hc⟩, -⟩ := h.ends _ _ hmem
      exact (ih hc).tail ((h.edge _ _).mpr ⟨_, _, hc, hj, hmem⟩)

/-- Numbers lead in no circle if the names do not. -/
theorem acyclic (h : n.Holds g) (hg : g.Acyclic) (i : Nat) :
    ¬ TransGen (fun i j => (i, j) ∈ n.edges) i i := by
  intro hii
  obtain ⟨k, hik, hki⟩ := TransGen.tail'_iff.mp hii
  obtain ⟨⟨b, hb⟩, a, ha⟩ := h.ends k i hki
  exact hg a (TransGen.tail' ((h.reaches_iff ha hb).mpr hik) ((h.edge b a).mpr ⟨k, i, hb, ha, hki⟩))

/-! ### Adding -/

theorem addNode (h : n.Holds g) (fresh : Numbering) (name : String) :
    (n.addNode fresh name).1.Holds (g.addNode name) ∧
      (n.addNode fresh name).1.names[(n.addNode fresh name).2]? = some name := by
  cases hname : n.index[name]? with
  | some i =>
    have hi := (h.index name i).mp hname
    simp only [NumberedGraph.addNode, hname, Graph.addNode, (h.node name).mpr ⟨i, hi⟩, ↓reduceIte]
    exact ⟨h, hi⟩
  | none =>
    have hfree := fresh.next_free n.names
    have hnew (k : Nat) : n.names[k]? ≠ some name := fun hk => by
      rw [(h.index name k).mpr hk] at hname
      cases hname
    simp only [NumberedGraph.addNode, hname]
    generalize fresh.next n.names = i at hfree
    have hget (k : Nat) (a : String) : (n.names.insert i name)[k]? = some a ↔
        (k = i ∧ a = name) ∨ n.names[k]? = some a := by
      by_cases hk : k = i
      · subst hk
        simp [hfree, eq_comm]
      · simp [ExtTreeMap.getElem?_insert, hk, Ne.symm hk]
    have hgetIndex (k : Nat) (a : String) : (n.index.insert name i)[a]? = some k ↔
        (k = i ∧ a = name) ∨ n.index[a]? = some k := by
      by_cases ha : a = name
      · subst ha
        simp [hname, eq_comm]
      · simp [ExtTreeMap.getElem?_insert, ha, Ne.symm ha]
    refine ⟨⟨fun a k => ?_, h.once, fun k l hkl => ?_, fun a => ?_, fun a b => ?_⟩, ?_⟩
    · rw [hget, hgetIndex, h.index]
    · obtain ⟨⟨a, ha⟩, b, hb⟩ := h.ends k l hkl
      exact ⟨⟨a, (hget k a).mpr (.inr ha)⟩, b, (hget l b).mpr (.inr hb)⟩
    · rw [Graph.hasNode_addNode, h.node]
      constructor
      · rintro (rfl | ⟨k, hk⟩)
        · exact ⟨i, (hget i a).mpr (.inl ⟨rfl, rfl⟩)⟩
        · exact ⟨k, (hget k a).mpr (.inr hk)⟩
      · rintro ⟨k, hk⟩
        exact ((hget k a).mp hk).imp And.right fun hk => ⟨k, hk⟩
    · -- the new number is no end of an edge
      rw [Graph.hasEdge_addNode, h.edge]
      constructor
      · rintro ⟨k, l, hk, hl, hkl⟩
        exact ⟨k, l, (hget k a).mpr (.inr hk), (hget l b).mpr (.inr hl), hkl⟩
      · rintro ⟨k, l, hk, hl, hkl⟩
        obtain ⟨⟨c, hc⟩, d, hd⟩ := h.ends k l hkl
        refine ⟨k, l, ((hget k a).mp hk).resolve_left fun e => ?_,
          ((hget l b).mp hl).resolve_left fun e => ?_, hkl⟩
        · rw [e.1, hfree] at hc
          cases hc
        · rw [e.1, hfree] at hd
          cases hd
    · simp

/-- A node keeps its name when another one is added. -/
theorem names_addNode {fresh : Numbering} (hi : n.names[i]? = some a) :
    (n.addNode fresh name).1.names[i]? = some a := by
  unfold NumberedGraph.addNode
  split
  · exact hi
  · have hne : fresh.next n.names ≠ i := fun e => by
      rw [← e, fresh.next_free] at hi
      cases hi
    simpa [ExtTreeMap.getElem?_insert, hne] using hi

theorem insertEdge (h : n.Holds g) (hi : n.names[i]? = some u) (hj : n.names[j]? = some v)
    (hnew : (i, j) ∉ n.edges) :
    { n with edges := (i, j) :: n.edges }.Holds (g.insertEdge u v) where
  index := h.index
  once := List.nodup_cons.mpr ⟨hnew, h.once⟩
  ends k l hkl := by
    rcases List.mem_cons.mp hkl with e | hkl
    · cases e
      exact ⟨⟨u, hi⟩, v, hj⟩
    · exact h.ends k l hkl
  node a := by
    rw [Graph.hasNode_insertEdge, h.node]
    exact ⟨fun ha => ha.elim (fun e => ⟨i, e ▸ hi⟩) id, .inr⟩
  edge a b := by
    rw [Graph.hasEdge_insertEdge, h.edge]
    constructor
    · rintro (⟨rfl, rfl⟩ | ⟨k, l, hk, hl, hkl⟩)
      · exact ⟨i, j, hi, hj, List.mem_cons_self⟩
      · exact ⟨k, l, hk, hl, List.mem_cons_of_mem _ hkl⟩
    · rintro ⟨k, l, hk, hl, hkl⟩
      rcases List.mem_cons.mp hkl with e | hkl
      · cases e
        exact .inl ⟨Option.some.inj (hk.symm.trans hi), Option.some.inj (hl.symm.trans hj)⟩
      · exact .inr ⟨k, l, hk, hl, hkl⟩

/-- The same edges are accepted, and the same are refused. -/
theorem addEdge (h : n.Holds g) (hg : g.Acyclic) (fresh : Numbering) (u v : String) :
    (n.addEdge fresh u v).1.Holds (g.addEdge u v).1 ∧
      (n.addEdge fresh u v).2 = (g.addEdge u v).2 := by
  obtain ⟨hu, hi⟩ := h.addNode fresh u
  obtain ⟨hends, hj⟩ := hu.addNode fresh v
  have hi : ((n.addNode fresh u).1.addNode fresh v).1.names[(n.addNode fresh u).2]? = some u :=
    names_addNode hi
  have hacyclic : ((g.addNode u).addNode v).Acyclic := hg.mono fun a b => Graph.hasEdge_withEnds.mp
  unfold NumberedGraph.addEdge Graph.addEdge
  dsimp only
  generalize (n.addNode fresh u).2 = i at hi
  generalize (n.addNode fresh u).1.addNode fresh v = m at hends hi hj
  generalize (g.addNode u).addNode v = g at hends hacyclic
  have hedge : m.1.edges.contains (i, m.2) = true ↔ g.hasEdge u v = true :=
    List.contains_iff_mem.trans (hends.edge_iff hi hj).symm
  have hcircle : i = m.2 ∨ m.1.connects m.2 i = true ↔ u = v ∨ g.hasPath v u = true := by
    refine or_congr (hends.number_eq_iff hi hj) ?_
    rw [connects_iff, ← hends.reaches_iff hj hi, Graph.hasPath_iff hacyclic]
    exact ⟨fun hvu => ⟨(hends.node v).mpr ⟨_, hj⟩, (hends.node u).mpr ⟨_, hi⟩, hvu⟩, fun h => h.2.2⟩
  by_cases hthere : g.hasEdge u v = true
  · rw [if_pos (hedge.mpr hthere), if_pos hthere]
    exact ⟨hends, rfl⟩
  · have hnew := mt hedge.mp hthere
    rw [if_neg hnew, if_neg hthere]
    by_cases hrefused : u = v ∨ g.hasPath v u = true
    · rw [if_pos (hcircle.mpr hrefused), if_pos hrefused]
      exact ⟨hends, rfl⟩
    · rw [if_neg (mt hcircle.mp hrefused), if_neg hrefused]
      exact ⟨hends.insertEdge hi hj (mt List.contains_iff_mem.mpr hnew), rfl⟩

/-! ### Taking away -/

/-- Only nodes and edges of a graph count. -/
theorem congr (h : n.Holds g) {g' : Graph} (hnode : ∀ a, g'.hasNode a = true ↔ g.hasNode a = true)
    (hedge : ∀ a b, g'.hasEdge a b = true ↔ g.hasEdge a b = true) : n.Holds g' where
  index := h.index
  once := h.once
  ends := h.ends
  node a := (hnode a).trans (h.node a)
  edge a b := (hedge a b).trans (h.edge a b)

/-- A name without a number is no end of an edge. -/
theorem not_mem_ends (h : n.Holds g) (hname : n.index[name]? = none) (hab : g.hasEdge a b = true) :
    a ≠ name ∧ b ≠ name := by
  obtain ⟨i, j, hi, hj, -⟩ := (h.edge a b).mp hab
  refine ⟨fun e => ?_, fun e => ?_⟩
  · rw [← e, (h.index a i).mpr hi] at hname
    cases hname
  · rw [← e, (h.index b j).mpr hj] at hname
    cases hname

/-- Some of the edges stay. -/
theorem keepEdges (h : n.Holds g) {g' : Graph} {edges : List (Nat × Nat)}
    (hsub : edges.Sublist n.edges) (hnode : ∀ a, g'.hasNode a = true ↔ g.hasNode a = true)
    {P : String → String → Prop}
    (hedge : ∀ a b, g'.hasEdge a b = true ↔ g.hasEdge a b = true ∧ P a b)
    (hkeep : ∀ i j a b, n.names[i]? = some a → n.names[j]? = some b → (i, j) ∈ n.edges →
      ((i, j) ∈ edges ↔ P a b)) :
    { n with edges }.Holds g' where
  index := h.index
  once := h.once.sublist hsub
  ends i j hij := h.ends i j (hsub.mem hij)
  node a := (hnode a).trans (h.node a)
  edge a b := by
    rw [hedge, h.edge]
    constructor
    · rintro ⟨⟨i, j, hi, hj, hij⟩, hab⟩
      exact ⟨i, j, hi, hj, (hkeep i j a b hi hj hij).mpr hab⟩
    · rintro ⟨i, j, hi, hj, hij⟩
      exact ⟨⟨i, j, hi, hj, hsub.mem hij⟩, (hkeep i j a b hi hj (hsub.mem hij)).mp hij⟩

theorem removeEdge (h : n.Holds g) (u v : String) :
    (n.removeEdge u v).Holds (g.removeEdge u v) := by
  have hnode (a : String) : (g.removeEdge u v).hasNode a = true ↔ g.hasNode a = true :=
    Bool.eq_iff_iff.mp Graph.hasNode_removeEdge
  have hmissing (hno : n.index[u]? = none ∨ n.index[v]? = none) : n.Holds (g.removeEdge u v) := by
    refine h.congr hnode fun a b => Graph.hasEdge_removeEdge.trans ⟨And.left, fun hab => ⟨hab, ?_⟩⟩
    rintro ⟨rfl, rfl⟩
    exact hno.elim (fun hu => (h.not_mem_ends hu hab).1 rfl) fun hv => (h.not_mem_ends hv hab).2 rfl
  unfold NumberedGraph.removeEdge
  cases hu : n.index[u]? with
  | none => exact hmissing (.inl hu)
  | some i =>
    cases hv : n.index[v]? with
    | none => exact hmissing (.inr hv)
    | some j =>
      refine h.keepEdges List.erase_sublist hnode (fun a b => Graph.hasEdge_removeEdge) ?_
      intro k l a b hk hl hkl
      rw [h.once.mem_erase_iff, and_iff_left hkl, ne_eq, Prod.mk.injEq]
      exact not_congr (and_congr (h.number_eq_iff hk ((h.index u i).mp hu))
        (h.number_eq_iff hl ((h.index v j).mp hv)))

theorem removeIncoming (h : n.Holds g) (name : String) :
    (n.removeIncoming name).Holds (g.removeIncoming name) := by
  have hnode (a : String) : (g.removeIncoming name).hasNode a = true ↔ g.hasNode a = true :=
    Bool.eq_iff_iff.mp Graph.hasNode_removeIncoming
  unfold NumberedGraph.removeIncoming
  cases hname : n.index[name]? with
  | none =>
    exact h.congr hnode fun a b => Graph.hasEdge_removeIncoming.trans
      ⟨And.left, fun hab => ⟨hab, (h.not_mem_ends hname hab).2⟩⟩
  | some i =>
    refine h.keepEdges List.filter_sublist hnode (fun a b => Graph.hasEdge_removeIncoming) ?_
    intro k l a b hk hl hkl
    rw [List.mem_filter, and_iff_right hkl, bne_iff_ne]
    exact not_congr (h.number_eq_iff hl ((h.index name i).mp hname))

theorem removeNode (h : n.Holds g) (name : String) :
    (n.removeNode name).Holds (g.removeNode name) := by
  cases hname : n.index[name]? with
  | none =>
    simp only [NumberedGraph.removeNode, NumberedGraph.removeIncoming, hname]
    refine h.congr (fun a => Graph.hasNode_removeNode.trans ⟨And.left, fun ha => ⟨ha, ?_⟩⟩)
      fun a b => Graph.hasEdge_removeNode.trans
        ⟨And.left, fun hab => ⟨hab, h.not_mem_ends hname hab⟩⟩
    rintro rfl
    obtain ⟨i, hi⟩ := (h.node a).mp ha
    rw [(h.index a i).mpr hi] at hname
    cases hname
  | some i =>
    have hi := (h.index name i).mp hname
    simp only [NumberedGraph.removeNode, NumberedGraph.removeIncoming, hname]
    have hne {k : Nat} {a : String} (hk : n.names[k]? = some a) : k ≠ i ↔ a ≠ name :=
      not_congr (h.number_eq_iff hk hi)
    have hget (k : Nat) (a : String) : (n.names.erase i)[k]? = some a ↔
        n.names[k]? = some a ∧ a ≠ name := by
      by_cases e : k = i
      · subst e
        simpa using fun hk => not_imp_not.mp (hne hk).mpr rfl
      · simpa [ExtTreeMap.getElem?_erase, Ne.symm e] using fun hk => (hne hk).mp e
    have hgetIndex (k : Nat) (a : String) : (n.index.erase name)[a]? = some k ↔
        n.index[a]? = some k ∧ a ≠ name := by
      by_cases e : a = name
      · simp [e]
      · simp [ExtTreeMap.getElem?_erase, e, Ne.symm e]
    have hedges (k l : Nat) : (k, l) ∈ (n.edges.filter (·.2 != i)).filter
        (fun e => e.1 != i && e.2 != i) ↔ (k, l) ∈ n.edges ∧ k ≠ i ∧ l ≠ i := by
      simp only [List.mem_filter, Bool.and_eq_true, bne_iff_ne]
      exact ⟨fun he => ⟨he.1.1, he.2⟩, fun he => ⟨⟨he.1, he.2.2⟩, he.2⟩⟩
    refine ⟨fun a k => ?_, (h.once.filter _).filter _, fun k l hkl => ?_, fun a => ?_,
      fun a b => ?_⟩
    · rw [hget, hgetIndex, h.index]
    · obtain ⟨hkl, hk, hl⟩ := (hedges k l).mp hkl
      obtain ⟨⟨a, ha⟩, b, hb⟩ := h.ends k l hkl
      exact ⟨⟨a, (hget k a).mpr ⟨ha, (hne ha).mp hk⟩⟩, b, (hget l b).mpr ⟨hb, (hne hb).mp hl⟩⟩
    · simp only [Graph.hasNode_removeNode, h.node, hget, exists_and_right]
    · rw [Graph.hasEdge_removeNode, h.edge]
      constructor
      · rintro ⟨⟨k, l, hk, hl, hkl⟩, ha, hb⟩
        exact ⟨k, l, (hget k a).mpr ⟨hk, ha⟩, (hget l b).mpr ⟨hl, hb⟩,
          (hedges k l).mpr ⟨hkl, (hne hk).mpr ha, (hne hl).mpr hb⟩⟩
      · rintro ⟨k, l, hk, hl, hkl⟩
        obtain ⟨hk, ha⟩ := (hget k a).mp hk
        obtain ⟨hl, hb⟩ := (hget l b).mp hl
        exact ⟨⟨k, l, hk, hl, ((hedges k l).mp hkl).1⟩, ha, hb⟩

theorem apply (h : n.Holds g) (hg : g.Built) (fresh : Numbering) (e : Graph.Edit) :
    (n.apply fresh e).Holds (e.apply g) := by
  cases e with
  | addNode name => exact (h.addNode fresh name).1
  | addEdge source target => exact (h.addEdge hg.acyclic fresh source target).1
  | removeEdge source target => exact h.removeEdge source target
  | removeIncoming name => exact h.removeIncoming name
  | removeNode name => exact h.removeNode name

theorem edit (h : n.Holds g) (hg : g.Built) (fresh : Numbering) (edits : List Graph.Edit) :
    (n.edit fresh edits).Holds (g.edit edits) := by
  induction edits generalizing n g with
  | nil => exact h
  | cons e edits ih => exact ih (h.apply hg fresh e) (hg.apply e)

end Holds

end NumberedGraph

/-! ## 4. Which edges are accepted -/

namespace Graph

variable {g : Graph} {u v : String}

/-- The edges of a graph, and one from `u` to `v`. -/
def EdgeOr (g : Graph) (u v a b : String) : Prop := g.hasEdge a b = true ∨ a = u ∧ b = v

/-- No name leads back to itself. -/
def NoCircle (edge : String → String → Prop) : Prop := ∀ a, ¬ TransGen edge a a

/-- An edge is accepted if no circle comes with it, and then it is the only new one. If it is
    refused, no edge is new. -/
theorem addEdge_cases (hg : g.Acyclic) (u v : String) :
    (NoCircle (g.EdgeOr u v) ∧ (g.addEdge u v).2 = .ok () ∧
      ∀ a b, (g.addEdge u v).1.hasEdge a b = true ↔ g.EdgeOr u v a b) ∨
    (¬ NoCircle (g.EdgeOr u v) ∧ (g.addEdge u v).2 = .error ⟨u, v⟩ ∧
      ∀ a b, (g.addEdge u v).1.hasEdge a b = true ↔ g.hasEdge a b = true) := by
  cases hadd : g.addEdge u v with
  | mk g' r =>
    cases r with
    | ok _ =>
      have hedge (a b : String) : g'.hasEdge a b = true ↔ g.EdgeOr u v a b :=
        (hasEdge_addEdge_of_ok hadd).trans or_comm
      refine .inl ⟨fun a ha => ?_, rfl, hedge⟩
      exact acyclic_addEdge hg hadd a (TransGen.mono (fun a b => (hedge a b).mpr) _ _ ha)
    | error cycle =>
      have hreach : g.Reaches v u := (addEdge_refused_iff hg).mp ⟨cycle, by rw [hadd]⟩
      have hcycle : cycle = ⟨u, v⟩ := by
        unfold addEdge at hadd
        dsimp only at hadd
        split at hadd
        · cases hadd
        · split at hadd
          · cases hadd
            rfl
          · cases hadd
      refine .inr ⟨fun hno => hno u ?_, by rw [hcycle], fun a b => hasEdge_addEdge_of_error hadd⟩
      exact TransGen.head' (.inr ⟨rfl, rfl⟩) (ReflTransGen.mono (fun _ _ => .inl) _ _ hreach)

end Graph

/-! ## 5. All graphs -/

/-- Whatever edits lead to: the index and the names of the nodes are inverse to each other; between
    two nodes there is at most one edge, in one direction; the names have the same nodes and edges
    without numbers, and no circle. An edge is accepted exactly if it closes no circle, and then it
    is the only new one; otherwise the answer is the edge itself and no edge is new. -/
theorem numbered_of_edits (fresh : Numbering) (edits : List Graph.Edit) :
    let n := NumberedGraph.empty.edit fresh edits
    let g := Graph.empty.edit edits
    (∀ (a : String) (i : Nat), n.index[a]? = some i ↔ n.names[i]? = some a) ∧
    (n.edges.Nodup ∧ ∀ i j, (i, j) ∈ n.edges →
      (j, i) ∉ n.edges ∧ (∃ a, n.names[i]? = some a) ∧ ∃ b, n.names[j]? = some b) ∧
    (∀ a, g.hasNode a = true ↔ ∃ i : Nat, n.names[i]? = some a) ∧
    (∀ a b, g.hasEdge a b = true ↔
      ∃ i j : Nat, n.names[i]? = some a ∧ n.names[j]? = some b ∧ (i, j) ∈ n.edges) ∧
    Graph.NoCircle (fun a b => g.hasEdge a b = true) ∧
    ∀ u v, (n.addEdge fresh u v).2 = (g.addEdge u v).2 ∧
      ((g.addEdge u v).2 = .ok () ↔ Graph.NoCircle (g.EdgeOr u v)) ∧
      (Graph.NoCircle (g.EdgeOr u v) →
        ∀ a b, (g.addEdge u v).1.hasEdge a b = true ↔ g.EdgeOr u v a b) ∧
      (¬ Graph.NoCircle (g.EdgeOr u v) → (g.addEdge u v).2 = .error ⟨u, v⟩ ∧
        ∀ a b, (g.addEdge u v).1.hasEdge a b = true ↔ g.hasEdge a b = true) := by
  have hg : (Graph.empty.edit edits).Built := Graph.built_empty.edit edits
  have h : (NumberedGraph.empty.edit fresh edits).Holds (Graph.empty.edit edits) :=
    NumberedGraph.Holds.empty.edit Graph.built_empty fresh edits
  generalize NumberedGraph.empty.edit fresh edits = n at h
  generalize Graph.empty.edit edits = g at h hg
  refine ⟨h.index, ⟨h.once, fun i j hij => ⟨fun hji => ?_, h.ends i j hij⟩⟩, h.node, h.edge,
    hg.acyclic, fun u v => ⟨(h.addEdge hg.acyclic fresh u v).2, ?_⟩⟩
  · exact h.acyclic hg.acyclic i (.tail (.single hij) hji)
  · rcases Graph.addEdge_cases hg.acyclic u v with ⟨hno, hok, hedge⟩ | ⟨hno, herror, hedge⟩
    · exact ⟨⟨fun _ => hno, fun _ => hok⟩, fun _ => hedge, fun hcircle => absurd hno hcircle⟩
    · refine ⟨⟨fun hok => ?_, fun h => absurd h hno⟩, fun h => absurd h hno,
        fun _ => ⟨herror, hedge⟩⟩
      rw [herror] at hok
      cases hok

/-- A name that comes back gets another number. -/
example : (NumberedGraph.empty.edit default
    [.addEdge "a" "b", .addEdge "b" "a", .removeNode "a", .addEdge "b" "a"]).edges = [(2, 3)] := by
  cbv

end QuerySheet

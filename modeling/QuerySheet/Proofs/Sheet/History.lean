import Mathlib
import QuerySheet.Proofs.Sheet.Numbered

/-!
# What does not depend on the history of a graph

The numbers of the nodes and the order in which the edges are kept come from all calls that were
made, those that have been undone too. What is asked of a graph is computed along numbers and edges
as they stand, and sorted by names.

* `NumberedGraph.Led`: calls lead to a numbered graph, whichever free numbers they take and however
  they leave the edges ordered;
* `NumberedGraph.readers`, `NumberedGraph.edgeNames`, `NumberedGraph.topologicalSort` and
  `NumberedGraph.dot`: the answers along numbers. Each is that of the graph which is held
  (`Holds.readers_eq`, `Holds.edgeNames_eq`, `Holds.topologicalSort_eq`, `Holds.dot_eq`);
* `Holds.search_walk`: a depth-first search along numbers is one along names, frame by frame;
* `answers_of_history`: two histories that end with the same nodes and edges give the same answers.
-/

namespace QuerySheet

open Std (ExtTreeMap ExtTreeSet ReflCmp TransCmp LawfulEqCmp)

/-! ## 1. Sorted lists -/

/-- Sorts by a comparison. What it finds equal keeps its order. -/
def sortBy {α : Type} (cmp : α → α → Ordering) (l : List α) : List α :=
  l.mergeSort fun a b => (cmp a b).isLE

section Sorted

variable {α : Type} {cmp : α → α → Ordering} {l m : List α}

theorem mem_sortBy {a : α} : a ∈ sortBy cmp l ↔ a ∈ l := (List.mergeSort_perm ..).mem_iff

theorem nodup_sortBy : (sortBy cmp l).Nodup ↔ l.Nodup := (List.mergeSort_perm ..).nodup_iff

theorem pairwise_sortBy [TransCmp cmp] : (sortBy cmp l).Pairwise fun a b => (cmp a b).isLE := by
  refine List.pairwise_mergeSort (fun a b c => TransCmp.isLE_trans) (fun a b => ?_) l
  have hswap : cmp b a = (cmp a b).swap := Std.OrientedCmp.eq_swap
  rw [hswap]
  cases cmp a b <;> rfl

/-- There is one way to list something in order. -/
theorem eq_of_ordered [TransCmp cmp] [LawfulEqCmp cmp] (hl : l.Pairwise fun a b => (cmp a b).isLE)
    (honce : l.Nodup) (hm : m.Pairwise fun a b => cmp a b = .lt) (hmem : ∀ a, a ∈ l ↔ a ∈ m) :
    l = m := by
  have hself (a : α) : cmp a a = .eq := ReflCmp.compare_self
  have hm' : m.Nodup := hm.imp fun h e => by
    rw [e, hself] at h
    cases h
  refine List.Perm.eq_of_pairwise (fun a b _ _ hab hba => ?_) hl (hm.imp fun h => by simp [h])
    ((List.perm_ext_iff_of_nodup honce hm').mpr hmem)
  exact LawfulEqCmp.eq_of_compare (Std.OrientedCmp.isLE_antisymm hab hba)

theorem sortBy_eq [TransCmp cmp] [LawfulEqCmp cmp] (honce : l.Nodup)
    (hm : m.Pairwise fun a b => cmp a b = .lt) (hmem : ∀ a, a ∈ l ↔ a ∈ m) : sortBy cmp l = m :=
  eq_of_ordered pairwise_sortBy (nodup_sortBy.mpr honce) hm fun a => mem_sortBy.trans (hmem a)

end Sorted

/-- Compares pairs by what comes first in them, and then by what comes second. -/
def byEnds : String × String → String × String → Ordering :=
  compareLex (compareOn Prod.fst) (compareOn Prod.snd)

instance : TransCmp byEnds := inferInstanceAs (TransCmp (compareLex _ _))

instance : LawfulEqCmp byEnds where
  eq_of_compare {e f} h := by
    obtain ⟨h₁, h₂⟩ := compareLex_eq_eq.mp h
    exact Prod.ext (LawfulEqCmp.eq_of_compare h₁) (LawfulEqCmp.eq_of_compare h₂)

/-! ## 2. The answers along numbers -/

namespace NumberedGraph

/-- The name of a node. -/
def name (n : NumberedGraph) (i : Nat) : String := n.names[i]?.getD ""

/-- The nodes that read a node, in the order of the edges. -/
def next (n : NumberedGraph) (i : Nat) : List Nat :=
  n.edges.filterMap fun e => if e.1 = i then some e.2 else none

/-- The nodes that read a node, sorted by their names. -/
def children (n : NumberedGraph) (i : Nat) : List Nat := sortBy (compareOn n.name) (n.next i)

/-- The names of the nodes that read a node, sorted. -/
def readers (n : NumberedGraph) (a : String) : List String :=
  match n.index[a]? with
  | some i => sortBy compare ((n.next i).map n.name)
  | none => []

/-- All edges with the names of their ends, sorted. -/
def edgeNames (n : NumberedGraph) : List (String × String) :=
  sortBy byEnds (n.edges.map fun e => (n.name e.1, n.name e.2))

/-- How many edges start at a node that has not been seen. -/
def unseen (n : NumberedGraph) (seen : ExtTreeSet Nat) : Nat :=
  n.edges.countP fun e => !seen.contains e.1

theorem mem_next {n : NumberedGraph} {i j : Nat} : j ∈ n.next i ↔ (i, j) ∈ n.edges := by
  simp [next]

theorem unseen_insert_le (n : NumberedGraph) (seen : ExtTreeSet Nat) (i : Nat) :
    n.unseen (seen.insert i) ≤ n.unseen seen := by
  refine List.countP_mono_left fun e _ he => ?_
  simp only [ExtTreeSet.contains_insert, Bool.not_eq_eq_eq_not, Bool.not_true,
    Bool.or_eq_false_iff] at he ⊢
  exact he.2

theorem unseen_insert_lt {n : NumberedGraph} {seen : ExtTreeSet Nat} {i : Nat}
    (hseen : ¬ seen.contains i = true) (hread : n.children i ≠ []) :
    n.unseen (seen.insert i) < n.unseen seen := by
  obtain ⟨j, hj⟩ := List.exists_mem_of_ne_nil _ hread
  refine Graph.countP_lt_countP (a := (i, j)) (fun e _ he => ?_)
    (mem_next.mp (mem_sortBy.mp hj)) (by simp [hseen]) (by simp)
  simp only [ExtTreeSet.contains_insert, Bool.not_eq_eq_eq_not, Bool.not_true,
    Bool.or_eq_false_iff] at he ⊢
  exact he.2

/-- Depth-first search with a stack of open nodes, each with the children that are left, the next
    one first. A node is put in front of `order` when none of its children is left; the child with
    the last name is the first one that is opened. -/
def walk (n : NumberedGraph) (stack : List (Nat × List Nat)) (seen : ExtTreeSet Nat)
    (order : List String) : ExtTreeSet Nat × List String :=
  match stack with
  | [] => (seen, order)
  | (i, []) :: stack => n.walk stack seen (n.name i :: order)
  | (i, j :: left) :: stack =>
    if _hj : seen.contains j then n.walk ((i, left) :: stack) seen order
    else n.walk ((j, (n.children j).reverse) :: (i, left) :: stack) (seen.insert j) order
termination_by (n.unseen seen, (stack.map fun f => 2 * f.2.length + 1).sum)
decreasing_by
  · exact Prod.Lex.right _ (by simp)
  · exact Prod.Lex.right _ (by simp)
  · by_cases hread : n.children j = []
    · rcases Nat.lt_or_eq_of_le (n.unseen_insert_le seen j) with h | h
      · exact Prod.Lex.left _ _ h
      · rw [h]
        exact Prod.Lex.right _ (by simp [hread]; omega)
    · exact Prod.Lex.left _ _ (unseen_insert_lt _hj hread)

/-- A search from one seed after the other. A seed that is no node is listed by itself, once. -/
def sortFrom (n : NumberedGraph) (seen : ExtTreeSet Nat) (alone : ExtTreeSet String)
    (order : List String) : List String → List String
  | [] => order
  | seed :: seeds =>
    match n.index[seed]? with
    | none =>
      if alone.contains seed then n.sortFrom seen alone order seeds
      else n.sortFrom seen (alone.insert seed) (seed :: order) seeds
    | some i =>
      if seen.contains i then n.sortFrom seen alone order seeds
      else
        let found := n.walk [(i, (n.children i).reverse)] (seen.insert i) order
        n.sortFrom found.1 alone found.2 seeds

/-- Every node that can be reached from the seeds, each once, and after the nodes it reads. -/
def topologicalSort (n : NumberedGraph) (seeds : List String) : List String :=
  n.sortFrom ∅ ∅ [] seeds

namespace Holds

variable {n : NumberedGraph} {g : Graph} {a b : String} {i j : Nat}

theorem name_eq (hi : n.names[i]? = some a) : n.name i = a := by
  rw [name, hi, Option.getD_some]

/-- What has no number is no node. -/
theorem successors_of_none (h : n.Holds g) (ha : n.index[a]? = none) : g.successors[a]? = none := by
  refine ExtTreeMap.getElem?_eq_none fun hmem => ?_
  obtain ⟨i, hi⟩ := (h.node a).mp (ExtTreeMap.contains_iff_mem.mpr hmem)
  rw [(h.index a i).mpr hi] at ha
  cases ha

theorem successors_of_some (h : n.Holds g) (hi : n.names[i]? = some a) :
    ∃ next, g.successors[a]? = some next :=
  Option.isSome_iff_exists.mp
    (ExtTreeMap.contains_eq_isSome_getElem?.symm.trans ((h.node a).mpr ⟨i, hi⟩))

end Holds

end NumberedGraph

/-! ## 3. The answers of a graph -/

namespace Graph

variable {g : Graph} {a b : String}

theorem mem_readers : b ∈ g.readers a ↔ g.hasEdge a b = true := by
  rw [readers, hasEdge_iff]
  split
  · rename_i next hnext
    simp [hnext, ExtTreeSet.mem_toList]
  · rename_i hnone
    simp [hnone]

theorem ordered_readers : (g.readers a).Pairwise fun b c => compare b c = .lt := by
  rw [readers]
  split
  · exact ExtTreeSet.ordered_toList
  · exact .nil

theorem mem_nodes : a ∈ g.nodes ↔ g.hasNode a = true :=
  ExtTreeMap.mem_keys.trans ExtTreeMap.contains_iff_mem.symm

theorem mem_edges : (a, b) ∈ g.edges ↔ g.hasEdge a b = true := by
  rw [edges, List.mem_flatMap, hasEdge_iff]
  constructor
  · rintro ⟨⟨a, next⟩, hnext, he⟩
    obtain ⟨b, hb, heq⟩ := List.mem_map.mp he
    cases heq
    exact ⟨next, ExtTreeMap.mem_toList_iff_getElem?_eq_some.mp hnext, ExtTreeSet.mem_toList.mp hb⟩
  · rintro ⟨next, hnext, hb⟩
    exact ⟨(a, next), ExtTreeMap.mem_toList_iff_getElem?_eq_some.mpr hnext,
      List.mem_map.mpr ⟨b, ExtTreeSet.mem_toList.mpr hb, rfl⟩⟩

theorem ordered_edges : g.edges.Pairwise fun e f => byEnds e f = .lt := by
  refine List.pairwise_flatMap.mpr ⟨fun p _ => List.pairwise_map.mpr ?_, ?_⟩
  · refine ExtTreeSet.ordered_toList.imp fun {b c} h => ?_
    simp [byEnds, compareLex, compareOn, h]
  · refine ExtTreeMap.ordered_keys_toList.imp fun {p q} h e he f hf => ?_
    obtain ⟨b, -, rfl⟩ := List.mem_map.mp he
    obtain ⟨c, -, rfl⟩ := List.mem_map.mp hf
    simp [byEnds, compareLex, compareOn, h]

/-- A graph is its nodes and its edges. -/
theorem eq_of_contents {g' : Graph} (hnode : ∀ a, g.hasNode a = g'.hasNode a)
    (hedge : ∀ a b, g.hasEdge a b = g'.hasEdge a b) : g = g' := by
  obtain ⟨s⟩ := g
  obtain ⟨s'⟩ := g'
  congr 1
  refine ExtTreeMap.ext_getElem? fun a => ?_
  have hthere : s[a]?.isSome = s'[a]?.isSome := by
    rw [ExtTreeMap.isSome_getElem?_eq_contains, ExtTreeMap.isSome_getElem?_eq_contains]
    exact hnode a
  have hnext (b : String) := hedge a b
  cases h : s[a]? with
  | none =>
    rw [h, Option.isSome_none] at hthere
    exact (Option.isSome_eq_false_iff.mp hthere.symm |> Option.isNone_iff_eq_none.mp).symm
  | some next =>
    obtain ⟨next', h'⟩ := Option.isSome_iff_exists.mp (hthere.symm.trans (by rw [h]; rfl))
    rw [h']
    simp only [hasEdge, h, h'] at hnext
    exact congrArg some (ExtTreeSet.ext_contains hnext)

end Graph

/-! ## 4. Along numbers and along names -/

namespace NumberedGraph

open QuerySheet.Graph (Task)

namespace Holds

variable {n : NumberedGraph} {g : Graph} {a b : String} {i j : Nat}

theorem mem_names_next (h : n.Holds g) (hi : n.names[i]? = some a) :
    b ∈ (n.next i).map n.name ↔ g.hasEdge a b = true := by
  rw [h.edge, List.mem_map]
  constructor
  · rintro ⟨j, hj, rfl⟩
    have hij := mem_next.mp hj
    obtain ⟨-, c, hc⟩ := h.ends i j hij
    exact ⟨i, j, hi, by rwa [name_eq hc], hij⟩
  · rintro ⟨i', j, hi', hj, hij⟩
    rw [h.number_unique hi' hi] at hij
    exact ⟨j, mem_next.mpr hij, name_eq hj⟩

/-- A node is read by no name twice. -/
theorem nodup_names_next (h : n.Holds g) (i : Nat) : ((n.next i).map n.name).Nodup := by
  refine List.Nodup.map_on (fun j hj k hk e => ?_) (h.once.filterMap fun e f j hj hk => ?_)
  · obtain ⟨-, b, hb⟩ := h.ends i j (mem_next.mp hj)
    obtain ⟨-, c, hc⟩ := h.ends i k (mem_next.mp hk)
    exact (h.number_eq_iff hb hc).mpr (by rw [← name_eq hb, e, name_eq hc])
  · grind

/-- The children of a node have the names of its readers, in their order. -/
theorem map_children (h : n.Holds g) (hi : n.names[i]? = some a) :
    (n.children i).map n.name = g.readers a := by
  have hperm : ((n.children i).map n.name).Perm ((n.next i).map n.name) :=
    (List.mergeSort_perm ..).map _
  have hsorted : (n.children i).Pairwise fun j k => (compareOn n.name j k).isLE := pairwise_sortBy
  refine eq_of_ordered (List.pairwise_map.mpr hsorted) (hperm.nodup_iff.mpr (h.nodup_names_next i))
    Graph.ordered_readers fun b => ?_
  rw [hperm.mem_iff, h.mem_names_next hi, Graph.mem_readers]

theorem readers_eq (h : n.Holds g) (a : String) : n.readers a = g.readers a := by
  rw [NumberedGraph.readers]
  cases ha : n.index[a]? with
  | none =>
    simp [Graph.readers, h.successors_of_none ha]
  | some i =>
    refine sortBy_eq (h.nodup_names_next i) Graph.ordered_readers fun b => ?_
    rw [h.mem_names_next ((h.index a i).mp ha), Graph.mem_readers]

theorem edgeNames_eq (h : n.Holds g) : n.edgeNames = g.edges := by
  have hname {e : Nat × Nat} (he : e ∈ n.edges) :
      n.names[e.1]? = some (n.name e.1) ∧ n.names[e.2]? = some (n.name e.2) := by
    obtain ⟨⟨a, ha⟩, b, hb⟩ := h.ends e.1 e.2 he
    exact ⟨by rwa [name_eq ha], by rwa [name_eq hb]⟩
  refine sortBy_eq (List.Nodup.map_on (fun e he f hf heq => ?_) h.once) Graph.ordered_edges
    fun ⟨a, b⟩ => ?_
  · obtain ⟨h₁, h₂⟩ := Prod.mk.inj heq
    exact Prod.ext ((h.number_eq_iff (hname he).1 (hname hf).1).mpr h₁)
      ((h.number_eq_iff (hname he).2 (hname hf).2).mpr h₂)
  · rw [Graph.mem_edges, h.edge, List.mem_map]
    constructor
    · rintro ⟨f, hf, heq⟩
      cases heq
      exact ⟨f.1, f.2, (hname hf).1, (hname hf).2, hf⟩
    · rintro ⟨i, j, hi, hj, hij⟩
      exact ⟨(i, j), hij, Prod.ext (name_eq hi) (name_eq hj)⟩

end Holds

/-! ### The search -/

/-- What is left to do along names where a search along numbers stands: of each open node to visit
    the children that are left, and then to list it. -/
def tasks (n : NumberedGraph) (stack : List (Nat × List Nat)) : List Task :=
  stack.flatMap fun f => f.2.map (fun j => .visit (n.name j)) ++ [.finish (n.name f.1)]

/-- The same nodes have been seen. -/
def SameSeen (n : NumberedGraph) (seen : ExtTreeSet Nat) (visited : ExtTreeSet String) : Prop :=
  ∀ (i : Nat) (a : String), n.names[i]? = some a → visited.contains a = seen.contains i

/-- The children that are left are nodes. -/
def LeftNodes (n : NumberedGraph) (stack : List (Nat × List Nat)) : Prop :=
  ∀ f ∈ stack, ∀ j ∈ f.2, ∃ a, n.names[j]? = some a

namespace Holds

variable {n : NumberedGraph} {g : Graph} {a b : String} {i j : Nat} {seen : ExtTreeSet Nat}
  {visited : ExtTreeSet String}

theorem leftNodes_cons {left : List Nat} {stack : List (Nat × List Nat)} :
    n.LeftNodes ((i, left) :: stack) ↔
      (∀ j ∈ left, ∃ a, n.names[j]? = some a) ∧ n.LeftNodes stack :=
  List.forall_mem_cons

theorem leftNodes_child {left : List Nat} {stack : List (Nat × List Nat)} :
    n.LeftNodes ((i, j :: left) :: stack) ↔
      (∃ a, n.names[j]? = some a) ∧ n.LeftNodes ((i, left) :: stack) := by
  rw [leftNodes_cons, leftNodes_cons, List.forall_mem_cons, and_assoc]

theorem leftNodes_open (h : n.Holds g) {stack : List (Nat × List Nat)}
    (hstack : n.LeftNodes stack) : n.LeftNodes ((i, (n.children i).reverse) :: stack) := by
  refine leftNodes_cons.mpr ⟨fun j hj => ?_, hstack⟩
  exact (h.ends i j (mem_next.mp (mem_sortBy.mp (List.mem_reverse.mp hj)))).2

theorem sameSeen_insert (h : n.Holds g) (hseen : n.SameSeen seen visited)
    (hi : n.names[i]? = some a) : n.SameSeen (seen.insert i) (visited.insert a) := by
  intro j b hj
  rw [Bool.eq_iff_iff]
  simp only [ExtTreeSet.contains_insert, Bool.or_eq_true, beq_iff_eq, Std.compare_eq_iff_eq,
    hseen j b hj, h.number_eq_iff hi hj]

/-- A name without a number is not seen when a node is. -/
theorem alone_insert (h : n.Holds g) (hi : n.names[i]? = some a) (hb : n.index[b]? = none) :
    (visited.insert a).contains b = visited.contains b := by
  have hne : a ≠ b := fun e => by
    rw [← e, (h.index a i).mpr hi] at hb
    cases hb
  simp [ExtTreeSet.contains_insert, hne]

/-- A node is opened along names when it is opened along numbers. -/
theorem search_open (h : n.Holds g) (hi : n.names[i]? = some a) (hv : ¬ visited.contains a = true)
    (stack : List (Nat × List Nat)) (rest : List Task) (order : List String) :
    g.search (.visit a :: (n.tasks stack ++ rest)) visited order =
      g.search (n.tasks ((i, (n.children i).reverse) :: stack) ++ rest) (visited.insert a)
        order := by
  obtain ⟨next, hnext⟩ := h.successors_of_some hi
  have hreaders : next.toList = (n.children i).map n.name := by
    rw [h.map_children hi, Graph.readers, hnext]
  rw [Graph.search_of_some hv hnext]
  simp [tasks, hreaders, name_eq hi, Function.comp_def]

/-- A search along names keeps step with one along numbers. When the stack is empty, it has listed
    the same names, and has seen the same nodes and no other names than before. -/
theorem search_walk (h : n.Holds g) (stack : List (Nat × List Nat)) (seen : ExtTreeSet Nat)
    (order : List String) (hstack : n.LeftNodes stack) (hseen : n.SameSeen seen visited)
    (rest : List Task) :
    ∃ visited', n.SameSeen (n.walk stack seen order).1 visited' ∧
      (∀ a, n.index[a]? = none → visited'.contains a = visited.contains a) ∧
      g.search (n.tasks stack ++ rest) visited order =
        g.search rest visited' (n.walk stack seen order).2 := by
  induction stack, seen, order using walk.induct n generalizing visited with
  | case1 seen order =>
    rw [walk]
    exact ⟨visited, hseen, fun _ _ => rfl, rfl⟩
  | case2 seen order i stack ih =>
    rw [walk]
    obtain ⟨visited', hsame, halone, hsearch⟩ :=
      ih (leftNodes_cons.mp hstack).2 hseen
    refine ⟨visited', hsame, halone, Eq.trans ?_ hsearch⟩
    simp [tasks, Graph.search]
  | case3 seen order i j left stack hj ih =>
    rw [walk, dif_pos hj]
    obtain ⟨⟨a, ha⟩, hleft⟩ := leftNodes_child.mp hstack
    obtain ⟨visited', hsame, halone, hsearch⟩ := ih hleft hseen
    refine ⟨visited', hsame, halone, Eq.trans ?_ hsearch⟩
    have hv : visited.contains a = true := (hseen j a ha).trans hj
    simp [tasks, name_eq ha, Graph.search, hv]
  | case4 seen order i j left stack hj ih =>
    rw [walk, dif_neg hj]
    obtain ⟨⟨a, ha⟩, hleft⟩ := leftNodes_child.mp hstack
    obtain ⟨visited', hsame, halone, hsearch⟩ :=
      ih (h.leftNodes_open hleft) (h.sameSeen_insert hseen ha)
    have hv : ¬ visited.contains a = true := fun hv => hj ((hseen j a ha).symm.trans hv)
    refine ⟨visited', hsame, fun b hb => (halone b hb).trans (h.alone_insert ha hb),
      Eq.trans ?_ hsearch⟩
    rw [← h.search_open ha hv]
    simp [tasks, name_eq ha]

theorem sortFrom_eq (h : n.Holds g) (seeds : List String) {alone : ExtTreeSet String}
    {order : List String} (hseen : n.SameSeen seen visited)
    (halone : ∀ a, n.index[a]? = none → visited.contains a = alone.contains a) :
    n.sortFrom seen alone order seeds = g.search (seeds.map .visit) visited order := by
  induction seeds generalizing seen alone visited order with
  | nil => simp [sortFrom, Graph.search]
  | cons seed seeds ih =>
    rw [sortFrom, List.map_cons]
    split
    · rename_i hnone
      split
      · rename_i hthere
        rw [ih hseen halone, Graph.search, dif_pos ((halone seed hnone).trans hthere)]
      · rename_i hthere
        have hv : ¬ visited.contains seed = true := by rwa [halone seed hnone]
        rw [Graph.search_of_none hv (h.successors_of_none hnone)]
        refine ih (fun i a hi => ?_) fun a ha => ?_
        · have hne : ¬ seed = a := fun e => by
            rw [e, (h.index a i).mpr hi] at hnone
            cases hnone
          simp [ExtTreeSet.contains_insert, hne, hseen i a hi]
        · simp [ExtTreeSet.contains_insert, halone a ha]
    · rename_i i hi
      have hname := (h.index seed i).mp hi
      have hsame := hseen i seed hname
      split
      · rename_i hthere
        rw [ih hseen halone, Graph.search, dif_pos (hsame.trans hthere)]
      · rename_i hthere
        have hv : ¬ visited.contains seed = true := by rwa [hsame]
        obtain ⟨visited', hsame', halone', hsearch⟩ :=
          h.search_walk [(i, (n.children i).reverse)] (seen.insert i) order
            (h.leftNodes_open (List.forall_mem_nil _)) (h.sameSeen_insert hseen hname)
            (seeds.map .visit)
        rw [ih hsame' fun a ha => ?_, ← hsearch]
        · exact (h.search_open hname hv [] (seeds.map .visit) order).symm
        · rw [halone' a ha, h.alone_insert hname ha, halone a ha]

theorem topologicalSort_eq (h : n.Holds g) (seeds : List String) :
    n.topologicalSort seeds = g.topologicalSort seeds :=
  h.sortFrom_eq seeds (fun _ _ _ => by simp) fun _ _ => rfl

end Holds

end NumberedGraph

/-! ## 5. Drawing -/

/-- A drawing in the DOT language: of each of some nodes those that read it. -/
def Graph.draw (readers : String → List String) (nodes : List String) : String :=
  let line (name : String) : Option String :=
    let next := readers name
    if next.isEmpty then none
    else some ("  " ++ name ++ " -> \x7b" ++ ",".intercalate next ++ "\x7d")
  let drawing :=
    "digraph G \x7b\n" ++ "\n".intercalate (nodes.filterMap line) ++ "\n\x7d"
  String.ofList (drawing.toList.map fun c => if c = '!' then '_' else c)

theorem Graph.dot_eq (g : Graph) : g.dot = draw g.readers g.nodes := rfl

namespace NumberedGraph

/-- The drawing of a graph whose index lists its names in some order. -/
def dot (n : NumberedGraph) (listed : List String) : String :=
  Graph.draw n.readers (sortBy compare listed)

/-- The index has the names of the nodes. -/
theorem Holds.keys_eq {n : NumberedGraph} {g : Graph} (h : n.Holds g) : n.index.keys = g.nodes := by
  have hle : n.index.keys.Pairwise fun a b => (compare a b).isLE :=
    ExtTreeMap.ordered_keys.imp fun h => by simp [h]
  refine eq_of_ordered hle (ExtTreeMap.distinct_keys.imp fun h e => h (by simp [e]))
    ExtTreeMap.ordered_keys fun a => ?_
  rw [ExtTreeMap.mem_keys, ExtTreeMap.mem_iff_isSome_getElem?, Option.isSome_iff_exists]
  exact (exists_congr fun i => h.index a i).trans ((h.node a).symm.trans Graph.mem_nodes.symm)

theorem Holds.dot_eq {n : NumberedGraph} {g : Graph} (h : n.Holds g) {listed : List String}
    (hlisted : listed.Perm n.index.keys) : n.dot listed = g.dot := by
  rw [h.keys_eq] at hlisted
  have honce : g.nodes.Nodup := ExtTreeMap.distinct_keys.imp fun h e => h (by simp [e])
  rw [Graph.dot_eq, dot, funext h.readers_eq, sortBy_eq (hlisted.nodup_iff.mpr honce)
    ExtTreeMap.ordered_keys fun a => hlisted.mem_iff]
  rfl

/-! ## 6. Histories -/

/-- What calls lead to. At every call it is open which free number a new node gets, and in which
    order the edges are kept from then on. -/
inductive Led : List Graph.Edit → NumberedGraph → Prop where
  | empty : Led [] .empty
  | step {edits : List Graph.Edit} {n : NumberedGraph} (h : Led edits n) (fresh : Numbering)
      (e : Graph.Edit) {edges : List (Nat × Nat)} (hedges : edges.Perm (n.apply fresh e).edges) :
      Led (edits ++ [e]) { n.apply fresh e with edges }

/-- The order of the edges does not count. -/
theorem Holds.perm {n : NumberedGraph} {g : Graph} (h : n.Holds g) {edges : List (Nat × Nat)}
    (hedges : edges.Perm n.edges) : { n with edges }.Holds g where
  index := h.index
  once := hedges.nodup_iff.mpr h.once
  ends i j hij := h.ends i j (hedges.mem_iff.mp hij)
  node := h.node
  edge a b := by simpa only [hedges.mem_iff] using h.edge a b

theorem Led.holds {edits : List Graph.Edit} {n : NumberedGraph} (h : Led edits n) :
    n.Holds (Graph.empty.edit edits) := by
  induction h with
  | empty => exact .empty
  | step _ fresh e hedges ih =>
    rw [Graph.edit, List.foldl_append]
    exact (ih.apply (Graph.built_empty.edit _) fresh e).perm hedges

/-- Calls that leave the edges as they are lead somewhere. -/
theorem led_edit (fresh : Numbering) (edits : List Graph.Edit) :
    Led edits (NumberedGraph.empty.edit fresh edits) := by
  induction edits using List.reverseRecOn with
  | nil => exact .empty
  | append_singleton edits e ih =>
    rw [edit, List.foldl_append]
    exact ih.step fresh e (.refl _)

end NumberedGraph

/-- What can be asked of a graph. -/
structure Answers where
  topologicalSort : List String → List String
  edges : List (String × String)
  readers : String → List String
  dot : String

def Graph.answers (g : Graph) : Answers := ⟨g.topologicalSort, g.edges, g.readers, g.dot⟩

/-- The answers of a graph whose index lists its names in some order. -/
def NumberedGraph.answers (n : NumberedGraph) (listed : List String) : Answers :=
  ⟨n.topologicalSort, n.edgeNames, n.readers, n.dot listed⟩

theorem NumberedGraph.Holds.answers_eq {n : NumberedGraph} {g : Graph} (h : n.Holds g)
    {listed : List String} (hlisted : listed.Perm n.index.keys) : n.answers listed = g.answers := by
  rw [NumberedGraph.answers, Graph.answers, funext h.topologicalSort_eq, h.edgeNames_eq,
    funext h.readers_eq, h.dot_eq hlisted]

/-- Two histories that end with the same nodes and edges give the same answers: the sort of any
    seeds, the edges, the readers of any name and the drawing. It does not count which numbers were
    given out, how the edges are ordered and in what order the index lists the names; the answers
    are those of the graphs without numbers. -/
theorem answers_of_history {edits edits' : List Graph.Edit} {n n' : NumberedGraph}
    (h : NumberedGraph.Led edits n) (h' : NumberedGraph.Led edits' n')
    {listed listed' : List String}
    (hlisted : listed.Perm n.index.keys) (hlisted' : listed'.Perm n'.index.keys)
    (hnode : ∀ a, (Graph.empty.edit edits).hasNode a = (Graph.empty.edit edits').hasNode a)
    (hedge : ∀ a b, (Graph.empty.edit edits).hasEdge a b = (Graph.empty.edit edits').hasEdge a b) :
    n.answers listed = n'.answers listed' ∧
      n.answers listed = (Graph.empty.edit edits).answers ∧
      n'.answers listed' = (Graph.empty.edit edits').answers := by
  have hheld := h.holds.answers_eq hlisted
  have hheld' := h'.holds.answers_eq hlisted'
  refine ⟨?_, hheld, hheld'⟩
  rw [hheld, hheld', Graph.eq_of_contents hnode hedge]

/-- Two nodes read a third one. -/
def forked : NumberedGraph := NumberedGraph.empty.edit default [.addEdge "a" "b", .addEdge "a" "c"]

/-- The same, after a node has been there for a while, and with the edges in the other order. -/
def forkedLate : NumberedGraph := NumberedGraph.empty.edit default
  [.addNode "x", .addEdge "a" "c", .removeNode "x", .addEdge "a" "b"]

theorem answers_of_detour :
    forked.edges = [(1, 4), (1, 2)] ∧ forkedLate.edges = [(2, 7), (2, 4)] ∧
      forked.answers ["a", "b", "c"] = forkedLate.answers ["c", "b", "a"] := by
  have h : NumberedGraph.Led _ forked := NumberedGraph.led_edit default _
  have h' : NumberedGraph.Led _ forkedLate := NumberedGraph.led_edit default _
  have hkeys : forked.index.keys = ["a", "b", "c"] := by cbv
  have hkeys' : forkedLate.index.keys = ["a", "b", "c"] := by cbv
  have hedges : forked.edgeNames = forkedLate.edgeNames := by cbv
  have hlisted : ["c", "b", "a"].Perm forkedLate.index.keys := by
    rw [hkeys']
    decide
  refine ⟨by cbv, by cbv, ?_⟩
  refine (answers_of_history h h' (hkeys ▸ .refl _) hlisted (fun a => ?_) fun a b => ?_).1
  · rw [Bool.eq_iff_iff, ← Graph.mem_nodes, ← Graph.mem_nodes, ← h.holds.keys_eq,
      ← h'.holds.keys_eq, hkeys, hkeys']
  · rw [Bool.eq_iff_iff, ← Graph.mem_edges, ← Graph.mem_edges, ← h.holds.edgeNames_eq, hedges,
      h'.holds.edgeNames_eq]

end QuerySheet

import Std.Data.ExtTreeMap.Lemmas
import Std.Data.ExtTreeSet.Lemmas

/-!
# The graph of cells

An edge from `a` to `b` says that `b` reads `a`, so `a` comes first. A graph is its nodes with the
nodes that read each of them; two graphs with the same nodes and edges are equal.

* `Graph.addEdge` refuses an edge that would close a cycle;
* `Graph.topologicalSort` lists all nodes that can be reached from some seeds, each after the
  nodes it reads;
* `Graph.hasPath` says whether a node can be reached from another;
* `Graph.dot` draws the graph.
-/

namespace QuerySheet

open Std (ExtTreeMap ExtTreeSet)

/-- For each node the nodes that read it. -/
structure Graph where
  successors : ExtTreeMap String (ExtTreeSet String)

namespace Graph

/-! ## 1. Nodes and edges -/

def empty : Graph := ⟨∅⟩

instance : Inhabited Graph := ⟨empty⟩

/-- The nodes in the order of their names. -/
def nodes (g : Graph) : List String := g.successors.keys

def hasNode (g : Graph) (name : String) : Bool := g.successors.contains name

def nodeCount (g : Graph) : Nat := g.successors.size

/-- The nodes that read a node, in the order of their names. -/
def readers (g : Graph) (name : String) : List String :=
  match g.successors[name]? with
  | some next => next.toList
  | none => []

def hasEdge (g : Graph) (source target : String) : Bool :=
  match g.successors[source]? with
  | some next => next.contains target
  | none => false

/-- All edges in the order of their names. -/
def edges (g : Graph) : List (String × String) :=
  g.successors.toList.flatMap fun (source, next) => next.toList.map (source, ·)

def addNode (g : Graph) (name : String) : Graph :=
  if g.hasNode name then g else ⟨g.successors.insert name ∅⟩

/-- Puts an edge between two nodes. -/
def insertEdge (g : Graph) (source target : String) : Graph :=
  ⟨g.successors.alter source fun next => some ((next.getD ∅).insert target)⟩

def removeEdge (g : Graph) (source target : String) : Graph :=
  ⟨g.successors.alter source fun next => next.map (·.erase target)⟩

/-- Takes away everything a node reads. -/
def removeIncoming (g : Graph) (name : String) : Graph :=
  ⟨g.successors.map fun _ next => next.erase name⟩

/-- Takes away a node and every edge that touches it. -/
def removeNode (g : Graph) (name : String) : Graph :=
  ⟨(g.removeIncoming name).successors.erase name⟩

/-! ### Edges after a change -/

section Edges

variable {g : Graph} {a b u v : String}

theorem hasEdge_iff :
    g.hasEdge a b ↔ ∃ next, g.successors[a]? = some next ∧ b ∈ next := by
  unfold hasEdge
  split <;> simp_all

theorem hasEdge_empty : ¬ empty.hasEdge a b := by
  simp [hasEdge, empty]

theorem hasEdge_addNode {name : String} : (g.addNode name).hasEdge a b ↔ g.hasEdge a b := by
  unfold addNode
  split
  · rfl
  · rename_i h
    have hnone : g.successors[name]? = none :=
      ExtTreeMap.getElem?_eq_none (by simpa [hasNode] using h)
    by_cases e : name = a
    · subst e; simp [hasEdge_iff, hnone]
    · simp [hasEdge_iff, ExtTreeMap.getElem?_insert, e]

theorem hasEdge_insertEdge :
    (g.insertEdge u v).hasEdge a b ↔ (a = u ∧ b = v) ∨ g.hasEdge a b := by
  by_cases e : u = a
  · subst e
    cases h : g.successors[u]? <;> simp [hasEdge_iff, insertEdge, h, @eq_comm _ b v]
  · have e' : ¬ a = u := fun h => e h.symm
    simp [hasEdge_iff, insertEdge, ExtTreeMap.getElem?_alter, e, e']

theorem hasEdge_removeEdge :
    (g.removeEdge u v).hasEdge a b ↔ g.hasEdge a b ∧ ¬ (a = u ∧ b = v) := by
  by_cases e : u = a
  · subst e
    cases h : g.successors[u]? with
    | none => simp [hasEdge_iff, removeEdge, h]
    | some next => simp [hasEdge_iff, removeEdge, h, @eq_comm _ b v, and_comm]
  · have e' : ¬ a = u := fun h => e h.symm
    simp [hasEdge_iff, removeEdge, ExtTreeMap.getElem?_alter, e, e']

theorem hasEdge_removeIncoming :
    (g.removeIncoming v).hasEdge a b ↔ g.hasEdge a b ∧ b ≠ v := by
  cases h : g.successors[a]? with
  | none => simp [hasEdge_iff, removeIncoming, h]
  | some next => simp [hasEdge_iff, removeIncoming, h, @eq_comm _ b v, and_comm]

theorem hasNode_addNode {name : String} :
    (g.addNode name).hasNode a = true ↔ a = name ∨ g.hasNode a = true := by
  unfold addNode
  split
  · rename_i h
    exact ⟨.inr, fun h' => h'.elim (fun e => by rwa [e]) id⟩
  · simp [hasNode, @eq_comm _ a name]

theorem hasNode_insertEdge :
    (g.insertEdge u v).hasNode a = true ↔ a = u ∨ g.hasNode a = true := by
  by_cases e : u = a
  · subst e; simp [hasNode, insertEdge]
  · have e' : ¬ a = u := fun h => e h.symm
    simp [hasNode, insertEdge, ExtTreeMap.mem_alter, e, e']

theorem hasNode_removeEdge : (g.removeEdge u v).hasNode a = g.hasNode a := by
  by_cases e : u = a
  · subst e
    rw [hasNode, hasNode, removeEdge, ExtTreeMap.contains_alter_self, Option.isSome_map,
      ExtTreeMap.isSome_getElem?_eq_contains]
  · simp [hasNode, removeEdge, ExtTreeMap.contains_alter, e]

theorem hasNode_removeIncoming : (g.removeIncoming v).hasNode a = g.hasNode a := by
  simp [hasNode, removeIncoming]

theorem hasEdge_removeNode :
    (g.removeNode v).hasEdge a b ↔ g.hasEdge a b ∧ a ≠ v ∧ b ≠ v := by
  have herase : (g.removeNode v).hasEdge a b ↔ (g.removeIncoming v).hasEdge a b ∧ a ≠ v := by
    by_cases e : v = a
    · subst e; simp [hasEdge_iff, removeNode]
    · have e' : ¬ a = v := fun h => e h.symm
      simp [hasEdge_iff, removeNode, ExtTreeMap.getElem?_erase, e, e']
  rw [herase, hasEdge_removeIncoming, and_assoc, and_comm (a := b ≠ v)]

theorem hasNode_removeNode :
    (g.removeNode v).hasNode a = true ↔ g.hasNode a = true ∧ a ≠ v := by
  have herase : (g.removeNode v).hasNode a = true ↔
      a ≠ v ∧ (g.removeIncoming v).hasNode a = true := by
    simp [hasNode, removeNode, @eq_comm _ v a]
  rw [herase, hasNode_removeIncoming, and_comm]

end Edges

/-! ## 2. Depth-first search -/

/-- What is left to do: to visit a node, or to list one whose readers are all listed. -/
inductive Task where
  | visit (name : String)
  | finish (name : String)

/-- How many nodes have not been visited. -/
def unvisited (g : Graph) (visited : ExtTreeSet String) : Nat :=
  g.nodes.countP fun name => !visited.contains name

theorem countP_lt_countP {α : Type} {p q : α → Bool} {a : α} {l : List α}
    (hpq : ∀ x ∈ l, p x = true → q x = true) (ha : a ∈ l) (hq : q a = true) (hp : p a = false) :
    l.countP p < l.countP q := by
  induction l with
  | nil => cases ha
  | cons x l ih =>
    have hle : l.countP p ≤ l.countP q :=
      List.countP_mono_left fun y hy h => hpq y (List.mem_cons_of_mem _ hy) h
    have hx := hpq x List.mem_cons_self
    rcases List.mem_cons.mp ha with rfl | ha
    · simp only [List.countP_cons, hp, hq, Bool.false_eq_true, ↓reduceIte]; omega
    · have := ih (fun y hy h => hpq y (List.mem_cons_of_mem _ hy) h) ha
      simp only [List.countP_cons]
      cases hpx : p x
      · simp only [Bool.false_eq_true, ↓reduceIte]; omega
      · simp only [↓reduceIte, hx hpx]; omega

/-- Visiting a node leaves fewer to visit. -/
theorem unvisited_insert_lt {g : Graph} {visited : ExtTreeSet String} {name : String}
    (hn : name ∈ g.successors) (hv : visited.contains name = false) :
    g.unvisited (visited.insert name) < g.unvisited visited := by
  refine countP_lt_countP (a := name) ?_ (ExtTreeMap.mem_keys.mpr hn) (by simp [hv]) (by simp)
  intro x _ hx
  simp only [ExtTreeSet.contains_insert, Bool.not_eq_eq_eq_not, Bool.not_true,
    Bool.or_eq_false_iff] at hx ⊢
  exact hx.2

/-- Visiting what is no node leaves no more to visit. -/
theorem unvisited_insert_le (g : Graph) (visited : ExtTreeSet String) (name : String) :
    g.unvisited (visited.insert name) ≤ g.unvisited visited := by
  refine List.countP_mono_left fun x _ hx => ?_
  simp only [ExtTreeSet.contains_insert, Bool.not_eq_eq_eq_not, Bool.not_true,
    Bool.or_eq_false_iff] at hx ⊢
  exact hx.2

/-- Depth-first search. A node is put in front of `order` once all its readers are there; readers
    are visited from the last name to the first, so that they are listed from the first to the
    last. A name that is no node is listed by itself. -/
def search (g : Graph) (tasks : List Task) (visited : ExtTreeSet String) (order : List String) :
    List String :=
  match tasks with
  | [] => order
  | .finish name :: rest => g.search rest visited (name :: order)
  | .visit name :: rest =>
    if _hv : visited.contains name then g.search rest visited order
    else
      match _hn : g.successors[name]? with
      | none => g.search rest (visited.insert name) (name :: order)
      | some next =>
        g.search (next.toList.reverse.map .visit ++ .finish name :: rest) (visited.insert name)
          order
termination_by (g.unvisited visited, tasks.length)
decreasing_by
  · exact Prod.Lex.right _ (by simp)
  · exact Prod.Lex.right _ (by simp)
  · rcases Nat.lt_or_eq_of_le (unvisited_insert_le g visited name) with h | h
    · exact Prod.Lex.left _ _ h
    · rw [h]; exact Prod.Lex.right _ (by simp)
  · refine Prod.Lex.left _ _ (unvisited_insert_lt ?_ (Bool.eq_false_iff.mpr _hv))
    exact ExtTreeMap.mem_iff_isSome_getElem?.mpr (by simp [_hn])

/-- Every node that can be reached from the seeds, each once, and after the nodes it reads. A seed
    that is no node is listed as well. -/
def topologicalSort (g : Graph) (seeds : List String) : List String :=
  g.search (seeds.map .visit) ∅ []

/-- Whether `target` can be reached from `source`; a node reaches itself. -/
def hasPath (g : Graph) (source target : String) : Bool :=
  g.hasNode source && g.hasNode target && (g.topologicalSort [source]).contains target

/-! ## 3. Edges that keep the graph acyclic -/

/-- The edge that would have closed a cycle. -/
structure Cycle where
  source : String
  target : String
  deriving DecidableEq, Repr

def Cycle.message (c : Cycle) : String :=
  "Adding " ++ c.source ++ " -> " ++ c.target ++ " would create a dependency cycle"

/-- Adds an edge and its ends. The ends are added even if the edge is refused. -/
def addEdge (g : Graph) (source target : String) : Graph × Except Cycle Unit :=
  let g := (g.addNode source).addNode target
  if g.hasEdge source target then (g, .ok ())
  else if source = target ∨ g.hasPath target source then (g, .error ⟨source, target⟩)
  else (g.insertEdge source target, .ok ())

/-! ## 4. Drawing -/

/-- The graph in the DOT language, a line for each node that is read. An exclamation mark in a
    name is written as an underscore. -/
def dot (g : Graph) : String :=
  let line (name : String) : Option String :=
    let next := g.readers name
    if next.isEmpty then none
    else some ("  " ++ name ++ " -> \x7b" ++ ",".intercalate next ++ "\x7d")
  let drawing :=
    "digraph G \x7b\n" ++ "\n".intercalate (g.nodes.filterMap line) ++ "\n\x7d"
  String.ofList (drawing.toList.map fun c => if c = '!' then '_' else c)

end Graph

end QuerySheet

import Mathlib.Logic.Relation
import QuerySheet.Sheet.Graph

/-!
# The order of a graph without cycles

* `Graph.Below` says that a node reads another, directly or through others; a graph is `Acyclic`
  when no node is below itself;
* `Graph.Ordered` says of a list that every name stands before all that read it;
* `search_spec`: depth-first search keeps its order `Ordered`, lists all it is asked to visit and
  nothing that cannot be reached from there. The invariant `Searching` says what is known of a
  search half way: everything above an open node on the stack lies below it in the graph, and what
  reads an open node is listed already or stands above it;
* `hasPath_iff`: the search for a path finds one exactly when there is one;
* `acyclic_addEdge`: an edge that is not refused closes no cycle.
-/

namespace QuerySheet.Graph

open Relation (TransGen ReflTransGen)
open Std (ExtTreeSet)

variable {g : Graph}

/-! ## 1. Reading through others -/

/-- `b` reads `a`, directly or through others. -/
def Below (g : Graph) : String → String → Prop := TransGen fun a b => g.hasEdge a b = true

/-- `b` is `a` or below it. -/
def Reaches (g : Graph) : String → String → Prop := ReflTransGen fun a b => g.hasEdge a b = true

def Acyclic (g : Graph) : Prop := ∀ a, ¬ g.Below a a

theorem acyclic_empty : Acyclic empty := by
  intro a h
  obtain ⟨b, hab, _⟩ := TransGen.head'_iff.mp h
  exact hasEdge_empty hab

/-- Fewer edges, no more cycles. -/
theorem Acyclic.mono {g' : Graph} (h : g.Acyclic)
    (hsub : ∀ a b, g'.hasEdge a b = true → g.hasEdge a b = true) : g'.Acyclic :=
  fun a ha => h a (TransGen.mono hsub a a ha)

theorem Acyclic.ne (h : g.Acyclic) {a b : String} (hab : g.hasEdge a b = true) : a ≠ b := by
  rintro rfl
  exact h a (.single hab)

/-! ## 2. Ordered lists -/

/-- Every name of the list stands before all that read it. -/
def Ordered (g : Graph) : List String → Prop
  | [] => True
  | a :: rest => (∀ b, g.hasEdge a b = true → b ∈ rest) ∧ g.Ordered rest

theorem Ordered.reader_mem {order : List String} (h : g.Ordered order) {a b : String}
    (ha : a ∈ order) (hab : g.hasEdge a b = true) : b ∈ order := by
  induction order with
  | nil => cases ha
  | cons c rest ih =>
    rcases List.mem_cons.mp ha with rfl | ha
    · exact List.mem_cons_of_mem _ (h.1 b hab)
    · exact List.mem_cons_of_mem _ (ih h.2 ha)

/-- With a name an ordered list holds everything that can be reached from it. -/
theorem Ordered.reached_mem {order : List String} (h : g.Ordered order) {a b : String}
    (ha : a ∈ order) (hab : g.Reaches a b) : b ∈ order := by
  induction hab with
  | refl => exact ha
  | tail _ hbc ih => exact h.reader_mem ih hbc

/-! ## 3. A search half way -/

def Task.name : Task → String
  | .visit name => name
  | .finish name => name

/-- What holds of the tasks below the names `above`. What reads an open node is listed, or it
    stands above it; and whatever stands above an open node is below it in the graph. -/
def Waiting (g : Graph) (order : List String) : List String → List Task → Prop
  | _, [] => True
  | above, .visit a :: rest => g.Waiting order (a :: above) rest
  | above, .finish a :: rest =>
    (∀ b, g.hasEdge a b = true → b ∈ order ∨ b ∈ above) ∧ (∀ b ∈ above, g.Below a b) ∧
      g.Waiting order (a :: above) rest

theorem waiting_visits {order above : List String} {rest : List Task} (names : List String) :
    g.Waiting order above (names.map .visit ++ rest) ↔
      g.Waiting order (names.reverse ++ above) rest := by
  induction names generalizing above with
  | nil => rfl
  | cons a names ih =>
    simp only [List.map_cons, List.cons_append, Waiting, ih, List.reverse_cons, List.append_assoc,
      List.nil_append]

/-- More names above are fine as long as they are below one that was there. -/
theorem Waiting.mono {order order' above above' : List String} {tasks : List Task}
    (h : g.Waiting order above tasks) (horder : ∀ b ∈ order, b ∈ order' ∨ b ∈ above')
    (habove : ∀ b ∈ above, b ∈ order' ∨ b ∈ above')
    (hbelow : ∀ b ∈ above', ∃ a ∈ above, g.Reaches a b) : g.Waiting order' above' tasks := by
  induction tasks generalizing above above' with
  | nil => trivial
  | cons t rest ih =>
    have push (a : String) :
        (∀ b ∈ order, b ∈ order' ∨ b ∈ a :: above') ∧
        (∀ b ∈ a :: above, b ∈ order' ∨ b ∈ a :: above') ∧
        ∀ b ∈ a :: above', ∃ c ∈ a :: above, g.Reaches c b := by
      refine ⟨fun b hb => (horder b hb).imp_right (List.mem_cons_of_mem _), fun b hb => ?_,
        fun b hb => ?_⟩
      · rcases List.mem_cons.mp hb with rfl | hb
        · exact .inr List.mem_cons_self
        · exact (habove b hb).imp_right (List.mem_cons_of_mem _)
      · rcases List.mem_cons.mp hb with rfl | hb
        · exact ⟨b, List.mem_cons_self, .refl⟩
        · obtain ⟨c, hc, hcb⟩ := hbelow b hb
          exact ⟨c, List.mem_cons_of_mem _ hc, hcb⟩
    cases t with
    | visit a => exact ih h (push a).1 (push a).2.1 (push a).2.2
    | finish a =>
      obtain ⟨hread, hup, hrest⟩ := h
      refine ⟨fun b hb => ?_, fun b hb => ?_, ih hrest (push a).1 (push a).2.1 (push a).2.2⟩
      · exact (hread b hb).elim (horder b) (habove b)
      · obtain ⟨c, hc, hcb⟩ := hbelow b hb
        exact TransGen.trans_left (hup c hc) hcb

/-- A name above an open node is below it in the graph. -/
theorem Waiting.below_of_open {order above : List String} {a c : String} {tasks : List Task}
    (h : g.Waiting order above tasks) (hc : c ∈ above) (hopen : Task.finish a ∈ tasks) :
    g.Below a c := by
  induction tasks generalizing above with
  | nil => cases hopen
  | cons t rest ih =>
    cases t with
    | visit d => exact ih h (List.mem_cons_of_mem _ hc) (by simpa using hopen)
    | finish d =>
      rcases List.mem_cons.mp hopen with e | hopen
      · cases e
        exact h.2.1 c hc
      · exact ih h.2.2 (List.mem_cons_of_mem _ hc) hopen

/-- A name that is open further down need not stand above as well: what is between would lie on a
    cycle if it were read from there. -/
theorem Waiting.drop (hg : g.Acyclic) {order above above' : List String} {a : String}
    {tasks : List Task} (h : g.Waiting order above tasks) (hopen : Task.finish a ∈ tasks)
    (habove : ∀ b ∈ above, b = a ∨ b ∈ above') (hsub : ∀ b ∈ above', b ∈ above) :
    g.Waiting order above' tasks := by
  induction tasks generalizing above above' with
  | nil => cases hopen
  | cons t rest ih =>
    have push (c : String) :
        (∀ b ∈ c :: above, b = a ∨ b ∈ c :: above') ∧ ∀ b ∈ c :: above', b ∈ c :: above := by
      refine ⟨fun b hb => ?_, fun b hb => ?_⟩
      · rcases List.mem_cons.mp hb with rfl | hb
        · exact .inr List.mem_cons_self
        · exact (habove b hb).imp_right (List.mem_cons_of_mem _)
      · rcases List.mem_cons.mp hb with rfl | hb
        · exact List.mem_cons_self
        · exact List.mem_cons_of_mem _ (hsub b hb)
    cases t with
    | visit c =>
      have hrest : Task.finish a ∈ rest := by simpa using hopen
      exact ih h hrest (push c).1 (push c).2
    | finish c =>
      obtain ⟨hread, hup, hrest⟩ := h
      by_cases hca : c = a
      · subst hca
        refine ⟨fun b hb => ?_, fun b hb => hup b (hsub b hb), ?_⟩
        · rcases hread b hb with h | h
          · exact .inl h
          · exact .inr ((habove b h).resolve_left (hg.ne hb).symm)
        · refine hrest.mono (fun b hb => .inl hb) (fun b hb => .inr ?_) fun b hb => ?_
          · rcases List.mem_cons.mp hb with rfl | hb
            · exact List.mem_cons_self
            · rcases habove b hb with rfl | hb
              · exact List.mem_cons_self
              · exact List.mem_cons_of_mem _ hb
          · exact ⟨b, (push c).2 b hb, .refl⟩
      · have hopen' : Task.finish a ∈ rest := by
          rcases List.mem_cons.mp hopen with h | h
          · exact absurd (Task.finish.inj h).symm hca
          · exact h
        refine ⟨fun b hb => ?_, fun b hb => hup b (hsub b hb),
          ih hrest hopen' (push c).1 (push c).2⟩
        rcases hread b hb with h | h
        · exact .inl h
        · rcases habove b h with rfl | h
          · exact absurd (TransGen.tail (hrest.below_of_open List.mem_cons_self hopen') hb) (hg b)
          · exact .inr h

/-- A name that is listed need not stand above. -/
theorem Waiting.listed {order above : List String} {a : String} {tasks : List Task}
    (h : g.Waiting order (a :: above) tasks) (ha : a ∈ order) : g.Waiting order above tasks :=
  h.mono (fun _ hb => .inl hb)
    (fun b hb => (List.mem_cons.mp hb).imp_left fun e => by rwa [e])
    fun b hb => ⟨b, List.mem_cons_of_mem _ hb, .refl⟩

/-- What holds of a search half way. -/
structure Searching (g : Graph) (tasks : List Task) (visited : ExtTreeSet String)
    (order : List String) : Prop where
  ordered : g.Ordered order
  waiting : g.Waiting order [] tasks
  /-- A visited name is listed or open. -/
  settled : ∀ a, visited.contains a = true → a ∈ order ∨ Task.finish a ∈ tasks

/-- The names an open node is read by. -/
theorem hasEdge_iff_mem_next {a b : String} {next : ExtTreeSet String}
    (h : g.successors[a]? = some next) : g.hasEdge a b = true ↔ b ∈ next.toList := by
  simp [hasEdge_iff, h]

theorem not_hasEdge_of_none {a b : String} (h : g.successors[a]? = none) :
    ¬ g.hasEdge a b = true := by
  simp [hasEdge_iff, h]

namespace Searching

variable {visited : ExtTreeSet String} {order : List String} {name : String} {rest : List Task}

theorem finish (h : g.Searching (.finish name :: rest) visited order) :
    g.Searching rest visited (name :: order) where
  ordered := ⟨fun b hb => (h.waiting.1 b hb).resolve_right List.not_mem_nil, h.ordered⟩
  waiting := by
    refine h.waiting.2.2.mono (fun b hb => .inl (List.mem_cons_of_mem _ hb)) (fun b hb => ?_)
      (fun b hb => absurd hb List.not_mem_nil)
    rw [List.mem_singleton.mp hb]
    exact .inl List.mem_cons_self
  settled a ha := by
    rcases h.settled a ha with ha | ha
    · exact .inl (List.mem_cons_of_mem _ ha)
    · rcases List.mem_cons.mp ha with e | ha
      · cases e
        exact .inl List.mem_cons_self
      · exact .inr ha

theorem skip (hg : g.Acyclic) (h : g.Searching (.visit name :: rest) visited order)
    (hv : visited.contains name = true) : g.Searching rest visited order where
  ordered := h.ordered
  waiting := by
    rcases h.settled name hv with hlisted | hopen
    · exact h.waiting.listed hlisted
    · exact Waiting.drop hg h.waiting (by simpa using hopen)
        (fun b hb => .inl (List.mem_singleton.mp hb)) (fun b hb => absurd hb List.not_mem_nil)
  settled a ha := (h.settled a ha).imp_right (by simp)

/-- A name that is no node is listed by itself. -/
theorem list (h : g.Searching (.visit name :: rest) visited order)
    (hn : g.successors[name]? = none) :
    g.Searching rest (visited.insert name) (name :: order) where
  ordered := ⟨fun b hb => absurd hb (not_hasEdge_of_none hn), h.ordered⟩
  waiting := by
    have hbelow : g.Waiting order [name] rest := h.waiting
    refine hbelow.mono (fun b hb => .inl (List.mem_cons_of_mem _ hb)) (fun b hb => ?_)
      (fun b hb => absurd hb List.not_mem_nil)
    rw [List.mem_singleton.mp hb]
    exact .inl List.mem_cons_self
  settled a ha := by
    rw [ExtTreeSet.contains_insert, Bool.or_eq_true, beq_iff_eq] at ha
    rcases ha with e | ha
    · rw [← Std.LawfulEqOrd.eq_of_compare e]
      exact .inl List.mem_cons_self
    · rcases h.settled a ha with ha | ha
      · exact .inl (List.mem_cons_of_mem _ ha)
      · exact .inr (by simpa using ha)

theorem enter (h : g.Searching (.visit name :: rest) visited order) {next : ExtTreeSet String}
    (hn : g.successors[name]? = some next) :
    g.Searching (next.toList.reverse.map .visit ++ .finish name :: rest) (visited.insert name)
      order where
  ordered := h.ordered
  waiting := by
    rw [waiting_visits, List.reverse_reverse, List.append_nil]
    have hread (b : String) : g.hasEdge name b = true ↔ b ∈ next.toList := hasEdge_iff_mem_next hn
    refine ⟨fun b hb => .inr ((hread b).mp hb), fun b hb => .single ((hread b).mpr hb), ?_⟩
    have hbelow : g.Waiting order [name] rest := h.waiting
    refine hbelow.mono (fun b hb => .inl hb)
      (fun b hb => .inr (List.mem_cons.mpr (.inl (List.mem_singleton.mp hb)))) fun b hb => ?_
    refine ⟨name, List.mem_cons_self, ?_⟩
    rcases List.mem_cons.mp hb with rfl | hb
    · exact .refl
    · exact .single ((hread b).mpr hb)
  settled a ha := by
    rw [ExtTreeSet.contains_insert, Bool.or_eq_true, beq_iff_eq] at ha
    rcases ha with e | ha
    · rw [← Std.LawfulEqOrd.eq_of_compare e]
      exact .inr (by simp)
    · rcases h.settled a ha with ha | ha
      · exact .inl ha
      · have hrest : Task.finish a ∈ rest := by simpa using ha
        exact .inr (List.mem_append_right _ (List.mem_cons_of_mem _ hrest))

end Searching

/-! ## 4. The whole search -/

theorem search_of_none {visited : ExtTreeSet String} {order : List String} {name : String}
    {rest : List Task} (hv : ¬ visited.contains name = true) (hn : g.successors[name]? = none) :
    g.search (.visit name :: rest) visited order =
      g.search rest (visited.insert name) (name :: order) := by
  rw [search, dif_neg hv]
  split
  · rfl
  · simp_all

theorem search_of_some {visited : ExtTreeSet String} {order : List String} {name : String}
    {rest : List Task} {next : ExtTreeSet String} (hv : ¬ visited.contains name = true)
    (hn : g.successors[name]? = some next) :
    g.search (.visit name :: rest) visited order =
      g.search (next.toList.reverse.map .visit ++ .finish name :: rest) (visited.insert name)
        order := by
  rw [search, dif_neg hv]
  split
  · simp_all
  · simp_all

/-- Depth-first search keeps its order ordered, and lists what can be reached from its tasks. -/
theorem search_spec (hg : g.Acyclic) {tasks : List Task} {visited : ExtTreeSet String}
    {order : List String} (h : g.Searching tasks visited order) :
    g.Ordered (g.search tasks visited order) ∧
      (∀ a ∈ order, a ∈ g.search tasks visited order) ∧
      (∀ t ∈ tasks, t.name ∈ g.search tasks visited order) ∧
      ∀ a ∈ g.search tasks visited order, a ∈ order ∨ ∃ t ∈ tasks, g.Reaches t.name a := by
  induction tasks, visited, order using search.induct g with
  | case1 visited order =>
    rw [search]
    exact ⟨h.ordered, fun a ha => ha, fun t ht => absurd ht List.not_mem_nil, fun a ha => .inl ha⟩
  | case2 visited order name rest ih =>
    obtain ⟨hord, hold, htask, hfrom⟩ := ih h.finish
    rw [search]
    refine ⟨hord, fun a ha => hold a (List.mem_cons_of_mem _ ha), fun t ht => ?_, fun a ha => ?_⟩
    · rcases List.mem_cons.mp ht with rfl | ht
      · exact hold name List.mem_cons_self
      · exact htask t ht
    · rcases hfrom a ha with ha | ⟨t, ht, hta⟩
      · rcases List.mem_cons.mp ha with rfl | ha
        · exact .inr ⟨_, List.mem_cons_self, .refl⟩
        · exact .inl ha
      · exact .inr ⟨t, List.mem_cons_of_mem _ ht, hta⟩
  | case3 visited order name rest hv ih =>
    have hrest := h.skip hg hv
    obtain ⟨hord, hold, htask, hfrom⟩ := ih hrest
    rw [search, dif_pos hv]
    refine ⟨hord, hold, fun t ht => ?_, fun a ha => ?_⟩
    · rcases List.mem_cons.mp ht with rfl | ht
      · rcases h.settled name hv with hl | ho
        · exact hold name hl
        · exact htask (.finish name) (by simpa using ho)
      · exact htask t ht
    · exact (hfrom a ha).imp_right fun ⟨t, ht, hta⟩ => ⟨t, List.mem_cons_of_mem _ ht, hta⟩
  | case4 visited order name rest hv hn ih =>
    obtain ⟨hord, hold, htask, hfrom⟩ := ih (h.list hn)
    rw [search_of_none hv hn]
    refine ⟨hord, fun a ha => hold a (List.mem_cons_of_mem _ ha), fun t ht => ?_, fun a ha => ?_⟩
    · rcases List.mem_cons.mp ht with rfl | ht
      · exact hold name List.mem_cons_self
      · exact htask t ht
    · rcases hfrom a ha with ha | ⟨t, ht, hta⟩
      · rcases List.mem_cons.mp ha with rfl | ha
        · exact .inr ⟨_, List.mem_cons_self, .refl⟩
        · exact .inl ha
      · exact .inr ⟨t, List.mem_cons_of_mem _ ht, hta⟩
  | case5 visited order name rest hv next hn ih =>
    obtain ⟨hord, hold, htask, hfrom⟩ := ih (h.enter hn)
    rw [search_of_some hv hn]
    refine ⟨hord, hold, fun t ht => ?_, fun a ha => ?_⟩
    · rcases List.mem_cons.mp ht with rfl | ht
      · exact htask (.finish name) (by simp)
      · exact htask t (by simp [ht])
    · rcases hfrom a ha with ha | ⟨t, ht, hta⟩
      · exact .inl ha
      · right
        rcases List.mem_append.mp ht with ht | ht
        · obtain ⟨b, hb, rfl⟩ := List.mem_map.mp ht
          have hedge : g.hasEdge name b = true :=
            (hasEdge_iff_mem_next hn).mpr (List.mem_reverse.mp hb)
          exact ⟨.visit name, List.mem_cons_self, .head hedge hta⟩
        · rcases List.mem_cons.mp ht with rfl | ht
          · exact ⟨.visit name, List.mem_cons_self, hta⟩
          · exact ⟨t, List.mem_cons_of_mem _ ht, hta⟩

theorem searching_seeds (seeds : List String) : g.Searching (seeds.map .visit) ∅ [] where
  ordered := trivial
  waiting := by
    have h : g.Waiting [] [] (seeds.map .visit ++ []) := (waiting_visits seeds).mpr trivial
    rwa [List.append_nil] at h
  settled a ha := by simp at ha

/-- The sort of a graph without cycles is ordered. -/
theorem ordered_topologicalSort (hg : g.Acyclic) (seeds : List String) :
    g.Ordered (g.topologicalSort seeds) :=
  (search_spec hg (searching_seeds seeds)).1

/-- The sort lists exactly what can be reached from the seeds. -/
theorem mem_topologicalSort (hg : g.Acyclic) {seeds : List String} {a : String} :
    a ∈ g.topologicalSort seeds ↔ ∃ seed ∈ seeds, g.Reaches seed a := by
  obtain ⟨hord, -, hseeds, hfrom⟩ := search_spec hg (searching_seeds seeds)
  constructor
  · intro ha
    rcases hfrom a ha with ha | ⟨t, ht, hta⟩
    · cases ha
    · obtain ⟨seed, hseed, rfl⟩ := List.mem_map.mp ht
      exact ⟨seed, hseed, hta⟩
  · rintro ⟨seed, hseed, ha⟩
    exact hord.reached_mem (hseeds (.visit seed) (List.mem_map_of_mem hseed)) ha

/-! ## 5. Paths and new edges -/

theorem hasPath_iff (hg : g.Acyclic) {a b : String} :
    g.hasPath a b = true ↔ g.hasNode a = true ∧ g.hasNode b = true ∧ g.Reaches a b := by
  simp only [hasPath, Bool.and_eq_true, List.contains_iff_mem, mem_topologicalSort hg,
    List.mem_singleton, exists_eq_left, and_assoc]

/-- A path that uses new edges into `v` only can do without them once it leaves `v`. -/
theorem reaches_of_edges_into {g' : Graph} {v : String}
    (hnew : ∀ a b, g'.hasEdge a b = true → g.hasEdge a b = true ∨ b = v) {a : String}
    (h : g'.Reaches v a) : g.Reaches v a := by
  induction h with
  | refl => exact .refl
  | tail _ hbc ih =>
    rcases hnew _ _ hbc with hbc | rfl
    · exact ih.tail hbc
    · exact .refl

/-- New edges into `v` close no cycle if their sources cannot be reached from `v`. -/
theorem Acyclic.edges_into {g' : Graph} {v : String} (hg : g.Acyclic)
    (hnew : ∀ a b, g'.hasEdge a b = true → g.hasEdge a b = true ∨ b = v ∧ ¬ g.Reaches v a) :
    g'.Acyclic := by
  have hinto (a b : String) (hab : g'.hasEdge a b = true) : g.hasEdge a b = true ∨ b = v :=
    (hnew a b hab).imp_right And.left
  -- an edge that leads into `v` starts where `v` does not reach
  have hv : ¬ g'.Below v v := by
    intro h
    obtain ⟨a, hva, hav⟩ := TransGen.tail'_iff.mp h
    have hva' : g.Reaches v a := reaches_of_edges_into hinto hva
    rcases hnew a v hav with hav | ⟨-, hno⟩
    · exact hg v (TransGen.tail' hva' hav)
    · exact hno hva'
  -- a path that avoids `v` is an old one
  have hold (a b : String) (h : g'.Below a b) : g.Below a b ∨ g'.Reaches a v ∧ g'.Reaches v b := by
    induction h with
    | single hab =>
      rcases hinto _ _ hab with hab' | rfl
      · exact .inl (.single hab')
      · exact .inr ⟨.single hab, .refl⟩
    | tail hab hbc ih =>
      rcases ih with ih | ⟨hav, hvb⟩
      · rcases hinto _ _ hbc with hbc' | rfl
        · exact .inl (ih.tail hbc')
        · exact .inr ⟨hab.to_reflTransGen.tail hbc, .refl⟩
      · exact .inr ⟨hav, hvb.tail hbc⟩
  intro a ha
  rcases hold a a ha with h | ⟨hav, hva⟩
  · exact hg a h
  · refine hv (TransGen.trans_left (TransGen.trans_right hva ha) hav)

variable {u v : String}

/-- The graph that an edge is added to: both of its ends are nodes. -/
theorem hasEdge_withEnds {a b : String} :
    ((g.addNode u).addNode v).hasEdge a b = true ↔ g.hasEdge a b = true :=
  hasEdge_addNode.trans hasEdge_addNode

theorem reaches_congr {g' : Graph} (h : ∀ a b, g'.hasEdge a b = true ↔ g.hasEdge a b = true)
    {a b : String} : g'.Reaches a b ↔ g.Reaches a b :=
  ⟨ReflTransGen.mono (fun a b hab => (h a b).mp hab) a b,
    ReflTransGen.mono (fun a b hab => (h a b).mpr hab) a b⟩

/-- An edge is refused exactly if it is not there and would close a cycle. -/
theorem addEdge_refused_iff (hg : g.Acyclic) :
    (∃ cycle, (g.addEdge u v).2 = .error cycle) ↔ g.Reaches v u := by
  have hends : ((g.addNode u).addNode v).Acyclic := hg.mono fun a b => hasEdge_withEnds.mp
  have hpath : ((g.addNode u).addNode v).hasPath v u = true ↔ g.Reaches v u := by
    rw [hasPath_iff hends, reaches_congr fun _ _ => hasEdge_withEnds]
    simp [hasNode_addNode]
  unfold addEdge
  dsimp only
  split
  · rename_i hedge
    have hno : ¬ g.Reaches v u := fun h =>
      hg u (TransGen.head' (hasEdge_withEnds.mp hedge) h)
    simp [hno]
  · split
    · rename_i hcycle
      have : g.Reaches v u := hcycle.elim (fun e => e ▸ .refl) hpath.mp
      simp [this]
    · rename_i hcycle
      have hno : ¬ g.Reaches v u := fun h => hcycle (.inr (hpath.mpr h))
      simp [hno]

theorem hasEdge_addEdge_of_ok {g' : Graph} (h : g.addEdge u v = (g', .ok ())) {a b : String} :
    g'.hasEdge a b = true ↔ (a = u ∧ b = v) ∨ g.hasEdge a b = true := by
  unfold addEdge at h
  dsimp only at h
  split at h
  · rename_i hedge
    cases h
    rw [hasEdge_withEnds]
    exact ⟨.inr, fun hab => hab.elim (fun ⟨ha, hb⟩ => by
      subst ha hb; exact hasEdge_withEnds.mp hedge) id⟩
  · split at h
    · cases h
    · cases h
      rw [hasEdge_insertEdge, hasEdge_withEnds]

/-- An edge that is refused adds no more than its ends. -/
theorem hasEdge_addEdge_of_error {g' : Graph} {cycle : Cycle}
    (h : g.addEdge u v = (g', .error cycle)) {a b : String} :
    g'.hasEdge a b = true ↔ g.hasEdge a b = true := by
  unfold addEdge at h
  dsimp only at h
  split at h
  · cases h
  · split at h
    · cases h
      exact hasEdge_withEnds
    · cases h

theorem hasNode_addEdge {a : String} :
    (g.addEdge u v).1.hasNode a = true ↔ a = u ∨ a = v ∨ g.hasNode a = true := by
  have hends : ((g.addNode u).addNode v).hasNode a = true ↔
      a = u ∨ a = v ∨ g.hasNode a = true := by
    rw [hasNode_addNode, hasNode_addNode, or_left_comm]
  unfold addEdge
  dsimp only
  split
  · exact hends
  · split
    · exact hends
    · rw [hasNode_insertEdge, hends]
      exact ⟨fun h => h.elim .inl id, .inr⟩

/-- An edge that is not refused closes no cycle. -/
theorem acyclic_addEdge {g' : Graph} (hg : g.Acyclic) (h : g.addEdge u v = (g', .ok ())) :
    g'.Acyclic := by
  refine hg.edges_into (v := v) fun a b hab => ?_
  rcases (hasEdge_addEdge_of_ok h).mp hab with ⟨rfl, rfl⟩ | hab
  · refine .inr ⟨rfl, fun hba => ?_⟩
    obtain ⟨cycle, hrefused⟩ := (addEdge_refused_iff hg).mpr hba
    rw [h] at hrefused
    cases hrefused
  · exact .inl hab

end QuerySheet.Graph

import Mathlib
import QuerySheet.Proofs.Sheet.Declarations

/-!
# Edits that are refused

A cell may not read itself, directly or through others. Two calls give a cell new names to read, and
both refuse a name that can be reached from the cell.

* `Sheet.closes`: whether a name would close a cycle. `closes_iff` reads it off the graph, and
  `closes_congr` says that a cell closes the same cycles whatever it reads itself;
* `Named`: blank cells for new names, and nothing else;
* `createDynamic_of_run`: to bind a cell is all or nothing. It is refused exactly if one of the
  names closes a cycle, and then it has only named cells;
* `Widened`: a cell reads some names more;
* `addEach_spec`: to add names is not. The names in front of the first one that closes a cycle are
  read from then on, and nothing is scheduled. So a refused call leaves what the cell reads exactly
  if the cell read all of those before (`sameReading_iff_of_run`).
-/

namespace QuerySheet.Sheet

open Relation (ReflTransGen)

variable {s s' t : Sheet} {cell name a b d : String} {deps names : List String}

/-! ## 1. Names that close a cycle -/

/-- Whether a cell may not read a name: it is the cell, or there is a path to it from the cell. -/
def closes (s : Sheet) (cell d : String) : Bool := d == cell || s.graph.hasPath cell d

theorem cyclic?_eq (s : Sheet) (cell : String) (deps : List String) :
    s.cyclic? cell deps = deps.find? (s.closes cell) := rfl

theorem Tied.built (h : s.Tied) : s.graph.Built where
  acyclic := h.acyclic
  target a b hab := by
    obtain ⟨c, hc, -⟩ := h.read a b hab
    exact (h.node b).mpr (hasCell_iff.mpr ⟨c, hc⟩)

/-- What is reached from a name that is no node is the name itself, and all else are nodes. -/
theorem closes_iff (h : s.Tied) : s.closes cell d = true ↔ s.graph.Reaches cell d := by
  rw [closes, Bool.or_eq_true, beq_iff_eq, Graph.hasPath_iff h.acyclic]
  refine ⟨fun hd => hd.elim (fun e => e ▸ .refl) fun hd => hd.2.2, fun hd => ?_⟩
  cases hcell : s.graph.hasNode cell with
  | false => exact .inl (Graph.eq_of_reaches hcell hd)
  | true => exact .inr ⟨rfl, h.built.hasNode_of_reaches hcell hd, hd⟩

theorem eq_or_reaches_iff (h : s.Tied) :
    d = cell ∨ s.graph.Reaches cell d ↔ s.closes cell d = true :=
  ⟨fun hd => (closes_iff h).mpr (hd.elim (fun e => e ▸ .refl) id),
    fun hd => .inr ((closes_iff h).mp hd)⟩

/-- Which cycles a cell would close does not depend on what it reads. -/
theorem closes_congr (h : s.Tied) (h' : s'.Tied)
    (hedge : ∀ a b, b ≠ cell → (s'.graph.hasEdge a b = true ↔ s.graph.hasEdge a b = true)) :
    s'.closes cell = s.closes cell := by
  funext d
  rw [Bool.eq_iff_iff, closes_iff h, closes_iff h']
  constructor
  · refine Graph.reaches_of_edges_into fun a b hab => ?_
    exact (em (b = cell)).symm.imp_left fun hb => (hedge a b hb).mp hab
  · refine Graph.reaches_of_edges_into fun a b hab => ?_
    exact (em (b = cell)).symm.imp_left fun hb => (hedge a b hb).mpr hab

/-- An edge that is refused is the one to be added. -/
theorem eq_of_addEdge_refused {g g' : Graph} {cycle : Graph.Cycle}
    (h : g.addEdge a b = (g', .error cycle)) : cycle = ⟨a, b⟩ := by
  unfold Graph.addEdge at h
  dsimp only at h
  split at h
  · cases h
  · split at h
    · cases h
      rfl
    · cases h

/-! ## 2. Named cells -/

/-- Names that had no cell have a blank one now, and nothing else has changed. -/
structure Named (names : List String) (s s' : Sheet) : Prop where
  edge : ∀ a b, s'.graph.hasEdge a b = true ↔ s.graph.hasEdge a b = true
  cell : ∀ a, s'.cell? a = if a ∈ names then some ((s.cell? a).getD .blank) else s.cell? a
  rest : s' = { s with graph := s'.graph, cells := s'.cells }

theorem rest_touch : s.touch name =
    { s with graph := (s.touch name).graph, cells := (s.touch name).cells } := by
  unfold touch
  split <;> rfl

theorem named_foldl_touch (names : List String) (s : Sheet) :
    Named names s (names.foldl touch s) where
  edge _ _ := hasEdge_foldl_touch names
  cell _ := cell?_foldl_touch_eq names
  rest := by
    induction names generalizing s with
    | nil => rfl
    | cons n names ih =>
      rw [List.foldl_cons, ih (s.touch n), rest_touch]

namespace Named

/-- A cell that was there is the same as before. -/
theorem kept (h : Named names s s') {c : Cell} (hc : s.cell? a = some c) :
    s'.cell? a = some c := by
  rw [h.cell, hc]
  split <;> rfl

theorem hasCell (h : Named names s s') (ha : a ∈ names) : s'.hasCell a = true :=
  hasCell_iff.mpr ⟨_, by rw [h.cell, if_pos ha]⟩

end Named

/-! ## 3. Binding a cell -/

/-- No call that `connect` makes is refused. -/
theorem addEdge_of_connect {g g' : Graph} (h : connect g cell deps = (g', .ok ())) (n : Nat)
    (hd : deps[n]? = some d) :
    ((connect g cell (deps.take n)).1.addEdge d cell).2 = .ok () := by
  induction deps generalizing g n with
  | nil => cases hd
  | cons e deps ih =>
    unfold connect at h
    split at h
    · rename_i g₁ hadd
      cases n with
      | zero =>
        cases hd
        exact congrArg Prod.snd hadd
      | succ n =>
        rw [List.take_succ_cons, connect, hadd]
        exact ih h n hd
    · cases h

/-- A cell reads these names and no others, and what the other cells read has not changed. -/
structure Rebound (cell : String) (deps : List String) (s s' : Sheet) : Prop where
  list : (s'.cell? cell).map (·.dependencies) = some deps
  into : ∀ a, s'.graph.hasEdge a cell = true ↔ a ∈ deps
  edge : ∀ a b, b ≠ cell → (s'.graph.hasEdge a b = true ↔ s.graph.hasEdge a b = true)

theorem Rebound.of_sameReads (h : Rebound cell deps s t) (hs : SameReads t s') :
    Rebound cell deps s s' where
  list := (hs.reads cell).trans h.list
  into a := (hs.edge a cell).trans (h.into a)
  edge a b hb := (hs.edge a b).trans (h.edge a b hb)

theorem named_readied (s : Sheet) (cell : String) (deps : List String) :
    Named (deps ++ [cell]) s (s.readied cell deps) := by
  have h := named_foldl_touch (deps ++ [cell]) s
  rwa [List.foldl_append] at h

/-- A cell that is connected reads the names that it is bound with. -/
theorem rebound_bind {g : Graph} (hconnect : Connects (s.readied cell deps).graph cell deps g)
    (definition : Definition) :
    Rebound cell deps s
      ({ s.readied cell deps with graph := g }.update cell (computing definition deps)) where
  list := by
    obtain ⟨c, hc⟩ := @exists_cell_readied s cell cell deps List.mem_cons_self
    have hc' : Sheet.cell? { s.readied cell deps with graph := g } cell = some c := hc
    rw [cell?_update_self, hc']
    rfl
  into := hconnect.into
  edge a b hb := (hconnect.other a b hb).trans ((named_readied s cell deps).edge a b)

/-- An existing computed cell is bound again only to start over. -/
def Skips (s : Sheet) (cell : String) (d : Definition) : Prop :=
  (s.cell? cell).any (·.binding.isDynamic) = true ∧ d.refresh = false

/-- A call that is not skipped fails before anything is bound, or it succeeds. -/
theorem Binds.closes_cases {definition : Definition} {r : Sheet × Except CellError Unit}
    (hcall : s.Binds cell deps definition r) (h : s.Tied) (hnew : ¬ s.Skips cell definition) :
    (∃ d, deps.find? (s.closes cell) = some d ∧
      r = (s.readied cell deps, .error (.graph ⟨d, cell⟩))) ∨
    (deps.find? (s.closes cell) = none ∧ r.2 = .ok () ∧
      (∃ g, connect ((s.readied cell deps).graph.removeIncoming cell) cell deps = (g, .ok ())) ∧
      Rebound cell deps s r.1) := by
  have hnamed := named_readied s cell deps
  have hfind : (s.readied cell deps).cyclic? cell deps = deps.find? (s.closes cell) := by
    rw [cyclic?_eq, closes_congr h (Keeps.readied s cell deps h).1 fun a b _ => hnamed.edge a b]
  cases hcall with
  | skipped hdynamic hrefresh => exact absurd ⟨hdynamic, hrefresh⟩ hnew
  | @cyclic d _ hcyclic => exact .inl ⟨d, hfind.symm.trans hcyclic, rfl⟩
  | refused hcyclic hconnect => cases (h.connects hcyclic hconnect).1
  | @started g _ hcyclic hconnect =>
    have hbound := rebound_bind (h.connects hcyclic hconnect).2 definition
    exact .inr ⟨hfind.symm.trans hcyclic, rfl, ⟨g, hconnect⟩,
      (hbound.of_sameReads (.assign definition.initial)).of_sameReads (.invalidate _ [cell])⟩
  | @kept g _ _ _ hcyclic hconnect =>
    have hbound := rebound_bind (h.connects hcyclic hconnect).2 definition
    exact .inr ⟨hfind.symm.trans hcyclic, rfl, ⟨g, hconnect⟩, hbound⟩

/-- What a call leaves that is not skipped. It fails exactly if one of the names that are to be read
    is the cell or can be reached from it, and then no cell that was there, no edge and nothing that
    is to be computed has changed. Otherwise no edge that it adds is refused, the cell reads these
    names, and the edges to other cells are the same. -/
theorem createDynamic_of_run (schema : Schema) (policy : Policy) (executor : Option Executor)
    (ops : List Operation) (sheet name : String) (definition : Definition)
    (hnew : ¬ ((new schema policy executor).run ops).Skips (CellName.qualify sheet name)
      definition) :
    let s := (new schema policy executor).run ops
    let cell := CellName.qualify sheet name
    let deps := definition.dependencies.map (CellName.resolve sheet)
    ((∃ e, (s.createDynamic sheet name definition).2 = .error e) ↔
      ∃ d ∈ deps, d = cell ∨ s.graph.Reaches cell d) ∧
    (∀ e, (s.createDynamic sheet name definition).2 = .error e →
      (∃ d, deps.find? (s.closes cell) = some d ∧ e = .graph ⟨d, cell⟩) ∧
      Named (deps ++ [cell]) s (s.createDynamic sheet name definition).1) ∧
    ((s.createDynamic sheet name definition).2 = .ok () →
      (∀ n d, deps[n]? = some d →
        ((connect ((s.readied cell deps).graph.removeIncoming cell) cell
          (deps.take n)).1.addEdge d cell).2 = .ok ()) ∧
      Rebound cell deps s (s.createDynamic sheet name definition).1) := by
  intro s cell deps
  have ht : s.Tied := tied_run (tied_new schema policy executor) ops
  simp only [eq_or_reaches_iff ht]
  have hcall := binds_createDynamic s sheet name definition
  rcases hcall.closes_cases ht hnew with ⟨d, hd, heq⟩ | ⟨hnone, hok, ⟨g, hconnect⟩, hbound⟩
  · rw [heq]
    refine ⟨iff_of_true ⟨_, rfl⟩ ⟨d, List.mem_of_find?_eq_some hd, List.find?_some hd⟩, ?_, ?_⟩
    · rintro e ⟨⟩
      exact ⟨⟨d, hd, rfl⟩, named_readied s cell deps⟩
    · rintro ⟨⟩
  · rw [hok]
    refine ⟨iff_of_false (fun ⟨e, he⟩ => ?_) fun ⟨d, hd, hclose⟩ => ?_, ?_, fun _ => ⟨?_, hbound⟩⟩
    · cases he
    · exact List.find?_eq_none.mp hnone d hd hclose
    · rintro e ⟨⟩
    · exact fun n d => addEdge_of_connect hconnect n

/-- `b` reads `a`. -/
def chained : List Operation :=
  [.set "a" (.bool true),
    .createDynamic "" "b" ⟨["a"], fun _ args => ⟨.ok (args.headD .null), false⟩, .null, false⟩]

theorem run_chained :
    ((((new .empty .none none).run chained).cell? "a").any (·.binding.isDynamic),
      ((new .empty .none none).run chained).graph.hasEdge "a" "b") = (false, true) := by
  simp only [chained, run, List.foldl, Operation.apply, createDynamic, List.map, connect,
    Graph.addEdge, ite_or, ← Bool.cond_eq_ite]
  cbv

/-- So `a` cannot be bound to a computation on `b`. -/
theorem createDynamic_of_chained :
    ∃ e, (((new .empty .none none).run chained).createDynamic "" "a"
      ⟨["b"], fun _ _ => ⟨.ok .null, false⟩, .null, false⟩).2 = .error e := by
  obtain ⟨hfixed, hedge⟩ := Prod.mk.inj run_chained
  refine (createDynamic_of_run .empty .none none chained "" "a" _ fun h => ?_).1.mpr
    ⟨"b", List.mem_cons_self, .inr (.single hedge)⟩
  exact Bool.noConfusion (hfixed.symm.trans h.1)

/-! ## 4. Adding to what a cell reads -/

/-- The names in front of the first one that closes a cycle. -/
def accepted (s : Sheet) (cell : String) (deps : List String) : List String :=
  deps.takeWhile fun d => !s.closes cell d

/-- A cell reads some names more, behind those that it read before. Names that had no cell have a
    blank one, and nothing else has changed. -/
structure Widened (cell : String) (more names : List String) (s s' : Sheet) : Prop where
  edge : ∀ a b, s'.graph.hasEdge a b = true ↔ s.graph.hasEdge a b = true ∨ a ∈ more ∧ b = cell
  self : s'.cell? cell = (s.cell? cell).map fun c => more.foldl (fun c d => reading d c) c
  other : ∀ a, a ≠ cell →
    s'.cell? a = if a ∈ names then some ((s.cell? a).getD .blank) else s.cell? a
  rest : s' = { s with graph := s'.graph, cells := s'.cells }

namespace Widened

variable {more more' names' : List String}

theorem refl (cell : String) (s : Sheet) : Widened cell [] [] s s where
  edge a b := by simp
  self := by simp
  other a _ := by simp
  rest := rfl

theorem trans (h : Widened cell more names s t) (h' : Widened cell more' names' t s') :
    Widened cell (more ++ more') (names ++ names') s s' where
  edge a b := by
    rw [h'.edge, h.edge, or_assoc, List.mem_append, or_and_right]
  self := by
    rw [h'.self, h.self, Option.map_map]
    simp only [Function.comp_def, List.foldl_append]
  other a ha := by
    rw [h'.other a ha, h.other a ha]
    by_cases hn : a ∈ names <;> by_cases hn' : a ∈ names' <;> simp [hn, hn']
  rest := by
    rw [h'.rest, h.rest]

end Widened

/-- A name that closes a cycle gets a cell, and that is all. -/
theorem widened_refused (hcell : s.hasCell cell = true) {g : Graph} {cycle : Graph.Cycle}
    (hrefused : (s.touch d).graph.addEdge d cell = (g, .error cycle)) :
    Widened cell [] [d] s { s.touch d with graph := g } where
  edge a b := by
    refine (Graph.hasEdge_addEdge_of_error hrefused).trans (hasEdge_touch.trans ?_)
    simp
  self := by
    obtain ⟨c, hc⟩ := hasCell_iff.mp hcell
    have hc' : (s.touch d).cell? cell = some c := cell?_touch_of_some hc
    rw [hc]
    exact hc'
  other a _ := (named_foldl_touch [d] s).cell a
  rest := by rw [rest_touch]

/-- A name that closes none is read. -/
theorem widened_added (hcell : s.hasCell cell = true) {g : Graph}
    (hadd : (s.touch d).graph.addEdge d cell = (g, .ok ())) :
    Widened cell [d] [d] s ({ s.touch d with graph := g }.update cell (reading d)) where
  edge a b := by
    refine (Graph.hasEdge_addEdge_of_ok hadd).trans ?_
    rw [hasEdge_touch, List.mem_singleton, or_comm]
  self := by
    obtain ⟨c, hc⟩ := hasCell_iff.mp hcell
    have hc' : Sheet.cell? { s.touch d with graph := g } cell = some c := cell?_touch_of_some hc
    rw [cell?_update_self, hc', hc]
    rfl
  other a ha := (cell?_update_of_ne ha).trans ((named_foldl_touch [d] s).cell a)
  rest := by rw [update, rest_touch]

/-- Names are added until one of them closes a cycle. -/
theorem addEach_spec (h : s.Tied) (hcell : s.hasCell cell = true) (deps : List String) :
    (s.addEach cell deps).2 = (match s.cyclic? cell deps with
      | some d => .error (.graph ⟨d, cell⟩)
      | none => .ok ()) ∧
    Widened cell (s.accepted cell deps) (s.accepted cell deps ++ (s.cyclic? cell deps).toList)
      s (s.addEach cell deps).1 := by
  induction deps generalizing s with
  | nil => exact ⟨rfl, .refl cell s⟩
  | cons d deps ih =>
    have ht : (s.touch d).Tied := (Keeps.touch s d h).1
    have hrefused : (∃ cycle, ((s.touch d).graph.addEdge d cell).2 = .error cycle) ↔
        s.closes cell d = true :=
      (Graph.addEdge_refused_iff ht.acyclic).trans
        ((Graph.reaches_congr fun a b => hasEdge_touch).trans (closes_iff h).symm)
    unfold addEach
    dsimp only
    split
    · rename_i g cycle hadd
      have hclose : s.closes cell d = true := hrefused.mp ⟨cycle, congrArg Prod.snd hadd⟩
      have hcycle : cycle = ⟨d, cell⟩ := eq_of_addEdge_refused hadd
      rw [cyclic?_eq, List.find?_cons_of_pos hclose, accepted,
        List.takeWhile_cons_of_neg (by simp [hclose]), hcycle]
      exact ⟨rfl, widened_refused hcell hadd⟩
    · rename_i g hadd
      have hopen : ¬ s.closes cell d = true := fun hclose => by
        obtain ⟨cycle, hcycle⟩ := hrefused.mpr hclose
        rw [hadd] at hcycle
        cases hcycle
      have hstep := widened_added hcell hadd
      -- the cell closes the same cycles with its new edge, so the rest is accepted as before
      have htied : ({ s.touch d with graph := g }.update cell (reading d)).Tied :=
        ((Keeps.of_rewired fun ht => rewired_addEdge ht (hasCell_touch hcell)
          (hasCell_iff.mpr cell?_touch_self) hadd) ht).1
      have hcloses : ({ s.touch d with graph := g }.update cell (reading d)).closes cell =
          s.closes cell := by
        refine closes_congr h htied fun a b hb => ?_
        rw [hstep.edge]
        exact ⟨fun hab => hab.resolve_right fun e => hb e.2, .inl⟩
      have ih' := ih htied (hasCell_update.mpr (hasCell_touch hcell))
      rw [cyclic?_eq, accepted, hcloses] at ih'
      rw [cyclic?_eq, List.find?_cons_of_neg hopen, accepted,
        List.takeWhile_cons_of_pos (by simpa using hopen)]
      exact ⟨ih'.1, hstep.trans ih'.2⟩

/-- A cell has the list that it had, and the edges that lead to it are the same. -/
def SameReading (cell : String) (s s' : Sheet) : Prop :=
  (s'.cell? cell).map (·.dependencies) = (s.cell? cell).map (·.dependencies) ∧
    ∀ a, s'.graph.hasEdge a cell = true ↔ s.graph.hasEdge a cell = true

theorem foldl_reading {c : Cell} (h : ∀ d ∈ names, d ∈ c.dependencies) :
    names.foldl (fun c d => reading d c) c = c := by
  induction names with
  | nil => rfl
  | cons d names ih =>
    have hd : reading d c = c :=
      if_pos (List.contains_iff_mem.mpr (h d List.mem_cons_self))
    rw [List.foldl_cons, hd]
    exact ih fun e he => h e (List.mem_cons_of_mem _ he)

/-- A cell that reads some names more reads the same exactly if it was connected with them. -/
theorem Widened.sameReading_iff {more : List String} (h : Widened cell more names s s')
    (ht : s.Tied) :
    SameReading cell s s' ↔ ∀ d ∈ more, s.graph.hasEdge d cell = true := by
  constructor
  · exact fun hsame d hd => (hsame.2 d).mp ((h.edge d cell).mpr (.inr ⟨hd, rfl⟩))
  · refine fun hmore => ⟨?_, fun a => (h.edge a cell).trans ?_⟩
    · rw [h.self, Option.map_map]
      cases hc : s.cell? cell with
      | none => rfl
      | some c =>
        have hlisted (d : String) (hd : d ∈ more) : d ∈ c.dependencies := by
          obtain ⟨c', hc', hmem⟩ := ht.read d cell (hmore d hd)
          rw [hc] at hc'
          cases hc'
          exact hmem
        exact congrArg (fun c : Cell => some c.dependencies) (foldl_reading hlisted)
    · exact or_iff_left_of_imp fun ha => hmore a ha.1

/-- Names are added to a cell that is there until one of them closes a cycle, or all of them. -/
theorem Adds.closes_cases {r : Sheet × Except CellError Unit} (hcall : s.Adds cell deps r)
    (ht : s.Tied) :
    (s.hasCell cell = false ∧ r = (s, .error (.unknownCell cell))) ∨
    (s.hasCell cell = true ∧ ∃ d, s.cyclic? cell deps = some d ∧
      r.2 = .error (.graph ⟨d, cell⟩) ∧
      Widened cell (s.accepted cell deps) (s.accepted cell deps ++ [d]) s r.1) ∨
    (s.hasCell cell = true ∧ s.cyclic? cell deps = none ∧ r.2 = .ok ()) := by
  cases hcall with
  | unknown hcell => exact .inl ⟨hcell, rfl⟩
  | refused hcell hrefused =>
    obtain ⟨hresult, hwidened⟩ := addEach_spec ht hcell deps
    rw [hrefused] at hresult hwidened
    cases hcyclic : s.cyclic? cell deps with
    | some d =>
      rw [hcyclic] at hresult hwidened
      exact .inr (.inl ⟨hcell, d, rfl, hresult, hwidened⟩)
    | none =>
      rw [hcyclic] at hresult
      cases hresult
  | added hcell hadded =>
    obtain ⟨hresult, -⟩ := addEach_spec ht hcell deps
    rw [hadded] at hresult
    cases hcyclic : s.cyclic? cell deps with
    | some d =>
      rw [hcyclic] at hresult
      cases hresult
    | none => exact .inr (.inr ⟨hcell, rfl, rfl⟩)

/-- When adding to what a cell reads fails on an existing sheet: for a cell that is not there, which
    changes nothing, or for the first name that closes a cycle. The names in front of that one are
    read from then on, though nothing is scheduled. So the cell reads what it read before exactly if
    edges led to it from all of these already. -/
theorem sameReading_iff_of_run (schema : Schema) (policy : Policy) (executor : Option Executor)
    (ops : List Operation) (sheet name : String) (dependencies : List String) :
    let s := (new schema policy executor).run ops
    let s' := (s.addDependencies sheet name dependencies).1
    let cell := CellName.qualify sheet name
    let deps := dependencies.map (CellName.resolve sheet)
    ((∃ e, (s.addDependencies sheet name dependencies).2 = .error e) ↔
      s.hasCell cell = false ∨ ∃ d ∈ deps, d = cell ∨ s.graph.Reaches cell d) ∧
    ∀ e, (s.addDependencies sheet name dependencies).2 = .error e →
      (s.hasCell cell = false ∧ e = .unknownCell cell ∧ s' = s) ∨
      (s.hasCell cell = true ∧ (∃ d, s.cyclic? cell deps = some d ∧ e = .graph ⟨d, cell⟩ ∧
        Widened cell (s.accepted cell deps) (s.accepted cell deps ++ [d]) s s') ∧
        (SameReading cell s s' ↔ ∀ d ∈ s.accepted cell deps, s.graph.hasEdge d cell = true)) := by
  intro s s' cell deps
  have ht : s.Tied := tied_run (tied_new schema policy executor) ops
  simp only [eq_or_reaches_iff ht]
  obtain ⟨hhas, hunknown⟩ | ⟨hhas, d, hd, herror, hwidened⟩ | ⟨hhas, hnone, hok⟩ :=
    (adds_addDependencies s sheet name dependencies).closes_cases ht
  · rw [hunknown]
    refine ⟨iff_of_true ⟨_, rfl⟩ (.inl hhas), ?_⟩
    rintro e ⟨⟩
    exact .inl ⟨hhas, rfl, congrArg Prod.fst hunknown⟩
  · rw [herror]
    refine ⟨iff_of_true ⟨_, rfl⟩ (.inr ⟨d, List.mem_of_find?_eq_some hd, List.find?_some hd⟩), ?_⟩
    rintro e ⟨⟩
    exact .inr ⟨hhas, ⟨d, hd, rfl, hwidened⟩, hwidened.sameReading_iff ht⟩
  · rw [hok]
    refine ⟨iff_of_false (fun ⟨e, he⟩ => by cases he) fun h => ?_, ?_⟩
    · rcases h with hunknown | ⟨d, hd, hclose⟩
      · exact Bool.noConfusion (hhas.symm.trans hunknown)
      · exact List.find?_eq_none.mp hnone d hd hclose
    · rintro e ⟨⟩

/-- `b` reads `a` and not `c`; behind either of them it is to read itself. -/
theorem cyclic_chained :
    (((new .empty .none none).run chained).graph.hasEdge "c" "b",
      ((new .empty .none none).run chained).cyclic? "b" ["a", "b"],
      ((new .empty .none none).run chained).accepted "b" ["a", "b"],
      ((new .empty .none none).run chained).cyclic? "b" ["c", "b"],
      ((new .empty .none none).run chained).accepted "b" ["c", "b"]) =
    (false, some "b", ["a"], some "b", ["c"]) := by
  simp only [chained, run, List.foldl, Operation.apply, createDynamic, List.map, connect,
    Graph.addEdge, ite_or, ← Bool.cond_eq_ite]
  cbv

theorem hasCell_chained : ((new .empty .none none).run chained).hasCell "b" = true := by
  obtain ⟨c, hc, -⟩ :=
    (tied_run (tied_new .empty .none none) chained).read "a" "b" (Prod.mk.inj run_chained).2
  exact hasCell_iff.mpr ⟨c, hc⟩

/-- What `b` read already, it may be told to read again before it is told to read itself. -/
theorem sameReading_of_chained :
    SameReading "b" ((new .empty .none none).run chained)
      (((new .empty .none none).run chained).addDependencies "" "b" ["a", "b"]).1 := by
  have hchained := cyclic_chained
  simp only [Prod.mk.injEq] at hchained
  obtain ⟨-, hcyclic, haccepted, -, -⟩ := hchained
  have hspec := sameReading_iff_of_run .empty .none none chained "" "b" ["a", "b"]
  have hself : "b" ∈ ["a", "b"].map (CellName.resolve "") := List.mem_of_elem_eq_true (by cbv)
  obtain ⟨e, he⟩ := hspec.1.mpr (.inr ⟨"b", hself, .inl (by cbv)⟩)
  obtain ⟨hnone, -⟩ | ⟨-, -, hsame⟩ := hspec.2 e he
  · exact Bool.noConfusion (hasCell_chained.symm.trans hnone)
  · refine hsame.mpr fun d hd => ?_
    have hd' : d ∈ ((new .empty .none none).run chained).accepted "b" ["a", "b"] := hd
    rw [haccepted, List.mem_singleton] at hd'
    exact hd' ▸ (Prod.mk.inj run_chained).2

/-- A new name stays, though the call fails. -/
theorem not_sameReading_of_new :
    (((new .empty .none none).run chained).addDependencies "" "b" ["c", "b"]).2 =
      .error (.graph ⟨"b", "b"⟩) ∧
    ¬ SameReading "b" ((new .empty .none none).run chained)
      (((new .empty .none none).run chained).addDependencies "" "b" ["c", "b"]).1 := by
  have hchained := cyclic_chained
  simp only [Prod.mk.injEq] at hchained
  obtain ⟨hnew, -, -, hcyclic, haccepted⟩ := hchained
  have ht := tied_run (tied_new .empty .none none) chained
  have hcall := adds_addDependencies ((new .empty .none none).run chained) "" "b" ["c", "b"]
  rw [show CellName.qualify "" "b" = "b" by cbv,
    show ["c", "b"].map (CellName.resolve "") = ["c", "b"] by cbv] at hcall
  obtain ⟨hnone, -⟩ | ⟨-, d, hd, herror, hwidened⟩ | ⟨-, hnone, -⟩ := hcall.closes_cases ht
  · exact Bool.noConfusion (hasCell_chained.symm.trans hnone)
  · rw [hcyclic] at hd
    cases hd
    refine ⟨herror, fun hsame => ?_⟩
    have hedge := (hwidened.sameReading_iff ht).mp hsame "c" (haccepted ▸ List.mem_cons_self)
    exact Bool.noConfusion (hnew.symm.trans hedge)
  · rw [hcyclic] at hnone
    cases hnone

end QuerySheet.Sheet

import Mathlib
import QuerySheet.Proofs.Sheet.Batching
import QuerySheet.Proofs.Sheet.Visits

/-!
# The order of declarations

A new sheet is filled by declarations of fixed and of computed cells. A computed cell may be
declared before the cells it reads: they are blank until then.

* `Declares`: declarations with distinct names and prompt computations, none of which reads itself,
  directly or through others;
* `outlineOf`: the outline of every cell, read off the declarations and their order;
* `outlined_declared`: the sheet that the declarations leave has these outlines, and is ready;
* `createDynamic_declared`: every computed cell is bound by its declaration;
* `ignored`: a fixed cell is not written if a computed cell that reads it was declared before,
  because then the name has a cell already;
* `same_cells_iff`: two orders of the same declarations leave the same values and the same kinds of
  bindings exactly if they ignore the same fixed cells.
-/

namespace QuerySheet.Sheet

open Relation (TransGen ReflTransGen)

variable {s t : Sheet} {name a b : String}

/-! ## 1. Declarations -/

/-- A fixed cell with its value, or a computed cell. -/
inductive Declaration where
  | fixed (sheet name : String) (v : Json)
  | computed (sheet name : String) (d : Definition)

namespace Declaration

def cell : Declaration → String
  | .fixed sheet name _ | .computed sheet name _ => CellName.qualify sheet name

/-- The names of the cells that are read, in the order of the arguments. -/
def reads : Declaration → List String
  | .fixed _ _ _ => []
  | .computed sheet _ d => d.dependencies.map (CellName.resolve sheet)

def isFixed : Declaration → Bool
  | .fixed _ _ _ => true
  | .computed _ _ _ => false

def operation : Declaration → Operation
  | .fixed sheet name v => .createStatic sheet name v
  | .computed sheet name d => .createDynamic sheet name d

/-- A computation is prompt and does not start over. -/
def Prompt : Declaration → Prop
  | .fixed _ _ _ => True
  | .computed _ _ d => d.run.Prompt ∧ d.refresh = false

/-- What a declaration makes of its cell, but for what is computed. -/
def outline : Declaration → Cell
  | .fixed _ _ v => ⟨v, .fixed, []⟩
  | .computed sheet name d => ⟨.null, .dynamic d.run 0, (computed sheet name d).reads⟩

end Declaration

variable {ds ds' : List Declaration} {d e : Declaration}

/-- One cell reads the other by a declaration. -/
def ReadBy (ds : List Declaration) (a b : String) : Prop := ∃ d ∈ ds, d.cell = b ∧ a ∈ d.reads

/-- Declarations of distinct cells, none of which reads itself, directly or through others. -/
structure Declares (ds : List Declaration) : Prop where
  distinct : (ds.map Declaration.cell).Nodup
  prompt : ∀ d ∈ ds, d.Prompt
  acyclic : ∀ a, ¬ TransGen (ReadBy ds) a a

/-- The sheet that declarations leave on a new one. -/
def declared (schema : Schema) (policy : Policy) (executor : Option Executor)
    (ds : List Declaration) : Sheet :=
  (new schema policy executor).run (ds.map Declaration.operation)

/-- A fixed cell is read by a cell that is declared before it. -/
def ignored (ds : List Declaration) (d : Declaration) : Bool :=
  d.isFixed && (ds.takeWhile (·.cell != d.cell)).any (·.reads.contains d.cell)

namespace Declares

/-- Fewer declarations, or the same ones in another order. -/
theorem of_subset (h : Declares ds) (hsub : ∀ d ∈ ds', d ∈ ds)
    (hdistinct : (ds'.map Declaration.cell).Nodup) : Declares ds' where
  distinct := hdistinct
  prompt d hd := h.prompt d (hsub d hd)
  acyclic a hcycle := h.acyclic a (TransGen.mono
    (fun _ _ ⟨d, hd, hread⟩ => ⟨d, hsub d hd, hread⟩) _ _ hcycle)

theorem perm (h : Declares ds) (hperm : ds.Perm ds') : Declares ds' :=
  h.of_subset (fun _ => hperm.mem_iff.mpr) ((hperm.map _).nodup_iff.mp h.distinct)

theorem of_append (h : Declares (ds ++ ds')) : Declares ds :=
  h.of_subset (fun _ => List.mem_append_left _)
    (List.nodup_append.mp (List.map_append ▸ h.distinct)).1

theorem not_mem_of_concat (h : Declares (ds ++ [d])) : d.cell ∉ ds.map Declaration.cell := by
  have hdistinct := h.distinct
  rw [List.map_append, List.nodup_append] at hdistinct
  exact fun hmem => hdistinct.2.2 _ hmem _ List.mem_cons_self rfl

/-- A declaration is found by the name of its cell. -/
theorem find?_eq_some (h : Declares ds) :
    ds.find? (·.cell == a) = some d ↔ d ∈ ds ∧ d.cell = a := by
  constructor
  · exact fun hfind => ⟨List.mem_of_find?_eq_some hfind, by simpa using List.find?_some hfind⟩
  · rintro ⟨hd, rfl⟩
    obtain ⟨e, he⟩ : ∃ e, ds.find? (·.cell == d.cell) = some e :=
      Option.isSome_iff_exists.mp (List.find?_isSome.mpr ⟨d, hd, beq_self_eq_true _⟩)
    have hcell : e.cell = d.cell := by simpa using List.find?_some he
    rw [he, List.inj_on_of_nodup_map h.distinct (List.mem_of_find?_eq_some he) hd hcell]

end Declares

/-! ## 2. The outlines that declarations give -/

/-- What declarations make of a cell, but for what is computed: what its own declaration says,
    unless that is ignored, and a blank cell if the name is only read. -/
def outlineOf (ds : List Declaration) (a : String) : Option Cell :=
  match ds.find? (·.cell == a) with
  | some d => some (if ignored ds d then .blank else d.outline)
  | none => if ds.any (·.reads.contains a) then some .blank else none

theorem ignored_concat (hd : d.cell ∉ ds.map Declaration.cell) :
    ignored (ds ++ [d]) d = (d.isFixed && ds.any (·.reads.contains d.cell)) := by
  have hall (e : Declaration) (he : e ∈ ds) : (e.cell != d.cell) = true :=
    bne_iff_ne.mpr fun heq => hd (heq ▸ List.mem_map_of_mem he)
  rw [ignored, List.takeWhile_append_of_pos hall]
  simp

theorem ignored_append (he : e ∈ ds) : ignored (ds ++ ds') e = ignored ds e := by
  have hstop : (ds.takeWhile (·.cell != e.cell)).length ≠ ds.length := by
    intro hlen
    have hall := List.takeWhile_eq_self_iff.mp
      ((List.takeWhile_prefix (·.cell != e.cell)).eq_of_length hlen) e he
    simp at hall
  rw [ignored, List.takeWhile_append, if_neg hstop, ignored]

/-- A name that is not declared has a cell if it is read. -/
theorem outlineOf_of_not_mem (ha : a ∉ ds.map Declaration.cell) :
    outlineOf ds a = if ds.any (·.reads.contains a) then some .blank else none := by
  have hnone : ds.find? (·.cell == a) = none := List.find?_eq_none.mpr fun e he heq =>
    ha (beq_iff_eq.mp heq ▸ List.mem_map_of_mem he)
  rw [outlineOf, hnone]

theorem outlineOf_concat_self (hd : d.cell ∉ ds.map Declaration.cell) :
    outlineOf (ds ++ [d]) d.cell =
      some (if d.isFixed && ds.any (·.reads.contains d.cell) then .blank else d.outline) := by
  have hnone : ds.find? (·.cell == d.cell) = none := List.find?_eq_none.mpr fun e he heq =>
    hd (beq_iff_eq.mp heq ▸ List.mem_map_of_mem he)
  have hfind : (ds ++ [d]).find? (·.cell == d.cell) = some d := by
    rw [List.find?_append, hnone]
    simp
  rw [outlineOf, hfind, ← ignored_concat hd]

theorem outlineOf_concat_of_ne (ha : a ≠ d.cell) :
    outlineOf (ds ++ [d]) a =
      if a ∈ d.reads then some ((outlineOf ds a).getD .blank) else outlineOf ds a := by
  have hfind : (ds ++ [d]).find? (·.cell == a) = ds.find? (·.cell == a) := by
    rw [List.find?_append, List.find?_singleton, if_neg (by simpa using ha.symm), Option.or_none]
  rw [outlineOf, hfind, outlineOf]
  cases hds : ds.find? (·.cell == a) with
  | some e => simp [ignored_append (List.mem_of_find?_eq_some hds)]
  | none =>
    rw [List.any_append]
    cases ds.any (·.reads.contains a) <;> simp

/-- The outlines depend on the order through what is ignored only. -/
theorem outlineOf_perm (h : Declares ds) (hperm : ds.Perm ds')
    (hignored : ∀ d ∈ ds, ignored ds' d = ignored ds d) (a : String) :
    outlineOf ds' a = outlineOf ds a := by
  have hfind : ds'.find? (·.cell == a) = ds.find? (·.cell == a) := by
    ext d
    rw [(h.perm hperm).find?_eq_some, h.find?_eq_some, hperm.mem_iff]
  rw [outlineOf, hfind, outlineOf]
  cases hds : ds.find? (·.cell == a) with
  | some d =>
    dsimp only
    rw [hignored d (List.mem_of_find?_eq_some hds)]
  | none => rw [hperm.any_eq]

/-! ## 3. One declaration -/

theorem hasEdge_foldl_touch (names : List String) :
    (names.foldl touch s).graph.hasEdge a b = true ↔ s.graph.hasEdge a b = true := by
  induction names generalizing s with
  | nil => rfl
  | cons n names ih => rw [List.foldl_cons, ih, hasEdge_touch]

/-- Names that are touched have their cells, or blank ones. -/
theorem cell?_foldl_touch_eq (names : List String) :
    (names.foldl touch s).cell? a =
      if a ∈ names then some ((s.cell? a).getD .blank) else s.cell? a := by
  induction names generalizing s with
  | nil => rfl
  | cons n names ih =>
    rw [List.foldl_cons, ih, cell?_touch]
    by_cases hn : a = n
    · subst hn
      simp
    · simp [hn]

/-- A cell that a computation is bound to, with the edges that lead to it. -/
def bound (s : Sheet) (name : String) (g : Graph) (d : Definition) (deps : List String) : Sheet :=
  ({ s with graph := g }.update name fun c =>
    { c with binding := .dynamic d.run 0, dependencies := deps }).assign name d.initial

/-- A cell that nothing is known of, or none. -/
def Unclaimed (s : Sheet) (name : String) : Prop :=
  ∀ c, s.cell? name = some c → c.binding.isDynamic = false ∧ c.value = .null

theorem Unclaimed.value (h : s.Unclaimed name) : s.value name = .null := by
  rw [Sheet.value]
  cases hc : s.cell? name with
  | none => rfl
  | some c => exact (h c hc).2

/-- A computed cell that is new is bound and marked if what it reads does not read it. -/
theorem Binds.bound_of_unclaimed {cell : String} {deps : List String} {d : Definition}
    {r : Sheet × Except CellError Unit} (hcall : s.Binds cell deps d r) (h : s.Consistent)
    (hnew : s.Unclaimed cell) (hfree : ∀ a ∈ deps, a ≠ cell ∧ ¬ s.graph.Reaches cell a) :
    ∃ g, r = ((bound (s.readied cell deps) cell g d deps).invalidate [cell], .ok ()) := by
  cases hcall with
  | skipped hdynamic =>
    obtain ⟨c, hc, hdynamic⟩ := (Option.any_eq_true _ _).mp hdynamic
    exact Bool.noConfusion ((hnew c hc).1.symm.trans hdynamic)
  | @cyclic a _ hcyclic =>
    have hedge (a b : String) : (s.readied cell deps).graph.hasEdge a b = true ↔
        s.graph.hasEdge a b = true := hasEdge_touch.trans (hasEdge_foldl_touch deps)
    obtain ⟨hne, hreach⟩ := hfree a (List.mem_of_find?_eq_some hcyclic)
    have hclose := List.find?_some hcyclic
    rw [Bool.or_eq_true, beq_iff_eq, Graph.hasPath_iff (h.readied cell deps).sound.acyclic,
      Graph.reaches_congr hedge] at hclose
    exact (hclose.elim hne fun hpath => hreach hpath.2.2).elim
  | refused hcyclic hconnect => cases (h.connects hcyclic hconnect).1
  | @started g => exact ⟨g, rfl⟩
  | kept _ _ hvalue => exact absurd hnew.value hvalue

theorem cell?_bound_of_ne {g : Graph} {d : Definition} {deps : List String} (ha : a ≠ name) :
    (bound s name g d deps).cell? a = s.cell? a :=
  (cell?_update_of_ne ha).trans (cell?_update_of_ne ha)

theorem cell?_bound_self {g : Graph} {d : Definition} {deps : List String} :
    (bound s name g d deps).cell? name =
      (s.cell? name).map fun _ => ⟨d.initial, .dynamic d.run 0, deps⟩ := by
  rw [bound, assign, cell?_update_self, cell?_update_self, Option.map_map]
  rfl

theorem prompt_foldl_touch (h : s.Prompt) (names : List String) : (names.foldl touch s).Prompt := by
  intro a c hc
  rw [cell?_foldl_touch_eq] at hc
  split at hc
  · cases ha : s.cell? a with
    | none =>
      rw [ha] at hc
      cases hc
      trivial
    | some c' =>
      rw [ha] at hc
      exact Option.some.inj hc ▸ h a c' ha
  · exact h a c hc

theorem prompt_bound (h : s.Prompt) {g : Graph} {d : Definition} (hrun : d.run.Prompt)
    {deps : List String} : (bound s name g d deps).Prompt := by
  intro a c hc
  by_cases e : a = name
  · subst e
    rw [cell?_bound_self] at hc
    obtain ⟨c', -, rfl⟩ := Option.map_eq_some_iff.mp hc
    exact hrun
  · rw [cell?_bound_of_ne e] at hc
    exact h a c hc

/-- To mark a cell in a transaction of its own leaves the outlines. -/
theorem invalidate_spec (name : String) (h : s.Prompt) (hrun : s.running = false)
    (hqueue : s.queue = []) :
    SameOutline s (s.invalidate [name]) ∧ (s.invalidate [name]).running = false ∧
      (s.invalidate [name]).depth = s.depth := by
  obtain ⟨houtline, hidle, hdepth, -⟩ :=
    @endTransaction_spec ([name].foldl markDirty s.startTransaction) h hrun hqueue
  exact ⟨houtline, hidle, hdepth⟩

/-- What the declaration of a new computed cell leaves: it succeeds, the sheet stays ready, and
    names that are read have their cells or blank ones. -/
theorem Binds.spec_of_unclaimed {cell : String} {deps : List String} {d : Definition}
    {r : Sheet × Except CellError Unit} (hcall : s.Binds cell deps d r) (h : s.Ready)
    (hrun : d.run.Prompt) (hnew : s.Unclaimed cell)
    (hfree : ∀ a ∈ deps, a ≠ cell ∧ ¬ s.graph.Reaches cell a) :
    r.2 = .ok () ∧ r.1.Ready ∧ r.1.depth = s.depth ∧
      ∀ a, (r.1.cell? a).map Cell.outline =
        if a = cell then some ⟨.null, .dynamic d.run 0, deps⟩
        else if a ∈ deps then some (((s.cell? a).map Cell.outline).getD .blank)
        else (s.cell? a).map Cell.outline := by
  have hconsistent : r.1.Consistent :=
    hcall.consistent h.consistent (hrun.imp fun f hf calls args => by rw [hf])
      (.inr (.inl hnew.value))
  obtain ⟨g, rfl⟩ := hcall.bound_of_unclaimed h.consistent hnew hfree
  have hprompt : (bound (s.readied cell deps) cell g d deps).Prompt :=
    prompt_bound (prompt_foldl_touch (prompt_foldl_touch h.prompt deps) [cell]) hrun
  have hschedule : (bound (s.readied cell deps) cell g d deps).schedule = s.schedule :=
    schedule_readied (s := s)
  obtain ⟨houtline, hidle, hdepth⟩ := invalidate_spec cell hprompt
    ((congrArg Schedule.running hschedule).trans h.running)
    ((congrArg Schedule.queue hschedule).trans h.queue)
  refine ⟨rfl, ⟨hconsistent, houtline.prompt hprompt, hidle⟩,
    hdepth.trans (congrArg Schedule.depth hschedule), fun a => (houtline a).trans ?_⟩
  by_cases e : a = cell
  · subst e
    rw [if_pos rfl, cell?_bound_self, readied, cell?_touch, if_pos rfl]
    rfl
  · rw [if_neg e, cell?_bound_of_ne e, readied, cell?_touch, if_neg e, cell?_foldl_touch_eq]
    split
    · cases s.cell? a <;> rfl
    · rfl

/-- What the declaration of a fixed cell leaves: nothing new if the name has a cell. -/
theorem createStatic_spec (h : s.Ready) {sheet cell : String} {v : Json}
    (hcell : CellName.qualify sheet name = cell) :
    (s.createStatic sheet name v).Ready ∧ (s.createStatic sheet name v).depth = s.depth ∧
      ∀ a, ((s.createStatic sheet name v).cell? a).map Cell.outline =
        if a = cell then some (((s.cell? a).map Cell.outline).getD ⟨v, .fixed, []⟩)
        else (s.cell? a).map Cell.outline := by
  unfold createStatic
  rw [hcell]
  dsimp only
  split
  · rename_i hhas
    refine ⟨h, rfl, fun a => ?_⟩
    split
    · rename_i e
      obtain ⟨c, hc⟩ := hasCell_iff.mp (e ▸ hhas)
      rw [hc]
      rfl
    · rfl
  · rename_i hhas
    have hnone : s.cell? cell = none := Option.not_isSome_iff_eq_none.mp fun hs =>
      hhas (hasCell_iff.mpr (Option.isSome_iff_exists.mp hs))
    obtain ⟨houtline, -, hdepth, -⟩ := set_spec h cell v
    refine ⟨h.set cell v, hdepth, fun a => (houtline a).trans ?_⟩
    split
    · rename_i e
      subst e
      rw [cell?_update_self, cell?_touch, if_pos rfl, hnone]
      rfl
    · rename_i e
      rw [cell?_update_of_ne e, cell?_touch, if_neg e]

/-! ## 4. All declarations -/

/-- A ready sheet whose cells have the outlines that declarations give. -/
structure Outlined (ds : List Declaration) (s : Sheet) : Prop where
  ready : s.Ready
  closed : s.depth = 0
  tied : s.Tied
  outline : ∀ a, (s.cell? a).map Cell.outline = outlineOf ds a

theorem readBy_of_outlineOf {c : Cell} (h : outlineOf ds b = some c) (ha : a ∈ c.dependencies) :
    ReadBy ds a b := by
  unfold outlineOf at h
  split at h
  · rename_i d hd
    obtain rfl := Option.some.inj h
    have hcell : d.cell = b := by simpa using List.find?_some hd
    refine ⟨d, List.mem_of_find?_eq_some hd, hcell, ?_⟩
    split at ha
    · cases ha
    · cases d with
      | fixed sheet name v => cases ha
      | computed sheet name d => exact ha
  · split at h
    · cases h
      cases ha
    · cases h

theorem unclaimed_of_outline
    (h : ∀ c, (s.cell? name).map Cell.outline = some c → c = .blank) : s.Unclaimed name := by
  intro c hc
  have hblank := h c.outline (by rw [hc]; rfl)
  obtain ⟨v, binding, dependencies⟩ := c
  cases binding with
  | dynamic run calls => cases congrArg Cell.binding hblank
  | query handle compiled => cases congrArg Cell.binding hblank
  | unbound | fixed =>
    have hvalue := congrArg Cell.value hblank
    exact ⟨rfl, hvalue⟩

namespace Outlined

/-- What an edge leads to reads by a declaration what it comes from. -/
theorem readBy (h : Outlined ds s) (hedge : s.graph.hasEdge a b = true) : ReadBy ds a b := by
  obtain ⟨c, hc, ha⟩ := h.tied.read a b hedge
  have houtline := h.outline b
  rw [hc] at houtline
  exact readBy_of_outlineOf houtline.symm ha

theorem unclaimed (h : Outlined ds s) (ha : a ∉ ds.map Declaration.cell) : s.Unclaimed a := by
  refine unclaimed_of_outline fun c hc => ?_
  rw [h.outline, outlineOf_of_not_mem ha] at hc
  split at hc
  · exact (Option.some.inj hc).symm
  · cases hc

/-- What a new declaration reads does not read its cell. -/
theorem free (h : Outlined ds s) (hds : Declares (ds ++ [d])) :
    ∀ a ∈ d.reads, a ≠ d.cell ∧ ¬ s.graph.Reaches d.cell a := by
  intro a ha
  have hread : ReadBy (ds ++ [d]) a d.cell :=
    ⟨d, List.mem_append_right _ List.mem_cons_self, rfl, ha⟩
  refine ⟨fun e => hds.acyclic a (.single (e ▸ hread)), fun hreach => hds.acyclic d.cell ?_⟩
  refine TransGen.tail' (ReflTransGen.mono (fun x y hxy => ?_) _ _ hreach) hread
  obtain ⟨e, he, hcell, hmem⟩ := h.readBy hxy
  exact ⟨e, List.mem_append_left _ he, hcell, hmem⟩

/-- One more declaration. -/
theorem concat (h : Outlined ds s) (hds : Declares (ds ++ [d])) :
    Outlined (ds ++ [d]) (d.operation.apply s) := by
  have hmem := hds.not_mem_of_concat
  have htied : (d.operation.apply s).Tied := tied_run h.tied [d.operation]
  cases d with
  | fixed sheet name v =>
    obtain ⟨hready, hdepth, houtline⟩ := createStatic_spec h.ready (v := v)
      (rfl : CellName.qualify sheet name = (Declaration.fixed sheet name v).cell)
    refine ⟨hready, hdepth.trans h.closed, htied, fun a => (houtline a).trans ?_⟩
    rw [h.outline]
    by_cases e : a = (Declaration.fixed sheet name v).cell
    · subst e
      refine (if_pos rfl).trans ?_
      rw [outlineOf_concat_self hmem, outlineOf_of_not_mem hmem]
      simp only [Declaration.isFixed, Bool.true_and]
      split <;> rfl
    · rw [outlineOf_concat_of_ne e]
      exact (if_neg e).trans (if_neg List.not_mem_nil).symm
  | computed sheet name d =>
    have hcall := binds_createDynamic s sheet name d
    obtain ⟨-, hready, hdepth, houtline⟩ := hcall.spec_of_unclaimed h.ready
      (hds.prompt _ (List.mem_append_right _ List.mem_cons_self)).1 (h.unclaimed hmem) (h.free hds)
    refine ⟨hready, hdepth.trans h.closed, htied, fun a => (houtline a).trans ?_⟩
    rw [h.outline]
    by_cases e : a = (Declaration.computed sheet name d).cell
    · subst e
      exact (if_pos rfl).trans (outlineOf_concat_self hmem).symm
    · exact (if_neg e).trans (outlineOf_concat_of_ne e).symm

end Outlined

theorem outlined_declared (schema : Schema) (policy : Policy) (executor : Option Executor)
    (h : Declares ds) : Outlined ds (declared schema policy executor ds) := by
  induction ds using List.reverseRecOn with
  | nil =>
    refine ⟨⟨consistent_new schema policy executor, fun a c hc => ?_, rfl⟩, rfl,
      tied_new schema policy executor, fun a => ?_⟩
    · simp [cell?, declared, run, Sheet.new] at hc
    · simp [cell?, declared, run, Sheet.new, outlineOf]
  | append_singleton ds d ih =>
    have hrun := (ih h.of_append).concat h
    rw [declared, ← run_concat] at hrun
    rw [declared, List.map_append]
    exact hrun

/-- Every computed cell is bound by its declaration. -/
theorem createDynamic_declared (schema : Schema) (policy : Policy) (executor : Option Executor)
    {sheet : String} {d : Definition} (h : Declares (ds ++ [.computed sheet name d])) :
    ((declared schema policy executor ds).createDynamic sheet name d).2 = .ok () := by
  have houtlined := outlined_declared schema policy executor h.of_append
  have hcall := binds_createDynamic (declared schema policy executor ds) sheet name d
  exact (hcall.spec_of_unclaimed houtlined.ready
    (h.prompt _ (List.mem_append_right _ List.mem_cons_self)).1
    (houtlined.unclaimed h.not_mem_of_concat) (houtlined.free h)).1

/-- The kind of binding of a cell, if there is one. -/
def kind? (s : Sheet) (name : String) : Option String := (s.cell? name).map (·.binding.kind)

theorem kind?_eq : s.kind? name = ((s.cell? name).map Cell.outline).map (·.binding.kind) := by
  rw [kind?, Option.map_map]
  refine congrArg (Option.map · _) (funext fun c => ?_)
  obtain ⟨v, binding, dependencies⟩ := c
  cases binding <;> rfl

/-- A declared cell is bound as its declaration says, and not at all if that is ignored. -/
theorem Outlined.kind? (h : Outlined ds s) (hds : Declares ds) (hd : d ∈ ds) :
    s.kind? d.cell = some (if ignored ds d then "unbound" else d.outline.binding.kind) := by
  have hfind : ds.find? (·.cell == d.cell) = some d := hds.find?_eq_some.mpr ⟨hd, rfl⟩
  rw [kind?_eq, h.outline, outlineOf, hfind]
  dsimp only
  split <;> rfl

/-- Take any declarations of fixed and of computed cells with distinct names, of which none reads
    itself, directly or through others, and whose computations go by their arguments only, fail
    never and are not deferred. Made in another order they leave the same value and the same kind of
    binding in every declared cell exactly if both orders ignore the same fixed cells: those that a
    computed cell reads which is declared before them. -/
theorem same_cells_iff (schema : Schema) (policy : Policy) (executor : Option Executor)
    (h : Declares ds) (hperm : ds.Perm ds') :
    (∀ d ∈ ds,
      (declared schema policy executor ds').value d.cell =
        (declared schema policy executor ds).value d.cell ∧
      (declared schema policy executor ds').kind? d.cell =
        (declared schema policy executor ds).kind? d.cell) ↔
    ∀ d ∈ ds, ignored ds' d = ignored ds d := by
  have hs := outlined_declared schema policy executor h
  have hs' := outlined_declared schema policy executor (h.perm hperm)
  generalize declared schema policy executor ds = s at hs ⊢
  generalize declared schema policy executor ds' = s' at hs' ⊢
  constructor
  · intro hsame d hd
    obtain ⟨-, hkind⟩ := hsame d hd
    rw [hs'.kind? (h.perm hperm) (hperm.mem_iff.mp hd), hs.kind? h hd] at hkind
    -- no declared cell is unbound but for the ignored ones
    have hbound : d.outline.binding.kind ≠ "unbound" := by
      cases d <;> simp [Declaration.outline, Binding.kind]
    cases hi : ignored ds d <;> cases hi' : ignored ds' d <;> simp_all
  · intro hignored d hd
    have houtline : SameOutline s s' := fun a => by
      rw [hs.outline, hs'.outline, outlineOf_perm h hperm hignored]
    exact ⟨value_of_uncounted
      (uncounted_of_sameOutline hs.ready hs'.ready houtline hs.closed hs'.closed d.cell),
      by rw [kind?_eq, kind?_eq, houtline]⟩

/-- Names that come with numbers, so that what is read has a smaller one. -/
theorem declares_of_rank (hdistinct : (ds.map Declaration.cell).Nodup)
    (hprompt : ∀ d ∈ ds, d.Prompt) (rank : String → Nat)
    (hrank : ∀ d ∈ ds, ∀ a ∈ d.reads, rank a < rank d.cell) : Declares ds where
  distinct := hdistinct
  prompt := hprompt
  acyclic a hcycle := by
    have hlt {b : String} (h : TransGen (ReadBy ds) a b) : rank a < rank b := by
      induction h with
      | single hread =>
        obtain ⟨d, hd, rfl, ha⟩ := hread
        exact hrank d hd _ ha
      | tail _ hread ih =>
        obtain ⟨d, hd, rfl, ha⟩ := hread
        exact ih.trans (hrank d hd _ ha)
    exact Nat.lt_irrefl _ (hlt hcycle)

/-- A fixed cell, a cell that reads it, and a cell that reads both. -/
def fixedCell : Declaration := .fixed "" "a" (.int 1)

def readingCell : Declaration := .computed "" "b" ⟨["a"], gather, .null, false⟩

def readingBoth : Declaration := .computed "" "c" ⟨["a", "b"], gather, .null, false⟩

theorem declares_cells : Declares [fixedCell, readingCell, readingBoth] := by
  have hgather : gather.Prompt := ⟨fun args => .array args, fun _ _ => rfl⟩
  refine declares_of_rank (by decide) (fun d hd => ?_)
    (fun a => if a = "a" then 0 else if a = "b" then 1 else 2) (by decide)
  simp only [List.mem_cons, List.not_mem_nil, or_false] at hd
  rcases hd with rfl | rfl | rfl
  · trivial
  · exact ⟨hgather, rfl⟩
  · exact ⟨hgather, rfl⟩

/-- It does not matter which of the computed cells is declared first. -/
theorem same_cells_of_forward :
    let s := declared .empty .none none [fixedCell, readingCell, readingBoth]
    let s' := declared .empty .none none [fixedCell, readingBoth, readingCell]
    (∀ d ∈ [fixedCell, readingCell, readingBoth],
      s'.value d.cell = s.value d.cell ∧ s'.kind? d.cell = s.kind? d.cell) ∧
    s'.value "c" = .array [.int 1, .array [.int 1]] := by
  have hvalue : (declared .empty .none none [fixedCell, readingBoth, readingCell]).value "c" =
      .array [.int 1, .array [.int 1]] := by
    simp only [declared, fixedCell, readingBoth, readingCell, List.map, Declaration.operation, run,
      List.foldl, Operation.apply, createDynamic, connect, Graph.addEdge, ite_or,
      ← Bool.cond_eq_ite]
    cbv
  refine ⟨(same_cells_iff .empty .none none declares_cells ?_).mpr ?_, hvalue⟩
  · exact .cons _ (.swap _ _ _)
  · decide

/-- A fixed cell that is declared after a cell that reads it gets no value. -/
theorem not_same_of_late :
    Declares [fixedCell, readingCell] ∧ [fixedCell, readingCell].Perm [readingCell, fixedCell] ∧
    (declared .empty .none none [fixedCell, readingCell]).kind? "a" = some "static" ∧
    (declared .empty .none none [fixedCell, readingCell]).value "a" = .int 1 ∧
    (declared .empty .none none [readingCell, fixedCell]).kind? "a" = some "unbound" ∧
    (declared .empty .none none [readingCell, fixedCell]).value "a" = .null := by
  have hdeclares : Declares [fixedCell, readingCell] :=
    @Declares.of_append _ [readingBoth] declares_cells
  refine ⟨hdeclares, .swap _ _ _, ?_, ?_, ?_, ?_⟩
  all_goals
    simp only [declared, fixedCell, readingCell, List.map, Declaration.operation, run, List.foldl,
      Operation.apply, createDynamic, connect, Graph.addEdge, ite_or, ← Bool.cond_eq_ite]
    cbv

end QuerySheet.Sheet

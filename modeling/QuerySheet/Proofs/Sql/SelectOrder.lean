import Mathlib
import QuerySheet.Proofs.Sql.Alongside
import QuerySheet.Proofs.Sql.Clauses

/-!
# The order of a select list

A column of names is read along a path of references, and all columns share the joins along their
paths. What a name opens does not depend on the names before it.

* `Selected`: what a list of names leaves, whatever was joined before: a column for each name and no
  join that none of the names opens;
* `phases_or_conflict`: with the names in another order all phases are passed as well, unless a join
  is refused. The policy's filters of joined tables are compiled in the order of the joins, so
  parameters in them may conflict in one order only (`JoinConflict`);
* `Forked`: one name selects a validated reference, for which the table itself is joined, and
  another one follows it, for which a view may be joined. The first of the two decides; otherwise
  both orders join the same (`direct_eq_or_forked`).
-/

namespace QuerySheet

namespace Sql

open Compile (Moves)
open Joins (pathKey)

variable {policy : Policy} {schema : Schema} {q q' : Query} {s : Scope} {l l' c c' : Ledger}

/-! ## 1. Names that are selected -/

/-- An item of a select list that names a field. -/
def IsFieldName (item : Json) : Prop := ∃ name, item = .string name ∧ name ≠ "*"

/-- The same select list in another order gives the same items in another order. -/
theorem selectItems_perm {selection : List Json} (h : selection.Perm q.selection) :
    (selectItems { q with selection }).Perm (selectItems q) := by
  have haggregate : Query.isAggregate { q with selection } = q.isAggregate :=
    congrArg (!q.groups.isEmpty || ·) h.any_eq
  have hid : selection.any selectsId = q.selection.any selectsId := h.any_eq
  unfold selectItems
  rw [haggregate]
  dsimp only
  rw [hid]
  split
  · exact h
  · exact h.cons _

theorem isFieldName_of_mem (h : ∀ item ∈ q.selection, IsFieldName item) {item : Json}
    (hitem : item ∈ selectItems q) : IsFieldName item := by
  unfold selectItems at hitem
  split at hitem
  · exact h item hitem
  · rcases List.mem_cons.mp hitem with rfl | hitem
    · exact ⟨"id", rfl, by decide⟩
    · exact h item hitem

/-! ## 2. Columns -/

/-- The route of a name that is selected. -/
def itemRoute? (s : Scope) : Json → Option Route
  | .string name => route? s name
  | _ => none

theorem route?_segment {name : String} {r : Route} (h : route? s name = some r) :
    ∀ f ∈ r.path ++ [r.field], IsSegment f := by
  obtain ⟨parent, path, field, hname⟩ := exists_dotted name
  obtain ⟨hseg, _, _, _, -, -, -, rfl⟩ := (route?_eq_some hname).mp h
  exact hseg

theorem segment_of_hops {r : Route} (h : ∀ f ∈ r.path ++ [r.field], IsSegment f) :
    ∀ f ∈ r.hops, IsSegment f := by
  unfold Route.hops
  split
  · exact h
  · exact fun f hf => h f (List.mem_append_left _ hf)

/-- The text of a column that is read at the end of its route. -/
inductive Selects (s : Scope) (l : Ledger) : Json → Template → Prop
  | column {name owner label : String} {r : Route} (hroute : route? s name = some r)
      (hknown : Known l.joins s.table r.hops)
      (hparent : l.joins.Parent s.table s.label l.joins.entries.length r.hops owner label) :
      Selects s l (.string name) (.ofString (label ++ "." ++ r.column) ++ " AS " ++ quoteAlias name)

/-- Joins that are added behind a parent do not change it. -/
theorem Joins.Parent.mono {js js' : Joins} {table label parentTable parentLabel : String}
    {place place' : Nat} {path : List String}
    (h : js.Parent table label place path parentTable parentLabel)
    (hentries : js.entries <+: js'.entries) (hplace : place ≤ place') :
    js'.Parent table label place' path parentTable parentLabel := by
  obtain ⟨more, hmore⟩ := hentries
  cases h with
  | root => exact .root
  | joined hne hlt hj =>
    refine .joined hne (Nat.lt_of_lt_of_le hlt hplace) ?_
    rw [← hmore, List.getElem?_append_left (List.getElem?_eq_some_iff.mp hj).1, hj]

theorem Selects.mono {item : Json} {t : Template} (h : Selects s l item t) (hl : JoinsOk s l)
    (hext : Extends s l l') : Selects s l' item t := by
  have hentries := (hext hl).2.isPrefix
  cases h with
  | column hroute hknown hparent =>
    exact .column hroute (hknown.extend hl hext) (hparent.mono hentries hentries.length_le)

theorem Selects.of_joins {item : Json} {t : Template} (h : Selects s l item t)
    (hjoins : l'.joins = l.joins) : Selects s l' item t := by
  cases h with
  | column hroute hknown hparent => exact .column hroute (hjoins ▸ hknown) (hjoins ▸ hparent)

/-- What a name in a select list compiles. -/
theorem compileText_field (name : String) :
    compileText ("$" ++ name) = Path.compileField name := by
  have hchars : ("$" ++ name).toList = '$' :: name.toList := by simp
  unfold compileText
  rw [hchars]
  exact congrArg Path.compileField String.ofList_toList

/-- A name in a select list, as far as it can be computed. -/
def nameColumns (name : String) : Compile (List Template) := do
  let o ← Compile.within .expr [fieldReference name] (Path.compileField name)
  return [← column o name]

theorem compileSelectItem_name {orders : List Json} {name : String} (h : name ≠ "*") :
    compileSelectItem orders (.string name) = nameColumns name := by
  unfold compileSelectItem nameColumns
  dsimp only
  rw [if_neg h, fieldReference, compileExpr_string, compileText_field]

theorem lands_selectItem (orders : List Json) {item : Json} {r : Route} (hl : JoinsOk s l)
    (hitem : IsFieldName item) (hr : itemRoute? s item = some r) :
    ∃ t l', (compileSelectItem orders item).Yields s l [t] l' ∧ Selects s l' item t ∧
      Extends s l l' ∧ l'.paramTypes = l.paramTypes ∧ Opened (r.Opens s.table) l l' := by
  obtain ⟨name, rfl, hstar⟩ := hitem
  have hname : ¬ name.isEmpty = true := by
    intro h
    rw [String.isEmpty_iff.mp h] at hr
    cases hr
  have hfield {s : Scope} : (Path.fieldName name).Yields s l name l := by
    rw [yields_fieldName, if_neg hname]
    exact ⟨rfl, rfl⟩
  obtain ⟨label, l₁, hyields, hlands⟩ := lands_compileField
    (s := { s with frames := .expr :: s.frames }) hl hfield hr
  have hexpr : (Compile.within .expr [fieldReference name] (Path.compileField name)).Yields s l
      (r.operand label) l₁ := Compile.yields_within.mpr hyields
  have htypes : l₁.paramTypes = l.paramTypes :=
    paramTypes_compileField (s := { s with frames := .expr :: s.frames }) hl hyields
  obtain ⟨owner, hparent⟩ := hlands.parent
  refine ⟨_, { l₁ with outputTypes := l₁.outputTypes.insert name (r.operand label).type }, ?_,
    .column hr hlands.known hparent, hlands.grown, htypes, hlands.opened⟩
  rw [compileSelectItem_name hstar]
  exact Compile.yields_bind.mpr ⟨_, l₁, hexpr, rfl⟩

/-- A name that is selected has a route. -/
theorem route_of_selectItem {orders : List Json} {item : Json} {ts : List Template}
    (hl : JoinsOk s l) (hs : s.field = none) (hitem : IsFieldName item)
    (h : (compileSelectItem orders item).Yields s l ts l') : ∃ r, itemRoute? s item = some r := by
  obtain ⟨name, rfl, hstar⟩ := hitem
  rw [compileSelectItem_name hstar] at h
  obtain ⟨o, l₁, hexpr, -⟩ := Compile.yields_bind.mp h
  rw [Compile.yields_within] at hexpr
  obtain ⟨name', r, hname, hr⟩ := route_of_compileField
    (s := { s with frames := .expr :: s.frames }) hl hexpr
  obtain ⟨hname, -⟩ := yields_fieldName.mp hname
  split at hname
  · rw [show ({ s with frames := .expr :: s.frames } : Scope).field = s.field from rfl, hs] at hname
    cases hname
  · subst hname
    exact ⟨r, hr⟩

/-- The joins that the items of a select list may add below the table in scope. -/
def ItemOpens (s : Scope) (items : List Json) (key : String) (direct : Bool) : Prop :=
  ∃ item ∈ items, ∃ r, itemRoute? s item = some r ∧ r.Opens s.table key direct

/-- Names with routes are selected, whatever has been joined before. -/
theorem lands_selectItems (orders : List Json) {items : List Json} (hl : JoinsOk s l)
    (hitems : ∀ item ∈ items, IsFieldName item ∧ ∃ r, itemRoute? s item = some r) :
    ∃ columns l', (items.mapM (compileSelectItem orders)).Yields s l columns l' ∧
      List.Forall₂ (Selects s l') items columns.flatten ∧ Extends s l l' ∧
        l'.paramTypes = l.paramTypes ∧ Opened (ItemOpens s items) l l' := by
  induction items generalizing l with
  | nil =>
    exact ⟨[], l, Compile.yields_pure.mpr ⟨rfl, rfl⟩, .nil, .refl s l, rfl, .refl l⟩
  | cons item items ih =>
    obtain ⟨hitem, r, hr⟩ := hitems item List.mem_cons_self
    obtain ⟨t, l₁, hyields, hselects, hext, htypes, hopened⟩ := lands_selectItem orders hl hitem hr
    obtain ⟨hok, -⟩ := hext hl
    obtain ⟨columns, l₂, hyields', hselects', hext', htypes', hopened'⟩ :=
      ih hok fun item hitem => hitems item (List.mem_cons_of_mem _ hitem)
    refine ⟨[t] :: columns, l₂, ?_, ?_, hext.trans hext', htypes'.trans htypes, ?_⟩
    · rw [List.mapM_cons]
      exact Compile.yields_bind.mpr ⟨_, l₁, hyields, Compile.yields_bind.mpr
        ⟨_, l₂, hyields', Compile.yields_pure.mpr ⟨rfl, rfl⟩⟩⟩
    · exact .cons (hselects.mono hok hext') hselects'
    · refine (hopened.mono fun key direct h => ?_).trans (hopened'.mono fun key direct h => ?_)
      · exact ⟨item, List.mem_cons_self, r, hr, h⟩
      · obtain ⟨item', hmem, h⟩ := h
        exact ⟨item', List.mem_cons_of_mem _ hmem, h⟩

theorem routes_of_selectItems {orders : List Json} {items : List Json}
    {columns : List (List Template)} (hl : JoinsOk s l) (hs : s.field = none)
    (hitems : ∀ item ∈ items, IsFieldName item)
    (h : (items.mapM (compileSelectItem orders)).Yields s l columns l') :
    ∀ item ∈ items, ∃ r, itemRoute? s item = some r := by
  induction items generalizing l columns with
  | nil => exact fun item hitem => absurd hitem List.not_mem_nil
  | cons item items ih =>
    rw [List.mapM_cons] at h
    obtain ⟨ts, l₁, hitem, hrest⟩ := Compile.yields_bind.mp h
    obtain ⟨more, l₂, hmore, hpure⟩ := Compile.yields_bind.mp hrest
    obtain ⟨rfl, rfl⟩ := Compile.yields_pure.mp hpure
    obtain ⟨r, hr⟩ := route_of_selectItem hl hs (hitems item List.mem_cons_self) hitem
    obtain ⟨_, l₁', hyields, -, hext, -⟩ :=
      lands_selectItem orders hl (hitems item List.mem_cons_self) hr
    rw [Compile.Yields, hitem] at hyields
    cases hyields
    intro item' hmem
    rcases List.mem_cons.mp hmem with rfl | hmem
    · exact ⟨r, hr⟩
    · exact ih (hext hl).1 (fun item hitem => hitems item (List.mem_cons_of_mem _ hitem)) hmore
        item' hmem

/-! ## 3. Two select lists -/

/-- Two runs side by side: the first one has joined all that the second one has, and parameters have
    the same types. -/
structure Abreast (s : Scope) (l c : Ledger) : Prop where
  includes : Includes s s l c
  types : c.paramTypes = l.paramTypes

theorem Abreast.step {α : Type} {R : α → α → Prop} {m m' : Compile α} {a : α}
    (h : Abreast s l c) (hm : Accompanies R m m') (hyields : m.Yields s l a l') :
    ∃ a' c', m'.Yields s c a' c' ∧ Abreast s l' c' := by
  cases hm s s l c a l' ⟨s.label, rfl⟩ h.includes hyields with
  | yields hyields' _ hincludes htypes => exact ⟨_, _, hyields', hincludes, htypes h.types⟩
  | conflict hne => exact absurd h.types hne

/-- What a select list of names leaves: a column for each item, and no other joins than those that
    the items may add. -/
structure Selected (s : Scope) (items : List Json) (l : Ledger) (select : Template) : Prop where
  joins : JoinsOk s l
  columns : ∃ texts, select = .intercalate ", " texts ∧ List.Forall₂ (Selects s l) items texts
  opened : ∀ entry ∈ l.joins.entries, ItemOpens s items entry.1 entry.2.direct

theorem Selected.of_routes (table : String)
    (hitems : ∀ item ∈ selectItems q, IsFieldName item ∧ ∃ r, itemRoute? s item = some r) :
    ∃ select l, (compileSelect q).Yields s (.root table) select l ∧
      Selected s (selectItems q) l select ∧ l.paramTypes = (Ledger.root table).paramTypes := by
  have hroot : JoinsOk { s with frames := .select :: s.frames } (.root table) :=
    Joins.wellFormed_empty
  obtain ⟨columns, l, hyields, hcolumns, hext, htypes, hopened⟩ :=
    lands_selectItems q.orders hroot hitems
  refine ⟨_, l, ?_, ⟨(hext hroot).1, ⟨columns.flatten, rfl, ?_⟩, fun entry hentry => ?_⟩, htypes⟩
  · exact Compile.yields_within.mpr (Compile.yields_bind.mpr
      ⟨columns, l, hyields, Compile.yields_pure.mpr ⟨rfl, rfl⟩⟩)
  · exact hcolumns.imp fun _ _ h => by
      cases h with
      | column hroute hknown hparent => exact .column hroute hknown hparent
  · exact (hopened entry hentry).resolve_left List.not_mem_nil

theorem selected_of_compileSelect {table : String} {select : Template} (hs : s.field = none)
    (hnames : ∀ item ∈ q.selection, IsFieldName item)
    (h : (compileSelect q).Yields s (.root table) select l) :
    Selected s (selectItems q) l select ∧ l.paramTypes = (Ledger.root table).paramTypes ∧
      ∀ item ∈ selectItems q, IsFieldName item ∧ ∃ r, itemRoute? s item = some r := by
  have hroot : JoinsOk { s with frames := .select :: s.frames } (.root table) :=
    Joins.wellFormed_empty
  obtain ⟨columns, l₁, hcolumns, -⟩ := Compile.yields_bind.mp (Compile.yields_within.mp h)
  have hroutes := routes_of_selectItems hroot hs (fun _ => isFieldName_of_mem hnames) hcolumns
  have hitems : ∀ item ∈ selectItems q, IsFieldName item ∧ ∃ r, itemRoute? s item = some r :=
    fun item hitem => ⟨isFieldName_of_mem hnames hitem, hroutes item hitem⟩
  obtain ⟨select', l', hyields, hselected, htypes⟩ := Selected.of_routes table hitems
  rw [Compile.Yields, h] at hyields
  cases hyields
  exact ⟨hselected, htypes, hitems⟩

theorem exists_of_forall₂ {α β : Type} {R : α → β → Prop} {xs : List α} {ys : List β}
    (h : List.Forall₂ R xs ys) {x : α} (hx : x ∈ xs) : ∃ y, R x y := by
  induction h with
  | nil => exact absurd hx List.not_mem_nil
  | cons hxy _ ih =>
    rcases List.mem_cons.mp hx with rfl | hx
    · exact ⟨_, hxy⟩
    · exact ih hx

/-- Both lists join the same paths. -/
theorem Selected.includes {items items' : List Json} {select select' : Template}
    (h : Selected s items l select) (h' : Selected s items' c select')
    (hsub : items' ⊆ items) : Includes s s l c := by
  refine ⟨h.joins, h'.joins, fun key hkey => ?_⟩
  obtain ⟨place, j, hj⟩ := h'.joins.contains_iff.mp hkey
  obtain ⟨item, hitem, r, hr, hopens⟩ := h'.opened _ (List.mem_of_getElem? hj)
  obtain ⟨texts, -, hcolumns⟩ := h.columns
  obtain ⟨t, hselects⟩ := exists_of_forall₂ hcolumns (hsub hitem)
  cases hselects with
  | column hroute hknown =>
    cases hroute.symm.trans hr
    exact hopens.contains hknown

/-- The joins along the route of an item were found with the select list. -/
theorem Selected.mem_entries {items : List Json} {item : Json} {select : Template} {r : Route}
    {path : List String} {js : Joins} {j : Join} (h : Selected s items l select)
    (hjs : js.WellFormed s.schema s.table s.label) (hentries : l.joins.entries <+: js.entries)
    (hitem : item ∈ items) (hr : itemRoute? s item = some r) (hne : path ≠ [])
    (hpath : path <+: r.hops) (hj : js.get? (pathKey s.table path) = some j) :
    (pathKey s.table path, j) ∈ l.joins.entries := by
  obtain ⟨texts, -, hcolumns⟩ := h.columns
  obtain ⟨t, hselects⟩ := exists_of_forall₂ hcolumns hitem
  cases hselects with
  | column hroute hknown =>
    cases hroute.symm.trans hr
    obtain ⟨place, j', hj'⟩ := h.joins.contains_iff.mp (hknown path hne hpath)
    obtain ⟨more, hmore⟩ := hentries
    have hlater : js.entries[place]? = some (pathKey s.table path, j') := by
      rw [← hmore, List.getElem?_append_left (List.getElem?_eq_some_iff.mp hj').1, hj']
    obtain ⟨place', hplace'⟩ := hjs.get?_eq_some.mp hj
    rw [hjs.eq_of_key hplace' hlater]
    exact List.mem_of_getElem? hj'

/-! ## 4. Joins in another order -/

/-- A join is refused for the policy's filters of its table. -/
theorem fails_compileJoin {j : Join} {cause : CompileError.Cause}
    (h : (compileJoin policy q j).Fails s l cause) :
    q.raw = false ∧ policy.filters j.table ≠ [] := by
  unfold compileJoin at h
  simp only [Compile.ite_bind] at h
  rcases Compile.fails_bind.mp h with hfilters | ⟨_, _, -, hrest⟩
  · split at hfilters
    · exact absurd hfilters Compile.fails_pure
    · rename_i hraw
      refine ⟨Bool.eq_false_iff.mpr hraw, fun hnone => ?_⟩
      have hpure : compileTableFilters policy j.table = pure none := by
        unfold compileTableFilters
        rw [hnone]
        rfl
      obtain ⟨e, l', he, -⟩ := hfilters
      rw [outcome_withJoined, hpure] at he
      cases he
  · rcases Compile.fails_bind.mp hrest with hmodify | ⟨_, _, -, htext⟩
    · exact absurd hmodify Compile.not_fails_modify
    · exact absurd (Compile.fails_read_bind.mp htext) Compile.fails_pure

/-- A compilation meets a parameter that the policy's filters of a joined table use as a type that
    conflicts with the one it has. -/
structure JoinConflict {α : Type} (policy : Policy) (q : Query) (entries : List (String × Join))
    (m : Compile α) (s : Scope) (c : Ledger) : Prop where
  restricted : q.raw = false
  filters : ∃ entry ∈ entries, policy.filters entry.2.table ≠ []
  fails : ∃ name existing type, m.Fails s c (.paramConflict name existing type)

/-- The joins that were written each have been, with some ledger. -/
theorem yields_of_mem_joins {entries : List (String × Join)} {ts : List Template}
    (h : (entries.mapM fun entry => compileJoin policy q entry.2).Yields s l ts l') :
    ∀ entry ∈ entries, ∃ t l₁ l₂, (compileJoin policy q entry.2).Yields s l₁ t l₂ ∧
      l₁.joins = l.joins := by
  induction entries generalizing l ts with
  | nil => exact fun entry hentry => absurd hentry List.not_mem_nil
  | cons entry entries ih =>
    rw [List.mapM_cons] at h
    obtain ⟨t, l₁, hjoin, hrest⟩ := Compile.yields_bind.mp h
    obtain ⟨more, l₂, hmore, hpure⟩ := Compile.yields_bind.mp hrest
    obtain ⟨rfl, rfl⟩ := Compile.yields_pure.mp hpure
    obtain ⟨filter, inner, hstep⟩ := yields_compileJoin hjoin
    intro entry' hmem
    rcases List.mem_cons.mp hmem with rfl | hmem
    · exact ⟨t, l, l₁, hjoin, rfl⟩
    · obtain ⟨t', l₃, l₄, hyields, hjoins⟩ := ih hmore entry' hmem
      exact ⟨t', l₃, l₄, hyields, hjoins.trans hstep.joins⟩

/-- Joins to tables that have been joined are written, unless their filters conflict. -/
theorem joins_or_conflict (hraw : q'.raw = q.raw) (hincludes : Includes s s l c)
    {entries : List (String × Join)}
    (h : ∀ entry ∈ entries, ∃ j t l₁ l₂, entry.2.table = j.table ∧
      (compileJoin policy q j).Yields s l₁ t l₂ ∧ l₁.joins = l.joins) :
    (∃ ts c', (entries.mapM fun entry => compileJoin policy q' entry.2).Yields s c ts c' ∧
        c'.joins = c.joins) ∨
      JoinConflict policy q' entries (entries.mapM fun entry => compileJoin policy q' entry.2) s
        c := by
  induction entries generalizing c with
  | nil => exact .inl ⟨[], c, Compile.yields_pure.mpr ⟨rfl, rfl⟩, rfl⟩
  | cons entry entries ih =>
    obtain ⟨j, t, l₁, l₂, htable, hyields, hjoins⟩ := h entry List.mem_cons_self
    rw [List.mapM_cons]
    cases accompanies_compileJoin policy hraw htable s s l₁ c t l₂ ⟨s.label, rfl⟩
      (hincludes.of_joins hjoins rfl) hyields with
    | conflict _ hfails =>
      obtain ⟨hrestricted, hfilters⟩ := fails_compileJoin hfails
      exact .inr ⟨hrestricted, ⟨entry, List.mem_cons_self, hfilters⟩, _, _, _,
        Compile.fails_bind.mpr (.inl hfails)⟩
    | @yields t' c₁ hyields' =>
      obtain ⟨filter, inner, hstep⟩ := yields_compileJoin hyields'
      rcases ih (hincludes.of_joins rfl hstep.joins)
          fun entry hmem => h entry (List.mem_cons_of_mem _ hmem) with
        ⟨ts, c', hrest, hrestJoins⟩ | ⟨hrestricted, ⟨entry', hmem, hfilters⟩, name, existing, type,
          hfails⟩
      · exact .inl ⟨t' :: ts, c', Compile.yields_bind.mpr ⟨t', c₁, hyields',
          Compile.yields_bind.mpr ⟨ts, c', hrest, Compile.yields_pure.mpr ⟨rfl, rfl⟩⟩⟩,
          hrestJoins.trans hstep.joins⟩
      · exact .inr ⟨hrestricted, ⟨entry', List.mem_cons_of_mem _ hmem, hfilters⟩, name, existing,
          type, Compile.fails_bind.mpr (.inr ⟨t', c₁, hyields',
            Compile.fails_bind.mpr (.inl hfails)⟩)⟩

/-- A path that both runs have joined leads to the same table. -/
theorem Includes.table_eq (h : Includes s s l c) {entry : String × Join}
    (hentry : entry ∈ c.joins.entries) :
    ∃ entry' ∈ l.joins.entries, entry.2.table = entry'.2.table := by
  obtain ⟨place, hplace⟩ := List.mem_iff_getElem?.mp hentry
  obtain ⟨key, j⟩ := entry
  obtain ⟨place', j', hj'⟩ := h.first.contains_iff.mp
    (h.contains key (h.second.contains_iff.mpr ⟨place, j, hplace⟩))
  obtain ⟨path, parentTable, hfollows⟩ := h.second.follows place key j hplace
  rw [hfollows.key_eq] at hplace hj'
  have hsegment := hfollows.segment
  have htable := (h.first.tableAt_entry hj' hsegment).symm.trans
    (h.second.tableAt_entry hplace hsegment)
  exact ⟨_, List.mem_of_getElem? hj', (Option.some.inj htable).symm⟩

theorem compileJoins_or_conflict {t : Template} (hraw : q'.raw = q.raw)
    (hincludes : Includes s s l c) (h : (compileJoins policy q).Yields s l t l') :
    (∃ t' c', (compileJoins policy q').Yields s c t' c' ∧ c'.joins = c.joins) ∨
      JoinConflict policy q' c.joins.entries (compileJoins policy q') s c := by
  obtain ⟨-, ts, -, hjoins⟩ := yields_compileJoins h
  have htables : ∀ entry ∈ c.joins.entries, ∃ j t l₁ l₂, entry.2.table = j.table ∧
      (compileJoin policy q j).Yields s l₁ t l₂ ∧ l₁.joins = l.joins := by
    intro entry hentry
    obtain ⟨entry', hmem, htable⟩ := hincludes.table_eq hentry
    obtain ⟨t, l₁, l₂, hyields, hsame⟩ := yields_of_mem_joins hjoins entry' hmem
    exact ⟨entry'.2, t, l₁, l₂, htable, hyields, hsame⟩
  unfold compileJoins
  rcases joins_or_conflict hraw hincludes htables with
    ⟨ts, c', hyields, hsame⟩ | ⟨hrestricted, hfilters, name, existing, type, hfails⟩
  · exact .inl ⟨_, c', Compile.yields_bind.mpr ⟨c, c, Compile.yields_get.mpr ⟨rfl, rfl⟩,
      Compile.yields_bind.mpr ⟨ts, c', hyields, Compile.yields_pure.mpr ⟨rfl, rfl⟩⟩⟩, hsame⟩
  · exact .inr ⟨hrestricted, hfilters, name, existing, type,
      Compile.fails_get_bind.mpr (Compile.fails_bind.mpr (.inl hfails))⟩

/-! ## 5. Two statements -/

/-- The phases after the select list keep what it has joined. -/
theorem Phases.Valid.extends_selected {p : Phases policy q s} (h : p.Valid l) :
    Extends s p.selected p.ordered := by
  have hP := clauseSteps_extends q.orders
  have hown := Moves.yields (holds_compileFilters hP _) h.own
  have hextra := Moves.yields (holds_ownFilters hP _) h.extra
  have hgroup := Moves.yields (holds_clause hP (holds_compileGroupBy hP _)) h.groupBy
  have horders : Moves Extends (clause "ORDER BY" q.orders compileOrderBy) :=
    holds_clause hP (holds_compileOrderBy hP.toSteps hP.window _)
  exact hown.trans (hextra.trans (hgroup.trans (horders.yields h.orderBy)))

theorem yields_compilePieces {p : Phases policy q s} (h : p.Valid l) :
    (compilePieces policy q).Yields s l p.pieces p.ledger := by
  unfold compilePieces Compile.mark Compile.moveSites
  simp only [Compile.yields_bind, Compile.yields_pure, Compile.yields_get, Compile.ite_bind,
    Compile.yields_read, Compile.yields_modify]
  exact ⟨s, l, ⟨rfl, rfl⟩, p.select, p.selected, h.select, _, _, ⟨_, _, ⟨rfl, rfl⟩, rfl, rfl⟩,
    p.own, p.filtered, h.own, p.extra, p.restricted, h.extra, p.groupBy, p.grouped, h.groupBy,
    p.orderBy, p.ordered, h.orderBy, _, _, ⟨_, _, ⟨rfl, rfl⟩, rfl, rfl⟩, p.joins, p.joined, h.joins,
    (), _, rfl, rfl, rfl⟩

/-- A statement fails with its joins. -/
theorem fails_compilePieces {select own groupBy orderBy : Template} {extra : Option Template}
    {l₁ l₂ l₃ l₄ l₅ : Ledger} {cause : CompileError.Cause}
    (hselect : (compileSelect q).Yields s l select l₁)
    (hown : (compileFilters q.filters).Yields s l₁ own l₂)
    (hextra : (ownFilters policy q q.table).Yields s l₂ extra l₃)
    (hgroup : (clause "GROUP BY" q.groups compileGroupBy).Yields s l₃ groupBy l₄)
    (horder : (clause "ORDER BY" q.orders compileOrderBy).Yields s l₄ orderBy l₅)
    (hjoins : (compileJoins policy q).Fails s l₅ cause) :
    (compilePieces policy q).Fails s l cause := by
  have hmark (l : Ledger) : Compile.mark.Yields s l l.sites.length l := rfl
  unfold compilePieces
  simp only [Compile.ite_bind]
  refine Compile.fails_read_bind.mpr (Compile.fails_bind.mpr (.inr ⟨_, _, hselect, ?_⟩))
  refine Compile.fails_bind.mpr (.inr ⟨_, _, hmark l₁, ?_⟩)
  refine Compile.fails_bind.mpr (.inr ⟨_, _, hown, ?_⟩)
  refine Compile.fails_bind.mpr (.inr ⟨_, _, hextra, ?_⟩)
  refine Compile.fails_bind.mpr (.inr ⟨_, _, hgroup, ?_⟩)
  refine Compile.fails_bind.mpr (.inr ⟨_, _, horder, ?_⟩)
  refine Compile.fails_bind.mpr (.inr ⟨_, _, hmark l₅, ?_⟩)
  exact Compile.fails_bind.mpr (.inl hjoins)

/-- With the select list in another order the phases are passed as well, unless a join conflicts. -/
theorem phases_or_conflict {table : String} {selection : List Json} (hs : s.field = none)
    (hnames : ∀ item ∈ q.selection, IsFieldName item) (hperm : selection.Perm q.selection)
    {p : Phases policy q s} (hp : p.Valid (.root table)) :
    (∃ p' : Phases policy { q with selection } s, p'.Valid (.root table) ∧
        Selected s (selectItems q) p.selected p.select ∧
          Selected s (selectItems { q with selection }) p'.selected p'.select) ∨
      JoinConflict policy q p.ordered.joins.entries (compilePieces policy { q with selection }) s
        (.root table) := by
  have hitems := selectItems_perm hperm
  obtain ⟨hselected, htypes, hroutes⟩ := selected_of_compileSelect hs hnames hp.select
  obtain ⟨select', c₁, hselect', hselected', htypes'⟩ :=
    Selected.of_routes (q := { q with selection }) table
      fun item hitem => hroutes item (hitems.mem_iff.mp hitem)
  have h₁ : Abreast s p.selected c₁ :=
    ⟨hselected.includes hselected' hitems.subset, htypes'.trans htypes.symm⟩
  have hextra : Accompanies (fun _ _ => True) (ownFilters policy q q.table)
      (ownFilters policy { q with selection } q.table) := by
    unfold ownFilters
    dsimp only
    split
    · exact accompanies_pure trivial
    · exact accompanies_compileTableFilters policy q.table
  obtain ⟨own', c₂, hown', h₂⟩ := h₁.step (accompanies_compileFilters _) hp.own
  obtain ⟨extra', c₃, hextra', h₃⟩ := h₂.step hextra hp.extra
  obtain ⟨groupBy', c₄, hgroup', h₄⟩ :=
    h₃.step (accompanies_clause _ _ (accompanies_compileGroupBy _)) hp.groupBy
  obtain ⟨orderBy', c₅, horder', h₅⟩ :=
    h₄.step (accompanies_clause _ _ (accompanies_compileOrderBy _)) hp.orderBy
  rcases compileJoins_or_conflict (show ({ q with selection } : Query).raw = q.raw from rfl)
      h₅.includes hp.joins with
    ⟨joins', c₆, hjoins', hsame⟩ | hconflict
  · exact .inl ⟨⟨select', own', extra', groupBy', orderBy', joins', c₁, c₂, c₃, c₄, c₅, c₆⟩,
      ⟨hselect', hown', hextra', hgroup', horder', hjoins'⟩, hselected, hselected'⟩
  · obtain ⟨hrestricted, ⟨entry, hentry, hfilters⟩, name, existing, type, hfails⟩ := hconflict
    obtain ⟨entry', hentry', htable⟩ := h₅.includes.table_eq hentry
    exact .inr ⟨hrestricted, ⟨entry', hentry', htable ▸ hfilters⟩, name, existing, type,
      fails_compilePieces hselect' hown' hextra' hgroup' horder' hfails⟩

/-! ## 6. Forks -/

/-- A validated reference that one item selects and the path of another one follows. -/
def Forked (s : Scope) (items : List Json) (path : List String) : Prop :=
  (∃ item ∈ items, ∃ r, itemRoute? s item = some r ∧ r.validated = true ∧
      r.path ++ [r.field] = path) ∧
    ∃ item ∈ items, ∃ r, itemRoute? s item = some r ∧ path <+: r.path

theorem itemRoute?_segment {item : Json} {r : Route} (h : itemRoute? s item = some r) :
    ∀ f ∈ r.path ++ [r.field], IsSegment f := by
  cases item with
  | string name => exact route?_segment h
  | null | bool | number | array | object => cases h

/-- Where no reference is forked, one list joins the table itself exactly if the other one does. -/
theorem direct_eq_or_forked {items items' : List Json} {select select' : Template}
    (h : Selected s items l select) (h' : Selected s items' c select') (hperm : items'.Perm items)
    {path : List String} (hpath : ∀ f ∈ path, IsSegment f) {j j' : Join}
    (hj : (pathKey s.table path, j) ∈ l.joins.entries)
    (hj' : (pathKey s.table path, j') ∈ c.joins.entries) :
    j'.direct = j.direct ∨ Forked s items path := by
  have hvalidated {items : List Json} (hopens : ItemOpens s items (pathKey s.table path) true) :
      ∃ item ∈ items, ∃ r, itemRoute? s item = some r ∧ r.validated = true ∧
        r.path ++ [r.field] = path := by
    obtain ⟨item, hitem, r, hr, ⟨hdirect, -⟩ | ⟨-, hvalidated, hkey⟩⟩ := hopens
    · cases hdirect
    · exact ⟨item, hitem, r, hr, hvalidated,
        pathKey_injective (itemRoute?_segment hr) hpath hkey.symm⟩
  have hfollowed {items : List Json} (hopens : ItemOpens s items (pathKey s.table path) false) :
      ∃ item ∈ items, ∃ r, itemRoute? s item = some r ∧ path <+: r.path := by
    obtain ⟨item, hitem, r, hr, ⟨-, pre, -, hpre, hkey⟩ | ⟨hdirect, -⟩⟩ := hopens
    · have hsegment : ∀ f ∈ pre, IsSegment f := fun f hf =>
        itemRoute?_segment hr f (List.mem_append_left _ (hpre.subset hf))
      rw [pathKey_injective hpath hsegment hkey]
      exact ⟨item, hitem, r, hr, hpre⟩
    · cases hdirect
  have hopens := h.opened _ hj
  obtain ⟨item, hitem, hroute⟩ := h'.opened _ hj'
  have hopens' : ItemOpens s items (pathKey s.table path) j'.direct :=
    ⟨item, hperm.mem_iff.mp hitem, hroute⟩
  dsimp only at hopens
  cases hdirect : j.direct <;> cases hdirect' : j'.direct <;> rw [hdirect] at hopens <;>
    rw [hdirect'] at hopens'
  · exact .inl rfl
  · exact .inr ⟨hvalidated hopens', hfollowed hopens⟩
  · exact .inr ⟨hvalidated hopens, hfollowed hopens'⟩
  · exact .inl rfl

end Sql

end QuerySheet

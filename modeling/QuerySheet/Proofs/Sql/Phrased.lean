import QuerySheet.Proofs.Sql.Regular
import QuerySheet.Proofs.Sql.Spelled

/-!
# Clauses as phrases

Under plain names every clause of a statement is put together from phrases.

* `SelectColumn`, `ItemSpells`: the columns that an item of a select list may give;
* `ensures_compileSelect`: the columns of a select list, item by item;
* `FilterText`: a condition that stands in a clause, which is a group or a digit;
* `Phases.Valid.phrased`: the clauses and the joins of a statement.
-/

namespace QuerySheet.Sql

open Phrase (Regular)

/-! ## 1. Lists -/

section Ensures

variable {α β : Type} {orders orders' : List Json} {P : α → Prop} {m : Compile α}

theorem Ensures.mapM {R : α → β → Prop} {xs : List α} {f : α → Compile β}
    (hf : ∀ x ∈ xs, Ensures orders (R x) (f x)) :
    Ensures orders (List.Forall₂ R xs) (xs.mapM f) := by
  induction xs with
  | nil => exact .pure .nil
  | cons x xs ih =>
    rw [List.mapM_cons]
    exact .bind (hf x List.mem_cons_self) fun y hy =>
      .bind (ih fun x hx => hf x (List.mem_cons_of_mem _ hx)) fun ys hys => .pure (.cons hy hys)

/-- The orders are in scope for the time of a part. -/
theorem Ensures.withOrders (hm : Ensures orders P m) :
    Ensures orders' P (withReader (fun s => { s with orders := some orders }) m) :=
  fun s l a l' hs _ hl ha =>
    hm { s with orders := some orders } l a l' ⟨hs.schema, hs.label⟩ rfl hl
      (Compile.yields_withReader.mp ha)

end Ensures

/-! ## 2. Columns -/

/-- A column of a select list. -/
inductive SelectColumn where
  /-- All columns of the root. -/
  | all (label : Ident)
  | named (φ : Phrase) (name : String)

namespace SelectColumn

def template : SelectColumn → Template
  | .all label => Template.ofString (label.1 ++ ".*")
  | .named φ name => φ.template ++ " AS " ++ quoteAlias name

def Regular : SelectColumn → Prop
  | .all _ => True
  | .named φ _ => φ.Regular

end SelectColumn

/-- A phrase of a column that has a name of its own. Only in a call the orders of the query are in
    scope. -/
def ValueSpells (orders : List Json) (value : Json) (φ : Phrase) : Prop :=
  match value with
  | .string field => Spells [] (.part (.expr (fieldReference field))) [φ]
  | .object call => Spells orders (.part (.function call)) [φ]
  | e => Spells [] (.part (.expr e)) [φ]

/-- A column of a field of an object, which is its name and its value. -/
def FieldSpells (orders : List Json) (field : String × Json) (column : SelectColumn) : Prop :=
  ∃ φ, ValueSpells orders field.2 φ ∧ column = .named φ field.1

/-- The columns that an item of a select list may give. -/
inductive ItemSpells (orders : List Json) : Json → List SelectColumn → Prop
  | all (label : Ident) : ItemSpells orders (.string "*") [.all label]
  | name {name : String} {φ : Phrase} (hname : name ≠ "*")
      (h : Spells [] (.part (.expr (fieldReference name))) [φ]) :
      ItemSpells orders (.string name) [.named φ name]
  | fields {fields : Fields} {columns : List SelectColumn}
      (h : List.Forall₂ (FieldSpells orders) fields columns) :
      ItemSpells orders (.object fields) columns

theorem ValueSpells.regular {orders : List Json} {value : Json} {φ : Phrase}
    (h : ValueSpells orders value φ) : φ.Regular := by
  unfold ValueSpells at h
  split at h <;> exact regular_of_spells h φ List.mem_cons_self

theorem ItemSpells.regular {orders : List Json} {item : Json} {columns : List SelectColumn}
    (h : ItemSpells orders item columns) : ∀ column ∈ columns, column.Regular := by
  cases h with
  | all => exact List.forall_mem_singleton.mpr trivial
  | name _ h =>
    exact List.forall_mem_singleton.mpr (regular_of_spells h _ List.mem_cons_self)
  | @fields fields _ h =>
    induction h with
    | nil => exact fun _ h => absurd h List.not_mem_nil
    | cons h _ ih =>
      obtain ⟨φ, hφ, rfl⟩ := h
      exact List.forall_mem_cons.mpr ⟨hφ.regular, ih⟩

section Select

variable {orders : List Json}

theorem ensures_compileExpr (e : Json) :
    Ensures [] (fun o => ∃ φ, Spells [] (.part (.expr e)) [φ] ∧ o.sql = φ.template)
      (compileExpr e) :=
  Ensures.mono (spelled_part spelled_window (.expr e)) fun _ h => by
    obtain ⟨⟨φ, hφ, hreads⟩, -⟩ := h
    exact ⟨φ, hφ, hreads.sql⟩

theorem ensures_compileFunction (call : Fields) :
    Ensures orders (fun o => ∃ φ, Spells orders (.part (.function call)) [φ] ∧ o.sql = φ.template)
      (compileFunction call) :=
  Ensures.mono (spelled_part spelled_window (.function call)) fun _ h => by
    obtain ⟨⟨φ, hφ, hreads⟩, -⟩ := h
    exact ⟨φ, hφ, hreads.sql⟩

theorem ensures_column {o : Operand} {φ : Phrase} (h : o.sql = φ.template) (name : String) :
    Ensures orders (· = (SelectColumn.named φ name).template) (column o name) := by
  unfold column
  refine .bind (.of_moves (extends_setOutputType _ _)) fun _ _ => .pure ?_
  rw [h]
  rfl

theorem ensures_compileNamedColumn (name : String) (value : Json) :
    Ensures [] (fun t => ∃ column, FieldSpells orders (name, value) column ∧
      t = column.template) (compileNamedColumn orders name value) := by
  have finish {φ : Phrase} {o : Operand} (hφ : ValueSpells orders value φ)
      (ho : o.sql = φ.template) : Ensures [] (fun t => ∃ column,
        FieldSpells orders (name, value) column ∧ t = column.template) (column o name) :=
    (ensures_column ho name).mono fun _ ht => ⟨_, ⟨φ, hφ, rfl⟩, ht⟩
  unfold compileNamedColumn
  split
  · exact .fail _
  · split
    · exact .bind (ensures_compileExpr _) fun _ ⟨_, hφ, ho⟩ => finish hφ ho
    · exact .bind (.withOrders (ensures_compileFunction _)) fun _ ⟨_, hφ, ho⟩ => finish hφ ho
    · rename_i e hstring hobject
      refine .bind (ensures_compileExpr _) fun _ ⟨_, hφ, ho⟩ => finish ?_ ho
      unfold ValueSpells
      split
      · exact absurd rfl (hstring _)
      · exact absurd rfl (hobject _)
      · exact hφ

theorem ensures_allColumns : Ensures orders (fun t => ∃ label : Ident,
    t = (SelectColumn.all label).template) allColumns := by
  intro s l t l' hs ho hl h
  have hsteps : Ensures orders (fun t => t = (SelectColumn.all ⟨s.label, hs.label⟩).template) (do
      let table ← Compile.require (.unknownTable s.table) (s.schema.table? s.table)
      table.fields.toList.forM fun field => setOutputType field.1 field.2.type.valueType
      return (s.label ++ ".*" : Template)) := by
    refine .bind (.of_moves (steps_extends.require _ _ (by nofun))) fun _ _ =>
      .bind (.of_moves (steps_extends.forM _ fun _ => extends_setOutputType _ _)) fun _ _ =>
        .pure ?_
    rw [SelectColumn.template, Template.ofString_append]
  exact (hsteps s l t l' hs ho hl h).imp_right fun ht => ⟨_, ht⟩

theorem ensures_compileSelectItem (item : Json) :
    Ensures [] (fun ts => ∃ columns, ItemSpells orders item columns ∧
      ts = columns.map SelectColumn.template) (compileSelectItem orders item) := by
  unfold compileSelectItem
  split
  · rename_i name
    split
    · rename_i hname
      refine .bind ensures_allColumns fun t ht => .pure ?_
      obtain ⟨label, rfl⟩ := ht
      exact ⟨[.all label], hname ▸ .all label, rfl⟩
    · rename_i hname
      refine .bind (ensures_compileExpr _) fun o ⟨φ, hφ, ho⟩ =>
        .bind (ensures_column ho name) fun t ht => .pure ?_
      exact ⟨[.named φ name], .name hname hφ, by rw [ht]; rfl⟩
  · rename_i fields
    refine (Ensures.mapM fun field _ => ensures_compileNamedColumn field.1 field.2).mono
      fun ts hts => ?_
    clear * - hts
    suffices h : ∃ columns, List.Forall₂ (FieldSpells orders) fields columns ∧
        ts = columns.map SelectColumn.template by
      obtain ⟨columns, hcolumns, hts⟩ := h
      exact ⟨columns, .fields hcolumns, hts⟩
    induction hts with
    | nil => exact ⟨[], .nil, rfl⟩
    | cons h _ ih =>
      obtain ⟨column, hcolumn, rfl⟩ := h
      obtain ⟨columns, hcolumns, rfl⟩ := ih
      exact ⟨column :: columns, .cons hcolumn hcolumns, rfl⟩
  · exact .fail _

/-- A select list is the columns of its items, one after the other. -/
theorem ensures_compileSelect (q : Query) :
    Ensures [] (fun t => ∃ columns, List.Forall₂ (ItemSpells q.orders) (selectItems q) columns ∧
      t = .intercalate ", " (columns.flatten.map SelectColumn.template)) (compileSelect q) := by
  unfold compileSelect
  refine .within _ _ (.bind (.mapM fun item _ => ensures_compileSelectItem item) fun tss htss =>
    .pure ?_)
  suffices h : ∃ columns, List.Forall₂ (ItemSpells q.orders) (selectItems q) columns ∧
      tss.flatten = columns.flatten.map SelectColumn.template by
    obtain ⟨columns, hcolumns, h⟩ := h
    exact ⟨columns, hcolumns, by rw [h]⟩
  generalize selectItems q = items at htss ⊢
  induction htss with
  | nil => exact ⟨[], .nil, rfl⟩
  | cons h _ ih =>
    obtain ⟨columns, hcolumns, rfl⟩ := h
    obtain ⟨more, hmore, hflat⟩ := ih
    exact ⟨columns :: more, .cons hcolumns hmore, by
      rw [List.flatten_cons, List.flatten_cons, List.map_append, hflat]⟩

end Select

/-! ## 3. Filters, groups and orders -/

/-- All of some tests. -/
def FilterText (t : Template) : Prop := ∃ φs, (∀ φ ∈ φs, φ.Regular) ∧ t = (Phrase.all φs).template

/-- A text of regular phrases between commas. -/
def ListText (t : Template) : Prop :=
  ∃ φs, (∀ φ ∈ φs, φ.Regular) ∧ t = (Phrase.join .arguments φs).template

/-- A clause with its keyword, which is left out where there are no expressions. -/
def ClauseText (keyword : String) (expressions : List Json) (t : Template) : Prop :=
  if expressions.isEmpty then t = "" else ∃ u, ListText u ∧ t = keyword ++ " " ++ u

section Clauses

variable {policy : Policy} {q : Query}

theorem ensures_compileFilters (filters : List Json) :
    Ensures [] FilterText (compileFilters filters) := by
  unfold compileFilters compileAnd
  refine .within _ _ ?_
  split
  · exact .pure ⟨[], nofun, rfl⟩
  · refine .bind (Ensures.mono (spelled_part spelled_window (.conditions (.array filters)))
      fun _ h => h) fun ts hts => .pure ?_
    obtain ⟨φs, hφs, rfl⟩ := hts
    exact ⟨φs, regular_of_spells hφs, (Phrase.template_all φs).symm⟩

theorem ensures_compileTableFilters (table : String) :
    Ensures [] (fun filter => ∀ t, filter = some t → FilterText t)
      (compileTableFilters policy table) := by
  unfold compileTableFilters
  dsimp only
  split
  · exact .pure nofun
  · split
    · exact .fail _
    · refine .withScope (fun _ => ⟨rfl, rfl, rfl, rfl⟩)
        (.bind (ensures_compileFilters _) fun t ht => .pure ?_)
      rintro _ ⟨⟩
      exact ht

theorem ensures_ownFilters (table : String) :
    Ensures [] (fun filter => ∀ t, filter = some t → FilterText t)
      (ownFilters policy q table) := by
  unfold ownFilters
  split
  · exact .pure nofun
  · exact ensures_compileTableFilters table

theorem ensures_clause {keyword : String} {expressions : List Json}
    {compile : List Json → Compile Template} (h : Ensures [] ListText (compile expressions)) :
    Ensures [] (ClauseText keyword expressions) (clause keyword expressions compile) := by
  unfold clause ClauseText
  split
  · exact .pure rfl
  · exact .bind h fun u hu => .pure ⟨u, hu, rfl⟩

theorem ensures_compileGroupBy (groups : List Json) :
    Ensures [] ListText (compileGroupBy groups) := by
  have hgroup (e : Json) :
      Ensures [] (fun t => ∃ φ : Phrase, φ.Regular ∧ t = φ.template) (compileGroup e) := by
    have hexpr (e : Json) : Ensures [] (fun t => ∃ φ : Phrase, φ.Regular ∧ t = φ.template)
        (compileExpr e >>= fun o => pure o.sql) :=
      .bind (ensures_compileExpr e) fun o ⟨φ, hφ, ho⟩ =>
        .pure ⟨φ, regular_of_spells hφ φ List.mem_cons_self, ho⟩
    unfold compileGroup
    split <;> exact hexpr _
  unfold compileGroupBy
  refine .within _ _ (.bind (.mapM fun e _ => hgroup e) fun ts hts => .pure ?_)
  suffices h : ∃ φs : List Phrase, (∀ φ ∈ φs, φ.Regular) ∧ ts = φs.map Phrase.template by
    obtain ⟨φs, hφs, rfl⟩ := h
    exact ⟨φs, hφs, (Phrase.template_join .arguments φs).symm⟩
  clear * - hts
  induction hts with
  | nil => exact ⟨[], nofun, rfl⟩
  | cons h _ ih =>
    obtain ⟨φ, hφ, rfl⟩ := h
    obtain ⟨φs, hφs, rfl⟩ := ih
    exact ⟨φ :: φs, List.forall_mem_cons.mpr ⟨hφ, hφs⟩, rfl⟩

theorem ensures_compileOrderBy (es : List Json) : Ensures [] ListText (compileOrderBy es) :=
  (spelled_orderByWith spelled_window es).mono fun _ ⟨φs, hφs, h⟩ =>
    ⟨φs, regular_of_spells hφs, h⟩

end Clauses

/-! ## 4. Statements -/

section Statements

variable {policy : Policy} {q : Query} {s : Scope} {l l' : Ledger}

/-- The text of a join, with the filters of its table. -/
def JoinText (policy : Policy) (q : Query) (schema : Schema) (entry : String × Join)
    (t : Template) : Prop :=
  ∃ filter, (∀ u, filter = some u → FilterText u) ∧
    t = joinHead policy q schema entry.2 ++ andAlso filter

/-- The clauses of a statement are put together from phrases. -/
structure Phases.Phrased (p : Phases policy q s) : Prop where
  select : ∃ columns, List.Forall₂ (ItemSpells q.orders) (selectItems q) columns ∧
    p.select = .intercalate ", " (columns.flatten.map SelectColumn.template)
  own : FilterText p.own
  extra : ∀ t, p.extra = some t → FilterText t
  groupBy : ClauseText "GROUP BY" q.groups p.groupBy
  orderBy : ClauseText "ORDER BY" q.orders p.orderBy
  wellFormed : JoinsOk s p.joined
  joins : ∃ ts, List.Forall₂ (JoinText policy q s.schema) p.joined.joins.entries ts ∧
    p.joins = .intercalate "\n" ts

theorem joinText_of_step (hs : PlainScope IdentChar s) (ho : s.orders.getD [] = [])
    (hl : JoinsOk s l) {entry : String × Join} (hj : Joined l entry.2) {t : Template}
    {filter : Option Template} {inner : Ledger}
    (h : JoinStep policy q s l entry.2 t l' filter inner) :
    JoinText policy q s.schema entry t := by
  refine ⟨filter, ?_, h.text⟩
  rcases h.filters with ⟨-, rfl, -⟩ | ⟨-, hpart⟩
  · nofun
  · have hlabel : AllChars IdentChar entry.2.label :=
      plain_alias_of_digits (fun _ => identChar_of_isDigit) hs hl (.joined hj)
    exact (ensures_compileTableFilters _ { s with table := entry.2.table, label := entry.2.label } _
      _ _ ⟨hs.schema, hlabel⟩ ho (joinsOk_empty _ l) hpart).2

theorem joinText_of_steps (hs : PlainScope IdentChar s) (ho : s.orders.getD [] = [])
    {entries : List (String × Join)} {ts : List Template} (hl : JoinsOk s l)
    (hentries : ∀ entry ∈ entries, Joined l entry.2) (h : JoinSteps policy q s l entries ts l') :
    List.Forall₂ (JoinText policy q s.schema) entries ts := by
  induction h with
  | nil => exact .nil
  | @cons l l₁ l' inner entry entries t ts filter h _ ih =>
    have hl₁ : JoinsOk s l₁ := by
      unfold JoinsOk
      rw [h.joins]
      exact hl
    refine .cons (joinText_of_step hs ho hl (hentries entry List.mem_cons_self) h)
      (ih hl₁ fun entry hentry => ?_)
    obtain ⟨place, key, hplace⟩ := hentries entry (List.mem_cons_of_mem _ hentry)
    exact ⟨place, key, h.joins ▸ hplace⟩

theorem Phases.Valid.phrased {p : Phases policy q s} (h : p.Valid l) (hs : PlainScope IdentChar s)
    (ho : s.orders.getD [] = []) (hl : JoinsOk s l) : p.Phrased := by
  obtain ⟨hselected, hselect⟩ := ensures_compileSelect q _ _ _ _ hs ho hl h.select
  obtain ⟨hfiltered, hown⟩ := ensures_compileFilters _ _ _ _ _ hs ho hselected h.own
  obtain ⟨hrestricted, hextra⟩ := ensures_ownFilters _ _ _ _ _ hs ho hfiltered h.extra
  obtain ⟨hgrouped, hgroup⟩ :=
    ensures_clause (ensures_compileGroupBy _) _ _ _ _ hs ho hrestricted h.groupBy
  obtain ⟨hordered, horder⟩ :=
    ensures_clause (ensures_compileOrderBy _) _ _ _ _ hs ho hgrouped h.orderBy
  obtain ⟨hsame, ts, htext, hjoins⟩ := yields_compileJoins h.joins
  refine ⟨hselect, hown, hextra, hgroup, horder, ?_, ts, ?_, htext⟩
  · unfold JoinsOk
    rw [hsame]
    exact hordered
  · rw [hsame]
    exact joinText_of_steps hs ho hordered (fun entry hentry => joined_of_mem hentry)
      (joinSteps_of_mapM hjoins)

end Statements

end QuerySheet.Sql

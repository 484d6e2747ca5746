import QuerySheet.Proofs.Sql.Clauses
import QuerySheet.Proofs.Sql.Language

/-!
# What the clauses of a statement consist of

The select list, the filters, the groups and the orders are put together from expressions and
conditions in the same ways as these from each other, so their text is in the language as well.

* `writes_compileSelect`, `writes_compileFilters` and the like: one lemma for each kind of clause.
  The columns of a select list have names, and which of these the language has is left open;
* `Phases.Valid.texts`: the clauses of a statement, all together;
* `language_whereClause`: the filters of the statement, with the guard against deleted rows.
-/

namespace QuerySheet.Sql

variable {policy : Policy} {q : Query} {s : Scope} {l : Ledger}

/-! ## 1. Select -/

/-- The names that a select list gives to its columns. -/
def columnNames : Json → List String
  | .string name => [name]
  | .object fields => fields.map Prod.fst
  | _ => []

section Clauses

variable {L : Template → Prop} (hL : Language L) {A : Prop}

theorem writes_allColumns : Writes L A L allColumns := by
  unfold allColumns
  refine .bind .read fun scope => .bind (.of_moves (steps_extends.require _ _ (by nofun))) fun _ =>
    .bind (.of_moves (steps_extends.forM _ fun _ => extends_setOutputType _ _)) fun _ =>
      .pure fun h => ?_
  have hstar := h.1.1.2
  rw [Template.ofString_append] at hstar
  exact hstar

include hL

theorem writes_compileExpr (e : Json) : Writes L A (·.In L) (compileExpr e) :=
  writes_part hL (writes_window hL) (.expr e) A

theorem writes_compileFunction (fields : Fields) : Writes L A (·.In L) (compileFunction fields) :=
  writes_part hL (writes_window hL) (.function fields) A

section Columns

/- `P` holds of the column with a name, for every text of the language. -/
variable {P : String → Template → Prop}
  (hcolumn : A → ∀ {t : Template} {name}, L t → P name (t ++ " AS " ++ quoteAlias name))

omit hL in
/-- The columns of an item of a select list: all columns of the table, or some with names. -/
inductive ItemColumns (L : Template → Prop) (P : String → Template → Prop) :
    Json → List Template → Prop
  | all {t : Template} (h : L t) : ItemColumns L P (.string "*") [t]
  | name {name : String} {t : Template} (hname : name ≠ "*") (h : P name t) :
      ItemColumns L P (.string name) [t]
  | fields {fields : Fields} {ts : List Template}
      (h : List.Forall₂ (fun field t => P field.1 t) fields ts) :
      ItemColumns L P (.object fields) ts

include hcolumn

omit hL in
theorem writes_column {o : Operand} {name : String} (ho : A → o.In L) :
    Writes L A (P name) (column o name) :=
  .bind (.of_moves (extends_setOutputType _ _)) fun _ => .pure fun h =>
    hcolumn h.1 (ho h.1).text

theorem writes_compileNamedColumn {orders : List Json} {name : String} {value : Json} :
    Writes L A (P name) (compileNamedColumn orders name value) := by
  unfold compileNamedColumn
  split
  · exact .fail _
  · split
    · exact .bind (writes_compileExpr hL _) fun o =>
        writes_column (fun h => hcolumn h.1) And.right
    · exact .bind (.withScope (fun _ => ⟨rfl, rfl, rfl⟩) (writes_compileFunction hL _)) fun o =>
        writes_column (fun h => hcolumn h.1) And.right
    · exact .bind (writes_compileExpr hL _) fun o =>
        writes_column (fun h => hcolumn h.1) And.right

theorem writes_compileSelectItem {orders : List Json} {item : Json} :
    Writes L A (ItemColumns L P item) (compileSelectItem orders item) := by
  unfold compileSelectItem
  split
  · split
    · rename_i hstar
      subst hstar
      exact .bind writes_allColumns fun t => .pure fun h => .all h.2
    · rename_i hstar
      exact .bind (writes_compileExpr hL _) fun o => .bind
        (writes_column (fun h => hcolumn h.1) And.right)
        fun t => .pure fun h => .name hstar h.2
  · exact (Writes.mapM_forall₂ fun field _ => writes_compileNamedColumn hL hcolumn).mono
      fun _ _ h => .fields h
  · exact .fail _

theorem writes_compileSelect :
    Writes L A (fun t => ∃ columns, t = .intercalate ", " columns.flatten ∧
      List.Forall₂ (ItemColumns L P) (selectItems q) columns) (compileSelect q) := by
  unfold compileSelect
  exact .within _ _ (.bind (.mapM_forall₂ fun item _ => writes_compileSelectItem hL hcolumn)
    fun columns => .pure fun h => ⟨columns, rfl, h.2⟩)

end Columns

/-! ## 2. Filters and clauses -/

omit hL in
/-- The text `1`, or a text of a language in parentheses. -/
def Enclosed (L : Template → Prop) (t : Template) : Prop :=
  t = "1" ∨ ∃ u : Template, L u ∧ t = u.parens

theorem Enclosed.text {t : Template} (h : Enclosed L t) : L t := by
  rcases h with rfl | ⟨u, hu, rfl⟩
  · exact hL.word (by decide)
  · exact hL.parens hu

theorem enclosed_all {ts : List Template} (h : ∀ t ∈ ts, L t) : Enclosed L (Condition.all ts) := by
  unfold Condition.all
  split
  · exact .inl rfl
  · exact .inr ⟨_, hL.intercalate (by decide) h, rfl⟩

theorem writes_compileFilters (filters : List Json) :
    Writes L A (Enclosed L) (compileFilters filters) := by
  unfold compileFilters compileAnd
  refine .within _ _ ?_
  split
  · exact .pure fun _ => .inl rfl
  · exact .bind (writes_part hL (writes_window hL) (.conditions _) A) fun ts =>
      .pure fun h => enclosed_all hL h.2

theorem writes_compileTableFilters (table : String) :
    Writes L A (fun filter => (filter.isSome = true ↔ policy.filters table ≠ []) ∧
      ∀ t, filter = some t → Enclosed L t) (compileTableFilters policy table) := by
  unfold compileTableFilters
  dsimp only
  split
  · rename_i hempty
    refine .pure fun _ => ⟨⟨fun h => (by cases h), fun h => ?_⟩, fun t ht => (by cases ht)⟩
    exact absurd (List.isEmpty_iff.mp hempty) h
  · rename_i hne
    split
    · exact .fail _
    · refine .withScope (fun _ => ⟨rfl, rfl, rfl⟩) (.bind (writes_compileFilters hL _) fun t =>
        .pure fun h => ⟨⟨fun _ => ?_, fun _ => rfl⟩, fun u hu => ?_⟩)
      · exact fun h => hne (List.isEmpty_iff.mpr h)
      · exact Option.some.inj hu ▸ h.2

theorem writes_ownFilters (table : String) :
    Writes L A (IsTableFilter (Enclosed L) policy q table) (ownFilters policy q table) := by
  unfold ownFilters
  split
  · rename_i hraw
    exact .pure fun _ => isTableFilter_none hraw
  · rename_i hraw
    exact (writes_compileTableFilters hL table).mono fun filter _ h =>
      isTableFilter_of_not_raw hraw h.1 h.2

theorem writes_clause {keyword : String} {expressions : List Json}
    {compile : List Json → Compile Template} (hkeyword : Separator (keyword ++ " "))
    (h : Writes L A L (compile expressions)) :
    Writes L A L (clause keyword expressions compile) := by
  unfold clause
  split
  · exact .pure fun _ => hL.word (by decide)
  · refine .bind h fun t => .pure fun h => ?_
    have htext := hL.before hkeyword h.2
    rw [Template.ofString_append] at htext
    exact htext

theorem writes_compileGroupBy (groups : List Json) : Writes L A L (compileGroupBy groups) := by
  have hgroup (e : Json) : Writes L A L (compileGroup e) := by
    unfold compileGroup
    split
    · exact .bind (writes_compileExpr hL _) fun o => .pure fun h => h.2.text
    · exact .bind (writes_compileExpr hL _) fun o => .pure fun h => h.2.text
  exact .within _ _ (.bind (.mapM fun e _ => hgroup e) fun ts =>
    .pure fun h => hL.intercalate (by decide) h.2)

/-! ## 3. All clauses -/

omit hL in
theorem isColumnName_tombstone {schema : Schema} {table : String}
    (h : schema.hasTombstone table = true) : IsColumnName schema "tombstone" := by
  unfold Schema.hasTombstone at h
  split at h
  · rename_i t ht
    obtain ⟨desc, hdesc⟩ := Option.isSome_iff_exists.mp
      ((Std.ExtTreeMap.isSome_getElem?_eq_contains (t := t.fields)).trans h)
    exact ⟨⟨by decide, by decide⟩, .inr ⟨table, t, desc, ht, hdesc⟩⟩
  · cases h

omit hL in
/-- The texts of the clauses are in a language, the select list if its names are `Named`. -/
structure Phases.In (L : Template → Prop) (Named : String → Prop) (p : Phases policy q s) :
    Prop where
  select : (∀ item ∈ q.selection, ∀ name ∈ columnNames item, Named name) → L p.select
  own : Enclosed L p.own
  extra : IsTableFilter (Enclosed L) policy q q.table p.extra
  groupBy : L p.groupBy
  orderBy : L p.orderBy

/-- What stands behind the select list covers what is selected as well. -/
theorem Phases.Valid.clauses {p : Phases policy q s} (h : p.Valid l)
    (hselected : JoinsOk s p.selected) (hcovers : Covers L s p.ordered) :
    Covers L s p.selected ∧ Enclosed L p.own ∧
      IsTableFilter (Enclosed L) policy q q.table p.extra ∧ L p.groupBy ∧ L p.orderBy := by
  obtain ⟨⟨hfiltered, hgain₁⟩, hown⟩ :=
    (writes_compileFilters hL (A := True) _).yields hselected h.own
  obtain ⟨⟨hrestricted, hgain₂⟩, hextra⟩ :=
    (writes_ownFilters hL (A := True) _).yields hfiltered h.extra
  obtain ⟨⟨hgrouped, hgain₃⟩, hgroup⟩ := (writes_clause hL (A := True) (by decide)
    (writes_compileGroupBy hL _)).yields hrestricted h.groupBy
  obtain ⟨⟨-, hgain₄⟩, horder⟩ := (writes_clause hL (A := True) (by decide)
    (writes_orderByWith hL (writes_window hL) _)).yields hgrouped h.orderBy
  have hgrouped := hcovers.gains hgain₄
  have hrestricted := hgrouped.gains hgain₃
  have hfiltered := hrestricted.gains hgain₂
  exact ⟨hfiltered.gains hgain₁, hown trivial hfiltered, hextra trivial hrestricted,
    hgroup trivial hgrouped, horder trivial hcovers⟩

omit hL in
theorem ItemColumns.texts {P : String → Template → Prop} {item : Json} {ts : List Template}
    (h : ItemColumns L P item ts) (hnames : ∀ name ∈ columnNames item, ∀ t, P name t → L t) :
    ∀ t ∈ ts, L t := by
  cases h with
  | all h => exact List.forall_mem_singleton.mpr h
  | name _ h => exact List.forall_mem_singleton.mpr (hnames _ List.mem_cons_self _ h)
  | fields h =>
    rw [columnNames] at hnames
    induction h with
    | nil => exact List.forall_mem_nil _
    | cons h _ ih =>
      rw [List.map_cons, List.forall_mem_cons] at hnames
      exact List.forall_mem_cons.mpr ⟨hnames.1 _ h, ih hnames.2⟩

omit hL in
theorem texts_flatten {P : String → Template → Prop} {items : List Json}
    {columns : List (List Template)} (h : List.Forall₂ (ItemColumns L P) items columns)
    (hnames : ∀ item ∈ items, ∀ name ∈ columnNames item, ∀ t, P name t → L t) :
    ∀ t ∈ columns.flatten, L t := by
  induction h with
  | nil => exact List.forall_mem_nil _
  | cons h _ ih =>
    rw [List.forall_mem_cons] at hnames
    rw [List.flatten_cons, List.forall_mem_append]
    exact ⟨h.texts hnames.1, ih hnames.2⟩

omit hL in
/-- The names of the columns are those that are asked for, and the id's. -/
theorem columnNames_selectItems {Named : String → Prop} (hid : Named "id")
    (hnames : ∀ item ∈ q.selection, ∀ name ∈ columnNames item, Named name) :
    ∀ item ∈ selectItems q, ∀ name ∈ columnNames item, Named name := by
  unfold selectItems
  split
  · exact hnames
  · refine List.forall_mem_cons.mpr ⟨fun name hname => ?_, hnames⟩
    rw [List.mem_singleton.mp hname]
    exact hid

theorem Phases.Valid.texts {p : Phases policy q s} (h : p.Valid l) (hl : JoinsOk s l)
    {Named : String → Prop} (hid : Named "id")
    (hcolumn : ∀ {t : Template} {name}, L t → Named name → L (t ++ " AS " ++ quoteAlias name))
    (hcovers : Covers L s p.ordered) : p.In L Named := by
  obtain ⟨⟨hselected, -⟩, hselect⟩ := (writes_compileSelect hL (A := True)
    (P := fun name t => Named name → L t) fun _ => hcolumn).yields hl h.select
  obtain ⟨hcovers, hown, hextra, hgroup, horder⟩ := h.clauses hL hselected hcovers
  refine ⟨fun hnames => ?_, hown, hextra, hgroup, horder⟩
  obtain ⟨columns, hselect, hcolumns⟩ := hselect trivial hcovers
  have hnamed := columnNames_selectItems hid hnames
  rw [hselect]
  exact hL.intercalate (by decide) <| texts_flatten hcolumns fun item hitem name hname _ h =>
    h (hnamed item hitem name hname)

/-- The filters with the guard against deleted rows. -/
theorem language_whereClause {c : CompiledQuery} {p : Phases policy c.query s}
    (hpieces : c.pieces = p.pieces) (hown : Enclosed L p.own)
    (hextra : IsTableFilter (Enclosed L) policy c.query c.query.table p.extra)
    (hcolumn : ∀ name, IsColumnName c.schema name → L (.ofString (c.label ++ "." ++ name))) :
    L c.whereClause := by
  have hfilter : L c.pieces.filter := by
    rw [hpieces]
    show L ("WHERE " ++ p.own ++ andAlso p.extra)
    have howned := hL.before (s := "WHERE ") (by decide) (hown.text hL)
    cases hextra' : p.extra with
    | none => exact hL.after howned (s := "") (by decide)
    | some t =>
      have hboth := hL.between howned (s := " AND ") (by decide) ((hextra.2 t hextra').text hL)
      rw [Template.append_assoc] at hboth
      exact hboth
  unfold CompiledQuery.whereClause
  split
  · rename_i hdead
    have htombstone := isColumnName_tombstone (Bool.and_eq_true_iff.mp hdead).2
    have hguard := hL.after (hL.between hfilter (s := " AND ") (by decide)
      (hcolumn "tombstone" htombstone)) (s := " = 0") (by decide)
    rw [show ".tombstone = 0" = "." ++ "tombstone" ++ " = 0" from rfl]
    simp only [Template.ofString_append, Template.append_assoc] at hguard ⊢
    exact hguard
  · exact hfilter

end Clauses

end QuerySheet.Sql

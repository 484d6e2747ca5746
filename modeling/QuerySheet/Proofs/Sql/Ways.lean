import Mathlib
import QuerySheet.Proofs.Sql.SelectOrder

/-!
# Ways to columns

What a column reads: a field at the end of a way from the root, along tables that are joined.

* `Leads`: the ways of a statement, as its joins are written;
* `Reads`: its columns with their ways. A way names the tables, the relations that these are read
  from, and the keys that they are joined on, and no aliases;
* `same_reads_of_perm`: with the names of a select list in another order the same columns are read,
  along the same ways except where these fork (`Forks`). The query is refused in another order only
  for parameters in the policy's filters of joined tables (`Conflicts`).
-/

namespace QuerySheet

namespace CompiledQuery

open Sql
open Sql.Joins (pathKey)

/-! ## 1. Columns -/

/-- A table on the way from the root to a column. -/
structure Hop where
  table : String
  /-- What its rows are read from: the table itself, or a view of it. -/
  relation : String
  /-- The field of the rows before that they are joined on. -/
  key : String

/-- A column of a select list: a field of the rows at the end of a way. -/
structure Column where
  name : String
  way : List Hop
  field : String

/-- The rows at the end of a way have a label: that of the root, or the alias of the join whose path
    the keys of the way spell, below the rows in front of them. -/
inductive Leads (policy : Policy) (c : CompiledQuery) : List Hop → String → Prop
  | root : Leads policy c [] c.label
  | join {way : List Hop} {j : Join} (h : Leads policy c way j.parent)
      (hj : c.ledger.joins.get? (pathKey c.query.table (way.map Hop.key ++ [j.field])) = some j) :
      Leads policy c (way ++ [⟨j.table, joinedRelation policy c.query j, j.field⟩]) j.label

/-- The text of a column reads its field from the rows at the end of its way. -/
def Column.IsText (policy : Policy) (c : CompiledQuery) (column : Column) (text : Template) :
    Prop :=
  ∃ label, Leads policy c column.way label ∧
    text = .ofString (label ++ "." ++ column.field) ++ " AS " ++ quoteAlias column.name

/-- The text of a join: its relation, its alias and its key, and what the policy's filters add. -/
def JoinsAs (policy : Policy) (c : CompiledQuery) (j : Join) (text : Template) : Prop :=
  ∃ filter, text = joinHead policy c.query c.schema j ++ andAlso filter

/-- The select list has these columns, and the joins are written that they lead through. -/
structure Reads (policy : Policy) (c : CompiledQuery) (columns : List Column) : Prop where
  names : columns.map (fun column => .string column.name) = selectItems c.query
  select : ∃ texts, c.pieces.select = .intercalate ", " texts ∧
    List.Forall₂ (Column.IsText policy c) columns texts
  joins : ∃ texts, c.pieces.joins = .intercalate "\n" texts ∧
    List.Forall₂ (fun entry => JoinsAs policy c entry.2) c.ledger.joins.entries texts

/-- Ways through the same tables, joined on the same keys. Their rows are read from the same
    relations, except where a way forks. -/
inductive SameWay (Fork : List String → Prop) : List Hop → List Hop → Prop
  | nil : SameWay Fork [] []
  | concat {way way' : List Hop} {table relation relation' key : String}
      (h : SameWay Fork way way')
      (hrelation : relation' = relation ∨ Fork (way.map Hop.key ++ [key])) :
      SameWay Fork (way ++ [⟨table, relation, key⟩]) (way' ++ [⟨table, relation', key⟩])

/-- Where the ways to the columns of a statement fork. -/
def Forks (policy : Policy) (c : CompiledQuery) (path : List String) : Prop :=
  Forked (rootScope policy c.schema c.query) (selectItems c.query) path

/-- The columns of two statements have the same names, and those of one name read the same field at
    the end of the same way from the same root. -/
structure SameReads (policy : Policy) (c c' : CompiledQuery) : Prop where
  relation : c'.pieces.relation = c.pieces.relation
  columns : ∃ columns columns', Reads policy c columns ∧ Reads policy c' columns' ∧
    (columns'.map Column.name).Perm (columns.map Column.name) ∧
      ∀ column ∈ columns, ∀ column' ∈ columns', column'.name = column.name →
        column'.field = column.field ∧ SameWay (Forks policy c) column.way column'.way

/-- A query is refused for parameters in the policy's filters of tables that a statement joins. -/
structure Conflicts (policy : Policy) (c : CompiledQuery) (e : CompileError) : Prop where
  cause : ∃ name existing type, e.cause = .paramConflict name existing type
  restricted : c.query.raw = false
  filters : ∃ j, Joined c.ledger j ∧ policy.filters j.table ≠ []

variable {policy : Policy} {schema : Schema} {q q' : Query} {c c' : CompiledQuery}
  {way way' : List Hop} {label label' : String} {Fork : List String → Prop}

/-- The joins of a statement below its root are well formed. -/
def JoinsOk (c : CompiledQuery) : Prop :=
  c.ledger.joins.WellFormed c.schema c.query.table c.label

theorem leads_of_parent (policy : Policy) (hok : c.JoinsOk) {path : List String} {place : Nat}
    {owner : String} (hpath : ∀ f ∈ path, IsSegment f)
    (h : c.ledger.joins.Parent c.query.table c.label place path owner label) :
    ∃ way, Leads policy c way label ∧ way.map Hop.key = path := by
  induction path using List.reverseRecOn generalizing place owner label with
  | nil =>
    cases h with
    | root => exact ⟨[], .root, rfl⟩
    | joined hne => exact absurd rfl hne
  | append_singleton path field ih =>
    generalize hall : path ++ [field] = all at h
    cases h with
    | root => exact absurd hall (by simp)
    | @joined _ earlier j _ _ hj =>
      subst hall
      obtain ⟨before, parentTable, hfollows⟩ := hok.follows earlier _ j hj
      obtain ⟨rfl, hfield⟩ := List.append_inj' (pathKey_injective hpath hfollows.segment
        hfollows.key_eq) rfl
      obtain ⟨way, hway, rfl⟩ := ih (fun f hf => hpath f (List.mem_append_left _ hf))
        hfollows.parent
      obtain rfl : field = j.field := by simpa using hfield
      exact ⟨_, .join hway (hok.get?_eq_some.mpr ⟨earlier, hj⟩), by simp⟩

/-- Two statements that follow the same keys go the same way. -/
theorem sameWay_of_leads (hok : c.JoinsOk) (hok' : c'.JoinsOk)
    (hschema : c'.schema = c.schema) (htable : c'.query.table = c.query.table)
    (h : Leads policy c way label) (h' : Leads policy c' way' label')
    (hkeys : way'.map Hop.key = way.map Hop.key)
    (hsegment : ∀ f ∈ way.map Hop.key, IsSegment f)
    (hrelation : ∀ path j j', path ≠ [] → path <+: way.map Hop.key →
      c.ledger.joins.get? (pathKey c.query.table path) = some j →
      c'.ledger.joins.get? (pathKey c.query.table path) = some j' → j'.table = j.table →
      joinedRelation policy c'.query j' = joinedRelation policy c.query j ∨ Fork path) :
    SameWay Fork way way' := by
  induction h generalizing way' label' with
  | root =>
    cases List.map_eq_nil_iff.mp hkeys
    exact .nil
  | @join way j h hj ih =>
    cases h' with
    | root => exact absurd hkeys (by simp)
    | @join way' j' h' hj' =>
      rw [List.map_append, List.map_append] at hkeys
      obtain ⟨hbefore, hlast⟩ := List.append_inj' hkeys rfl
      have hfield : j'.field = j.field := by simpa using hlast
      rw [List.map_append] at hsegment hrelation
      rw [hbefore, hfield, htable] at hj'
      obtain ⟨place, hplace⟩ := hok.get?_eq_some.mp hj
      obtain ⟨place', hplace'⟩ := hok'.get?_eq_some.mp hj'
      have hpath : ∀ f ∈ way.map Hop.key ++ [j.field], IsSegment f := hsegment
      have htables := hok'.tableAt_entry (htable ▸ hplace') hpath
      rw [hschema, htable, hok.tableAt_entry hplace hpath] at htables
      have hsame : j'.table = j.table := (Option.some.inj htables).symm
      rw [hfield, hsame]
      refine .concat (ih h' hbefore (fun f hf => hsegment f (List.mem_append_left _ hf))
        fun path j j' hne hpre => hrelation path j j' hne (hpre.trans (List.prefix_append _ _))) ?_
      exact hrelation _ j j' (by simp) (List.prefix_refl _) hj hj' hsame

/-- A column goes along the route of its name. -/
structure Column.Takes (column : Column) (s : Scope) (r : Route) : Prop where
  route : route? s column.name = some r
  field : column.field = r.column
  keys : column.way.map Hop.key = r.hops

/-- Names that are selected have the columns that their routes lead to. -/
theorem columns_of_selects (policy : Policy) {s : Scope} {items : List Json} {texts : List Template}
    (hok : c.JoinsOk) (htable : s.table = c.query.table) (hlabel : s.label = c.label)
    (h : List.Forall₂ (Selects s c.ledger) items texts) : ∃ columns : List Column,
      columns.map (fun column => .string column.name) = items ∧
        List.Forall₂ (Column.IsText policy c) columns texts ∧
          ∀ column ∈ columns, ∃ r, column.Takes s r := by
  induction h with
  | nil => exact ⟨[], rfl, .nil, fun column hmem => absurd hmem List.not_mem_nil⟩
  | cons hitem _ ih =>
    obtain ⟨columns, hnames, htexts, htakes⟩ := ih
    cases hitem with
    | @column name owner label r hroute _ hparent =>
      have hsegment := segment_of_hops (route?_segment hroute)
      rw [htable, hlabel] at hparent
      obtain ⟨way, hleads, hkeys⟩ := leads_of_parent policy hok hsegment hparent
      refine ⟨⟨name, way, r.column⟩ :: columns, congrArg _ hnames,
        .cons ⟨label, hleads, rfl⟩ htexts, fun column hmem => ?_⟩
      rcases List.mem_cons.mp hmem with rfl | hmem
      · exact ⟨r, hroute, rfl, hkeys⟩
      · exact htakes column hmem

theorem joinsAs_of_joinSteps {s : Scope} {l l' : Ledger} {entries : List (String × Join)}
    {texts : List Template} (hschema : s.schema = c.schema)
    (h : JoinSteps policy c.query s l entries texts l') :
    List.Forall₂ (fun entry => JoinsAs policy c entry.2) entries texts := by
  induction h with
  | nil => exact .nil
  | cons hstep _ ih => exact .cons ⟨_, hschema ▸ hstep.text⟩ ih

/-- What is read from a statement that has passed its phases. -/
theorem reads_of_phases {s : Scope} {p : Phases policy c.query s}
    (hp : p.Valid (.root c.query.table))
    (hselected : Selected s (selectItems c.query) p.selected p.select)
    (hpieces : c.pieces = p.pieces) (hledger : c.ledger = p.ledger) (hschema : s.schema = c.schema)
    (htable : s.table = c.query.table) (hlabel : s.label = c.label) :
    c.JoinsOk ∧ p.selected.joins.entries <+: c.ledger.joins.entries ∧
      ∃ columns, Reads policy c columns ∧ ∀ column ∈ columns, ∃ r, column.Takes s r := by
  obtain ⟨hordered, hgains⟩ := hp.extends_selected hselected.joins
  obtain ⟨hkept, joinTexts, hjoinsText, hmap⟩ := yields_compileJoins hp.joins
  have hjoins : c.ledger.joins = p.ordered.joins := by
    rw [hledger]
    exact hkept
  have hok : c.JoinsOk := by
    unfold JoinsOk
    rw [hjoins, ← hschema, ← htable, ← hlabel]
    exact hordered
  obtain ⟨texts, hselect, htexts⟩ := hselected.columns
  have hfinal : List.Forall₂ (Selects s c.ledger) (selectItems c.query) texts :=
    htexts.imp fun _ _ h => (h.mono hselected.joins hp.extends_selected).of_joins hjoins
  obtain ⟨columns, hnames, hcolumns, htakes⟩ :=
    columns_of_selects policy hok htable hlabel hfinal
  have hwritten := joinsAs_of_joinSteps hschema (joinSteps_of_mapM hmap)
  refine ⟨hok, hjoins ▸ hgains.isPrefix, columns, ⟨hnames, ⟨texts, ?_, hcolumns⟩, joinTexts, ?_,
    hjoins ▸ hwritten⟩, htakes⟩
  · rw [hpieces]
    exact hselect
  · rw [hpieces]
    exact hjoinsText

theorem Reads.mem_selectItems {columns : List Column} (h : Reads policy c columns)
    {column : Column} (hmem : column ∈ columns) :
    .string column.name ∈ selectItems c.query :=
  h.names ▸ List.mem_map_of_mem hmem

theorem Reads.leads {columns : List Column} (h : Reads policy c columns) {column : Column}
    (hmem : column ∈ columns) : ∃ label, Leads policy c column.way label := by
  obtain ⟨texts, -, hcolumns⟩ := h.select
  obtain ⟨text, label, hleads, -⟩ := exists_of_forall₂ hcolumns hmem
  exact ⟨label, hleads⟩

theorem joinedRelation_congr {j j' : Join} (hdead : q'.withDead = q.withDead)
    (hoptions : q'.options = q.options) (htable : j'.table = j.table)
    (hdirect : j'.direct = j.direct) : joinedRelation policy q' j' = joinedRelation policy q j := by
  unfold joinedRelation
  rw [hdead, hoptions, htable, hdirect]

theorem compile_of_yields {q₁ : Query} {pieces : Pieces} {l : Ledger}
    (hq : policy.customize q = q₁) (htable : (schema.table? q₁.table).isSome = true)
    (h : (compilePieces policy q₁).Yields (rootScope policy schema q₁) (.root q₁.table) pieces l) :
    q.compile schema policy =
      .ok ⟨pieces, q₁, schema, (rootScope policy schema q₁).label, l⟩ := by
  subst hq
  have hknown : ¬ (schema.table? (policy.customize q).table).isNone = true := by
    rw [Option.isNone_iff_eq_none]
    intro hnone
    rw [hnone] at htable
    cases htable
  unfold Compile.Yields rootScope at h
  unfold Query.compile
  dsimp only at h ⊢
  rw [if_neg hknown, h]
  rfl

theorem compile_of_fails {q₁ : Query} {cause : CompileError.Cause}
    (hq : policy.customize q = q₁) (htable : (schema.table? q₁.table).isSome = true)
    (h : (compilePieces policy q₁).Fails (rootScope policy schema q₁) (.root q₁.table) cause) :
    ∃ e, q.compile schema policy = .error e ∧ e.cause = cause := by
  subst hq
  have hknown : ¬ (schema.table? (policy.customize q).table).isNone = true := by
    rw [Option.isNone_iff_eq_none]
    intro hnone
    rw [hnone] at htable
    cases htable
  obtain ⟨e, l, he, hcause⟩ := h
  unfold rootScope at he
  refine ⟨e, ?_, hcause⟩
  unfold Query.compile
  dsimp only at he ⊢
  rw [if_neg hknown, he]

/-! ## 2. Another order -/

/-- Names are selected in the same way in any order, except where ways fork. The query with another
    order compiles as well, unless parameters in the policy's filters of joined tables conflict. -/
theorem same_reads_of_perm {selection : List Json} (h : q.compile schema policy = .ok c)
    (hnames : ∀ item ∈ (policy.customize q).selection, IsFieldName item)
    (hperm : selection.Perm (policy.customize q).selection)
    (hq' : policy.customize q' = { policy.customize q with selection }) :
    (∃ c', q'.compile schema policy = .ok c' ∧ SameReads policy c c') ∨
      ∃ e, q'.compile schema policy = .error e ∧ Conflicts policy c e := by
  obtain ⟨hquery, htable, p, hp, rfl, hlabel, hpieces, hledger⟩ := phases_of_compile h
  rw [← hquery] at hnames hperm hq'
  have hjoins : c.ledger.joins = p.ordered.joins := by
    rw [hledger]
    exact (yields_compileJoins hp.joins).1
  rcases phases_or_conflict rfl hnames hperm hp with
    ⟨p', hp', hselected, hselected'⟩ | ⟨hraw, ⟨entry, hentry, hfilters⟩, hconflict⟩
  · have hcompile := compile_of_yields hq' htable (yields_compilePieces hp')
    obtain ⟨hok, hentries, columns, hreads, htakes⟩ :=
      reads_of_phases hp hselected hpieces hledger rfl rfl hlabel.symm
    obtain ⟨hok', hentries', columns', hreads', htakes'⟩ :=
      reads_of_phases (c := ⟨p'.pieces, { c.query with selection }, c.schema, _, p'.ledger⟩) hp'
        hselected' rfl rfl rfl rfl rfl
    have hitems : (selectItems { c.query with selection }).Perm (selectItems c.query) :=
      selectItems_perm hperm
    refine .inl ⟨_, hcompile, by rw [hpieces]; rfl, columns, columns', hreads, hreads', ?_,
      fun column hmem column' hmem' hname => ?_⟩
    · rw [← hreads.names, ← hreads'.names] at hitems
      rw [← List.map_perm_map_iff (f := Json.string) fun _ _ h => Json.string.inj h, List.map_map,
        List.map_map]
      exact hitems
    · obtain ⟨r, hroute, hfield, hkeys⟩ := htakes column hmem
      obtain ⟨r', hroute', hfield', hkeys'⟩ := htakes' column' hmem'
      rw [hname] at hroute'
      obtain rfl : r' = r := Option.some.inj (hroute'.symm.trans hroute)
      obtain ⟨label, hleads⟩ := hreads.leads hmem
      obtain ⟨label', hleads'⟩ := hreads'.leads hmem'
      have hsegment := segment_of_hops (route?_segment hroute)
      refine ⟨hfield'.trans hfield.symm, sameWay_of_leads hok hok' rfl rfl hleads hleads'
        (hkeys'.trans hkeys.symm) (hkeys ▸ hsegment) fun path j j' hne hpre hj hj' htable => ?_⟩
      rw [hkeys] at hpre
      have hentry := hselected.mem_entries (hlabel ▸ hok) hentries (hreads.mem_selectItems hmem)
        hroute hne hpre hj
      have hmem' := hreads'.mem_selectItems hmem'
      rw [hname] at hmem'
      have hentry' := hselected'.mem_entries hok' hentries' hmem' hroute hne hpre hj'
      have hpath : ∀ f ∈ path, IsSegment f := fun f hf => hsegment f (hpre.subset hf)
      exact (direct_eq_or_forked hselected hselected' hitems hpath hentry hentry').imp_left
        (joinedRelation_congr rfl rfl htable)
  · obtain ⟨name, existing, type, hfails⟩ := hconflict
    obtain ⟨e, he, hcause⟩ := compile_of_fails hq' htable hfails
    exact .inr ⟨e, he, ⟨name, existing, type, hcause⟩, hraw, entry.2,
      joined_of_mem (hjoins ▸ hentry), hfilters⟩

/-! ## 3. Purchases -/

/-- Transactions with a payee and a category. -/
def purchases : Schema :=
  let id : Std.ExtTreeMap String Field := (∅ : Std.ExtTreeMap String Field).insert "id"
    ⟨.id, none, false, none⟩
  ⟨(((∅ : Std.ExtTreeMap String Table).insert "categories"
      ⟨id.insert "since" ⟨.date, none, false, none⟩⟩).insert "payees"
      ⟨id.insert "name" ⟨.string, none, false, none⟩⟩).insert "transactions"
    ⟨(id.insert "payee" ⟨.id, some "payees", false, none⟩).insert "category"
      ⟨.id, some "categories", false, none⟩⟩⟩

/-- Tables that are joined are read from views. -/
def viewed : Policy :=
  { Policy.none with
    view := fun table context => if context.isJoin then some ("active_" ++ table) else none }

/-- One parameter is the name of the payees and the date of the categories. -/
def doubled : Policy :=
  { Policy.none with
    filters := fun table =>
      if table = "payees" then [.object [("name", .string ":x")]]
      else if table = "categories" then [.object [("since", .string ":x")]]
      else [] }

def purchasesWith (names : List String) : Query :=
  { table := "transactions", selection := names.map .string }

theorem compileTableFilters_viewed (table : String) :
    compileTableFilters viewed table = pure none := rfl

theorem compileTableFilters_doubled (table : String) : compileTableFilters doubled table =
    if table = "payees" then equalFilter "name" ":x"
    else if table = "categories" then equalFilter "since" ":x" else pure none := by
  by_cases hpayees : table = "payees"
  · subst hpayees
    exact compileTableFilters_equal rfl (by decide) (by decide) (by decide)
  · by_cases hcategories : table = "categories"
    · subst hcategories
      exact compileTableFilters_equal rfl (by decide) (by decide) (by decide)
    · unfold compileTableFilters doubled
      dsimp only
      rw [if_neg hpayees, if_neg hcategories, if_neg hpayees, if_neg hcategories]
      rfl

/-- What is selected, as far as it can be computed. -/
theorem compileSelect_purchasesWith {names : List String} (hid : "id" ∉ names)
    (hstar : "*" ∉ names) : compileSelect (purchasesWith names) =
      Compile.within .select [.array (names.map .string)] (do
        let columns ← ("id" :: names).mapM nameColumns
        return .intercalate ", " columns.flatten) := by
  have haggregate : (purchasesWith names).isAggregate = false := by
    simp [purchasesWith, Query.isAggregate, containsAggregate]
  have hselects : (purchasesWith names).selection.any selectsId = false := by
    simp only [purchasesWith, List.any_map, List.any_eq_false]
    intro name hname
    simp only [Function.comp, selectsId, Bool.or_eq_true, beq_iff_eq, not_or]
    exact ⟨fun e => hid (e ▸ hname), fun e => hstar (e ▸ hname)⟩
  have hitems : selectItems (purchasesWith names) = ("id" :: names).map .string := by
    unfold selectItems
    rw [haggregate, hselects]
    rfl
  have hcolumns (names : List String) (hstar : "*" ∉ names) :
      (names.map Json.string).mapM (compileSelectItem []) = names.mapM nameColumns := by
    induction names with
    | nil => rfl
    | cons name names ih =>
      rw [List.map_cons, List.mapM_cons, List.mapM_cons,
        compileSelectItem_name (List.ne_of_not_mem_cons hstar).symm,
        ih (List.not_mem_of_not_mem_cons hstar)]
  unfold compileSelect
  rw [hitems, show (purchasesWith names).orders = [] from rfl, hcolumns _ (by simpa using hstar)]
  rfl

/-- Whether a statement is this text. -/
def isText (text : String) (c : CompiledQuery) : Bool := c.sql == text

/-- Whether the pieces of a query are refused for a cause. -/
def piecesFail (cause : CompileError.Cause) (policy : Policy) (schema : Schema) (q : Query) :
    Bool :=
  match (compilePieces policy q).outcome (rootScope policy schema q) (.root q.table) with
  | (.error e, _) => e.cause = cause
  | (.ok _, _) => false

theorem fails_of_piecesFail {cause : CompileError.Cause}
    (h : piecesFail cause policy schema q = true) :
    (compilePieces policy q).Fails (rootScope policy schema q) (.root q.table) cause := by
  unfold piecesFail at h
  split at h
  · rename_i e l he
    exact ⟨e, l, he, of_decide_eq_true h⟩
  · cases h

theorem same_reads_of_purchases : ∃ c,
    (purchasesWith ["payee.name", "category"]).compile purchases viewed = .ok c ∧
    (∀ item ∈ (purchasesWith ["payee.name", "category"]).selection, IsFieldName item) ∧
    (purchasesWith ["category", "payee.name"]).selection.Perm
      (purchasesWith ["payee.name", "category"]).selection ∧
    ((∃ c', (purchasesWith ["category", "payee.name"]).compile purchases viewed = .ok c' ∧
        SameReads viewed c c') ∨
      ∃ e, (purchasesWith ["category", "payee.name"]).compile purchases viewed = .error e ∧
        Conflicts viewed c e) := by
  obtain ⟨c, hc, -⟩ : ∃ c, (purchasesWith ["payee.name", "category"]).compile purchases viewed =
      .ok c ∧ true = true := by
    refine compile_of_piecesPass (by cbv) ?_
    rw [show viewed.customize (purchasesWith ["payee.name", "category"]) =
      purchasesWith ["payee.name", "category"] from rfl]
    unfold piecesPass compilePieces
    simp only [compileJoins, compileJoin, compileTableFilters_viewed]
    rw [compileSelect_purchasesWith (by decide) (by decide), purchasesWith, compileFilters_nil]
    decide +kernel
  have hnames : ∀ item ∈ (purchasesWith ["payee.name", "category"]).selection,
      IsFieldName item := by
    intro item hitem
    obtain ⟨name, hname, rfl⟩ := List.mem_map.mp hitem
    refine ⟨name, rfl, ?_⟩
    rintro rfl
    exact absurd hname (by decide)
  have hperm : (purchasesWith ["category", "payee.name"]).selection.Perm
      (purchasesWith ["payee.name", "category"]).selection := .swap _ _ _
  exact ⟨c, hc, hnames, hperm, same_reads_of_perm hc hnames hperm rfl⟩

/-- The names of payees are read from the table if the payees are selected before them, and from the
    view if after. And a query is refused only if the dates come before the names. -/
theorem not_same_reads_of_reordered :
    (∃ c, (purchasesWith ["payee", "payee.name"]).compile purchases viewed = .ok c ∧
      c.sql = "SELECT transactions.id AS id, payees1.id AS payee, " ++
        "payees1.name AS \"payee.name\" FROM transactions\n" ++
        "LEFT JOIN payees AS payees1 ON payees1.id = transactions.payee\nWHERE 1") ∧
    (∃ c, (purchasesWith ["payee.name", "payee"]).compile purchases viewed = .ok c ∧
      c.sql = "SELECT transactions.id AS id, payees1.name AS \"payee.name\", " ++
        "payees1.id AS payee FROM transactions\n" ++
        "LEFT JOIN active_payees AS payees1 ON payees1.id = transactions.payee\nWHERE 1") ∧
    (∃ c, (purchasesWith ["payee.name", "category.since"]).compile purchases doubled = .ok c) ∧
    ∃ e, (purchasesWith ["category.since", "payee.name"]).compile purchases doubled = .error e ∧
      e.cause = .paramConflict "x" .date .string := by
  have htable : (purchases.table? "transactions").isSome = true := by cbv
  have hviewed (names : List String) (text : String)
      (h : piecesPass (isText text) viewed purchases (purchasesWith names) = true) :
      ∃ c, (purchasesWith names).compile purchases viewed = .ok c ∧ c.sql = text := by
    obtain ⟨c, hc, htext⟩ := compile_of_piecesPass htable h
    exact ⟨c, hc, eq_of_beq htext⟩
  refine ⟨hviewed _ _ ?_, hviewed _ _ ?_, ?_, compile_of_fails rfl htable (fails_of_piecesFail ?_)⟩
  · unfold piecesPass compilePieces
    simp only [compileJoins, compileJoin, compileTableFilters_viewed]
    rw [compileSelect_purchasesWith (by decide) (by decide), purchasesWith, compileFilters_nil]
    decide +kernel
  · unfold piecesPass compilePieces
    simp only [compileJoins, compileJoin, compileTableFilters_viewed]
    rw [compileSelect_purchasesWith (by decide) (by decide), purchasesWith, compileFilters_nil]
    decide +kernel
  · have hpass : piecesPass (fun _ => true) doubled purchases
        (doubled.customize (purchasesWith ["payee.name", "category.since"])) = true := by
      rw [show doubled.customize (purchasesWith ["payee.name", "category.since"]) =
        purchasesWith ["payee.name", "category.since"] from rfl]
      unfold piecesPass compilePieces
      simp only [compileJoins, compileJoin, compileTableFilters_doubled]
      rw [compileSelect_purchasesWith (by decide) (by decide), purchasesWith, compileFilters_nil]
      decide +kernel
    exact (compile_of_piecesPass htable hpass).imp fun _ h => h.1
  · rw [show doubled.customize (purchasesWith ["category.since", "payee.name"]) =
      purchasesWith ["category.since", "payee.name"] from rfl]
    unfold piecesFail compilePieces
    simp only [compileJoins, compileJoin, compileTableFilters_doubled]
    rw [compileSelect_purchasesWith (by decide) (by decide), purchasesWith, compileFilters_nil]
    decide +kernel

end CompiledQuery

end QuerySheet

import Mathlib
import QuerySheet.Proofs.Sql.ClosedText
import QuerySheet.Proofs.Sql.Sites

/-!
# Question marks and bind sites

* `statementTasks`: what the clauses of a statement compile, in the order of its text;
* `Phases.Valid.tally`: every phase adds the sites of its tasks, and those of the joins are moved
  to where their text stands;
* `closed_template`: under plain names the whole statement is closed, so its question marks are the
  holes of its template;
* `bound_iff`: they are its bind sites, in the same order, exactly if no task drops a left side.
-/

namespace QuerySheet.Sql

variable {plain : Char → Prop} {policy : Policy} {q : Query} {schema : Schema} {s : Scope}
  {l l' : Ledger}

/-! ## 1. The tasks of a statement -/

/-- What a column with a name of its own compiles. -/
def columnTask (orders : List Json) : Json → Task
  | .string field => ⟨[], .expr (fieldReference field)⟩
  | .object call => ⟨orders, .function call⟩
  | e => ⟨[], .expr e⟩

def itemTasks (orders : List Json) : Json → List Task
  | .string name => if name = "*" then [] else [⟨[], .expr (fieldReference name)⟩]
  | .object fields => fields.map fun (_, value) => columnTask orders value
  | _ => []

def filterTasks (filters : List Json) : List Task := [⟨[], .conditions (.array filters)⟩]

/-- What the policy's filters of a table compile. -/
def tableTasks (policy : Policy) (table : String) : List Task :=
  if policy.filters table = [] then [] else filterTasks (policy.filters table)

/-- The same, unless the query is raw. -/
def ownTasks (policy : Policy) (q : Query) (table : String) : List Task :=
  if q.raw then [] else tableTasks policy table

def groupTask : Json → Task
  | .string field => ⟨[], .expr (fieldReference field)⟩
  | e => ⟨[], .expr e⟩

/-! ## 2. Select -/

theorem quiet_setOutputType (name : String) (type : ValueType) : Quiet (setOutputType name type) :=
  quiet_modify fun _ => rfl

theorem yields_column {o : Operand} {name : String} {t : Template}
    (h : (column o name).Yields s l t l') : t.holes = o.holes ∧ l'.refs = l.refs := by
  unfold column at h
  obtain ⟨_, l₁, hset, hpure⟩ := Compile.yields_bind.mp h
  obtain ⟨rfl, rfl⟩ := Compile.yields_pure.mp hpure
  exact ⟨by simp [Operand.holes], (quiet_setOutputType _ _).refs hset⟩

theorem yields_allColumns {t : Template} (h : allColumns.Yields s l t l') :
    t.holes = [] ∧ l'.refs = l.refs := by
  unfold allColumns at h
  obtain ⟨scope, l₁, hread, h⟩ := Compile.yields_bind.mp h
  obtain ⟨table, l₂, hrequire, h⟩ := Compile.yields_bind.mp h
  obtain ⟨_, l₃, htypes, hpure⟩ := Compile.yields_bind.mp h
  obtain ⟨rfl, rfl⟩ := Compile.yields_pure.mp hpure
  obtain ⟨rfl, rfl⟩ := Compile.yields_read.mp hread
  obtain ⟨-, rfl⟩ := Compile.yields_require.mp hrequire
  have hquiet := trace_refs.closed.forM table.fields.toList fun field =>
    quiet_setOutputType field.1 field.2.type.valueType
  exact ⟨by simp, Quiet.refs hquiet htypes⟩

theorem fills_compileExpr {e : Json} {o : Operand}
    (h : (compileExpr e).Yields s l o l') (hs : s.ordering = []) :
    Adds [⟨[], .expr e⟩] l l' o.holes :=
  hs ▸ (fills_part fills_window (.expr e) s l o l' h).2

theorem fills_compileConditions {conds : Json} {ts : List Template}
    (h : (compileConditions conds).Yields s l ts l') (hs : s.ordering = []) :
    Adds [⟨[], .conditions conds⟩] l l' (textHoles ts) :=
  hs ▸ (fills_part fills_window (.conditions conds) s l ts l' h).2

theorem adds_column {tasks : List Task} {o : Operand} {name : String} {t : Template} {l₁ : Ledger}
    (ho : Adds tasks l l₁ o.holes) (h : (column o name).Yields s l₁ t l') :
    Adds tasks l l' t.holes := by
  obtain ⟨hholes, hrefs⟩ := yields_column h
  rw [hholes]
  exact ho.keep hrefs

theorem adds_compileNamedColumn {orders : List Json} {name : String}
    {value : Json} {t : Template} (h : (compileNamedColumn orders name value).Yields s l t l')
    (hs : s.ordering = []) :
    Adds [columnTask orders value] l l' t.holes := by
  unfold compileNamedColumn at h
  split at h
  · exact absurd h Compile.yields_fail
  · cases value with
    | object call =>
      obtain ⟨o, l₁, ho, hcolumn⟩ := Compile.yields_bind.mp h
      exact adds_column (fills_part fills_window (.function call) _ l o l₁ ho).2 hcolumn
    | string | null | bool | number | array =>
      obtain ⟨o, l₁, ho, hcolumn⟩ := Compile.yields_bind.mp h
      exact adds_column (fills_compileExpr ho hs) hcolumn

theorem adds_compileSelectItem {orders : List Json} {item : Json}
    {ts : List Template} (h : (compileSelectItem orders item).Yields s l ts l')
    (hs : s.ordering = []) :
    Adds (itemTasks orders item) l l' (textHoles ts) := by
  unfold compileSelectItem at h
  cases item with
  | string name =>
    dsimp only [itemTasks] at h ⊢
    split at h
    · rename_i hstar
      obtain ⟨t, l₁, ht, hpure⟩ := Compile.yields_bind.mp h
      obtain ⟨rfl, rfl⟩ := Compile.yields_pure.mp hpure
      obtain ⟨hholes, hrefs⟩ := yields_allColumns ht
      rw [if_pos hstar, textHoles, List.flatMap_singleton, hholes]
      exact .of_refs hrefs
    · rename_i hstar
      obtain ⟨o, l₁, ho, h⟩ := Compile.yields_bind.mp h
      obtain ⟨t, l₂, ht, hpure⟩ := Compile.yields_bind.mp h
      obtain ⟨rfl, rfl⟩ := Compile.yields_pure.mp hpure
      rw [if_neg hstar, textHoles, List.flatMap_singleton]
      exact adds_column (fills_compileExpr ho hs) ht
  | object fields =>
    dsimp only [itemTasks]
    rw [List.map_eq_flatMap]
    refine adds_mapM (fun field _ l t l' ht => ?_) h
    exact adds_compileNamedColumn ht hs
  | null | bool | number | array => exact absurd h Compile.yields_fail

/-- What a select list compiles. -/
def selectTasks (q : Query) : List Task := (selectItems q).flatMap (itemTasks q.orders)

theorem adds_compileSelect {t : Template}
    (h : (compileSelect q).Yields s l t l') (hs : s.ordering = []) :
    Adds (selectTasks q) l l' t.holes := by
  unfold compileSelect at h
  rw [Compile.yields_within] at h
  obtain ⟨columns, l₁, hcolumns, hpure⟩ := Compile.yields_bind.mp h
  obtain ⟨rfl, rfl⟩ := Compile.yields_pure.mp hpure
  have hholes : columns.flatten.flatMap Template.holes = columns.flatMap textHoles := by
    rw [List.flatten_eq_flatMap, List.flatMap_assoc]
    rfl
  rw [Template.holes_intercalate, hholes]
  refine adds_mapM (fun item _ l ts l' hts => ?_) hcolumns
  exact adds_compileSelectItem hts hs

/-! ## 3. Filters and clauses -/

theorem adds_compileFilters {filters : List Json} {t : Template}
    (h : (compileFilters filters).Yields s l t l') (hs : s.ordering = []) :
    Adds (filterTasks filters) l l' t.holes := by
  unfold compileFilters compileAnd at h
  rw [Compile.yields_within] at h
  obtain ⟨ts, l₁, hts, hpure⟩ := Compile.yields_bind.mp h
  obtain ⟨rfl, rfl⟩ := Compile.yields_pure.mp hpure
  rw [holes_all]
  exact fills_compileConditions hts hs

theorem holes_andAlso (condition : Option Template) :
    (andAlso condition).holes = (condition.map Template.holes).getD [] := by
  cases condition with
  | none => rfl
  | some t => exact Template.holes_append " AND " t

theorem adds_compileTableFilters {table : String}
    {filter : Option Template} (h : (compileTableFilters policy table).Yields s l filter l')
    (hs : s.ordering = []) :
    Adds (tableTasks policy table) l l' (andAlso filter).holes := by
  unfold compileTableFilters at h
  unfold tableTasks
  dsimp only at h
  rw [holes_andAlso]
  split at h
  · rename_i hempty
    obtain ⟨rfl, rfl⟩ := Compile.yields_pure.mp h
    rw [if_pos (List.isEmpty_iff.mp hempty)]
    exact .of_refs rfl
  · rename_i hne
    rw [if_neg fun e => hne (List.isEmpty_iff.mpr e)]
    split at h
    · exact absurd h Compile.yields_fail
    · rw [Compile.yields_withReader] at h
      obtain ⟨t, l₁, ht, hpure⟩ := Compile.yields_bind.mp h
      obtain ⟨rfl, rfl⟩ := Compile.yields_pure.mp hpure
      exact adds_compileFilters ht hs

theorem adds_ownFilters {table : String} {filter : Option Template}
    (h : (ownFilters policy q table).Yields s l filter l') (hs : s.ordering = []) :
    Adds (ownTasks policy q table) l l' (andAlso filter).holes := by
  unfold ownFilters at h
  unfold ownTasks
  split at h
  · rename_i hraw
    obtain ⟨rfl, rfl⟩ := Compile.yields_pure.mp h
    rw [if_pos hraw]
    exact .of_refs rfl
  · rename_i hraw
    rw [if_neg hraw]
    exact adds_compileTableFilters h hs

theorem adds_clause {keyword : String} {expressions : List Json}
    {compile : List Json → Compile Template} {tasks : Json → List Task} {t : Template}
    (hcompile : ∀ t l l', (compile expressions).Yields s l t l' →
      Adds (expressions.flatMap tasks) l l' t.holes)
    (h : (clause keyword expressions compile).Yields s l t l') :
    Adds (expressions.flatMap tasks) l l' t.holes := by
  unfold clause at h
  split at h
  · rename_i hempty
    obtain ⟨rfl, rfl⟩ := Compile.yields_pure.mp h
    rw [List.isEmpty_iff.mp hempty]
    exact .of_refs rfl
  · obtain ⟨u, l₁, hu, hpure⟩ := Compile.yields_bind.mp h
    obtain ⟨rfl, rfl⟩ := Compile.yields_pure.mp hpure
    have hholes : (Template.ofString keyword ++ " " ++ u).holes = u.holes := by simp
    rw [hholes]
    exact hcompile u l l' hu

theorem adds_compileGroupBy {groups : List Json} {t : Template}
    (h : (compileGroupBy groups).Yields s l t l') (hs : s.ordering = []) :
    Adds (groups.flatMap fun e => [groupTask e]) l l' t.holes := by
  have hgroup (e : Json) (s : Scope) (l l' : Ledger) (t : Template)
      (h : (compileGroup e).Yields s l t l') (hs : s.ordering = []) :
      Adds [groupTask e] l l' t.holes := by
    unfold compileGroup at h
    cases e with
    | string | object | null | bool | number | array =>
      obtain ⟨o, l₁, ho, hpure⟩ := Compile.yields_bind.mp h
      obtain ⟨rfl, rfl⟩ := Compile.yields_pure.mp hpure
      exact fills_compileExpr ho hs
  unfold compileGroupBy at h
  rw [Compile.yields_within] at h
  obtain ⟨ts, l₁, hts, hpure⟩ := Compile.yields_bind.mp h
  obtain ⟨rfl, rfl⟩ := Compile.yields_pure.mp hpure
  rw [Template.holes_intercalate]
  refine adds_mapM (fun e _ l t l' ht => ?_) hts
  exact hgroup e _ l l' t ht hs

theorem adds_compileOrderBy {orders : List Json} {t : Template}
    (h : (compileOrderBy orders).Yields s l t l') (hs : s.ordering = []) :
    Adds (orders.flatMap (orderTasks [])) l l' t.holes :=
  hs ▸ fills_orderByWith fills_window h

/-! ## 4. Joins -/

theorem adds_compileJoin {j : Join} {t : Template} (h : (compileJoin policy q j).Yields s l t l')
    (hs : s.ordering = []) : Adds (ownTasks policy q j.table) l l' t.holes := by
  obtain ⟨filter, inner, hstep⟩ := yields_compileJoin h
  have hholes : t.holes = (andAlso filter).holes := by
    rw [hstep.text, Template.holes_append, Template.holes_ofString, List.nil_append]
  rw [hholes]
  unfold ownTasks
  have hrefs : l'.refs = inner.refs := by rw [hstep.ledger, Ledger.refs, Ledger.refs]
  rcases hstep.filters with ⟨hraw, rfl, rfl⟩ | ⟨hraw, hpart⟩
  · rw [if_pos hraw]
    exact .of_refs hrefs
  · rw [if_neg hraw]
    have hadds := adds_compileTableFilters hpart hs
    exact hadds.keep hrefs

/-- What the filters of joins compile. -/
def joinTasks (policy : Policy) (q : Query) (entries : List (String × Join)) : List Task :=
  entries.flatMap fun entry => ownTasks policy q entry.2.table

theorem adds_compileJoins {t : Template} (h : (compileJoins policy q).Yields s l t l')
    (hs : s.ordering = []) : Adds (joinTasks policy q l.joins.entries) l l' t.holes := by
  obtain ⟨-, ts, rfl, hjoins⟩ := yields_compileJoins h
  rw [Template.holes_intercalate]
  refine adds_mapM (fun entry _ l t l' ht => ?_) hjoins
  exact adds_compileJoin ht hs

/-! ## 5. Statements -/

/-- What a statement compiles, in the order of its text. -/
def statementTasks (policy : Policy) (q : Query) (entries : List (String × Join)) : List Task :=
  selectTasks q ++ (joinTasks policy q entries ++ (filterTasks q.filters ++
    (ownTasks policy q q.table ++ (q.groups.flatMap (fun e => [groupTask e]) ++
      q.orders.flatMap (orderTasks [])))))

theorem refs_move {sites : List Site} {first middle last : List ParamRef} {source target : Nat}
    (h : sites.map Site.ref = first ++ middle ++ last) (hsource : source = (first ++ middle).length)
    (htarget : target = first.length) :
    (Site.move sites source target).map Site.ref = first ++ last ++ middle := by
  have hlength : sites.length = (first ++ middle).length + last.length := by
    rw [← List.length_map Site.ref, h, List.length_append]
  have hsource' : min source sites.length = (first ++ middle).length := by omega
  have htarget' : min target (first ++ middle).length = first.length := by
    rw [List.length_append]
    omega
  unfold Site.move
  dsimp only
  rw [hsource', htarget', List.map_append, List.map_append, List.map_take, List.map_drop,
    List.map_drop, List.map_take, h, List.drop_left, List.take_left, List.drop_left]
  rw [List.append_assoc, List.append_assoc, List.take_left]
  simp

/-- The sites of a statement, against the holes of its clauses. -/
theorem Phases.Valid.tally {p : Phases policy q s} (h : p.Valid l) (hs : s.ordering = [])
    (hl : l.sites = []) :
    Tally (statementTasks policy q p.ordered.joins.entries) (p.ledger.sites.map Site.ref)
      (p.select.holes ++ (p.joins.holes ++ (p.own.holes ++ ((andAlso p.extra).holes ++
        (p.groupBy.holes ++ p.orderBy.holes))))) := by
  obtain ⟨select, hselect, tselect⟩ := adds_compileSelect h.select hs
  obtain ⟨own, hown, town⟩ := adds_compileFilters h.own hs
  obtain ⟨extra, hextra, textra⟩ := adds_ownFilters h.extra hs
  obtain ⟨groups, hgroups, tgroups⟩ :=
    adds_clause (fun t l l' ht => adds_compileGroupBy ht hs) h.groupBy
  obtain ⟨orders, horders, torders⟩ :=
    adds_clause (fun t l l' ht => adds_compileOrderBy ht hs) h.orderBy
  obtain ⟨joins, hjoins, tjoins⟩ := adds_compileJoins h.joins hs
  -- The sites of the joins come last and are moved to where their text stands.
  have hnil : l.refs = [] := by rw [Ledger.refs, hl, List.map_nil]
  have hselected : p.selected.refs = select := by rw [hselect, hnil, List.nil_append]
  have hordered : p.ordered.refs = select ++ (own ++ (extra ++ (groups ++ orders))) := by
    rw [horders, hgroups, hextra, hown, hselected]
    simp only [List.append_assoc]
  have hledger : p.ledger.sites.map Site.ref =
      select ++ joins ++ (own ++ (extra ++ (groups ++ orders))) := by
    refine refs_move ?_ ?_ ?_
    · rw [← hordered]
      exact hjoins
    · rw [← hordered, Ledger.refs, List.length_map]
    · rw [← hselected, Ledger.refs, List.length_map]
  rw [hledger, List.append_assoc]
  exact tselect.append (tjoins.append (town.append (textra.append (tgroups.append torders))))

theorem textHoles_filter (ts : List Template) :
    textHoles (ts.filter (!·.isEmpty)) = textHoles ts := by
  induction ts with
  | nil => rfl
  | cons t ts ih =>
    unfold textHoles at ih ⊢
    by_cases ht : t.isEmpty = true
    · have hholes : t.holes = [] := by
        unfold Template.holes
        rw [List.isEmpty_iff.mp ht]
        rfl
      rw [List.filter_cons_of_neg (by simp [ht]), List.flatMap_cons, hholes, ih, List.nil_append]
    · rw [List.filter_cons_of_pos (by simp [ht]), List.flatMap_cons, List.flatMap_cons, ih]

theorem holes_whereClause (c : CompiledQuery) : c.whereClause.holes = c.pieces.filter.holes := by
  unfold CompiledQuery.whereClause
  split
  · simp
  · rfl

theorem holes_template (c : CompiledQuery) :
    c.template.holes = c.pieces.select.holes ++ (c.pieces.joins.holes ++
      (c.pieces.filter.holes ++ (c.pieces.groupBy.holes ++ c.pieces.orderBy.holes))) := by
  have hclauses := textHoles_filter
    [c.pieces.joins, c.whereClause, c.pieces.groupBy, c.pieces.orderBy]
  unfold textHoles at hclauses
  unfold CompiledQuery.template CompiledQuery.lines
  rw [Template.holes_intercalate]
  simp only [List.flatMap_append, hclauses]
  cases c.pieces.limit <;> cases c.pieces.offset <;> simp [holes_whereClause]

/-! ## 6. The whole text is closed -/

section Closed

variable (hplain : ∀ c, Ordinary c → plain c)

include hplain

theorem closed_joinHead (hnames : PlainNames plain schema policy) (hs : PlainScope plain s)
    (hl : JoinsOk s l) (hschema : s.schema = schema) {j : Join} (hj : Joined l j) :
    (Template.ofString (joinHead policy q schema j)).Closed plain := by
  have fixed (s : String) (h : AllChars Ordinary s) : (Template.ofString s).Closed plain :=
    closed_fixed hplain h
  obtain ⟨place, key, hplace⟩ := hj
  obtain ⟨path, parentTable, hfollows⟩ := hl.follows place key j hplace
  rw [hschema] at hfollows
  have hlabel : (Template.ofString j.label).Closed plain :=
    Template.closed_ofString (plain_alias hplain hs hl (.joined ⟨place, key, hplace⟩))
  have htable : AllChars plain j.table := hnames.target _ _ _ hfollows.refers
  have hparent : AllChars plain j.parent := by
    have hfrom := hfollows.parent
    generalize j.parent = parent at hfrom
    cases hfrom with
    | root => exact hs.label
    | joined hne hlt hearlier => exact plain_alias hplain hs hl (.joined ⟨_, _, hearlier⟩)
  have hfield : AllChars plain j.field := by
    obtain ⟨t, desc, ht, hdesc, -⟩ := hfollows.refers
    exact hnames.field _ _ _ _ ht hdesc
  have hrelation : AllChars plain (joinedRelation policy q j) := by
    unfold joinedRelation
    split
    · exact htable
    · exact plain_relation hnames htable
  have hhead := (((((((((fixed "LEFT JOIN " (by decide)).append
    (Template.closed_ofString hrelation)).append (fixed " AS " (by decide))).append hlabel).append
    (fixed " ON " (by decide))).append hlabel).append (fixed ".id = " (by decide))).append
    (Template.closed_ofString hparent)).append (fixed "." (by decide))).append
    (closed_quoteAlias hfield)
  unfold joinHead
  dsimp only
  simp only [Template.ofString_append]
  refine hhead.append ?_
  split
  · simp only [Template.ofString_append]
    exact ((fixed " AND " (by decide)).append hlabel).append (fixed ".tombstone = 0" (by decide))
  · exact .nil

theorem closed_andAlso {filter : Option Template} (h : ∀ t, filter = some t → t.Closed plain) :
    (andAlso filter).Closed plain := by
  cases filter with
  | none => exact .nil
  | some t => exact (closed_fixed hplain (s := " AND ") (by decide)).append (h t rfl)

theorem closed_joins (hnames : PlainNames plain schema policy) (hs : PlainScope plain s)
    (hl : JoinsOk s l) (hschema : s.schema = schema) {entries : List (String × Join)}
    {ts : List Template} (h : List.Forall₂ (IsJoinText plain policy q schema) entries ts)
    (hentries : ∀ entry ∈ entries, Joined l entry.2) : ∀ t ∈ ts, t.Closed plain := by
  induction h with
  | nil => exact fun t ht => absurd ht List.not_mem_nil
  | @cons entry t entries ts hjoin _ ih =>
    obtain ⟨filter, hfilter, rfl⟩ := hjoin
    have hhead := closed_joinHead hplain (q := q) hnames hs hl hschema
      (hentries entry List.mem_cons_self)
    have htail := ih fun entry hentry => hentries entry (List.mem_cons_of_mem _ hentry)
    intro u hu
    rcases List.mem_cons.mp hu with rfl | hu
    · exact hhead.append
        (closed_andAlso hplain fun t ht => (hfilter.2 t ht).text (language_closed hplain))
    · exact htail u hu

theorem closed_whereClause {c : CompiledQuery} (hfilter : c.pieces.filter.Closed plain)
    (hlabel : AllChars plain c.label) : c.whereClause.Closed plain := by
  unfold CompiledQuery.whereClause
  split
  · exact ((hfilter.append (closed_fixed hplain (by decide))).append
      (Template.closed_ofString hlabel)).append (closed_fixed hplain (by decide))
  · exact hfilter

/-- Under plain names, those of the columns included, the whole statement is closed. -/
theorem closed_template {c : CompiledQuery} (hnames : PlainNames plain schema policy)
    (hcolumns : PlainColumns plain (policy.customize q)) (h : q.compile schema policy = .ok c) :
    c.template.Closed plain := by
  have fixed (s : String) (h : AllChars Ordinary s) : (Template.ofString s).Closed plain :=
    closed_fixed hplain h
  obtain ⟨hquery, htable, p, hp, -, hlabel, hpieces, -⟩ := phases_of_compile h
  rw [← hquery] at hcolumns
  have hs := plain_rootScope hnames htable
  have hclosed : p.Closed plain := hp.closed hplain hs Joins.wellFormed_empty
  obtain ⟨ts, hts, hjoins⟩ := hclosed.joins
  have hnewline : AllChars plain "\n" := (by decide : AllChars Ordinary "\n").mono hplain
  have hjoins : p.joins.Closed plain := by
    rw [hjoins]
    exact Template.closed_intercalate hnewline
      (closed_joins hplain hnames hs hclosed.wellFormed rfl hts fun _ h => joined_of_mem h)
  have hfilter : c.pieces.filter.Closed plain := by
    rw [hpieces]
    exact ((fixed "WHERE " (by decide)).append (hclosed.own.text (language_closed hplain))).append
      (closed_andAlso hplain fun t ht => (hclosed.extra.2 t ht).text (language_closed hplain))
  have hwhere : c.whereClause.Closed plain := by
    refine closed_whereClause hplain hfilter ?_
    rw [hlabel]
    exact hs.label
  have hcount (keyword : String) (hkeyword : AllChars Ordinary keyword) (n : Nat) :
      (Template.ofString keyword ++ Template.ofString (toString n)).Closed plain :=
    (fixed keyword hkeyword).append (fixed _ (ordinary_natText n))
  refine Template.closed_intercalate hnewline fun t ht => ?_
  unfold CompiledQuery.lines at ht
  simp only [List.mem_append, List.mem_filter] at ht
  rcases ht with ((ht | ⟨ht, -⟩) | ht) | ht
  · rw [List.mem_singleton.mp ht, hpieces]
    exact (((fixed "SELECT " (by decide)).append (hclosed.select hcolumns)).append
      (fixed " FROM " (by decide))).append (Template.closed_ofString hs.label)
  · rw [hpieces] at ht
    simp only [List.mem_cons, List.not_mem_nil, or_false] at ht
    rcases ht with rfl | rfl | rfl | rfl
    · exact hjoins
    · exact hwhere
    · exact hclosed.groupBy
    · exact hclosed.orderBy
  · split at ht
    · rw [List.mem_singleton.mp ht]
      exact hcount "LIMIT " (by decide) _
    · cases ht
  · split at ht
    · rw [List.mem_singleton.mp ht]
      exact hcount "OFFSET " (by decide) _
    · cases ht

end Closed

/-! ## 7. Question marks are bind sites -/

/-- A character that neither begins a literal or a quoted identifier nor is a question mark. -/
def Unmarked (c : Char) : Prop := c ≠ '\'' ∧ c ≠ '"' ∧ c ≠ '?'

instance : DecidablePred Unmarked := fun _ => inferInstanceAs (Decidable (_ ∧ _))

theorem unmarked_of_ordinary (c : Char) (h : Ordinary c) : Unmarked c :=
  ⟨h.1, h.2.1, h.2.2.2.2⟩

/-- What a statement compiles, in the order of its text. -/
def tasksOf (policy : Policy) (c : CompiledQuery) : List Task :=
  statementTasks policy c.query c.ledger.joins.entries

/-- The question marks outside of literals and quoted identifiers are the bind sites: there are as
    many, and each is the placeholder that was written for the site in its place. -/
structure Bound (c : CompiledQuery) : Prop where
  count : (marks c.sql).length = c.sites.length
  marks : marks c.sql = c.template.holePlaces
  sites : c.template.holes = c.sites.map Site.ref

theorem length_holePlaces (t : Template) : t.holePlaces.length = t.holes.length := by
  have hfrom (place : Nat) (signs : List Sign) :
      (Template.holesFrom place signs).length = (signs.filterMap Sign.ref?).length := by
    induction signs generalizing place with
    | nil => rfl
    | cons sign signs ih =>
      cases sign with
      | char c => exact ih (place + 1)
      | hole ref => exact congrArg Nat.succ (ih (place + 1))
  exact hfrom 0 t.signs

/-- The holes of a statement that compiles, against its sites. -/
theorem tally_of_compile {c : CompiledQuery} (h : q.compile schema policy = .ok c) :
    Tally (tasksOf policy c) (c.sites.map Site.ref) c.template.holes := by
  obtain ⟨-, -, p, hp, -, -, hpieces, hledger⟩ := phases_of_compile h
  have hfilter : p.pieces.filter.holes = p.own.holes ++ (andAlso p.extra).holes := by
    show (Template.ofString "WHERE " ++ p.own ++ andAlso p.extra).holes = _
    simp
  have hentries : c.ledger.joins.entries = p.ordered.joins.entries := by
    rw [hledger]
    show p.joined.joins.entries = _
    rw [(yields_compileJoins hp.joins).1]
  unfold tasksOf CompiledQuery.sites
  rw [holes_template, hpieces, hfilter, hentries, hledger, List.append_assoc]
  exact hp.tally rfl rfl

/-- Under plain names there are as many question marks as sites exactly if the holes are the
    sites. -/
theorem count_iff {c : CompiledQuery} (hnames : PlainNames Unmarked schema policy)
    (hcolumns : PlainColumns Unmarked (policy.customize q))
    (h : q.compile schema policy = .ok c) :
    marks c.sql = c.template.holePlaces ∧
      ((marks c.sql).length = c.sites.length ↔ c.template.holes = c.sites.map Site.ref) := by
  have hclosed : c.template.Closed Unmarked :=
    closed_template unmarked_of_ordinary hnames hcolumns h
  have hmarks : marks c.sql = c.template.holePlaces :=
    marks_text (by decide) (by decide) (by decide) hclosed
  refine ⟨hmarks, ?_⟩
  rw [hmarks, length_holePlaces]
  constructor
  · intro hlength
    exact (tally_of_compile h).sublist.eq_of_length (by rw [hlength, List.length_map])
  · intro hholes
    rw [hholes, List.length_map]

/-- The question marks of a statement are its bind sites exactly if no test of a field against no
    value at all has a left side that binds a parameter. -/
theorem bound_iff {c : CompiledQuery} (hnames : PlainNames Unmarked schema policy)
    (hcolumns : PlainColumns Unmarked (policy.customize q))
    (h : q.compile schema policy = .ok c) :
    (Bound c ↔ ∀ t ∈ tasksOf policy c, ¬ t.Drops) ∧
      ((marks c.sql).length = c.sites.length ↔ ∀ t ∈ tasksOf policy c, ¬ t.Drops) := by
  obtain ⟨hmarks, hcount⟩ := count_iff hnames hcolumns h
  have htally := tally_of_compile h
  refine ⟨?_, hcount.trans htally.exact_iff⟩
  rw [← htally.exact_iff]
  exact ⟨fun hbound => hbound.sites, fun hsites => ⟨hcount.mpr hsites, hmarks, hsites⟩⟩

/-- The names that pass a test. -/
def peopleTested (test : Json) : Query :=
  { table := "people", filters := [.object [("name", test)]], selection := [.string "name"],
    groups := [.string "name"] }

theorem plainColumns_peopleTested (test : Json) : PlainColumns Unmarked (peopleTested test) := by
  have hname : AllChars Unmarked "name" := by decide
  intro item hitem name hmem
  rw [List.mem_singleton.mp hitem] at hmem
  rw [List.mem_singleton.mp hmem]
  exact hname

theorem bound_iff_of_people : ∃ c, (peopleTested (.string ":text")).compile people .none = .ok c ∧
    (Bound c ↔ ∀ t ∈ tasksOf .none c, ¬ t.Drops) ∧
      ((marks c.sql).length = c.sites.length ↔ ∀ t ∈ tasksOf .none c, ¬ t.Drops) := by
  obtain ⟨c, hc, -⟩ : ∃ c, (peopleTested (.string ":text")).compile people .none = .ok c ∧
      true = true :=
    compile_of_piecesPass (by cbv) (by cbv)
  exact ⟨c, hc, bound_iff (plainNames_people unmarked_of_ordinary fun _ _ => rfl)
    (plainColumns_peopleTested _) hc⟩

/-- A text in lower case that is to be one of no texts at all. -/
def noText : Json :=
  .object [(transformKey, .object [("$lower", .string ":text")]), ("$oneof", .array [])]

theorem drops_noText : Task.Drops ⟨[], .conditions (.array [.object [("name", noText)]])⟩ := by
  have htext : Task.Binds ⟨[], .expr (.string ":text")⟩ :=
    .here ⟨'t', ['e', 'x', 't'], by decide⟩
  have hcall : Task.Binds ⟨[], .function [("$lower", .string ":text")]⟩ :=
    .call (.part .functionHead) <|
    .call (.part (.callArguments (f := .lower) rfl (by decide))) <|
    .call (.part .argumentsHead) htext
  have hleft : Task.Binds ⟨[], .left "name" (some (.object [("$lower", .string ":text")]))⟩ :=
    .call (.part .leftCall) hcall
  have hoperator : Operator.ofName? "$oneof" = some .oneOf := rfl
  exact .call (.part (.conditionsTests rfl)) <| .call (.part .testsHead) <|
    .call (.part (.testOp (by decide) (by decide))) <|
    .call (.part (.opComparison rfl hoperator)) <| .here ⟨rfl, hleft⟩

/-- The test is written as a constant, but its left side has a site. -/
theorem not_bound_of_noText : ∃ c, (peopleTested noText).compile people .none = .ok c ∧
    (marks c.sql).length ≠ c.sites.length := by
  obtain ⟨c, hc, -⟩ : ∃ c, (peopleTested noText).compile people .none = .ok c ∧ true = true :=
    compile_of_piecesPass (by cbv) (by cbv)
  obtain ⟨hquery, -⟩ := phases_of_compile hc
  refine ⟨c, hc, fun hlength => ?_⟩
  obtain ⟨-, hcount⟩ :=
    count_iff (plainNames_people unmarked_of_ordinary fun _ _ => rfl)
      (plainColumns_peopleTested _) hc
  refine (tally_of_compile hc).exact_iff.mp (hcount.mp hlength) _ ?_ drops_noText
  unfold tasksOf
  rw [hquery]
  have hfilter : _ ∈ filterTasks (peopleTested noText).filters := List.mem_singleton_self _
  exact List.mem_append_right _ (List.mem_append_right _ (List.mem_append_left _ hfilter))

end QuerySheet.Sql

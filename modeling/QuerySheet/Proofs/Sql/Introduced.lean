import Mathlib.Data.List.Forall2
import QuerySheet.Proofs.Sql.Aliases
import QuerySheet.Proofs.Sql.Qualified
import QuerySheet.Proofs.Sql.Texts

/-!
# Aliases are introduced before they are read

Columns are read from the root of a statement and from its joins. What the policy's filters of a
joined table join themselves is lost, so that their columns may be read from aliases that nothing
introduces.

* `Introduced`: which aliases the clauses, and the filters of the joins, read columns from;
* `joinReads_of_steps`: along the joins, what the filters of each join read;
* `sameJoins_compileTableFilters`: filters that follow no path join nothing;
* `introduced_of_compile`: so every alias that is read is introduced in front of it, apart from
  those that are lost, and none is lost if the filters of the joined tables follow no path.
-/

namespace QuerySheet

variable {policy : Policy} {schema : Schema} {q : Query} {c : CompiledQuery}

namespace CompiledQuery

open Sql

/-! ## 1. Aliases of a statement -/

/-- The name of the root, or of one of the first joins. -/
def Relation (c : CompiledQuery) (joins : Nat) (label : String) : Prop :=
  label = c.label ∨
    ∃ (k : Nat) (entry : String × Join), k < joins ∧ c.ledger.joins.entries[k]? = some entry ∧
      label = entry.2.label

/-- The names that selected columns may have. -/
def outputNames (c : CompiledQuery) : List String :=
  "id" :: c.query.selection.flatMap columnNames

/-- Texts that read columns of the schema from some aliases. -/
def vocabulary (c : CompiledQuery) (qualifier : String → Prop) : Vocabulary where
  qualifier := qualifier
  column name := name = "*" ∨ IsColumnName c.schema name
  output name := name ∈ c.outputNames

/-- The aliases that clauses may read from: the root's and those of all joins. -/
def clauses (c : CompiledQuery) : Vocabulary :=
  c.vocabulary (c.Relation c.ledger.joins.entries.length)

/-- The text of a join. Its filters read from its own alias, and from some that are lost. -/
def JoinReads (c : CompiledQuery) (policy : Policy) (lost : List String) (entry : String × Join)
    (t : Template) : Prop :=
  ∃ filter, t = joinHead policy c.query c.schema entry.2 ++ andAlso filter ∧
    ∀ f, filter = some f →
      f.Reads (c.vocabulary fun label => label = entry.2.label ∨ label ∈ lost)

/-- Columns are read from the root and from the joins, and in the filters of joins from aliases that
    are lost as well; each join goes out from what stands in front of it. -/
structure Introduced (c : CompiledQuery) (policy : Policy) (lost : List String) : Prop where
  relation : c.pieces.relation = c.label
  select : c.pieces.select.Reads c.clauses
  filter : c.whereClause.Reads c.clauses
  groupBy : c.pieces.groupBy.Reads c.clauses
  orderBy : c.pieces.orderBy.Reads c.clauses
  joins : ∃ ts, c.pieces.joins = .intercalate "\n" ts ∧
    List.Forall₂ (c.JoinReads policy lost) c.ledger.joins.entries ts
  parent : ∀ (k : Nat) (entry : String × Join), c.ledger.joins.entries[k]? = some entry →
    c.Relation k entry.2.parent
  root : c.query.table ∈ c.dependencies
  dependency : ∀ entry ∈ c.ledger.joins.entries, entry.2.table ∈ c.dependencies

end CompiledQuery

namespace Sql

variable {s : Scope} {l l' : Ledger} {v : Vocabulary}

open Compile (Moves Follows Trace)

/-! ## 2. What is read -/

theorem covers_reads (halias : ∀ label, HasAlias s l label → v.qualifier label)
    (hcolumn : ∀ name, IsColumnName s.schema name → v.column name) (hstar : v.column "*") :
    Covers (Template.Reads v) s l where
  column label name hlabel hname := reads_column (halias label hlabel) (hcolumn name hname)
  star := by
    rw [show ".*" = "." ++ "*" from rfl, ← String.append_assoc]
    exact reads_column (halias _ .root) hstar

/-- What the filters of a join read: its own alias, or one of those that they join and lose. -/
theorem joinReads_of_step (hschema : s.schema = c.schema) (hquery : q = c.query)
    {entry : String × Join} {t : Template} {filter : Option Template} {inner : Ledger}
    (h : JoinStep policy q s l entry.2 t l' filter inner) :
    ∃ lost : List String, l'.aliasCount = l.aliasCount + lost.length ∧
      ∀ more : List String, lost ⊆ more → c.JoinReads policy more entry t := by
  subst hquery
  have hcount : l'.aliasCount = inner.aliasCount := by rw [h.ledger]
  rcases h.filters with ⟨-, rfl, rfl⟩ | ⟨-, hpart⟩
  · exact ⟨[], hcount, fun _ _ => ⟨none, hschema ▸ h.text, by nofun⟩⟩
  · obtain ⟨-, more, hentries, hmore, -⟩ :=
      Moves.yields (holds_compileTableFilters (clauseSteps_extends []) policy _) hpart
        (joinsOk_empty (joinedScope s entry.2) l)
    refine ⟨more.map (·.2.label), by rw [hcount, hmore, List.length_map], fun lost hlost =>
      ⟨filter, hschema ▸ h.text, fun f hf => ?_⟩⟩
    obtain ⟨-, hreads⟩ := (writes_compileTableFilters language_reads (A := True)
      entry.2.table).yields (joinsOk_empty (joinedScope s entry.2) l) hpart
    refine ((hreads trivial (covers_reads (fun label hlabel => ?_) (fun name hname => ?_)
      (Or.inl rfl))).2 f hf).text language_reads
    · cases hlabel with
      | root => exact .inl rfl
      | joined hj =>
        obtain ⟨place, key, hplace⟩ := hj
        rw [hentries] at hplace
        exact .inr (hlost (List.mem_map.mpr ⟨_, List.mem_of_getElem? hplace, rfl⟩))
    · exact .inr (hschema ▸ hname)

theorem joinReads_of_steps (hschema : s.schema = c.schema) (hquery : q = c.query)
    {entries : List (String × Join)} {ts : List Template}
    (h : JoinSteps policy q s l entries ts l') :
    ∃ lost : List String, l'.aliasCount = l.aliasCount + lost.length ∧
      ∀ more, lost ⊆ more → List.Forall₂ (c.JoinReads policy more) entries ts := by
  induction h with
  | nil => exact ⟨[], rfl, fun _ _ => .nil⟩
  | cons h _ ih =>
    obtain ⟨lost, hcount, hstep⟩ := joinReads_of_step hschema hquery h
    obtain ⟨lost', hcount', hsteps⟩ := ih
    refine ⟨lost ++ lost', by rw [hcount', hcount, List.length_append, Nat.add_assoc],
      fun more hmore => .cons (hstep more ?_) (hsteps more ?_)⟩
    · exact fun label hlabel => hmore (List.mem_append_left _ hlabel)
    · exact fun label hlabel => hmore (List.mem_append_right _ hlabel)

/-! ## 3. Tables -/

/-- The tables that are read are the same. -/
def SameTables (l l' : Ledger) : Prop := l'.dependencies = l.dependencies

theorem trace_sameTables : Trace fun _ => SameTables where
  refl _ _ := rfl
  trans _ _ _ _ h h' := h'.trans h
  frames _ _ _ _ h := h

theorem clauseSteps_sameTables (orders : List Json) :
    ClauseSteps orders (Follows fun _ => SameTables) (Follows fun _ => SameTables) := by
  have hsteps : Steps Part.AnyName (Follows fun _ => SameTables) := {
    toClosed := trace_sameTables.closed
    withField := fun _ h s l => h { s with field := some _ } l
    compileField := fun name _ =>
      holds_compileField trace_sameTables.closed (moves_joins fun _ _ _ _ => rfl) name
    pushSite := fun _ _ _ => rfl
    inferParam := moves_inferParam fun _ _ _ _ => rfl
    repeatSitesFrom := fun _ _ _ => rfl }
  exact clauseSteps_of_follows trace_sameTables hsteps (fun _ _ _ _ h => h) (fun _ _ _ _ h => h)
    fun _ _ _ _ => rfl

theorem mem_withTable (tables : List String) (table : String) : table ∈ withTable tables table := by
  unfold withTable
  split
  · rename_i h
    exact List.contains_iff_mem.mp h
  · exact List.mem_append_right _ List.mem_cons_self

theorem subset_withTable (tables : List String) (table : String) :
    tables ⊆ withTable tables table := by
  unfold withTable
  split
  · exact List.Subset.refl _
  · exact List.subset_append_left _ _

/-- A join notes its table, and its filters note none. -/
theorem JoinStep.dependencies {j : Join} {t : Template} {filter : Option Template} {inner : Ledger}
    (h : JoinStep policy q s l j t l' filter inner) :
    l'.dependencies = withTable l.dependencies j.table := by
  have hinner : inner.dependencies = l.dependencies := by
    rcases h.filters with ⟨-, -, rfl⟩ | ⟨-, hpart⟩
    · rfl
    · have htables := Moves.yields
        (holds_compileTableFilters (clauseSteps_sameTables []) policy j.table) hpart
      exact htables
  rw [h.ledger, hinner]

theorem JoinSteps.dependencies {entries : List (String × Join)} {ts : List Template}
    (h : JoinSteps policy q s l entries ts l') :
    l.dependencies ⊆ l'.dependencies ∧ ∀ entry ∈ entries, entry.2.table ∈ l'.dependencies := by
  induction h with
  | nil => exact ⟨List.Subset.refl _, List.forall_mem_nil _⟩
  | cons h _ ih =>
    obtain ⟨hsub, hentries⟩ := ih
    rw [h.dependencies] at hsub
    exact ⟨fun table htable => hsub (subset_withTable _ _ htable),
      List.forall_mem_cons.mpr ⟨hsub (mem_withTable _ _), hentries⟩⟩

/-! ## 4. Filters that follow no path -/

/-- A name without a point. -/
def Undotted (name : String) : Prop := '.' ∉ name.toList

/-- No field that a list of conditions names, on either side of a test, is at the end of a path. -/
def FollowsNoPath (filters : List Json) : Prop :=
  (Part.conditions (.array filters)).Names Undotted

/-- Where references are read as they are stored, and no transformation is of a path. -/
structure StoredScope (s : Scope) : Prop where
  validateRefs : s.validateRefs = false
  field : ∀ name, s.field = some name → Undotted name
  orders : s.orders = none

theorem split_of_undotted {name : String} (h : Undotted name) : (Path.split name).1 = none := by
  have hparts : Path.segments name = [name] := Separated.split_of_not_mem h
  unfold Path.split
  rw [hparts]
  rfl

theorem sameJoins_compileField (hs : StoredScope s) {reference : String} (h : Undotted reference) :
    SameJoins l ((Path.compileField reference).outcome s l).2 := by
  have hname : (Path.fieldName reference).After s l (fun name l' => Undotted name ∧ l' = l)
      (fun l' => l' = l) := by
    unfold Path.fieldName
    split
    · simp only [Compile.after_bind, Compile.after_read, Compile.after_require, implies_true,
        and_true]
      exact fun name hname => hs.field name hname
    · exact ⟨h, rfl⟩
  have hfield : (Path.compileField reference).After s l (fun _ l' => l' = l)
      (fun l' => l' = l) := by
    unfold Path.compileField
    rw [Compile.after_bind]
    refine hname.mono (fun name l₁ h₁ => ?_) fun _ h₁ => h₁
    obtain ⟨hdots, rfl⟩ := h₁
    dsimp only
    split
    · rfl
    · simp only [Compile.after_bind, Compile.after_read, split_of_undotted hdots,
        Compile.after_pure, Compile.after_require, implies_true, and_true, hs.validateRefs,
        Bool.false_eq_true, false_and, if_false]
      intro t _ desc _
      split <;> rfl
  have hledger := hfield.ledger
  exact ⟨congrArg Ledger.joins hledger, congrArg Ledger.aliasCount hledger⟩

/-- The joins are the same in a scope of this kind. -/
def SameJoinsIn (s : Scope) (l l' : Ledger) : Prop := StoredScope s → SameJoins l l'

theorem trace_sameJoins : Trace SameJoinsIn where
  refl _ _ _ := ⟨rfl, rfl⟩
  trans _ _ _ _ h h' hs := by
    obtain ⟨hjoins, hcount⟩ := h hs
    obtain ⟨hjoins', hcount'⟩ := h' hs
    exact ⟨hjoins'.trans hjoins, hcount'.trans hcount⟩
  frames _ _ _ _ h hs := h ⟨hs.validateRefs, hs.field, hs.orders⟩

theorem steps_sameJoins : Steps Undotted (Follows SameJoinsIn) where
  toClosed := trace_sameJoins.closed
  withField hfield h s l hs := h { s with field := some _ } l
    ⟨hs.validateRefs, fun _ hname => Option.some.inj hname ▸ hfield, hs.orders⟩
  compileField _ hname _ _ hs := sameJoins_compileField hs hname
  pushSite name s l _ := sameJoins_pushSite name s l
  inferParam ref type s l _ := sameJoins_inferParam ref type s l
  repeatSitesFrom mark s l _ := sameJoins_repeatSitesFrom mark s l

theorem sameJoins_compileTableFilters {table : String} {filter : Option Template}
    (hfield : s.field = none) (horders : s.orders = none)
    (hpath : FollowsNoPath (policy.filters table))
    (h : (compileTableFilters policy table).Yields s l filter l') : SameJoins l l' := by
  have hP := steps_sameJoins
  have hwindow : Moves SameJoinsIn window := by
    intro s l hs
    have hnone : window.After s l (fun _ l' => l' = l) (fun l' => l' = l) := by
      unfold window windowOf maxNesting
      simp only [Compile.after_bind, Compile.after_read, hs.orders, Compile.after_pure]
    rw [hnone.ledger]
    exact ⟨rfl, rfl⟩
  have hpart : (Part.conditions (.array (policy.filters table))).Relates (Follows SameJoinsIn)
      window window := holds_part hP _ hpath fun _ => hwindow
  have hconditions : Moves SameJoinsIn (compileConditions (.array (policy.filters table))) := hpart
  unfold compileTableFilters at h
  dsimp only at h
  split at h
  · rw [(Compile.yields_pure.mp h).2]
    exact ⟨rfl, rfl⟩
  · split at h
    · exact absurd h Compile.yields_fail
    · have hs : StoredScope { s with validateRefs := false } :=
        ⟨rfl, fun name hname => (by rw [hfield] at hname; cases hname), horders⟩
      have hfilters : Moves SameJoinsIn (do
          return some (← compileFilters (policy.filters table))) :=
        hP.bind (holds_filters_of_conditions hP.toClosed hconditions) fun _ => hP.pure _
      exact hfilters.yields (Compile.yields_withReader.mp h) hs

theorem JoinSteps.aliasCount {entries : List (String × Join)} {ts : List Template}
    (h : JoinSteps policy q s l entries ts l') (hfield : s.field = none) (horders : s.orders = none)
    (hpaths : ∀ entry ∈ entries, q.raw = true ∨ FollowsNoPath (policy.filters entry.2.table)) :
    l'.aliasCount = l.aliasCount := by
  induction h with
  | nil => rfl
  | cons h _ ih =>
    obtain ⟨hpath, hpaths⟩ := List.forall_mem_cons.mp hpaths
    rw [ih hpaths, h.ledger]
    rcases h.filters with ⟨-, -, rfl⟩ | ⟨hraw, hpart⟩
    · rfl
    · have hsame := sameJoins_compileTableFilters (s := joinedScope s _) hfield horders
        (hpath.resolve_left hraw) hpart
      exact hsame.2

/-! ## 5. Statements -/

/-- The joins of a statement, as they are when they are written. -/
theorem relation_of_hasAlias (hlabel : c.label = s.label) (hjoins : c.ledger.joins = l.joins)
    {label : String} (h : HasAlias s l label) :
    c.Relation c.ledger.joins.entries.length label := by
  cases h with
  | root => exact .inl hlabel.symm
  | joined hj =>
    obtain ⟨place, key, hplace⟩ := hj
    rw [← hjoins] at hplace
    exact .inr ⟨place, _, (List.getElem?_eq_some_iff.mp hplace).1, hplace, rfl⟩

/-- A join goes out from the root or from a join in front of it. -/
theorem relation_parent (hlabel : c.label = s.label) (hjoins : c.ledger.joins = l.joins)
    (hl : JoinsOk s l) {k : Nat} {entry : String × Join}
    (hk : c.ledger.joins.entries[k]? = some entry) : c.Relation k entry.2.parent := by
  rw [hjoins] at hk
  obtain ⟨path, parentTable, hfollows⟩ := hl.follows k entry.1 entry.2 hk
  have hparent := hfollows.parent
  generalize entry.2.parent = parent at hparent
  cases hparent with
  | root => exact .inl hlabel.symm
  | joined _ hlt hearlier =>
    rw [← hjoins] at hearlier
    exact .inr ⟨_, _, hlt, hearlier, rfl⟩

/-- The filters are read from known aliases, and so is the guard against deleted rows. -/
theorem reads_whereClause {p : Phases policy c.query s} (hpieces : c.pieces = p.pieces)
    (hown : Enclosed (Template.Reads c.clauses) p.own)
    (hextra : IsTableFilter (Enclosed (Template.Reads c.clauses)) policy c.query c.query.table
      p.extra) : c.whereClause.Reads c.clauses :=
  language_whereClause language_reads hpieces hown hextra fun _ hname =>
    reads_column (.inl rfl) (.inr hname)

end Sql

namespace CompiledQuery

open Sql

/-- Every alias that is read is introduced in front of what reads it, apart from those that are lost
    in the filters of joins; and none is lost if the filters of the joined tables follow no path. -/
theorem introduced_of_compile (h : q.compile schema policy = .ok c) :
    (∃ lost : List String, c.Introduced policy lost ∧
      c.ledger.aliasCount = c.ledger.joins.entries.length + lost.length) ∧
    ((∀ entry ∈ c.ledger.joins.entries,
      c.query.raw = true ∨ FollowsNoPath (policy.filters entry.2.table)) →
        c.Introduced policy []) := by
  obtain ⟨-, -, p, hp, hschema, hlabel, hpieces, hledger⟩ := phases_of_compile h
  have hscope : (rootScope policy schema c.query).schema = c.schema := hschema.symm
  obtain ⟨hordered, more, hentries, hcount, -⟩ :=
    hp.moves trace_extends (clauseSteps_extends _) Joins.wellFormed_empty
  have htables : p.ordered.dependencies = [c.query.table] :=
    hp.moves trace_sameTables (clauseSteps_sameTables _)
  obtain ⟨hsame, ts, htext, hjoins⟩ := yields_compileJoins hp.joins
  have hsteps := joinSteps_of_mapM hjoins
  obtain ⟨hkept, hadded⟩ := hsteps.dependencies
  have hall : c.ledger.joins = p.ordered.joins := by
    rw [hledger]
    exact hsame
  have hread : c.dependencies = p.joined.dependencies := by
    rw [dependencies, hledger]
    rfl
  have hcovers : Covers (Template.Reads c.clauses) (rootScope policy schema c.query) p.ordered :=
    covers_reads (fun _ => relation_of_hasAlias hlabel hall) (fun _ hname => .inr (hscope ▸ hname))
      (Or.inl rfl)
  have htexts : p.In (Template.Reads c.clauses) (· ∈ c.outputNames) :=
    hp.texts language_reads Joins.wellFormed_empty List.mem_cons_self reads_output hcovers
  have hnames : ∀ item ∈ c.query.selection, ∀ name ∈ columnNames item, name ∈ c.outputNames :=
    fun item hitem name hname =>
      List.mem_cons_of_mem _ (List.mem_flatMap.mpr ⟨item, hitem, hname⟩)
  have hintroduced (lost : List String)
      (hlost : List.Forall₂ (c.JoinReads policy lost) p.ordered.joins.entries ts) :
      c.Introduced policy lost := {
    relation := by rw [hpieces, hlabel]; rfl
    select := by rw [hpieces]; exact htexts.select hnames
    filter := reads_whereClause hpieces htexts.own htexts.extra
    groupBy := by rw [hpieces]; exact htexts.groupBy
    orderBy := by rw [hpieces]; exact htexts.orderBy
    joins := ⟨ts, by rw [hpieces]; exact htext, hall ▸ hlost⟩
    parent := fun _ _ => relation_parent hlabel hall hordered
    root := by
      rw [hread]
      exact hkept (htables ▸ List.mem_cons_self)
    dependency := by
      rw [hread, hall]
      exact hadded }
  obtain ⟨lost, hlost, hreads⟩ := joinReads_of_steps hscope rfl hsteps
  refine ⟨⟨lost, hintroduced lost (hreads lost (List.Subset.refl _)), ?_⟩, fun hpaths => ?_⟩
  · have hlength : c.ledger.joins.entries.length = more.length := by
      rw [hall, hentries]
      rfl
    have hstart : (Ledger.root c.query.table).aliasCount = 0 := rfl
    rw [hledger] at hlength ⊢
    show p.joined.aliasCount = _
    omega
  · have hnone := hsteps.aliasCount rfl rfl (hall ▸ hpaths)
    have hnil : lost = [] := List.length_eq_zero_iff.mp (by omega)
    exact hintroduced [] (hreads [] (hnil ▸ List.Subset.refl _))

end CompiledQuery

/-! ## 6. Payees below payees -/

namespace Sql

/-- A field that must equal a text which is neither a field nor a parameter follows no path. -/
theorem followsNoPath_equal {name text : String} (hand : name ≠ "$and") (hor : name ≠ "$or")
    (hname : Undotted name) (htext : text.toList.head? ≠ some '$') :
    FollowsNoPath [.object [(name, .string text)]] := by
  have hexpr {s : String} (h : (Part.expr (.string s)).NamesHere Undotted) :
      (Part.expr (.string s)).Names Undotted := Part.names_of_calls h (by nofun)
  have hleft : (Part.left name none).Names Undotted := by
    refine Part.names_of_calls hname fun q hq => ?_
    cases hq with
    | leftField =>
      refine hexpr fun field hfield => ?_
      rw [String.toList_append] at hfield
      have hchars : name.toList = field := List.cons.inj hfield |>.2
      rw [← hchars, String.ofList_toList]
      exact hname
  have hvalue : (Part.expr (.string text)).Names Undotted :=
    hexpr fun field hfield => absurd (by rw [hfield]; rfl) htext
  have htest : (Part.test name (.string text)).Names Undotted := by
    refine Part.names_of_calls trivial fun q hq => ?_
    cases hq with
    | testAnd => exact absurd rfl hand
    | testOr => exact absurd rfl hor
    | testEq =>
      refine Part.names_of_calls trivial fun q hq => ?_
      cases hq with
      | comparisonLeft => exact hleft
      | comparisonValue => exact hvalue
  refine Part.names_of_calls trivial fun q hq => ?_
  cases hq with
  | conditionsTests h =>
    cases h
    refine Part.names_of_calls trivial fun q hq => ?_
    cases hq with
    | testsHead => exact htest
    | testsTail => exact Part.names_of_calls trivial (by nofun)

end Sql

namespace CompiledQuery

open Sql

/-- Payees below payees, and transactions with a payee. -/
def nested : Schema :=
  let id : Std.ExtTreeMap String Field := (∅ : Std.ExtTreeMap String Field).insert "id"
    ⟨.id, none, false, none⟩
  ⟨((∅ : Std.ExtTreeMap String Table).insert "payees"
      ⟨(id.insert "name" ⟨.string, none, false, none⟩).insert "parent"
        ⟨.id, some "payees", false, none⟩⟩).insert "transactions"
    ⟨id.insert "payee" ⟨.id, some "payees", false, none⟩⟩⟩

theorem inert_of_nested {name : String} (h : IsColumnName nested name) : AllChars Inert name := by
  have hfield (names : List String) (hnames : ∀ n ∈ names, AllChars Inert n) {n : String}
      (hn : ∃ m ∈ names, compare m n = .eq) : AllChars Inert n := by
    obtain ⟨m, hm, hcompare⟩ := hn
    exact Std.LawfulEqCmp.eq_of_compare hcompare ▸ hnames m hm
  obtain ⟨-, rfl | ⟨table, t, desc, ht, hdesc⟩⟩ := h
  · decide
  · refine hfield ["id", "name", "parent", "payee"] (by decide) ?_
    simp only [nested, Schema.table?, Std.ExtTreeMap.getElem?_insert,
      Std.ExtTreeMap.getElem?_empty] at ht
    split at ht
    · cases ht
      simp only [Schema.field?, Std.ExtTreeMap.getElem?_insert,
        Std.ExtTreeMap.getElem?_empty] at hdesc
      grind
    · split at ht
      · cases ht
        simp only [Schema.field?, Std.ExtTreeMap.getElem?_insert,
        Std.ExtTreeMap.getElem?_empty] at hdesc
        grind
      · cases ht

/-- Of the payees only those with a name. -/
def named (text : String) : Policy :=
  { Policy.none with
    filters := fun table => if table = "payees" then [.object [("name", .string text)]] else [] }

theorem compileTableFilters_named (text table : String) :
    compileTableFilters (named text) table =
      if table = "payees" then equalFilter "name" text else pure none := by
  by_cases htable : table = "payees"
  · rw [if_pos htable]
    exact compileTableFilters_equal (if_pos htable) (by decide) (by decide) (by decide)
  · unfold compileTableFilters named
    dsimp only
    rw [if_neg htable, if_neg htable]
    rfl

/-- The join of the payees of transactions. -/
def payeesJoin : Join := ⟨"payees", "payees1", "payee", "transactions", true⟩

/-- Whether the payees of transactions are joined under a condition. -/
def joinsPayees (condition : String) (c : CompiledQuery) : Bool :=
  c.ledger.joins.entries == [("transactions.payee", payeesJoin)] &&
    c.pieces.joins == Template.ofString
      ("LEFT JOIN payees AS payees1 ON payees1.id = transactions.payee" ++ (" AND " ++ condition))

/-- Payees with a fixed name are joined to transactions, and nothing is lost. -/
theorem introduced_of_literal :
    ∃ c, (payeesOf "transactions").compile nested (named "Acme") = .ok c ∧
      joinsPayees "(payees1.name = 'Acme')" c = true ∧
      (∀ entry ∈ c.ledger.joins.entries,
        FollowsNoPath ((named "Acme").filters entry.2.table)) ∧
      c.Introduced (named "Acme") [] := by
  obtain ⟨c, hc, hjoins⟩ : ∃ c, (payeesOf "transactions").compile nested (named "Acme") = .ok c ∧
      joinsPayees "(payees1.name = 'Acme')" c = true := by
    refine compile_of_piecesPass (by cbv) ?_
    unfold piecesPass compilePieces
    simp only [compileJoins, compileJoin, compileTableFilters_named]
    rw [show (named "Acme").customize (payeesOf "transactions") = payeesOf "transactions" from rfl,
      compileSelect_payeesOf, payeesOf, compileFilters_nil]
    decide +kernel
  have hentries := eq_of_beq (Bool.and_eq_true_iff.mp hjoins).1
  have hpaths : ∀ entry ∈ c.ledger.joins.entries,
      FollowsNoPath ((named "Acme").filters entry.2.table) := by
    rw [hentries]
    intro entry hentry
    rw [List.mem_singleton.mp hentry]
    exact followsNoPath_equal (by decide) (by decide) (by unfold Undotted; decide) (by decide)
  exact ⟨c, hc, hjoins, hpaths,
    (introduced_of_compile hc).2 fun entry hentry => .inr (hpaths entry hentry)⟩

theorem plain_nested (hquery : c.query = payeesOf "transactions") (hschema : c.schema = nested) :
    (c.vocabulary fun label => label = payeesJoin.label ∨ label ∈ []).Plain where
  qualifier label hlabel := by
    rw [hlabel.resolve_right List.not_mem_nil]
    decide
  column name hname := by
    rcases hname with rfl | hname
    · decide
    · rw [hschema] at hname
      exact inert_of_nested hname
  output name hname := by
    have hnames : c.outputNames = ["id", "payee"] := by
      rw [outputNames, hquery]
      rfl
    have hall : ∀ name ∈ ["id", "payee"], AllChars (fun c => c ≠ '\'' ∧ c ≠ '"') name := by
      decide
    exact hall name (hnames ▸ hname)

/-- The condition of the join is what its filters read. -/
theorem reads_condition {condition : String} (hquery : c.query = payeesOf "transactions")
    (hschema : c.schema = nested) (h : joinsPayees condition c = true)
    (hintroduced : c.Introduced policy []) :
    (Template.ofString condition).Reads
      (c.vocabulary fun label => label = payeesJoin.label ∨ label ∈ []) := by
  obtain ⟨hentries, htext⟩ := Bool.and_eq_true_iff.mp h
  obtain ⟨ts, hts, hreads⟩ := hintroduced.joins
  rw [eq_of_beq hentries] at hreads
  cases hreads with
  | cons hjoin hnil =>
    cases hnil
    obtain ⟨filter, rfl, hfilter⟩ := hjoin
    have halive : nested.hasTombstone payeesJoin.table = false := by cbv
    have hrelation : joinedRelation policy c.query payeesJoin = "payees" := rfl
    have hhead : joinHead policy c.query c.schema payeesJoin =
        "LEFT JOIN payees AS payees1 ON payees1.id = transactions.payee" := by
      unfold joinHead
      rw [hrelation, hquery, hschema, halive]
      decide +kernel
    have hjoin := (eq_of_beq htext).symm.trans hts
    rw [Template.ofString_append, ← hhead] at hjoin
    have hcondition := Template.append_left_cancel hjoin
    rw [Template.ofString_append] at hcondition
    cases filter with
    | none =>
      have hnil := (List.append_eq_nil_iff.mp (congrArg Template.signs hcondition)).1
      exact absurd hnil (by decide)
    | some f =>
      rw [Template.append_left_cancel hcondition]
      exact hfilter f rfl

/-- Payees with the name of their parent are joined to transactions, and the parent is lost. -/
theorem not_introduced_of_path :
    ∃ c, (payeesOf "transactions").compile nested (named "$parent.name") = .ok c ∧
      ¬ c.Introduced (named "$parent.name") [] := by
  obtain ⟨c, hc, hjoins⟩ :
      ∃ c, (payeesOf "transactions").compile nested (named "$parent.name") = .ok c ∧
        joinsPayees "(payees1.name = payees2.name)" c = true := by
    refine compile_of_piecesPass (by cbv) ?_
    unfold piecesPass compilePieces
    simp only [compileJoins, compileJoin, compileTableFilters_named]
    rw [show (named "$parent.name").customize (payeesOf "transactions") =
      payeesOf "transactions" from rfl, compileSelect_payeesOf, payeesOf, compileFilters_nil]
    decide +kernel
  obtain ⟨hquery, -, -, -, hschema, -⟩ := phases_of_compile hc
  have hquery : c.query = payeesOf "transactions" := hquery
  refine ⟨c, hc, fun hintroduced => ?_⟩
  have hreads := reads_condition hquery hschema hjoins hintroduced
  have halias : ∀ w ∈ qualifiers none [] ("(payees1.name = payees2.name)" : Template).signs, _ :=
    alias_of_mem_qualifiers (plain_nested hquery hschema) hreads fun _ => rfl
  rcases halias "payees2".toList (by decide) with hlabel | hdigits
  · have hlabel : "payees2" = payeesJoin.label := hlabel.resolve_right List.not_mem_nil
    exact absurd hlabel (by decide)
  · exact absurd (hdigits 'p' (by decide)) (by decide)

end CompiledQuery

end QuerySheet

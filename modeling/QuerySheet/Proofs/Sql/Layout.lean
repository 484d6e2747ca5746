import Mathlib
import QuerySheet.Proofs.Sql.Outline
import QuerySheet.Proofs.Sql.Phrased

/-!
# The clauses of compiled statements

Each clause of a statement comes from a phase of its own, and is left out where the query asks for
nothing. The clauses always come in the order of a query. What may go wrong are the columns, which
a query that groups need not have, and an offset, which stands behind the limit but is written
without one as well.

* `Readable`: the names of a statement are plain identifiers, and no keywords;
* `Layout.Of`: the clauses that a statement is read as (`layout_of_compile`);
* `hasShape_iff_of_compile`: so the statement has the shape of a query exactly if it has a column
  and no offset without a limit.
-/

namespace QuerySheet.Sql

variable {policy : Policy} {schema : Schema} {q : Query} {s : Scope} {l : Ledger}

/-! ## 1. Names -/

/-- A name that stands as a word in a statement begins no clause. -/
def NoKeyword (name : String) : Prop := Keyword.ofWord? name.toList = none

instance (name : String) : Decidable (NoKeyword name) := inferInstanceAs (Decidable (_ = _))

/-- The names that relations go by. -/
inductive IsRelation (schema : Schema) (policy : Policy) : String → Prop
  | table {name : String} {t : Table} (h : schema.table? name = some t) :
      IsRelation schema policy name
  | target {table field target : String} (h : Refers schema table field target) :
      IsRelation schema policy target
  | view {name : String} {context : ViewContext} {view : String}
      (h : policy.view name context = some view) : IsRelation schema policy view

/-- A column may be named like a path, and like the keyword that is put in quotes for it. -/
structure ReadableColumn (name : String) : Prop where
  word : AllChars InWord name
  free : NoKeyword name ∨ name = "group"

/-- All names are plain identifiers. -/
structure Readable (schema : Schema) (policy : Policy) (q : Query) : Prop
    extends PlainNames IdentChar schema policy where
  relation : ∀ name, IsRelation schema policy name → name ≠ "" ∧ NoKeyword name
  column : ∀ item ∈ q.selection, ∀ name ∈ columnNames item, name = "*" ∨ ReadableColumn name

theorem isRelation_getD {name : String} {context : ViewContext}
    (h : IsRelation schema policy name) :
    IsRelation schema policy ((policy.view name context).getD name) := by
  cases hview : policy.view name context with
  | none => exact h
  | some view => exact .view hview

/-- A number at its end keeps a name from being a keyword. -/
theorem noKeyword_numbered (name : String) (n : Nat) : NoKeyword (name ++ toString n) := by
  have hdigits := isDigits_natText n
  obtain ⟨c, hc⟩ := List.exists_mem_of_ne_nil _ hdigits.1
  refine keyword_of_isDigit (c := c) ?_ (isDigit_natText n c hc)
  rw [String.toList_append]
  exact List.mem_append_right _ hc

theorem inWord_of_identChar {name : String} (h : AllChars IdentChar name) :
    AllChars InWord name := h.mono fun _ => .inl

theorem wordOf_ne_nil {s : String} (h : s ≠ "") : wordOf s.toList ≠ [] := by
  cases hs : s.toList with
  | nil => exact absurd (String.toList_eq_nil_iff.mp hs) h
  | cons => nofun

/-! ## 2. Columns -/

namespace Template

variable {t u : Template}

theorem append_empty (t : Template) : t ++ ofString "" = t :=
  congrArg Template.mk (List.append_nil t.signs)

/-- No clause begins in a text. -/
def Calm (t : Template) : Prop := ∃ xs, t.Body xs

/-- Nor is it blank. -/
def Solid (t : Template) : Prop := ∃ xs, t.Body xs ∧ xs ≠ []

theorem Solid.calm (h : t.Solid) : t.Calm := h.imp fun _ h => h.1

/-- A word like this stands between two texts. -/
def Links (s : String) : Prop :=
  Separates s ∧ (visible (lexemes s)).all (Lexeme.isFree 0) = true

instance (s : String) : Decidable (Links s) := inferInstanceAs (Decidable (_ ∧ _))

theorem Calm.beside {s : String} (ht : t.Calm) (hs : Links s) (hu : u.Calm) :
    (t ++ ofString s ++ u).Calm := by
  obtain ⟨xs, hxs⟩ := ht
  obtain ⟨ys, hys⟩ := hu
  exact ⟨_, hxs.beside hs.1 hs.2 hys⟩

theorem Solid.beside {s : String} (ht : t.Solid) (hs : Links s) (hu : u.Calm) :
    (t ++ ofString s ++ u).Solid := by
  obtain ⟨xs, hxs, hne⟩ := ht
  obtain ⟨ys, hys⟩ := hu
  exact ⟨_, hxs.beside hs.1 hs.2 hys, List.append_ne_nil_of_left_ne_nil hne _⟩

theorem calm_empty : (ofString "").Calm := ⟨_, body_fixed (by decide) (by decide)⟩

theorem solid_word {s : String} (h : AllChars InWord s) (hfree : NoKeyword s) (hne : s ≠ "") :
    (ofString s).Solid := ⟨_, body_word h hfree, wordOf_ne_nil hne⟩

theorem calm_phrase {φ : Phrase} (h : φ.Regular) : φ.template.Calm := ⟨_, body_phrase h⟩

/-- A name in quotes behind a text. -/
theorem Calm.quoted {name : String} (ht : t.Calm) (h : AllChars InWord name) (hne : name ≠ "") :
    (t ++ ofString ("\"" ++ name ++ "\"")).Calm := by
  obtain ⟨xs, hxs⟩ := ht
  have hquote : Separates "\"" := by decide
  have hempty := shows_fixed (s := "") (by decide)
  have hshows := (hxs.shows.beside hquote (shows_word h)).beside hquote hempty
  rw [append_empty, append_assoc, append_assoc, ← append_assoc (ofString "\""),
    ← ofString_append, ← ofString_append, List.append_assoc] at hshows
  refine ⟨_, hshows, hxs.unbroken.append ?_⟩
  cases hchars : name.toList with
  | nil => exact absurd (String.toList_eq_nil_iff.mp hchars) hne
  | cons c cs => exact unbroken_quoted nofun

end Template

open Template (Calm Solid Clauses calm_empty calm_phrase solid_word ofString)

/-- The names that are put in quotes. -/
theorem ne_empty_of_quoted {name : String} (h : name.toList.contains '.' ∨ name = "group") :
    name ≠ "" := by
  rintro rfl
  exact absurd h (by decide)

theorem calm_quoteAlias {name : String} (h : name = "*" ∨ ReadableColumn name) :
    (ofString (quoteAlias name)).Calm := by
  unfold quoteAlias
  split
  · rename_i hquoted
    have hname : ReadableColumn name := by
      refine h.resolve_left ?_
      rintro rfl
      exact absurd hquoted (by decide)
    exact calm_empty.quoted hname.word (ne_empty_of_quoted hquoted)
  · rename_i hplain
    rcases h with rfl | h
    · exact ⟨_, Template.body_fixed (by decide) (by decide)⟩
    · exact ⟨_, Template.body_word h.word (h.free.resolve_right fun he => hplain (.inr he))⟩

theorem solid_column {column : SelectColumn} (hregular : column.Regular)
    (hname : ∀ φ name, column = .named φ name → name = "*" ∨ ReadableColumn name) :
    column.template.Solid := by
  cases column with
  | all label =>
    have hdot : AllChars InWord "." := by decide
    have hlabel : AllChars InWord (label.1 ++ ".") :=
      (inWord_of_identChar label.2).append hdot
    have hword := solid_word hlabel (keyword_of_dot (by simp)) (by simp)
    have hstar := hword.beside (s := "*") (by decide) calm_empty
    rw [Template.append_empty, ← Template.ofString_append, String.append_assoc] at hstar
    exact hstar
  | named φ name =>
    obtain ⟨ys, hys⟩ := calm_quoteAlias (hname φ name rfl)
    refine ⟨_, (Template.body_phrase hregular).beside (s := " AS ") (by decide) (by decide) hys, ?_⟩
    refine List.append_ne_nil_of_right_ne_nil _ (List.append_ne_nil_of_left_ne_nil ?_ _)
    decide

/-- A list of columns is blank exactly if there are none. -/
theorem body_columns {columns : List SelectColumn}
    (h : ∀ column ∈ columns, column.template.Solid) :
    ∃ xs, (Template.intercalate ", " (columns.map SelectColumn.template)).Body xs ∧
      (xs = [] ↔ columns = []) := by
  induction columns with
  | nil => exact ⟨[], Template.body_fixed (by decide) (by decide), by simp⟩
  | cons column columns ih =>
    have hfirst := h column List.mem_cons_self
    suffices hsolid : Solid (.intercalate ", " ((column :: columns).map SelectColumn.template)) by
      obtain ⟨xs, hxs, hne⟩ := hsolid
      exact ⟨xs, hxs, by simp [hne]⟩
    cases columns with
    | nil => exact hfirst
    | cons next rest =>
      obtain ⟨ys, hys, -⟩ := ih fun column hcolumn => h column (List.mem_cons_of_mem _ hcolumn)
      exact hfirst.beside (by decide) ⟨ys, hys⟩

theorem ItemSpells.names {orders : List Json} {item : Json} {columns : List SelectColumn}
    (h : ItemSpells orders item columns) {φ : Phrase} {name : String}
    (hmem : .named φ name ∈ columns) : name ∈ columnNames item := by
  cases h with
  | all => cases List.mem_singleton.mp hmem
  | name =>
    cases List.mem_singleton.mp hmem
    exact List.mem_singleton_self _
  | @fields fields _ h =>
    rw [columnNames]
    induction h with
    | nil => cases hmem
    | cons h _ ih =>
      obtain ⟨ψ, -, rfl⟩ := h
      rw [List.map_cons]
      rcases List.mem_cons.mp hmem with he | hmem
      · cases he
        exact List.mem_cons_self
      · exact List.mem_cons_of_mem _ (ih hmem)

/-- Only an object without fields gives no column. -/
theorem ItemSpells.eq_nil_iff {orders : List Json} {item : Json} {columns : List SelectColumn}
    (h : ItemSpells orders item columns) : columns = [] ↔ item = .object [] := by
  cases h with
  | all | name => simp
  | fields h => cases h <;> simp

/-- A statement has columns unless it groups and its select list asks for none. -/
theorem columns_eq_nil_iff {columns : List (List SelectColumn)}
    (h : List.Forall₂ (ItemSpells q.orders) (selectItems q) columns) :
    columns.flatten = [] ↔ ¬ (q.groups = [] ∨ ∃ item ∈ q.selection, item ≠ .object []) := by
  have hitems {items : List Json} {columns : List (List SelectColumn)}
      (h : List.Forall₂ (ItemSpells q.orders) items columns) :
      columns.flatten = [] ↔ ∀ item ∈ items, item = .object [] := by
    induction h with
    | nil => simp
    | cons h _ ih =>
      rw [List.flatten_cons, List.append_eq_nil_iff, h.eq_nil_iff, ih, List.forall_mem_cons]
  rw [hitems h, not_or]
  simp only [not_exists, not_and, not_not]
  unfold selectItems
  constructor
  · intro hall
    split at hall
    · rename_i hown
      refine ⟨fun hgroups => ?_, hall⟩
      have hempty : ∀ item ∈ q.selection, containsAggregate item = false ∧
          selectsId item = false := by
        intro item hitem
        rw [hall item hitem]
        exact ⟨rfl, rfl⟩
      simp only [Query.isAggregate, hgroups, List.isEmpty_nil, Bool.not_true, Bool.false_or,
        Bool.or_eq_true, List.any_eq_true] at hown
      rcases hown with ⟨item, hitem, hyes⟩ | ⟨item, hitem, hyes⟩
      · rw [(hempty item hitem).1] at hyes
        cases hyes
      · rw [(hempty item hitem).2] at hyes
        cases hyes
    · exact absurd (hall _ List.mem_cons_self) nofun
  · rintro ⟨hgroups, hall⟩
    have haggregate : q.isAggregate = true := by simp [Query.isAggregate, hgroups]
    rw [haggregate, Bool.true_or, if_pos rfl]
    exact hall

/-! ## 3. Conditions and lists -/

theorem FilterText.solid {t : Template} (h : FilterText t) : t.Solid := by
  obtain ⟨φs, hφs, rfl⟩ := h
  refine ⟨_, Template.body_phrase (Phrase.regular_all hφs), ?_⟩
  cases φs with
  | nil => decide
  | cons φ φs =>
    rw [show Phrase.all (φ :: φs) = .group (.join .all (φ :: φs)) from rfl, Phrase.lexemes,
      visible_parens]
    exact List.cons_ne_nil _ _

theorem Template.Solid.filtered {t : Template} {filter : Option Template} (ht : t.Solid)
    (hfilter : ∀ u, filter = some u → FilterText u) : (t ++ andAlso filter).Solid := by
  cases filter with
  | none =>
    rw [show andAlso none = ofString "" from rfl, Template.append_empty]
    exact ht
  | some u =>
    have h := ht.beside (s := " AND ") (by decide) (hfilter u rfl).solid.calm
    rw [Template.append_assoc] at h
    exact h

/-- The rows of a table that are alive. -/
theorem Template.Solid.alive {t : Template} (ht : t.Solid) {label : String}
    (hlabel : AllChars IdentChar label) :
    (t ++ ofString " AND " ++ ofString label ++ ofString ".tombstone = 0").Solid := by
  have hsuffix : AllChars InWord ".tombstone" := by decide
  have hword := solid_word ((inWord_of_identChar hlabel).append hsuffix) (keyword_of_dot (by simp))
    (by simp)
  have hzero : (ofString "0").Calm := ⟨_, Template.body_fixed (by decide) (by decide)⟩
  have h := (ht.beside (s := " AND ") (by decide) hword.calm).beside (s := " = ") (by decide) hzero
  rw [Template.ofString_append] at h
  rw [show ".tombstone = 0" = ".tombstone" ++ (" = " ++ "0") from rfl, Template.ofString_append,
    Template.ofString_append]
  simp only [Template.append_assoc] at h ⊢
  exact h

theorem ListText.calm {t : Template} (h : ListText t) : t.Calm := by
  obtain ⟨φs, hφs, rfl⟩ := h
  exact calm_phrase (Phrase.regular_join rfl hφs)

/-- A clause is read as a keyword with `BY` behind it, or it is left out. -/
inductive IsListClause (k : Keyword) : List Json → List Clause → Prop
  | none : IsListClause k [] []
  | some {expressions : List Json} (h : expressions ≠ []) (ys : List Lexeme) :
      IsListClause k expressions [(k, .word ['B', 'Y'] :: ys)]

theorem ClauseText.clauses {k : Keyword} {expressions : List Json} {t : Template}
    (h : ClauseText (k.text ++ " BY") expressions t) :
    ∃ cs, t.Clauses cs ∧ IsListClause k expressions cs := by
  unfold ClauseText at h
  split at h
  · rename_i hnone
    rw [h, List.isEmpty_iff.mp hnone]
    exact ⟨[], Template.clauses_empty, .none⟩
  · rename_i hsome
    obtain ⟨u, hu, rfl⟩ := h
    obtain ⟨ys, hys⟩ := hu.calm
    have hby : (ofString "BY").Body [.word ['B', 'Y']] :=
      Template.body_fixed (by decide) (by decide)
    have hbody := (hby.beside (s := " ") (by decide) (by decide) hys).clause k
    refine ⟨_, ?_, .some (fun he => hsome (List.isEmpty_iff.mpr he)) (visible (lexemes " ") ++ ys)⟩
    rw [show k.text ++ " BY" = k.text ++ " " ++ "BY" by rw [String.append_assoc]; rfl,
      Template.ofString_append, Template.append_assoc, Template.append_assoc]
    rw [Template.append_assoc] at hbody
    exact hbody

/-! ## 4. Joins -/

/-- A field behind the alias of its table. -/
theorem calm_field {parent field : String} (hparent : AllChars IdentChar parent)
    (hfield : AllChars IdentChar field) :
    (ofString (parent ++ "." ++ quoteAlias field)).Calm := by
  have hdot : AllChars InWord "." := by decide
  have hword := (inWord_of_identChar hparent).append hdot
  unfold quoteAlias
  split
  · rename_i hquoted
    rw [Template.ofString_append]
    exact (solid_word hword (keyword_of_dot (by simp)) (by simp)).calm.quoted
      (inWord_of_identChar hfield) (ne_empty_of_quoted hquoted)
  · exact (solid_word (hword.append (inWord_of_identChar hfield)) (keyword_of_dot (by simp))
      (by simp)).calm

section Joins

variable (hnames : Readable s.schema policy q) (hs : PlainScope IdentChar s) (hl : JoinsOk s l)

include hnames hs hl

theorem joinHead_eq {j : Join} (hj : Joined l j) : ∃ t : Template,
    ofString (joinHead policy q s.schema j) = ofString "LEFT " ++ (ofString "JOIN " ++ t) ∧
      t.Solid := by
  obtain ⟨place, key, hplace⟩ := hj
  obtain ⟨path, parentTable, hfollows⟩ := hl.follows place key j hplace
  have hlabel : AllChars IdentChar j.label :=
    plain_alias_of_digits (fun _ => identChar_of_isDigit) hs hl (.joined ⟨place, key, hplace⟩)
  have hparent : AllChars IdentChar j.parent := by
    have hfrom := hfollows.parent
    generalize j.parent = parent at hfrom
    cases hfrom with
    | root => exact hs.label
    | joined hne hlt hearlier =>
      exact plain_alias_of_digits (fun _ => identChar_of_isDigit) hs hl (.joined ⟨_, _, hearlier⟩)
  have hfield : AllChars IdentChar j.field := by
    obtain ⟨t, desc, ht, hdesc, -⟩ := hfollows.refers
    exact hnames.field _ _ _ _ ht hdesc
  have hrelation : (ofString (joinedRelation policy q j)).Solid := by
    have htarget : IsRelation s.schema policy j.table := .target hfollows.refers
    have hplain := hnames.target _ _ _ hfollows.refers
    unfold joinedRelation
    split
    · exact solid_word (inWord_of_identChar hplain) (hnames.relation _ htarget).2
        (hnames.relation _ htarget).1
    · have hview (context : ViewContext) :=
        hnames.relation ((policy.view j.table context).getD j.table) (isRelation_getD htarget)
      exact solid_word (inWord_of_identChar (plain_relation hnames.toPlainNames hplain)) (hview _).2
        (hview _).1
  have halias : (ofString j.label).Calm := by
    obtain ⟨n, hn⟩ := hfollows.named
    exact ⟨_, Template.body_word (inWord_of_identChar hlabel) (hn ▸ noKeyword_numbered j.table n)⟩
  have hid : (ofString (j.label ++ ".id")).Calm := by
    have hsuffix : AllChars InWord ".id" := by decide
    exact (solid_word ((inWord_of_identChar hlabel).append hsuffix) (keyword_of_dot (by simp))
      (by simp)).calm
  have hhead := ((hrelation.beside (s := " AS ") (by decide) halias).beside (s := " ON ")
    (by decide) hid).beside (s := " = ") (by decide) (calm_field hparent hfield)
  have hstart (rest : String) : "LEFT JOIN " ++ joinedRelation policy q j ++ " AS " ++ j.label ++
      " ON " ++ j.label ++ ".id = " ++ j.parent ++ "." ++ quoteAlias j.field ++ rest =
        "LEFT " ++ ("JOIN " ++ (joinedRelation policy q j ++ " AS " ++ j.label ++ " ON " ++
          (j.label ++ ".id") ++ " = " ++ (j.parent ++ "." ++ quoteAlias j.field) ++ rest)) := by
    rw [show "LEFT JOIN " = "LEFT " ++ "JOIN " from rfl, show ".id = " = ".id" ++ " = " from rfl]
    simp only [String.append_assoc]
  unfold joinHead
  dsimp only
  rw [hstart, Template.ofString_append, Template.ofString_append]
  refine ⟨_, rfl, ?_⟩
  simp only [← Template.ofString_append] at hhead
  split
  · have h := hhead.alive hlabel
    simp only [← Template.ofString_append, String.append_assoc] at h ⊢
    exact h
  · rw [String.append_empty]
    exact hhead

/-- Joins are read one after the other. -/
theorem clauses_joins {entries : List (String × Join)} {ts : List Template}
    (h : List.Forall₂ (JoinText policy q s.schema) entries ts)
    (hentries : ∀ entry ∈ entries, Joined l entry.2) :
    ∃ joined : List (List Lexeme), joined.length = entries.length ∧ (∀ xs ∈ joined, xs ≠ []) ∧
      List.Forall₂ Clauses ts (joined.map fun xs => [(.left, []), (.join, xs)]) := by
  induction h with
  | nil => exact ⟨[], rfl, nofun, .nil⟩
  | @cons entry t entries ts hjoin _ ih =>
    obtain ⟨joined, hlength, hne, hclauses⟩ :=
      ih fun entry hentry => hentries entry (List.mem_cons_of_mem _ hentry)
    obtain ⟨filter, hfilter, rfl⟩ := hjoin
    obtain ⟨head, hhead, hsolid⟩ :=
      joinHead_eq hnames hs hl (hentries entry List.mem_cons_self)
    obtain ⟨xs, hxs, hsome⟩ := hsolid.filtered hfilter
    refine ⟨xs :: joined, congrArg Nat.succ hlength, List.forall_mem_cons.mpr ⟨hsome, hne⟩,
      .cons ?_ hclauses⟩
    rw [hhead, Template.append_assoc, Template.append_assoc]
    exact (hxs.clause .join).keyword .left

end Joins

/-! ## 5. Statements -/

/-- A number behind its keyword, or nothing. -/
def boundClause (k : Keyword) : Option Nat → List Clause
  | some n => [(k, [.word (toString n).toList])]
  | none => []

/-- What the clauses of a statement are read as. -/
structure Layout where
  columns : List Lexeme
  relation : List Lexeme
  joined : List (List Lexeme)
  condition : List Lexeme
  groups : List Clause
  orders : List Clause

namespace Layout

def clauses (y : Layout) (limit offset : Option Nat) : List Clause :=
  (.select, y.columns) :: (.source, y.relation) ::
    (y.joined.flatMap (fun xs => [(.left, []), (.join, xs)]) ++ (.filter, y.condition) ::
      (y.groups ++ (y.orders ++ (boundClause .limit limit ++ boundClause .offset offset))))

/-- Which clauses a compiled query has, and which of them are blank. -/
structure Of (y : Layout) (c : CompiledQuery) : Prop where
  columns : y.columns = [] ↔
    ¬ (c.query.groups = [] ∨ ∃ item ∈ c.query.selection, item ≠ .object [])
  relation : y.relation ≠ []
  length : y.joined.length = c.ledger.joins.entries.length
  joined : ∀ xs ∈ y.joined, xs ≠ []
  condition : y.condition ≠ []
  groups : IsListClause .group c.query.groups y.groups
  orders : IsListClause .order c.query.orders y.orders

end Layout

theorem isNumeral_natText (n : Nat) : isNumeral (toString n).toList = true := by
  obtain ⟨hne, -⟩ := isDigits_natText n
  rw [isNumeral, Bool.and_eq_true, List.all_eq_true]
  exact ⟨by simp, isDigit_natText n⟩

theorem clauses_bound (k : Keyword) (n : Nat) :
    Clauses (ofString (k.text ++ " ") ++ ofString (toString n))
      [(k, [.word (toString n).toList])] := by
  have hword : AllChars InWord (toString n) :=
    (isDigit_natText n).mono fun _ => Phrase.inWord_of_isDigit
  have hbody := Template.body_word hword (keyword_of_inNumber (isDigits_natText n).2)
  have hsingle : wordOf (toString n).toList = [.word (toString n).toList] := by
    cases hn : (toString n).toList with
    | nil => exact absurd hn (isDigits_natText n).1
    | cons => rfl
  rw [hsingle] at hbody
  exact hbody.clause k

/-- The line of a limit or of an offset. -/
def boundLines (k : Keyword) : Option Nat → List Template
  | some n => [ofString (k.text ++ " ") ++ ofString (toString n)]
  | none => []

theorem clauses_boundLines (k : Keyword) (bound : Option Nat) :
    ∃ css, List.Forall₂ Clauses (boundLines k bound) css ∧ css.flatten = boundClause k bound := by
  cases bound with
  | none => exact ⟨[], .nil, rfl⟩
  | some n => exact ⟨[_], .cons (clauses_bound k n) .nil, List.append_nil _⟩

/-- The lines of a statement, each by its keywords. -/
theorem lines_eq {c : CompiledQuery} {p : Phases policy c.query s} (h : c.pieces = p.pieces) :
    c.lines =
      [ofString (Keyword.select.text ++ " ") ++ p.select ++ ofString " " ++
        (ofString (Keyword.source.text ++ " ") ++ ofString s.label)] ++
      [p.joins, c.whereClause, p.groupBy, p.orderBy].filter (!·.isEmpty) ++
      boundLines .limit c.query.limit ++ boundLines .offset c.query.offset := by
  have hfirst : ofString (Keyword.select.text ++ " ") ++ p.select ++ ofString " " ++
      (ofString (Keyword.source.text ++ " ") ++ ofString s.label) =
        ofString "SELECT " ++ p.select ++ ofString " FROM " ++ ofString s.label := by
    rw [← Template.append_assoc, Template.append_assoc _ (ofString " "), ← Template.ofString_append]
    rfl
  rw [hfirst]
  unfold CompiledQuery.lines
  rw [h]
  dsimp only [Phases.pieces]
  cases c.query.limit <;> cases c.query.offset <;> rfl

theorem clauses_whereClause {c : CompiledQuery} {t : Template} (ht : t.Solid)
    (hfilter : c.pieces.filter = ofString "WHERE " ++ t) (hlabel : AllChars IdentChar c.label) :
    ∃ xs, c.whereClause.Clauses [(.filter, xs)] ∧ xs ≠ [] := by
  unfold CompiledQuery.whereClause
  rw [hfilter]
  split
  · obtain ⟨xs, hxs, hne⟩ := ht.alive hlabel
    refine ⟨xs, ?_, hne⟩
    have h := hxs.clause .filter
    simp only [← Template.append_assoc] at h
    exact h
  · obtain ⟨xs, hxs, hne⟩ := ht
    exact ⟨xs, hxs.clause .filter, hne⟩

/-- The columns of a select list, with the implicit one. -/
theorem solid_columns (hnames : Readable schema policy q) {columns : List (List SelectColumn)}
    (h : List.Forall₂ (ItemSpells q.orders) (selectItems q) columns) :
    ∀ column ∈ columns.flatten, column.template.Solid := by
  have hid : ReadableColumn "id" := ⟨by decide, .inl (by decide)⟩
  have hitem : ∀ item ∈ selectItems q, ∀ name ∈ columnNames item,
      name = "*" ∨ ReadableColumn name := columnNames_selectItems (.inr hid) hnames.column
  generalize selectItems q = items at h hitem
  induction h with
  | nil => exact fun _ h => absurd h List.not_mem_nil
  | cons h _ ih =>
    rw [List.forall_mem_cons] at hitem
    rw [List.flatten_cons, List.forall_mem_append]
    refine ⟨fun column hcolumn => solid_column (h.regular column hcolumn) ?_, ih hitem.2⟩
    rintro φ name rfl
    exact hitem.1 name (h.names hcolumn)

theorem layout_of_compile {c : CompiledQuery} (hnames : Readable schema policy (policy.customize q))
    (h : q.compile schema policy = .ok c) :
    ∃ y : Layout, y.Of c ∧ c.template.Clauses (y.clauses c.query.limit c.query.offset) := by
  obtain ⟨hquery, htable, p, hp, -, hlabel, hpieces, hledger⟩ := phases_of_compile h
  rw [← hquery] at hnames
  have hs := plain_rootScope hnames.toPlainNames htable
  have hphrased := hp.phrased hs rfl Joins.wellFormed_empty
  obtain ⟨columns, hcolumns, hselect⟩ := hphrased.select
  obtain ⟨xs, hxs, hblank⟩ := body_columns (solid_columns hnames hcolumns)
  rw [← hselect] at hxs
  obtain ⟨ys, hys, hrelation⟩ : (ofString (rootScope policy schema c.query).label).Solid := by
    obtain ⟨t, ht⟩ := Option.isSome_iff_exists.mp htable
    have htable : IsRelation schema policy c.query.table := .table ht
    have hname (context : ViewContext) :=
      hnames.relation ((policy.view c.query.table context).getD c.query.table)
        (isRelation_getD htable)
    exact solid_word (inWord_of_identChar hs.label) (hname _).2 (hname _).1
  obtain ⟨ts, hts, hjoins⟩ := hphrased.joins
  obtain ⟨joined, hlength, hjoined, hclauses⟩ :=
    clauses_joins hnames hs hphrased.wellFormed hts fun _ h => joined_of_mem h
  have hjoinLine := Template.clauses_intercalate hclauses
  rw [← hjoins] at hjoinLine
  obtain ⟨zs, hzs, hcondition⟩ := clauses_whereClause (c := c)
    (hphrased.own.solid.filtered hphrased.extra)
    (by rw [hpieces, ← Template.append_assoc]; rfl) (hlabel ▸ hs.label)
  obtain ⟨groups, hgroups, hgroup⟩ := ClauseText.clauses (k := .group) hphrased.groupBy
  obtain ⟨orders, horders, horder⟩ := ClauseText.clauses (k := .order) hphrased.orderBy
  refine ⟨⟨xs, ys, joined, zs, groups, orders⟩,
    ⟨hblank.trans (columns_eq_nil_iff hcolumns), hrelation, ?_, hjoined, hcondition, hgroup,
      horder⟩, ?_⟩
  · rw [hledger]
    exact hlength
  have hfirst := (hxs.clause .select).beside (s := " ") (by decide) (by decide) (hys.clause .source)
  obtain ⟨lines, hlines, hflat⟩ := Template.clauses_nonempty
    (.cons hjoinLine (.cons hzs (.cons hgroups (.cons horders .nil))))
  obtain ⟨limits, hlimits, hlimit⟩ := clauses_boundLines .limit c.query.limit
  obtain ⟨offsets, hoffsets, hoffset⟩ := clauses_boundLines .offset c.query.offset
  have hall := Template.clauses_intercalate
    (List.rel_append (List.rel_append (.cons hfirst hlines) hlimits) hoffsets)
  have hflatten : (([(Keyword.select, xs)] ++ [(Keyword.source, ys)]) :: lines ++ limits ++
      offsets).flatten =
        Layout.clauses ⟨xs, ys, joined, zs, groups, orders⟩ c.query.limit c.query.offset := by
    simp only [List.flatten_append, List.flatten_cons, hflat, hlimit, hoffset, Layout.clauses,
      List.flatMap]
    simp
  rw [CompiledQuery.template, lines_eq hpieces, ← hflatten]
  exact hall

section Shape

variable {groups orders : List Json} {cs ds : List Clause}

theorem isLimited_bounds (limit offset : Option Nat) :
    isLimited (boundClause .limit limit ++ boundClause .offset offset) = true ↔
      (offset.isSome = true → limit.isSome = true) := by
  cases limit with
  | none => cases offset <;> simp [boundClause, isLimited]
  | some n =>
    refine iff_of_true ?_ fun _ => rfl
    cases offset with
    | none => exact isNumeral_natText n
    | some m => exact Bool.and_eq_true_iff.mpr ⟨isNumeral_natText n, isNumeral_natText m⟩

theorem isOrdered_bounds (h : IsListClause .order orders cs) (limit offset : Option Nat) :
    isOrdered (cs ++ (boundClause .limit limit ++ boundClause .offset offset)) =
      isLimited (boundClause .limit limit ++ boundClause .offset offset) := by
  cases h with
  | none => cases limit <;> cases offset <;> rfl
  | some => rfl

theorem isGrouped_orders (h : IsListClause .group groups ds) (hcs : IsListClause .order orders cs)
    (limit offset : Option Nat) :
    isGrouped (ds ++ (cs ++ (boundClause .limit limit ++ boundClause .offset offset))) =
      isOrdered (cs ++ (boundClause .limit limit ++ boundClause .offset offset)) := by
  cases h with
  | none => cases hcs <;> cases limit <;> cases offset <;> rfl
  | some => rfl

theorem isJoined_joins {joined : List (List Lexeme)} (h : ∀ xs ∈ joined, xs ≠ [])
    (xs : List Lexeme) (rest : List Clause) :
    isJoined (joined.flatMap (fun xs => [(.left, []), (.join, xs)]) ++ (.filter, xs) :: rest) =
      isFiltered ((.filter, xs) :: rest) := by
  induction joined with
  | nil => rfl
  | cons ys joined ih =>
    obtain ⟨hys, hjoined⟩ := List.forall_mem_cons.mp h
    rw [List.flatMap_cons, List.append_assoc, ← ih hjoined]
    show (!ys.isEmpty && isJoined _) = _
    rw [List.isEmpty_eq_false_iff.mpr hys]
    rfl

end Shape

/-- The clauses are those of a query exactly if there is a column, and no offset stands alone. -/
theorem isSelect_clauses {c : CompiledQuery} {y : Layout} (h : y.Of c) :
    isSelect (y.clauses c.query.limit c.query.offset) = true ↔
      y.columns ≠ [] ∧ (c.query.offset.isSome = true → c.query.limit.isSome = true) := by
  show (!y.columns.isEmpty && !y.relation.isEmpty && isJoined _) = true ↔ _
  rw [isJoined_joins h.joined, List.isEmpty_eq_false_iff.mpr h.relation, Bool.not_false,
    Bool.and_true, isFiltered, List.isEmpty_eq_false_iff.mpr h.condition, Bool.not_false,
    Bool.true_and, isGrouped_orders h.groups h.orders, isOrdered_bounds h.orders,
    Bool.and_eq_true, isLimited_bounds]
  simp

/-- The keywords of the clauses of a statement, in their order. -/
def keywordsOf (c : CompiledQuery) : List Keyword :=
  let joins : List Keyword := c.ledger.joins.entries.flatMap fun _ => [.left, .join]
  let present (asked : Bool) (k : Keyword) : List Keyword := if asked then [k] else []
  .select :: .source :: (joins ++ .filter ::
    (present (!c.query.groups.isEmpty) .group ++ (present (!c.query.orders.isEmpty) .order ++
      (present c.query.limit.isSome .limit ++ present c.query.offset.isSome .offset))))

theorem IsListClause.keywords {k : Keyword} {es : List Json} {cs : List Clause}
    (h : IsListClause k es cs) : cs.map Prod.fst = if !es.isEmpty then [k] else [] := by
  cases h with
  | none => rfl
  | some h => rw [if_pos (by simpa using h)]; rfl

theorem keywords_clauses {c : CompiledQuery} {y : Layout} (h : y.Of c) :
    (y.clauses c.query.limit c.query.offset).map Prod.fst = keywordsOf c := by
  have hjoins {joined : List (List Lexeme)} {entries : List (String × Join)}
      (hlength : joined.length = entries.length) :
      (joined.flatMap (fun xs => [(Keyword.left, []), (.join, xs)])).map Prod.fst =
        entries.flatMap fun _ => [.left, .join] := by
    induction joined generalizing entries with
    | nil => rw [List.eq_nil_of_length_eq_zero hlength.symm]; rfl
    | cons xs joined ih =>
      cases entries with
      | nil => cases hlength
      | cons entry entries =>
        rw [List.flatMap_cons, List.flatMap_cons, List.map_append, ih (Nat.succ.inj hlength)]
        rfl
  have hbound (k : Keyword) (bound : Option Nat) :
      (boundClause k bound).map Prod.fst = if bound.isSome then [k] else [] := by
    cases bound <;> rfl
  simp only [Layout.clauses, keywordsOf, List.map_cons, List.map_append, hjoins h.length, hbound,
    h.groups.keywords, h.orders.keywords]

/-- With names that are plain identifiers, the clauses of a statement are `SELECT`, `FROM`, a
    `LEFT JOIN` for each join, `WHERE`, and those of `GROUP BY`, `ORDER BY`, `LIMIT` and `OFFSET`
    that the query asks for. So the statement has the shape of a query exactly if a query that
    groups asks for a column, and one with an offset for a limit as well. -/
theorem hasShape_iff_of_compile {c : CompiledQuery}
    (hnames : Readable schema policy (policy.customize q)) (h : q.compile schema policy = .ok c) :
    (outlineOf c.sql).clauses.map Prod.fst = keywordsOf c ∧
      (HasShape c.sql ↔ (c.query.groups = [] ∨ ∃ item ∈ c.query.selection, item ≠ .object []) ∧
        (c.query.offset.isSome = true → c.query.limit.isSome = true)) := by
  obtain ⟨y, hy, hclauses⟩ := layout_of_compile hnames h
  have houtline : outlineOf c.sql = ⟨[], y.clauses c.query.limit c.query.offset⟩ :=
    hclauses.outlineOf
  refine ⟨by rw [houtline]; exact keywords_clauses hy, ?_⟩
  rw [HasShape, houtline, and_iff_right rfl, isSelect_clauses hy, ne_eq, hy.columns, not_not]

theorem readable_people (h : ∀ item ∈ q.selection, ∀ name ∈ columnNames item, name = "name") :
    Readable people .none q where
  toPlainNames := plainNames_people_of_allChars (by decide) (by decide) fun _ _ => rfl
  relation name hname := by
    cases hname with
    | table ht =>
      rw [(people_table ht).1]
      decide
    | target hrefers =>
      obtain ⟨t, desc, ht, hdesc, htarget⟩ := hrefers
      rw [((people_table ht).2 _ desc hdesc).2] at htarget
      cases htarget
    | view hview => cases hview
  column item hitem name hname := by
    rw [h item hitem name hname]
    exact .inr ⟨by decide, .inl (by decide)⟩

/-- Some columns of people, grouped by their names. -/
def byName (selection : List Json) (limit offset : Option Nat) : Query :=
  { table := "people", selection, groups := [.string "name"], limit, offset }

/-- The names from the sixth on. -/
def sixthName (limit : Option Nat) : Query := byName [.string "name"] limit (some 5)

theorem hasShape_iff_of_sixthName : ∃ c, (sixthName (some 1)).compile people .none = .ok c ∧
    (outlineOf c.sql).clauses.map Prod.fst = keywordsOf c ∧
      (HasShape c.sql ↔ (c.query.groups = [] ∨ ∃ item ∈ c.query.selection, item ≠ .object []) ∧
        (c.query.offset.isSome = true → c.query.limit.isSome = true)) := by
  have hnames : Readable people .none (Policy.none.customize (sixthName (some 1))) := by
    refine readable_people fun item hitem name hname => ?_
    rw [List.mem_singleton.mp hitem] at hname
    exact List.mem_singleton.mp hname
  obtain ⟨c, hc, -⟩ : ∃ c, (sixthName (some 1)).compile people .none = .ok c ∧ true = true :=
    compile_of_piecesPass (by cbv) (by cbv)
  exact ⟨c, hc, hasShape_iff_of_compile hnames hc⟩

/-- The group of a name, as far as it can be computed. -/
theorem compileGroupBy_name :
    compileGroupBy [.string "name"] = Compile.within .groupBy [.array [.string "name"]] do
      let name ← Compile.within .expr [.string "$name"] (compileText "$name")
      return .intercalate ", " [name.sql] := by
  unfold compileGroupBy
  simp only [List.mapM_cons, List.mapM_nil, compileGroup, compileExpr_string, fieldReference,
    bind_assoc, pure_bind]
  rfl

theorem selectItems_byName (selection : List Json) (limit offset : Option Nat) :
    selectItems (byName selection limit offset) = selection := rfl

theorem compileSelect_sixthName (limit : Option Nat) :
    compileSelect (sixthName limit) = Compile.within .select [.array [.string "name"]] do
      let name ← Compile.within .expr [.string "$name"] (compileText "$name")
      return .intercalate ", " [← column name "name"] := by
  have hstar : ¬ "name" = "*" := by decide
  unfold compileSelect sixthName
  rw [selectItems_byName]
  simp only [List.mapM_cons, List.mapM_nil, compileSelectItem, compileExpr_string, fieldReference,
    if_neg hstar, bind_assoc, pure_bind, List.flatten_cons, List.flatten_nil, List.append_nil]
  rfl

/-- An offset is written without a limit, and groups without a column. -/
theorem not_hasShape_of_offset :
    (∃ c, (sixthName none).compile people .none = .ok c ∧ c.sql =
        "SELECT people.name AS name FROM people\nWHERE 1\nGROUP BY people.name\nOFFSET 5" ∧
          ¬ HasShape c.sql) ∧
      ∃ c, (byName [] none none).compile people .none = .ok c ∧
        c.sql = "SELECT  FROM people\nWHERE 1\nGROUP BY people.name" ∧ ¬ HasShape c.sql := by
  have hpeople : (people.table? "people").isSome = true := by cbv
  have hoffset : piecesPass (fun c => c.sql =
      "SELECT people.name AS name FROM people\nWHERE 1\nGROUP BY people.name\nOFFSET 5") .none
        people (sixthName none) = true := by
    unfold piecesPass compilePieces clause
    rw [compileSelect_sixthName, sixthName, byName, compileFilters_nil]
    simp only [compileGroupBy_name]
    decide +kernel
  have hgroups : piecesPass (fun c => c.sql =
      "SELECT  FROM people\nWHERE 1\nGROUP BY people.name") .none people (byName [] none none) =
        true := by
    unfold piecesPass compilePieces clause compileSelect
    rw [selectItems_byName, byName, compileFilters_nil]
    simp only [compileGroupBy_name]
    decide +kernel
  obtain ⟨c, hc, hsql⟩ := compile_of_piecesPass hpeople hoffset
  obtain ⟨d, hd, hsql'⟩ := compile_of_piecesPass hpeople hgroups
  have hsql := of_decide_eq_true hsql
  have hsql' := of_decide_eq_true hsql'
  exact ⟨⟨c, hc, hsql, hsql ▸ by decide +kernel⟩, ⟨d, hd, hsql', hsql' ▸ by decide +kernel⟩⟩

end QuerySheet.Sql

import Mathlib.Data.List.Forall2
import QuerySheet.Proofs.Sql.Texts

/-!
# Compiled text is closed

Every text that a query compiles to is `Closed`, whatever strings and numbers it is made from, as
long as the names of the schema and of the root are plain.

* `language_closed`: the closed texts are a language;
* `covers_closed`: under plain names they cover the columns of well-formed joins;
* `Phases.Valid.closed`: what the texts of a statement consist of. Columns are closed if their names
  are plain as well.
-/

namespace QuerySheet.Sql

variable {plain : Char → Prop} {policy : Policy} {q : Query} {schema : Schema} {s : Scope}
  {l l' : Ledger}

/-! ## 1. Plain names -/

/-- The names of fields, and of the tables they refer to, are plain. -/
structure PlainSchema (plain : Char → Prop) (schema : Schema) : Prop where
  field : ∀ table t name desc, schema.table? table = some t →
    Schema.field? t name = some desc → AllChars plain name
  target : ∀ table name target, Refers schema table name target → AllChars plain target

structure PlainScope (plain : Char → Prop) (s : Scope) : Prop where
  schema : PlainSchema plain s.schema
  label : AllChars plain s.label

section Closed

variable (hplain : ∀ c, Ordinary c → plain c)

include hplain

/-! ## 2. Clauses -/

theorem closed_fixed {s : String} (h : AllChars Ordinary s) :
    (Template.ofString s).Closed plain :=
  Template.closed_ofString (h.mono hplain)

theorem language_closed : Language (Template.Closed plain) := by
  have word {s : String} (h : AllChars WordChar s) : (Template.ofString s).Closed plain :=
    closed_fixed hplain (h.mono fun _ hc => hc.1)
  exact {
    word := word
    number := fun x => closed_fixed hplain (ordinary_floatText x)
    literal := Template.closed_quote
    hole := Template.closed_ofRef
    after := fun ht h => ht.append (word h)
    before := fun h ht => (word h.1).append ht
    between := fun ht h hu => (ht.append (word h.1)).append hu
    call := fun h ht => (word h).append ht.parens }

omit hplain in
theorem plain_alias_of_digits (hdigit : ∀ c : Char, c.isDigit = true → plain c)
    (hs : PlainScope plain s) (hl : JoinsOk s l) {label : String} (h : HasAlias s l label) :
    AllChars plain label := by
  cases h with
  | root => exact hs.label
  | @joined j hj =>
    obtain ⟨place, key, hentry⟩ := hj
    obtain ⟨path, parentTable, hfollows⟩ := hl.follows place key j hentry
    obtain ⟨n, hlabel⟩ := hfollows.named
    rw [hlabel]
    exact (hs.schema.target _ _ _ hfollows.refers).append ((isDigit_natText n).mono hdigit)

theorem plain_alias (hs : PlainScope plain s) (hl : JoinsOk s l)
    {label : String} (h : HasAlias s l label) : AllChars plain label :=
  plain_alias_of_digits (fun c hc => hplain c (ordinary_of_isDigit hc)) hs hl h

theorem covers_closed (hs : PlainScope plain s) (hl : JoinsOk s l) :
    Covers (Template.Closed plain) s l where
  column label name halias hname := by
    have hdot : AllChars Ordinary "." := by decide
    have hid : AllChars Ordinary "id" := by decide
    refine Template.closed_ofString (((plain_alias hplain hs hl halias).append
      (hdot.mono hplain)).append ?_)
    rcases hname.2 with rfl | ⟨table, t, desc, ht, hdesc⟩
    · exact hid.mono hplain
    · exact hs.schema.field table t name desc ht hdesc
  star := by
    have hstar : AllChars Ordinary ".*" := by decide
    exact Template.closed_ofString (hs.label.append (hstar.mono hplain))

omit hplain in
theorem closed_quoteAlias {name : String} (h : AllChars plain name) :
    (Template.ofString (quoteAlias name)).Closed plain := by
  unfold quoteAlias
  split
  · have hname : Sql.Closed plain _ := .identifier h .nil
    rw [List.append_nil] at hname
    unfold Template.Closed Template.ofString
    rw [String.toList_append, String.toList_append]
    exact hname
  · exact Template.closed_ofString h

theorem closed_column {t : Template} {name : String} (ht : t.Closed plain)
    (hname : AllChars plain name) : (t ++ " AS " ++ quoteAlias name).Closed plain :=
  (ht.append (closed_fixed hplain (by decide))).append (closed_quoteAlias hname)

/-! ## 3. Joins -/

theorem plain_joined (hs : PlainScope plain s) (hl : JoinsOk s l) {j : Join} (hj : Joined l j) :
    PlainScope plain (joinedScope s j) :=
  ⟨hs.schema, plain_alias hplain hs hl (.joined hj)⟩

/-- The text of a join, with the filters of its table. -/
def IsJoinText (plain : Char → Prop) (policy : Policy) (q : Query) (schema : Schema)
    (entry : String × Join) (t : Template) : Prop :=
  ∃ filter, IsTableFilter (Enclosed (Template.Closed plain)) policy q entry.2.table filter ∧
    t = joinHead policy q schema entry.2 ++ andAlso filter

theorem isJoinText_of_step (hs : PlainScope plain s) (hl : JoinsOk s l) {entry : String × Join}
    (hj : Joined l entry.2) {t : Template} {filter : Option Template} {inner : Ledger}
    (h : JoinStep policy q s l entry.2 t l' filter inner) :
    IsJoinText plain policy q s.schema entry t := by
  refine ⟨filter, ?_, h.text⟩
  rcases h.filters with ⟨hraw, rfl, -⟩ | ⟨hraw, hpart⟩
  · exact isTableFilter_none hraw
  · obtain ⟨⟨hinner, -⟩, hfilter⟩ :=
      (writes_compileTableFilters (language_closed hplain) (A := True) entry.2.table).yields
        (joinsOk_empty _ l) hpart
    obtain ⟨hsome, henclosed⟩ :=
      hfilter trivial (covers_closed hplain (plain_joined hplain hs hl hj) hinner)
    exact isTableFilter_of_not_raw hraw hsome henclosed

theorem isJoinText_of_steps (hs : PlainScope plain s) {entries : List (String × Join)}
    {ts : List Template} (hl : JoinsOk s l) (hentries : ∀ entry ∈ entries, Joined l entry.2)
    (h : JoinSteps policy q s l entries ts l') :
    List.Forall₂ (IsJoinText plain policy q s.schema) entries ts := by
  induction h with
  | nil => exact .nil
  | @cons l l₁ l' inner entry entries t ts filter h _ ih =>
    have hl₁ : JoinsOk s l₁ := by
      unfold JoinsOk
      rw [h.joins]
      exact hl
    refine .cons (isJoinText_of_step hplain hs hl (hentries entry List.mem_cons_self) h)
      (ih hl₁ fun entry hentry => ?_)
    obtain ⟨place, key, hplace⟩ := hentries entry (List.mem_cons_of_mem _ hentry)
    exact ⟨place, key, h.joins ▸ hplace⟩

/-! ## 4. All phases -/

/-- What the phases give under plain names. -/
structure Phases.Closed (plain : Char → Prop) (p : Phases policy q s) : Prop
    extends p.In (Template.Closed plain) (AllChars plain) where
  wellFormed : JoinsOk s p.joined
  joins : ∃ ts, List.Forall₂ (IsJoinText plain policy q s.schema) p.joined.joins.entries ts ∧
    p.joins = .intercalate "\n" ts

theorem Phases.Valid.closed {p : Phases policy q s} (h : p.Valid l) (hs : PlainScope plain s)
    (hl : JoinsOk s l) : p.Closed plain := by
  obtain ⟨hordered, -⟩ := h.moves trace_extends (clauseSteps_extends _) hl
  obtain ⟨hsame, ts, htext, hjoins⟩ := yields_compileJoins h.joins
  have hid : AllChars plain "id" := (by decide : AllChars Ordinary "id").mono hplain
  refine ⟨h.texts (language_closed hplain) hl hid (closed_column hplain)
    (covers_closed hplain hs hordered), ?_, ts, ?_, htext⟩
  · unfold JoinsOk
    rw [hsame]
    exact hordered
  · rw [hsame]
    exact isJoinText_of_steps hplain hs hordered (fun entry hentry => joined_of_mem hentry)
      (joinSteps_of_mapM hjoins)

end Closed

/-! ## 5. Schemas and policies -/

/-- The columns of a query have plain names. -/
def PlainColumns (plain : Char → Prop) (q : Query) : Prop :=
  ∀ item ∈ q.selection, ∀ name ∈ columnNames item, AllChars plain name

/-- The names of tables and fields, of the tables that fields refer to, and of views are plain. -/
structure PlainNames (plain : Char → Prop) (schema : Schema) (policy : Policy) : Prop
    extends PlainSchema plain schema where
  table : ∀ name t, schema.table? name = some t → AllChars plain name
  view : ∀ name context view, policy.view name context = some view → AllChars plain view

theorem plain_relation (h : PlainNames plain schema policy) {name : String} {context : ViewContext}
    (hname : AllChars plain name) : AllChars plain ((policy.view name context).getD name) := by
  cases hview : policy.view name context with
  | none => exact hname
  | some view => exact h.view name context view hview

theorem plain_rootScope (h : PlainNames plain schema policy)
    (htable : (schema.table? q.table).isSome = true) :
    PlainScope plain (rootScope policy schema q) := by
  obtain ⟨t, ht⟩ := Option.isSome_iff_exists.mp htable
  exact ⟨h.toPlainSchema, plain_relation h (h.table q.table t ht)⟩

/-- People by name. -/
def people : Schema :=
  ⟨(∅ : Std.ExtTreeMap String Table).insert "people"
    ⟨(∅ : Std.ExtTreeMap String Field).insert "name" ⟨.string, none, false, none⟩⟩⟩

theorem people_table {name : String} {t : Table} (h : people.table? name = some t) :
    name = "people" ∧ ∀ field desc, Schema.field? t field = some desc →
      field = "name" ∧ desc.references = none := by
  simp only [people, Schema.table?, Std.ExtTreeMap.getElem?_insert,
    Std.ExtTreeMap.getElem?_empty] at h
  split at h
  · rename_i hname
    cases h
    refine ⟨(Std.LawfulEqCmp.eq_of_compare hname).symm, fun field desc hfield => ?_⟩
    simp only [Schema.field?, Std.ExtTreeMap.getElem?_insert, Std.ExtTreeMap.getElem?_empty]
      at hfield
    split at hfield
    · rename_i hfieldName
      cases hfield
      exact ⟨(Std.LawfulEqCmp.eq_of_compare hfieldName).symm, rfl⟩
    · cases hfield
  · cases h

theorem plainSchema_people (hname : AllChars plain "name") : PlainSchema plain people where
  field name t field desc h hfield := by
    rw [((people_table h).2 field desc hfield).1]
    exact hname
  target name field target h := by
    obtain ⟨t, desc, ht, hdesc, htarget⟩ := h
    rw [((people_table ht).2 field desc hdesc).2] at htarget
    cases htarget

theorem plainNames_people_of_allChars (hname : AllChars plain "name")
    (htable : AllChars plain "people") (hview : ∀ name context, policy.view name context = none) :
    PlainNames plain people policy where
  toPlainSchema := plainSchema_people hname
  table name t h := by
    rw [(people_table h).1]
    exact htable
  view name context view h := by
    rw [hview] at h
    cases h

theorem plainNames_people (hplain : ∀ c, Ordinary c → plain c)
    (hview : ∀ name context, policy.view name context = none) :
    PlainNames plain people policy :=
  plainNames_people_of_allChars ((by decide : AllChars Ordinary "name").mono hplain)
    ((by decide : AllChars Ordinary "people").mono hplain) hview

end QuerySheet.Sql

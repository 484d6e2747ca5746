import Mathlib
import QuerySheet.Proofs.Sql.Identifier
import QuerySheet.Proofs.Sql.Introduced
import QuerySheet.Proofs.Sql.Layout

/-!
# Which names of a statement can be read

A statement has the names of columns, the names that it gives to what it selects, and the fields
that its joins go by. A column is written as it is named; the others are put between quotes if they
have a point in them or are the word `group`.

* `Mention`: a name where it is printed, with the text in front of it;
* `Mentions`: signs with the names that are mentioned in them. All points and quotes outside of
  literals and numbers are those of names;
* `Template.Prints`: the names that a text has apart from those of columns. Whatever is compiled for
  an expression has none (`language_prints`), a column of the select list has its own, and a join
  its field (`prints_joinHead`);
* `identifies_iff_of_compile`: the names of a statement, and which of them can be read.
-/

namespace QuerySheet.Sql

open Template (ofString)

/-! ## 1. Names where they are printed -/

/-- The names that stand in a text: relations, and the fields of tables, which have no points. -/
structure Wording where
  relation : String → Prop
  field : String → Prop
  undotted : ∀ name, field name → '.' ∉ name.toList

/-- A name in the text of a statement: a column behind the relation that it is read from, the name
    of what is selected, or the field behind the relation that a join goes out from. -/
inductive Mention where
  | column (label field : String)
  | output (name : String)
  | link (label field : String)
  deriving DecidableEq, Repr

namespace Mention

def name : Mention → String
  | column _ field => field
  | output name => name
  | link _ field => field

/-- What stands in front of the name. -/
def before : Mention → String
  | column label _ => label ++ "."
  | output _ => " AS "
  | link label _ => label ++ "."

/-- The text of the name. -/
def printed : Mention → String
  | column _ field => field
  | output name => quoteAlias name
  | link _ field => quoteAlias field

def text (m : Mention) : String := m.before ++ m.printed

def isColumn : Mention → Bool
  | column _ _ => true
  | _ => false

/-- A column or the field of a join stands behind a relation. -/
def Of (v : Wording) : Mention → Prop
  | column label field => v.relation label ∧ v.field field
  | output _ => True
  | link label field => v.relation label ∧ v.field field

/-- The name is put between quotes. A field has no point. -/
def Quoted : Mention → Prop
  | column _ _ => False
  | output name => NeedsQuotes name
  | link _ field => field = "group"

instance : DecidablePred Quoted
  | column _ _ => inferInstanceAs (Decidable False)
  | output _ => inferInstanceAs (Decidable (NeedsQuotes _))
  | link _ _ => inferInstanceAs (Decidable (_ = _))

/-- The name can be read: it is put between quotes and has none, or it is a word. -/
def Clear (reserved : String → Bool) (m : Mention) : Prop :=
  if m.Quoted then '"' ∉ m.name.toList else IsWord m.name ∧ reserved m.name = false

variable {v : Wording} {reserved : String → Bool} {m m' : Mention}

theorem printed_of_quoted (h : m.Quoted) : m.printed = "\"" ++ m.name ++ "\"" := by
  cases m with
  | column => cases h
  | output => exact quoteAlias_of_needsQuotes h
  | link => exact quoteAlias_of_needsQuotes (.inr h)

theorem printed_of_not_quoted (hm : m.Of v) (h : ¬ m.Quoted) : m.printed = m.name := by
  cases m with
  | column => rfl
  | output => exact quoteAlias_of_not_needsQuotes h
  | link => exact quoteAlias_of_not_needsQuotes (not_or.mpr ⟨v.undotted _ hm.2, h⟩)

theorem identifies_iff (hm : m.Of v) :
    Identifies reserved m.printed m.name ↔ m.Clear reserved := by
  unfold Clear
  split
  · rename_i h
    rw [printed_of_quoted h, identifies_quoted_iff]
  · rename_i h
    rw [printed_of_not_quoted hm h, identifies_self_iff]

/-- One name is printed in one way exactly where it is put between quotes or where it is not. -/
theorem printed_eq_iff (ho : m.Of v) (ho' : m'.Of v) (h : m.name = m'.name) :
    m.printed = m'.printed ↔ (m.Quoted ↔ m'.Quoted) := by
  by_cases hm : m.Quoted <;> by_cases hm' : m'.Quoted
  · rw [printed_of_quoted hm, printed_of_quoted hm', h]
    exact iff_of_true rfl (iff_of_true hm hm')
  · rw [printed_of_quoted hm, printed_of_not_quoted ho' hm', h]
    exact iff_of_false quoted_ne_self fun hiff => hm' (hiff.mp hm)
  · rw [printed_of_not_quoted ho hm, printed_of_quoted hm', h]
    exact iff_of_false quoted_ne_self.symm fun hiff => hm (hiff.mpr hm')
  · rw [printed_of_not_quoted ho hm, printed_of_not_quoted ho' hm', h]
    exact iff_of_true rfl (iff_of_false hm hm')

end Mention

/-! ## 2. Names in a text -/

/-- Signs with the names that are mentioned in them, from left to right. -/
inductive Mentions (v : Wording) : List Sign → List Mention → Prop
  | nil : Mentions v [] []
  | char {c : Char} {rest : List Sign} {ms : List Mention} (hc : Inert c)
      (h : Mentions v rest ms) : Mentions v (.char c :: rest) ms
  | hole {ref : ParamRef} {rest : List Sign} {ms : List Mention} (h : Mentions v rest ms) :
      Mentions v (.hole ref :: rest) ms
  | literal (body : List Char) {rest : List Sign} {ms : List Mention} (h : Mentions v rest ms) :
      Mentions v (('\'' :: (Operand.doubleQuotes body ++ ['\''])).map .char ++ rest) ms
  | number (x : Binary64) {rest : List Sign} {ms : List Mention} (h : Mentions v rest ms) :
      Mentions v (x.text.toList.map .char ++ rest) ms
  | relation {label : String} {rest : List Sign} {ms : List Mention} (hlabel : v.relation label)
      (h : Mentions v rest ms) : Mentions v (label.toList.map .char ++ rest) ms
  /-- All columns of a relation. -/
  | all {label : String} {rest : List Sign} {ms : List Mention} (hlabel : v.relation label)
      (h : Mentions v rest ms) : Mentions v ((label ++ ".*").toList.map .char ++ rest) ms
  | mention {m : Mention} {rest : List Sign} {ms : List Mention} (hm : m.Of v)
      (h : Mentions v rest ms) : Mentions v (m.text.toList.map .char ++ rest) (m :: ms)

namespace Mentions

variable {v : Wording} {signs more : List Sign} {ms ms' : List Mention}

theorem append (h : Mentions v signs ms) (h' : Mentions v more ms') :
    Mentions v (signs ++ more) (ms ++ ms') := by
  induction h with
  | nil => exact h'
  | char hc _ ih => exact .char hc ih
  | hole _ ih => exact .hole ih
  | literal body _ ih =>
    rw [List.append_assoc]
    exact .literal body ih
  | number x _ ih =>
    rw [List.append_assoc]
    exact .number x ih
  | relation hlabel _ ih =>
    rw [List.append_assoc]
    exact .relation hlabel ih
  | all hlabel _ ih =>
    rw [List.append_assoc]
    exact .all hlabel ih
  | mention hm _ ih =>
    rw [List.append_assoc]
    exact .mention hm ih

theorem ofChars {cs : List Char} (hcs : ∀ c ∈ cs, Inert c) : Mentions v (cs.map .char) [] := by
  induction cs with
  | nil => exact .nil
  | cons c cs ih =>
    exact .char (hcs c List.mem_cons_self) (ih fun d hd => hcs d (List.mem_cons_of_mem _ hd))

theorem of (h : Mentions v signs ms) : ∀ m ∈ ms, m.Of v := by
  induction h with
  | nil => exact List.forall_mem_nil _
  | mention hm _ ih => exact List.forall_mem_cons.mpr ⟨hm, ih⟩
  | _ => assumption

theorem eq_nil (h : Mentions v signs ms) (hsigns : signs = []) : ms = [] := by
  induction h with
  | nil => rfl
  | char | hole => cases hsigns
  | literal => cases hsigns
  | number _ _ ih | relation _ _ ih | all _ _ ih => exact ih (List.append_eq_nil_iff.mp hsigns).2
  | @mention m _ _ _ _ =>
    have htext := congrArg List.length (List.append_eq_nil_iff.mp hsigns).1
    have hone : ".".toList.length = 1 := rfl
    have hfour : " AS ".toList.length = 4 := rfl
    cases m <;> simp [Mention.text, Mention.before, String.toList_append] at htext

end Mentions

/-! ## 3. The names of a text apart from columns -/

/-- The names of what is selected and the fields of joins in a text, from left to right. -/
def Template.Prints (v : Wording) (t : Template) (own : List Mention) : Prop :=
  ∃ ms, Mentions v t.signs ms ∧ ms.filter (!·.isColumn) = own

/-- Texts in a row. -/
inductive PrintsAll (v : Wording) : List Template → List Mention → Prop
  | nil : PrintsAll v [] []
  | cons {t : Template} {ts : List Template} {own more : List Mention} (h : t.Prints v own)
      (hs : PrintsAll v ts more) : PrintsAll v (t :: ts) (own ++ more)

section Prints

variable {v : Wording} {t u : Template} {own own' : List Mention} {ts us : List Template}

theorem Template.Prints.append (ht : t.Prints v own) (hu : u.Prints v own') :
    (t ++ u).Prints v (own ++ own') := by
  obtain ⟨ms, h, rfl⟩ := ht
  obtain ⟨ms', h', rfl⟩ := hu
  exact ⟨ms ++ ms', h.append h', List.filter_append _ _⟩

theorem prints_inert {s : String} (h : AllChars Inert s) : (ofString s).Prints v [] :=
  ⟨[], .ofChars h, rfl⟩

theorem prints_relation {label : String} (h : v.relation label) : (ofString label).Prints v [] := by
  have h : Mentions v _ [] := .relation h .nil
  rw [List.append_nil] at h
  exact ⟨[], h, rfl⟩

theorem prints_mention {m : Mention} (hm : m.Of v) :
    (ofString m.text).Prints v ([m].filter (!·.isColumn)) := by
  have h : Mentions v _ [m] := .mention hm .nil
  rw [List.append_nil] at h
  exact ⟨[m], h, rfl⟩

theorem prints_field {label field : String} (hlabel : v.relation label) (hfield : v.field field) :
    (ofString (label ++ "." ++ field)).Prints v [] :=
  prints_mention (m := .column label field) ⟨hlabel, hfield⟩

theorem language_prints : Language (Template.Prints v · []) := by
  have word {s : String} (h : AllChars WordChar s) : (ofString s).Prints v [] :=
    prints_inert (h.mono fun _ => inert_of_wordChar)
  exact {
    word := word
    number := fun x => by
      have h : Mentions v _ [] := .number x .nil
      rw [List.append_nil] at h
      exact ⟨[], h, rfl⟩
    literal := fun s => by
      have h : Mentions v _ [] := .literal (Operand.unescapeDollar s.toList) .nil
      rw [List.append_nil] at h
      refine ⟨[], ?_, rfl⟩
      unfold ofString Operand.quote
      rwa [String.toList_ofList]
    hole := fun _ => ⟨[], .hole .nil, rfl⟩
    after := fun ht h => ht.append (word h)
    before := fun h ht => (word h.1).append ht
    between := fun ht h hu => (ht.append (word h.1)).append hu
    call := fun h ht => by
      have hopen : (ofString "(").Prints v [] := prints_inert (by decide)
      exact (word h).append ((hopen.append ht).append (prints_inert (by decide))) }

theorem covers_prints {s : Scope} {l : Ledger}
    (halias : ∀ label, HasAlias s l label → v.relation label)
    (hfield : ∀ name, IsColumnName s.schema name → v.field name) :
    Covers (Template.Prints v · []) s l where
  column label name hlabel hname := prints_field (halias label hlabel) (hfield name hname)
  star := by
    have h : Mentions v _ [] := .all (halias _ .root) .nil
    rw [List.append_nil] at h
    exact ⟨[], h, rfl⟩

namespace PrintsAll

theorem append (h : PrintsAll v ts own) (h' : PrintsAll v us own') :
    PrintsAll v (ts ++ us) (own ++ own') := by
  induction h with
  | nil => exact h'
  | cons h _ ih =>
    rw [List.append_assoc]
    exact .cons h ih

theorem intercalate (h : PrintsAll v ts own) {sep : String} (hsep : AllChars Inert sep) :
    (Template.intercalate sep ts).Prints v own := by
  induction h with
  | nil => exact prints_inert (by decide)
  | @cons t ts own more h hs ih =>
    cases hs with
    | nil =>
      rw [List.append_nil]
      exact h
    | cons =>
      rw [← List.append_nil own]
      exact (h.append (prints_inert hsep)).append ih

/-- Nothing is printed in an empty text. -/
theorem nonempty (h : PrintsAll v ts own) : PrintsAll v (ts.filter (!·.isEmpty)) own := by
  induction h with
  | nil => exact .nil
  | @cons t _ own _ h _ ih =>
    cases hempty : t.isEmpty with
    | true =>
      obtain ⟨ms, hms, rfl⟩ := h
      rw [List.filter_cons_of_neg (by simp [hempty]), hms.eq_nil (List.isEmpty_iff.mp hempty)]
      exact ih
    | false =>
      rw [List.filter_cons_of_pos (by simp [hempty])]
      exact .cons h ih

end PrintsAll

/-! ## 4. Columns and joins -/

/-- The names that an item of a select list gives; that of all columns gives none. -/
def outputs : Json → List String
  | .string name => if name = "*" then [] else [name]
  | item => columnNames item

theorem prints_column (ht : t.Prints v []) (name : String) :
    (t ++ " AS " ++ quoteAlias name).Prints v [.output name] := by
  rw [Template.append_assoc, ← Template.ofString_append]
  exact ht.append (prints_mention (m := .output name) trivial)

theorem ItemColumns.prints {item : Json}
    (h : ItemColumns (Template.Prints v · []) (fun name t => t.Prints v [.output name]) item ts) :
    PrintsAll v ts ((outputs item).map .output) := by
  cases h with
  | all h => exact .cons h .nil
  | name hname h =>
    rw [outputs, if_neg hname]
    exact .cons h .nil
  | @fields fields _ h =>
    show PrintsAll v ts ((fields.map Prod.fst).map .output)
    induction h with
    | nil => exact .nil
    | cons h _ ih => exact .cons h ih

theorem prints_columns {items : List Json} {columns : List (List Template)}
    (h : List.Forall₂ (ItemColumns (Template.Prints v · [])
      (fun name t => t.Prints v [.output name])) items columns) :
    PrintsAll v columns.flatten ((items.flatMap outputs).map .output) := by
  induction h with
  | nil => exact .nil
  | cons h _ ih =>
    rw [List.flatMap_cons, List.map_append]
    exact h.prints.append ih

end Prints

/-- The relations go by their names, or by these with running numbers. -/
def wording (schema : Schema) (policy : Policy) : Wording where
  relation label := IsRelation schema policy label ∨
    ∃ (table : String) (n : Nat), IsRelation schema policy table ∧ label = table ++ toString n
  field := IsColumnName schema
  undotted _ h := h.1.2

/-- The field that a join goes by. -/
def Join.mention (j : Join) : Mention := .link j.parent j.field

section Joins

variable {policy : Policy} {q : Query} {s : Scope} {l : Ledger}

theorem relation_of_joined (hl : JoinsOk s l) {j : Join} (hj : Joined l j) :
    (wording s.schema policy).relation j.label := by
  obtain ⟨place, key, hplace⟩ := hj
  obtain ⟨path, parentTable, hfollows⟩ := hl.follows place key j hplace
  obtain ⟨n, hn⟩ := hfollows.named
  exact .inr ⟨j.table, n, .target hfollows.refers, hn⟩

theorem covers_wording (hs : (wording s.schema policy).relation s.label) (hl : JoinsOk s l) :
    Covers (Template.Prints (wording s.schema policy) · []) s l := by
  refine covers_prints (fun label hlabel => ?_) fun _ => id
  cases hlabel with
  | root => exact hs
  | joined hj => exact relation_of_joined hl hj

theorem prints_joinHead (hs : (wording s.schema policy).relation s.label) (hl : JoinsOk s l)
    {j : Join} (hj : Joined l j) :
    (ofString (joinHead policy q s.schema j)).Prints (wording s.schema policy) [j.mention] := by
  have hlabel : (wording s.schema policy).relation j.label := relation_of_joined hl hj
  obtain ⟨place, key, hplace⟩ := hj
  obtain ⟨path, parentTable, hfollows⟩ := hl.follows place key j hplace
  have hparent : (wording s.schema policy).relation j.parent := by
    have hfrom := hfollows.parent
    generalize j.parent = parent at hfrom
    cases hfrom with
    | root => exact hs
    | joined _ _ hearlier => exact relation_of_joined hl ⟨_, _, hearlier⟩
  have hfield : IsColumnName s.schema j.field := by
    obtain ⟨t, desc, ht, hdesc, -⟩ := hfollows.refers
    exact ⟨hfollows.segment _ (by simp), .inr ⟨_, t, desc, ht, hdesc⟩⟩
  have hrelation : (wording s.schema policy).relation (joinedRelation policy q j) := by
    have htarget : IsRelation s.schema policy j.table := .target hfollows.refers
    unfold joinedRelation
    split
    · exact .inl htarget
    · exact .inl (isRelation_getD htarget)
  have hid : IsColumnName s.schema "id" := ⟨⟨by decide, by decide⟩, .inl rfl⟩
  have hmention : j.mention.text = j.parent ++ "." ++ quoteAlias j.field := rfl
  have inert {x : String} (h : AllChars Inert x) :
      (ofString x).Prints (wording s.schema policy) [] := prints_inert h
  have hrelations := ((inert (x := "LEFT JOIN ") (by decide)).append
    (prints_relation hrelation)).append (inert (x := " AS ") (by decide))
  have hon := ((hrelations.append (prints_relation hlabel)).append
    (inert (x := " ON ") (by decide))).append (prints_field hlabel hid)
  have hhead := (hon.append (inert (x := " = ") (by decide))).append
    (prints_mention (m := j.mention) ⟨hparent, hfield⟩)
  unfold joinHead
  dsimp only
  rw [Template.ofString_append, show ".id = " = "." ++ "id" ++ " = " from rfl]
  refine Template.Prints.append (?_ : Template.Prints _ _ [j.mention])
    (?_ : Template.Prints _ _ [])
  · simp only [hmention, ← Template.ofString_append, String.append_assoc] at hhead ⊢
    exact hhead
  split
  · rename_i hdead
    have htombstone := prints_field hlabel
      (isColumnName_tombstone (Bool.and_eq_true_iff.mp hdead).2)
    have halive := ((inert (x := " AND ") (by decide)).append htombstone).append
      (inert (x := " = 0") (by decide))
    rw [show ".tombstone = 0" = "." ++ "tombstone" ++ " = 0" from rfl]
    simp only [← Template.ofString_append, String.append_assoc] at halive ⊢
    exact halive
  · exact prints_inert (by decide)

theorem prints_joinSteps (hs : (wording s.schema policy).relation s.label) (hl : JoinsOk s l)
    {l₁ l' : Ledger} {entries : List (String × Join)} {ts : List Template}
    (h : JoinSteps policy q s l₁ entries ts l') (hentries : ∀ entry ∈ entries, Joined l entry.2) :
    PrintsAll (wording s.schema policy) ts (entries.map (·.2.mention)) := by
  induction h with
  | nil => exact .nil
  | @cons l₁ _ _ inner entry _ _ _ filter h _ ih =>
    obtain ⟨hj, hentries⟩ := List.forall_mem_cons.mp hentries
    refine PrintsAll.cons (?_ : Template.Prints _ _ [entry.2.mention]) (ih hentries)
    rw [h.text]
    refine (prints_joinHead hs hl hj).append (?_ : Template.Prints _ _ [])
    cases filter with
    | none => exact prints_inert (by decide)
    | some f =>
      rcases h.filters with ⟨-, hnone, -⟩ | ⟨-, hpart⟩
      · cases hnone
      -- the filters see no joins but their own
      have hempty : JoinsOk (joinedScope s entry.2) { l₁ with joins := .empty } :=
        joinsOk_empty _ _
      obtain ⟨⟨hinner, -⟩, hfilter⟩ := (writes_compileTableFilters language_prints (A := True)
        entry.2.table).yields hempty hpart
      have hcovers : Covers (Template.Prints (wording s.schema policy) · [])
          (joinedScope s entry.2) inner :=
        covers_wording (s := joinedScope s entry.2) (relation_of_joined hl hj) hinner
      have hand : (ofString " AND ").Prints (wording s.schema policy) [] :=
        prints_inert (by decide)
      exact hand.append (((hfilter trivial hcovers).2 f rfl).text language_prints)

end Joins

/-! ## 5. Statements -/

section Statements

variable {policy : Policy} {schema : Schema} {q : Query} {c : CompiledQuery}

theorem prints_boundLines {v : Wording} (k : Keyword) (bound : Option Nat) :
    PrintsAll v (boundLines k bound) [] := by
  have hkeyword : AllChars WordChar (k.text ++ " ") := by cases k <;> decide
  cases bound with
  | none => exact .nil
  | some n =>
    have hline : Template.Prints v (ofString (k.text ++ " ") ++ ofString (toString n)) [] :=
      language_prints.after (language_prints.word hkeyword) (wordChar_natText n)
    exact .cons hline .nil

/-- The names that a statement prints apart from columns: those of its own columns, and the fields
    of its joins. -/
def mentionsOf (c : CompiledQuery) : List Mention :=
  ((selectItems c.query).flatMap outputs).map .output ++
    c.ledger.joins.entries.map (·.2.mention)

theorem prints_template (h : q.compile schema policy = .ok c) :
    c.template.Prints (wording schema policy) (mentionsOf c) := by
  obtain ⟨-, htable, p, hp, hschema, hlabel, hpieces, hledger⟩ := phases_of_compile h
  obtain ⟨t, ht⟩ := Option.isSome_iff_exists.mp htable
  have hroot : (wording schema policy).relation (rootScope policy schema c.query).label :=
    .inl (isRelation_getD (.table ht))
  have hordered : JoinsOk (rootScope policy schema c.query) p.ordered :=
    (hp.moves trace_extends (clauseSteps_extends _) Joins.wellFormed_empty).1
  have hcovers : Covers (Template.Prints (wording schema policy) · [])
      (rootScope policy schema c.query) p.ordered := covers_wording hroot hordered
  have hempty : JoinsOk (rootScope policy schema c.query) (.root c.query.table) :=
    Joins.wellFormed_empty
  obtain ⟨⟨hselected, -⟩, hselect⟩ := (writes_compileSelect language_prints (A := True)
    (P := fun name t => t.Prints (wording schema policy) [.output name])
    fun _ _ name ht => prints_column ht name).yields hempty hp.select
  obtain ⟨hcovers, hown, hextra, hgroup, horder⟩ := hp.clauses language_prints hselected hcovers
  obtain ⟨columns, htext, hcolumns⟩ := hselect trivial hcovers
  have hcomma : AllChars Inert ", " := by decide
  have hline : AllChars Inert "\n" := by decide
  have hselect := (prints_columns hcolumns).intercalate hcomma
  rw [← htext] at hselect
  obtain ⟨hsame, ts, htext, hjoins⟩ := yields_compileJoins hp.joins
  have hjoins := (prints_joinSteps hroot hordered (joinSteps_of_mapM hjoins)
    fun _ => joined_of_mem).intercalate hline
  rw [← htext] at hjoins
  have hall : c.ledger.joins = p.ordered.joins := by
    rw [hledger]
    exact hsame
  have hwhere : c.whereClause.Prints (wording schema policy) [] :=
    language_whereClause language_prints hpieces hown hextra fun name hname =>
      prints_field (hlabel ▸ hroot) (hschema ▸ hname)
  have hkeyword (k : Keyword) : (ofString (k.text ++ " ")).Prints (wording schema policy) [] :=
    prints_inert (by cases k <;> decide)
  have hspace : (ofString " ").Prints (wording schema policy) [] := prints_inert (by decide)
  have hfirst := (((hkeyword .select).append hselect).append hspace).append
    ((hkeyword .source).append (prints_relation hroot))
  have hrest := (PrintsAll.cons hjoins (.cons hwhere (.cons hgroup (.cons horder .nil)))).nonempty
  have hlines := (((PrintsAll.cons hfirst .nil).append hrest).append
    (prints_boundLines .limit c.query.limit)).append (prints_boundLines .offset c.query.offset)
  have hprints := hlines.intercalate hline
  simp only [List.nil_append, List.append_nil] at hprints
  rw [CompiledQuery.template, lines_eq hpieces, mentionsOf, hall]
  exact hprints

/-- Apart from columns a statement prints the names that its select list gives, and the fields that
    its joins go by. A name can be read exactly if it is put between quotes and has none, or if it
    is a word that is not reserved. Two places print one name in one way exactly if both put it
    between quotes or neither does; a column is never put between them, and another name if it has a
    point or is the word `group`. -/
theorem identifies_iff_of_compile (reserved : String → Bool)
    (h : q.compile schema policy = .ok c) :
    ∃ ms, Mentions (wording schema policy) c.template.signs ms ∧
      ms.filter (!·.isColumn) = mentionsOf c ∧
      (∀ m ∈ ms, Identifies reserved m.printed m.name ↔ m.Clear reserved) ∧
      ∀ m ∈ ms, ∀ m' ∈ ms, m.name = m'.name →
        (m.printed = m'.printed ↔ (m.Quoted ↔ m'.Quoted)) := by
  obtain ⟨ms, hms, hown⟩ := prints_template h
  exact ⟨ms, hms, hown, fun m hm => Mention.identifies_iff (hms.of m hm),
    fun m hm m' hm' => Mention.printed_eq_iff (hms.of m hm) (hms.of m' hm')⟩

/-- Whether a name is the word `group`. -/
def isGroup (name : String) : Bool := name = "group"

theorem identifies_iff_of_sixthName :
    ∃ c ms, (sixthName (some 1)).compile people .none = .ok c ∧
      Mentions (wording people .none) c.template.signs ms ∧
      ms.filter (!·.isColumn) = mentionsOf c ∧
      (∀ m ∈ ms, Identifies isGroup m.printed m.name ↔ m.Clear isGroup) ∧
      ∀ m ∈ ms, ∀ m' ∈ ms, m.name = m'.name →
        (m.printed = m'.printed ↔ (m.Quoted ↔ m'.Quoted)) := by
  obtain ⟨c, hc, -⟩ : ∃ c, (sixthName (some 1)).compile people .none = .ok c ∧ true = true :=
    compile_of_piecesPass (by cbv) (by cbv)
  obtain ⟨ms, h⟩ := identifies_iff_of_compile isGroup hc
  exact ⟨c, ms, hc, h⟩

/-- The names of people, each under a name of two words. -/
def fullNames : Query := byName [.object [("full name", .string "name")]] none none

theorem compileSelect_fullNames :
    compileSelect fullNames =
      Compile.within .select [.array [.object [("full name", .string "name")]]] do
        let name ← Compile.within .expr [.string "$name"] (compileText "$name")
        return .intercalate ", " [← column name "full name"] := by
  have hdollar : ¬ hasDollar "full name" = true := by decide
  unfold compileSelect fullNames
  rw [selectItems_byName]
  simp only [List.mapM_cons, List.mapM_nil, compileSelectItem, compileNamedColumn,
    compileExpr_string, fieldReference, if_neg hdollar, bind_assoc, pure_bind, List.flatten_cons,
    List.flatten_nil, List.append_nil]
  rfl

/-- A name of two words is written without quotes, and is no name then. -/
theorem not_identifies_of_fullNames : ∃ c, fullNames.compile people .none = .ok c ∧
    c.sql = "SELECT people.name AS full name FROM people\nWHERE 1\nGROUP BY people.name" ∧
    mentionsOf c = [.output "full name"] ∧
    ∀ m ∈ mentionsOf c, ∀ reserved, ¬ Identifies reserved m.printed m.name := by
  have hpeople : (people.table? "people").isSome = true := by cbv
  have hpass : piecesPass (fun c => c.sql =
      "SELECT people.name AS full name FROM people\nWHERE 1\nGROUP BY people.name" ∧
        mentionsOf c = [.output "full name"]) .none people fullNames = true := by
    unfold piecesPass compilePieces clause
    rw [compileSelect_fullNames, fullNames, byName, compileFilters_nil]
    simp only [compileGroupBy_name]
    decide +kernel
  obtain ⟨c, hc, h⟩ := compile_of_piecesPass hpeople hpass
  obtain ⟨hsql, hmentions⟩ := of_decide_eq_true h
  refine ⟨c, hc, hsql, hmentions, fun m hm reserved hname => ?_⟩
  rw [hmentions] at hm
  cases List.mem_singleton.mp hm
  have hbare : (Mention.output "full name").printed = "full name" := by decide
  rw [hbare] at hname
  obtain ⟨d, rest, hchars, -, hrest⟩ := (identifies_self_iff.mp hname).1
  cases hchars
  exact absurd (hrest ' ' (by decide)) (by decide)

end Statements

end QuerySheet.Sql

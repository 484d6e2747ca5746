import Mathlib
import QuerySheet.Proofs.Sql.ClosedText

/-!
# Filters are conjuncts

No filter can leave its place in a statement. If names have no quotes and no parentheses, a WHERE
clause is the user's condition, the policy's filters of the root and the guard against deleted rows,
and every join ends with the policy's filters of its table; each condition is the text `1`, or a
group whose parenthesis is closed by its last character (`conjuncts_of_compile`).
-/

namespace QuerySheet.Sql

variable {plain : Char → Prop} {policy : Policy} {schema : Schema}

/-! ## 1. Conditions as text -/

/-- A character that neither opens nor closes a literal, a quoted identifier or a group. -/
def Bare (c : Char) : Prop := c ≠ '\'' ∧ c ≠ '"' ∧ c ≠ '(' ∧ c ≠ ')'

instance : DecidablePred Bare := fun _ => inferInstanceAs (Decidable (_ ∧ _))

theorem bare_of_ordinary (c : Char) (h : Ordinary c) : Bare c := ⟨h.1, h.2.1, h.2.2.1, h.2.2.2.1⟩

/-- The text `1`, or a group. -/
def IsConjunct (text : String) : Prop := text = "1" ∨ IsGroup text

theorem Enclosed.isConjunct {t : Template} (h : Enclosed (Template.Closed Bare) t) :
    IsConjunct t.text := by
  rcases h with rfl | ⟨u, hu, rfl⟩
  · exact .inl (Operand.text_ofString "1")
  · exact .inr (isGroup_parens (by decide) (by decide) (by decide) hu)

namespace Template

theorem text_append (t u : Template) : (t ++ u).text = t.text ++ u.text := by
  show String.ofList ((t.signs ++ u.signs).map Sign.toChar) = _
  rw [List.map_append, String.ofList_append]
  rfl

theorem text_intercalate (separator : String) (ts : List Template) :
    (intercalate separator ts).text = separator.intercalate (ts.map text) := by
  induction ts with
  | nil => exact Operand.text_ofString ""
  | cons t ts ih =>
    cases ts with
    | nil => rw [intercalate, List.map_singleton, String.intercalate_singleton]
    | cons u rest =>
      have hne : List.map text (u :: rest) ≠ [] := List.cons_ne_nil _ _
      have hmap : List.map text (t :: u :: rest) = t.text :: List.map text (u :: rest) := rfl
      rw [intercalate, text_append, text_append, ih, Operand.text_ofString, hmap,
        String.intercalate_cons_of_ne_nil hne]

end Template

/-- A condition that is added to others, as text. -/
def andText : Option String → String
  | some condition => " AND " ++ condition
  | none => ""

theorem text_andAlso (condition : Option Template) :
    (andAlso condition).text = andText (condition.map Template.text) := by
  cases condition with
  | none => exact Operand.text_ofString ""
  | some t =>
    show (Template.ofString " AND " ++ t).text = " AND " ++ t.text
    rw [Template.text_append, Operand.text_ofString]

/-! ## 2. Statements -/

/-- The guard against deleted rows of the root, behind the other conditions. -/
def guardText (c : CompiledQuery) : String :=
  if !c.query.withDead && c.schema.hasTombstone c.query.table then
    " AND " ++ c.label ++ ".tombstone = 0"
  else ""

/-- The conditions of a WHERE clause: the query's own, and the policy's filters of the root, behind
    which the guard is put. -/
structure HasConjuncts (policy : Policy) (c : CompiledQuery) (own : String)
    (extra : Option String) : Prop where
  isConjunct : IsConjunct own
  isTableFilter : IsTableFilter IsConjunct policy c.query c.query.table extra
  filter : c.pieces.filter.text = "WHERE " ++ own ++ andText extra
  whereClause : c.whereClause.text = "WHERE " ++ own ++ andText extra ++ guardText c

/-- The text of a join ends with the policy's filters of its table. -/
def EndsWithFilter (policy : Policy) (c : CompiledQuery) (entry : String × Join) (text : String) :
    Prop :=
  ∃ extra, IsTableFilter IsConjunct policy c.query entry.2.table extra ∧
    text = joinHead policy c.query c.schema entry.2 ++ andText extra

theorem text_whereClause (c : CompiledQuery) :
    c.whereClause.text = c.pieces.filter.text ++ guardText c := by
  unfold CompiledQuery.whereClause guardText
  split
  · simp only [Template.text_append, Operand.text_ofString, String.append_assoc]
  · rw [String.append_empty]

theorem endsWithFilter_of_isJoinText {c : CompiledQuery} {entry : String × Join} {t : Template}
    (h : IsJoinText Bare policy c.query c.schema entry t) :
    EndsWithFilter policy c entry t.text := by
  obtain ⟨filter, hfilter, rfl⟩ := h
  refine ⟨filter.map Template.text, hfilter.map fun t ht => ht.isConjunct, ?_⟩
  rw [Template.text_append, Operand.text_ofString, text_andAlso]

/-- Whatever the filters are, they stay conjuncts of the statement. -/
theorem conjuncts_of_compile {q : Query} {c : CompiledQuery}
    (hnames : PlainNames Bare schema policy)
    (h : q.compile schema policy = .ok c) :
    (∃ own extra, HasConjuncts policy c own extra) ∧
      ∃ texts, List.Forall₂ (EndsWithFilter policy c) c.ledger.joins.entries texts ∧
        c.pieces.joins.text = "\n".intercalate texts := by
  obtain ⟨-, htable, p, hp, hschema, -, hpieces, hledger⟩ := phases_of_compile h
  have hclosed : p.Closed Bare :=
    hp.closed bare_of_ordinary (plain_rootScope hnames htable) Joins.wellFormed_empty
  constructor
  · have hfilter : c.pieces.filter.text =
        "WHERE " ++ p.own.text ++ andText (p.extra.map Template.text) := by
      rw [hpieces]
      show (Template.ofString "WHERE " ++ p.own ++ andAlso p.extra).text = _
      rw [Template.text_append, Template.text_append, Operand.text_ofString, text_andAlso]
    refine ⟨p.own.text, p.extra.map Template.text, hclosed.own.isConjunct,
      hclosed.extra.map fun t ht => ht.isConjunct, hfilter, ?_⟩
    rw [text_whereClause, hfilter]
  · obtain ⟨ts, hts, hjoins⟩ := hclosed.joins
    have hentries : c.ledger.joins.entries = p.joined.joins.entries := by
      rw [hledger]
      rfl
    refine ⟨ts.map Template.text, ?_, ?_⟩
    · rw [hentries, List.forall₂_map_right_iff]
      refine hts.imp fun entry t ht => endsWithFilter_of_isJoinText ?_
      rw [hschema]
      exact ht
    · rw [hpieces]
      show p.joins.text = _
      rw [hjoins, Template.text_intercalate]

/-! ## 3. A hostile filter -/

/-- Some people are hidden. -/
def discreet : Policy :=
  { Policy.none with filters := fun _ => [.object [("name", .string "it's")]] }

def peopleNamed (name : String) : Query :=
  { table := "people", filters := [.object [("name", .string name)]], groups := [.string "name"] }

theorem conjuncts_of_people : ∃ c, (peopleNamed "') OR (1").compile people discreet = .ok c ∧
    (∃ own extra, HasConjuncts discreet c own extra) ∧
      ∃ texts, List.Forall₂ (EndsWithFilter discreet c) c.ledger.joins.entries texts ∧
        c.pieces.joins.text = "\n".intercalate texts := by
  obtain ⟨c, hc, -⟩ : ∃ c, (peopleNamed "') OR (1").compile people discreet = .ok c ∧ true = true :=
    compile_of_piecesPass (by cbv) (by cbv)
  exact ⟨c, hc, conjuncts_of_compile (plainNames_people bare_of_ordinary fun _ _ => rfl) hc⟩

end QuerySheet.Sql

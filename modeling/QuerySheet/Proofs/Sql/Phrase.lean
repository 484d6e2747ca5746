import QuerySheet.Proofs.Sql.Grammar
import QuerySheet.Sql.Condition
import QuerySheet.Sql.Function

/-!
# Phrases

Compiled expressions, tests and orders are put together from few texts in few ways. A `Phrase` is
such a text with the way it was put together.

* `Ident`, `Routine`, `Gap`, `Tail`: the names and the fixed words of phrases;
* `Phrase.template`: the text of a phrase;
* `Phrase.isValue`: it cannot be a condition that is used as a value;
* `Phrase.isLoose`: an operator of a test stands in it outside of groups, literals and case
  distinctions;
* `Phrase.negates`: a minus sign stands before a negative number.
-/

namespace QuerySheet

/-- A number below zero. A zero is none, whatever its sign. -/
def Number.isNegative : Number → Bool
  | .int n => n < 0
  | .float x =>
    match x.integer? with
    | some n => n < 0
    | none => x.negative

namespace Sql

/-! ## 1. Words -/

/-- A character of a plain name: a letter, a digit, an underscore, or one beyond ASCII. -/
def IdentChar (c : Char) : Prop := c.isAlphanum = true ∨ c = '_' ∨ 128 ≤ c.toNat

instance : DecidablePred IdentChar := fun _ => inferInstanceAs (Decidable (_ ∨ _))

/-- A plain name. -/
abbrev Ident := { s : String // AllChars IdentChar s }

/-- Digits, or nothing. -/
abbrev Digits := { s : String // AllChars (fun c => c.isDigit = true) s }

namespace Digits

def none : Digits := ⟨"", by decide⟩

def zero : Digits := ⟨"0", by decide⟩

def one : Digits := ⟨"1", by decide⟩

def ofNat (n : Nat) : Digits := ⟨toString n, isDigit_natText n⟩

end Digits

/-- What is called by its name. -/
inductive Routine where
  | sum
  | count
  | substr
  | lower
  | abs
  | cast
  deriving DecidableEq

def Routine.text : Routine → String
  | .sum => "SUM"
  | .count => "COUNT"
  | .substr => "SUBSTR"
  | .lower => "LOWER"
  | .abs => "ABS"
  | .cast => "CAST"

/-- What stands between two phrases. -/
inductive Gap where
  | arguments
  | items
  | conjunction
  | all
  | any
  | quotient
  | over
  | gte
  | lte
  | gt
  | lt
  | equal
  | like
  | among
  | blank
  deriving DecidableEq

namespace Gap

def text : Gap → String
  | .arguments => ", "
  | .items => ","
  | .conjunction => " AND "
  | .all => "\n  AND "
  | .any => "\n  OR "
  | .quotient => " / "
  | .over => " OVER "
  | .gte => " >= "
  | .lte => " <= "
  | .gt => " > "
  | .lt => " < "
  | .equal => " = "
  | .like => " LIKE "
  | .among => " IN "
  | .blank => " "

/-- It joins tests or makes one. -/
def isOperator : Gap → Bool
  | .arguments | .items | .quotient | .over | .blank => false
  | .conjunction | .all | .any | .gte | .lte | .gt | .lt | .equal | .like | .among => true

/-- The gap of a comparison. -/
def ofOperator? : Operator → Option Gap
  | .gte => some .gte
  | .lte => some .lte
  | .gt => some .gt
  | .lt => some .lt
  | .eq | .oneOf | .like => none

end Gap

/-- What stands behind a phrase. -/
inductive Tail where
  | nocase
  | isNull
  | integer
  | asc
  | desc
  deriving DecidableEq

namespace Tail

def text : Tail → String
  | .nocase => " COLLATE NOCASE"
  | .isNull => " IS NULL"
  | .integer => " AS integer"
  | .asc => " asc"
  | .desc => " desc"

/-- It makes a test. -/
def isOperator : Tail → Bool
  | .isNull => true
  | .nocase | .integer | .asc | .desc => false

end Tail

/-! ## 2. Phrases -/

inductive Phrase where
  | digits (d : Digits)
  | null
  | number (n : Number)
  | literal (s : String)
  | hole (ref : ParamRef)
  | column (label name : Ident)
  /-- The rows of a running sum. -/
  | rows
  | call (f : Routine) (args : Phrase)
  | group (inner : Phrase)
  /-- Tests that are used as a value. -/
  | condition (tests : Phrase)
  | minus (φ : Phrase)
  | orderBy (orders : Phrase)
  | beside (φ : Phrase) (gap : Gap) (ψ : Phrase)
  | after (φ : Phrase) (tail : Tail)
  /-- Two values are equal, or both are null. -/
  | orNull (φ ψ : Phrase)

def rowsText : String := "ROWS BETWEEN CURRENT ROW AND UNBOUNDED FOLLOWING"

namespace Phrase

/-- The text of a phrase. -/
def template : Phrase → Template
  | .digits d => d.1
  | .null => "NULL"
  | .number n => (Operand.ofNumber n).sql
  | .literal s => Operand.quote s
  | .hole ref => .ofRef ref
  | .column label name => Template.ofString (label.1 ++ "." ++ name.1)
  | .rows => rowsText
  | .call f args => f.text ++ args.template.parens
  | .group inner => inner.template.parens
  | .condition tests => tests.template
  | .minus φ => "-" ++ φ.template
  | .orderBy orders => "ORDER BY " ++ orders.template
  | .beside φ gap ψ => φ.template ++ gap.text ++ ψ.template
  | .after φ tail => φ.template ++ tail.text
  | .orNull φ ψ => "CASE WHEN " ++ φ.template ++ " IS NULL THEN " ++ ψ.template ++
      " IS NULL ELSE " ++ φ.template ++ " = " ++ ψ.template ++ " END"

/-- Phrases with a gap between them. -/
def join (gap : Gap) : List Phrase → Phrase
  | [] => .digits .none
  | [φ] => φ
  | φ :: ψ :: rest => .beside φ gap (join gap (ψ :: rest))

theorem template_join (gap : Gap) (φs : List Phrase) :
    (join gap φs).template = .intercalate gap.text (φs.map template) := by
  induction φs with
  | nil => rfl
  | cons φ φs ih =>
    cases φs with
    | nil => rfl
    | cons ψ rest => exact congrArg (φ.template ++ Template.ofString gap.text ++ ·) ih

/-- All of the tests, in a group. -/
def all (φs : List Phrase) : Phrase :=
  if φs.isEmpty then .digits .one else .group (join .all φs)

/-- Any of the tests, in a group. -/
def any (φs : List Phrase) : Phrase :=
  if φs.isEmpty then .digits .zero else .group (join .any φs)

/-- All of the tests, as they stand, as a value. -/
def conjunction (φs : List Phrase) : Phrase :=
  .condition (if φs.isEmpty then .digits .one else join .conjunction φs)

theorem template_all (φs : List Phrase) :
    (all φs).template = Condition.all (φs.map template) := by
  unfold all Condition.all
  rw [List.isEmpty_map]
  split
  · rfl
  · exact congrArg Template.parens (template_join .all φs)

theorem template_any (φs : List Phrase) :
    (any φs).template = Condition.any (φs.map template) := by
  unfold any Condition.any
  rw [List.isEmpty_map]
  split
  · rfl
  · exact congrArg Template.parens (template_join .any φs)

theorem template_conjunction (φs : List Phrase) :
    (conjunction φs).template = if (φs.map template).isEmpty then ("1" : Template)
      else .intercalate " AND " (φs.map template) := by
  unfold conjunction
  rw [List.isEmpty_map, template]
  split
  · rfl
  · exact template_join .conjunction φs

/-- The leading digits of a date, which the statement computes. -/
def leading (φ : Phrase) (d : Digits) : Phrase :=
  .call .cast (.after (.call .substr (join .arguments [φ, .digits .one, .digits d])) .integer)

/-- The running sum of a value over rows. -/
def runningSum (φ ρ : Phrase) : Phrase := .group (.beside (.call .sum φ) .over (.group ρ))

/-! ## 3. Kinds of phrases -/

def isNumber : Phrase → Bool
  | .number _ => true
  | _ => false

/-- It is no condition that is used as a value. -/
def isValue : Phrase → Bool
  | .rows | .condition _ | .minus _ | .orderBy _ | .beside _ _ _ | .orNull _ _ => false
  | .after φ tail => tail = .nocase && φ.isValue && !φ.isNumber
  | .digits _ | .null | .number _ | .literal _ | .hole _ | .column _ _ | .call _ _ | .group _ =>
    true

/-- An operator of a test stands in it outside of groups, literals and case distinctions. -/
def isLoose : Phrase → Bool
  | .beside φ gap ψ => gap.isOperator || φ.isLoose || ψ.isLoose
  | .after φ tail => tail.isOperator || φ.isLoose
  | .condition φ | .minus φ | .orderBy φ => φ.isLoose
  | .rows => true
  | .digits _ | .null | .number _ | .literal _ | .hole _ | .column _ _ | .call _ _ | .group _
  | .orNull _ _ => false

theorem not_isLoose_of_isValue {φ : Phrase} (h : φ.isValue = true) : φ.isLoose = false := by
  induction φ with
  | rows | condition | minus | orderBy | beside | orNull => cases h
  | after φ tail ih =>
    simp only [isValue, Bool.and_eq_true, decide_eq_true_eq] at h
    obtain ⟨⟨rfl, hφ⟩, -⟩ := h
    exact ih hφ
  | _ => rfl

/-- The first character is a minus sign. -/
def startsWithMinus : Phrase → Bool
  | .number n => n.isNegative
  | .minus _ => true
  | .condition φ | .beside φ _ _ | .after φ _ => φ.startsWithMinus
  | .digits _ | .null | .literal _ | .hole _ | .column _ _ | .rows | .call _ _ | .group _
  | .orderBy _ | .orNull _ _ => false

/-- Of values only the negative numbers start with a minus sign. -/
theorem startsWithMinus_of_isValue {φ : Phrase} (h : φ.isValue = true) :
    φ.startsWithMinus = true ↔ ∃ n : Number, φ = .number n ∧ n.isNegative = true := by
  induction φ with
  | number n => exact ⟨fun hn => ⟨n, rfl, hn⟩, fun ⟨_, e, hn⟩ => by cases e; exact hn⟩
  | rows | condition | minus | orderBy | beside | orNull => cases h
  | after φ tail ih =>
    simp only [isValue, Bool.and_eq_true, decide_eq_true_eq] at h
    obtain ⟨⟨rfl, hφ⟩, hnumber⟩ := h
    refine ⟨fun hstart => ?_, by nofun⟩
    obtain ⟨n, rfl, -⟩ := (ih hφ).mp hstart
    cases hnumber
  | _ => exact ⟨by nofun, by nofun⟩

/-- A minus sign stands before a phrase that starts with one. -/
def negates : Phrase → Bool
  | .minus φ => φ.startsWithMinus || φ.negates
  | .call _ φ | .group φ | .condition φ | .orderBy φ | .after φ _ => φ.negates
  | .beside φ _ ψ | .orNull φ ψ => φ.negates || ψ.negates
  | .digits _ | .null | .number _ | .literal _ | .hole _ | .column _ _ | .rows => false

/-- Several tests as they stand are loose, and one is if it is loose itself. -/
theorem isLoose_conjunction (φs : List Phrase) :
    (conjunction φs).isLoose = match φs with
      | [] => false
      | [φ] => φ.isLoose
      | _ :: _ :: _ => true := by
  match φs with
  | [] => rfl
  | [φ] => rfl
  | φ :: ψ :: rest => rfl

end Phrase

end Sql

end QuerySheet

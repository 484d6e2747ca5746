import QuerySheet.Json.Printer
import QuerySheet.Sql.Error
import QuerySheet.Sql.Template

/-!
# The shape of conditions and arguments

Conditions and arguments are JSON, and the compiler first reads their shape:

* `Condition.tests` lists the tests of a condition, in order, whether it is one object or a list
  of objects; falsy entries of a list are no conditions;
* `Condition.all` and `Condition.any` join predicates;
* `Condition.distinct` keeps the first of equal values;
* `arguments` are the arguments of a call, and `literalItems?` the items of an expression that is
  a list.
-/

namespace QuerySheet.Sql

open Json (weight itemsWeight fieldsWeight)

/-! ## 1. Calls and lists -/

/-- Function names and nothing else start with a dollar sign. -/
def hasDollar (name : String) : Bool := name.toList.head? = some '$'

/-- The arguments of a call: the items of an array, any other value by itself. -/
def arguments : Json → List Json
  | .array items => items
  | v => [v]

theorem itemsWeight_arguments_le (v : Json) : itemsWeight (arguments v) ≤ v.weight := by
  cases v <;> simp only [arguments, itemsWeight, weight] <;> omega

/-- The items of an expression that is a list: an array, or a list passed through `$literal`. -/
def literalItems? : Json → Option (List Json)
  | .array items => some items
  | .object ((name, .array [v]) :: _) => if name = "$literal" then literalItems? v else none
  | .object ((_, .array _) :: _) => none
  | .object ((name, v) :: _) => if name = "$literal" then literalItems? v else none
  | _ => none

theorem itemsWeight_literalItems?_lt {v : Json} {items : List Json}
    (h : literalItems? v = some items) : itemsWeight items < v.weight := by
  fun_induction literalItems? v <;> simp_all [weight, itemsWeight, fieldsWeight] <;> omega

namespace Condition

/-! ## 2. Tests -/

/-- The tests of a list of conditions. -/
def itemsTests : List Json → Except CompileError.Cause Fields
  | [] => .ok []
  | v :: rest =>
    if v.isFalsy then itemsTests rest
    else
      match v with
      | .object fields => (itemsTests rest).map (fields ++ ·)
      | v => .error (.invalidCondition v.compact)

/-- The tests of a condition: pairs of a field and what it is tested for. -/
def tests : Json → Except CompileError.Cause Fields
  | .object fields => .ok fields
  | .array items => itemsTests items
  | v => if v.isFalsy then .ok [] else .error (.invalidCondition v.compact)

theorem fieldsWeight_itemsTests_le {items : List Json} {fields : Fields}
    (h : itemsTests items = .ok fields) : fieldsWeight fields ≤ itemsWeight items := by
  induction items generalizing fields with
  | nil => cases h; exact Nat.le_refl _
  | cons v rest ih =>
    simp only [itemsTests] at h
    simp only [itemsWeight]
    split at h
    · have := ih h; omega
    · split at h
      · rename_i fs _
        cases hr : itemsTests rest with
        | ok gs =>
          rw [hr] at h
          cases h
          have := ih hr
          simp only [Json.fieldsWeight_append, weight]
          omega
        | error _ => rw [hr] at h; cases h
      · cases h

theorem fieldsWeight_tests_lt {v : Json} {fields : Fields} (h : tests v = .ok fields) :
    fieldsWeight fields < v.weight := by
  unfold tests at h
  split at h
  · cases h; simp only [weight]; omega
  · have := fieldsWeight_itemsTests_le h; simp only [weight]; omega
  · split at h
    · cases h; exact Json.weight_pos _
    · cases h

/-! ## 3. Predicates -/

/-- All of the predicates; none at all always holds. -/
def all (parts : List Template) : Template :=
  if parts.isEmpty then "1" else (Template.intercalate "\n  AND " parts).parens

/-- Any of the predicates; none at all never holds. -/
def any (parts : List Template) : Template :=
  if parts.isEmpty then "0" else (Template.intercalate "\n  OR " parts).parens

/-- The values without those that equal an earlier one, which are collected backwards in
    `seen`. -/
def distinctFrom (seen : List Json) : List Json → List Json
  | [] => []
  | v :: rest =>
    if seen.any v.same then distinctFrom seen rest else v :: distinctFrom (v :: seen) rest

/-- The values, each only where it occurs first. -/
def distinct (items : List Json) : List Json := distinctFrom [] items

theorem distinctFrom_sublist (seen items : List Json) :
    List.Sublist (distinctFrom seen items) items := by
  induction items generalizing seen with
  | nil => exact List.Sublist.slnil
  | cons v rest ih =>
    simp only [distinctFrom]
    split
    · exact (ih seen).cons v
    · exact (ih (v :: seen)).cons_cons v

end Condition

end QuerySheet.Sql

import Mathlib
import QuerySheet.Proofs.Sql.Criteria
import QuerySheet.Proofs.Sql.Spelled

/-!
# Which tests of a condition are enforced

The tests of a field are written as an object of operators. The compiler takes the first operator
of such an object, and nothing else that is in it but the transformation.

* `Comparison`: one operator of such an object, with its own value;
* `writtenComparisons`, `firstComparisons`: all of them in a condition, and the first ones;
* `Enforces`: the predicates are those of certain comparisons;
* `enforces_of_compileConditions`: a condition that compiles enforces its first comparisons, so all
  that are written exactly if no object has two of them.
-/

namespace QuerySheet.Sql

/-! ## 1. Comparisons -/

/-- One operator on a field, with its value and the transformation of the field. -/
structure Comparison where
  field : String
  operator : String
  value : Json
  transform : Option Json

namespace Comparison

/-- The comparison as a test of its own. -/
def test (c : Comparison) : Json :=
  .object ((c.operator, c.value) :: (c.transform.map fun t => (transformKey, t)).toList)

def compile (c : Comparison) : Compile Template := compileOp c.field c.test

end Comparison

/-- The comparisons that are written as a test of a field. -/
def comparisons (field : String) (fields : Fields) : List Comparison :=
  (fields.filter (·.1 ≠ transformKey)).map fun (operator, value) =>
    ⟨field, operator, value, fields.lookup transformKey⟩

def Entry.comparisons : Entry → List Comparison
  | .test field (.object fields) => Sql.comparisons field fields
  | _ => []

/-- All comparisons that are written in a condition. -/
def writtenComparisons (conds : Json) : List Comparison :=
  (criteria conds).leaves.flatMap Entry.comparisons

/-- The first comparison of each test in a condition. -/
def firstComparisons (conds : Json) : List Comparison :=
  (criteria conds).leaves.filterMap (·.comparisons.head?)

variable {s : Scope} {l l' : Ledger} {t : Template} {ts : List Template}

theorem head?_comparisons (field : String) (fields : Fields) :
    (comparisons field fields).head? = (fields.find? (·.1 ≠ transformKey)).map
      fun (operator, value) => ⟨field, operator, value, fields.lookup transformKey⟩ := by
  rw [comparisons, List.head?_map, List.head?_filter]

namespace Comparison

/-- The predicate of a comparison, if there is such an operator. -/
def predicate (c : Comparison) : Compile Template :=
  match Operator.ofName? c.operator with
  | none => Compile.fail (.unknownOperator c.operator)
  | some operator => comparisonWith window c.field operator c.value c.transform

/-- An object of operators is compiled as its first one. -/
theorem compileOp_of_head? {c : Comparison} {field : String} {fields : Fields}
    (h : (comparisons field fields).head? = some c) : compileOp field (.object fields) =
      Compile.within .op [.string field, .object fields] c.predicate := by
  rw [head?_comparisons] at h
  obtain ⟨⟨operator, value⟩, hfirst, rfl⟩ := Option.map_eq_some_iff.mp h
  rw [compileOp, opWith.eq_def]
  dsimp only
  congr 1
  split
  · rename_i hnone
    rw [hfirst] at hnone
    cases hnone
  · rename_i hsome
    rw [hfirst] at hsome
    cases hsome
    rfl

theorem head?_test {c : Comparison} (h : c.operator ≠ transformKey) :
    (comparisons c.field ((c.operator, c.value) ::
      (c.transform.map fun t => (transformKey, t)).toList)).head? = some c := by
  have hlookup : ((c.operator, c.value) ::
      (c.transform.map fun t => (transformKey, t)).toList).lookup transformKey = c.transform := by
    rw [List.lookup_cons, beq_false_of_ne h.symm]
    cases c.transform with
    | none => rfl
    | some t => exact List.lookup_cons_self
  rw [head?_comparisons, hlookup, List.find?_cons_of_pos (by simpa using h)]
  rfl

theorem compile_eq {c : Comparison} (h : c.operator ≠ transformKey) :
    c.compile = Compile.within .op [.string c.field, c.test] c.predicate :=
  compileOp_of_head? (head?_test h)

end Comparison

theorem operator_ne_of_head? {c : Comparison} {field : String} {fields : Fields}
    (h : (comparisons field fields).head? = some c) : c.operator ≠ transformKey := by
  rw [head?_comparisons] at h
  obtain ⟨first, hfirst, rfl⟩ := Option.map_eq_some_iff.mp h
  simpa using List.find?_some hfirst

/-- A test without an operator is refused. -/
theorem not_yields_compileOp_of_none {field : String} {fields : Fields}
    (h : (comparisons field fields).head? = none) :
    ¬ (compileOp field (.object fields)).Yields s l t l' := by
  rw [head?_comparisons, Option.map_eq_none_iff] at h
  rw [compileOp, opWith.eq_def]
  dsimp only
  split
  · simp
  · rename_i hsome
    rw [h] at hsome
    cases hsome

theorem not_yields_compileOp_of_not_object {field : String} {op : Json}
    (h : ∀ fields, op ≠ .object fields) : ¬ (compileOp field op).Yields s l t l' := by
  rw [compileOp, opWith.eq_def, Compile.yields_within]
  split
  · exact absurd rfl (h _)
  · exact Compile.yields_fail

/-- An entry is compiled as its first comparison, and it must have one. -/
theorem yields_entry_iff {e : Entry} :
    e.compile.Yields s l t l' ↔ ∃ c, e.comparisons.head? = some c ∧ c.compile.Yields s l t l' := by
  have hnone (hrefused : ¬ e.compile.Yields s l t l') (hempty : e.comparisons.head? = none) :
      e.compile.Yields s l t l' ↔
        ∃ c, e.comparisons.head? = some c ∧ c.compile.Yields s l t l' := by
    rw [hempty]
    exact ⟨fun h => absurd h hrefused, fun ⟨c, hc, _⟩ => nomatch hc⟩
  cases e with
  | refused cause => exact hnone Compile.yields_fail rfl
  | test field op => cases op with
    | object fields =>
      cases h : (comparisons field fields).head? with
      | none => exact hnone (not_yields_compileOp_of_none h) h
      | some c =>
        rw [Entry.compile, Comparison.compileOp_of_head? h, Compile.yields_within,
          Entry.comparisons]
        simp only [h, Option.some.injEq, exists_eq_left',
          Comparison.compile_eq (operator_ne_of_head? h), Compile.yields_within]
    | null | bool | number | string | array =>
      exact hnone (not_yields_compileOp_of_not_object (by simp)) rfl

/-! ## 2. What is enforced -/

/-- The predicates are those of the comparisons, one for each in the places where the condition has
    its tests. -/
def Enforces (conds : Json) (s : Scope) (l : Ledger) (ts : List Template) (l' : Ledger)
    (cs : List Comparison) : Prop :=
  ∃ predicates : Criteria Template, ts = predicates.texts ∧
    predicates.shape = (criteria conds).shape ∧
      (cs.mapM Comparison.compile).Yields s l predicates.leaves l'

theorem yields_entries_iff {entries : List Entry} :
    (entries.mapM Entry.compile).Yields s l ts l' ↔
      (∀ e ∈ entries, e.comparisons ≠ []) ∧
        ((entries.filterMap (·.comparisons.head?)).mapM Comparison.compile).Yields s l ts l' := by
  induction entries generalizing l l' ts with
  | nil => simp
  | cons e entries ih =>
    rw [List.mapM_cons, List.forall_mem_cons]
    simp only [Compile.yields_bind, Compile.yields_pure, yields_entry_iff, ih]
    -- an entry without a comparison is refused, so it excludes both sides
    cases h : e.comparisons with
    | nil => simp
    | cons c cs =>
      rw [List.filterMap_cons_some (by rw [h]; rfl), List.mapM_cons]
      simp only [List.head?_cons, Option.some.injEq, exists_eq_left', Compile.yields_bind,
        Compile.yields_pure]
      constructor
      · rintro ⟨t, l₁, hc, us, _, ⟨hall, hrest⟩, rfl, rfl⟩
        exact ⟨⟨by simp, hall⟩, t, l₁, hc, us, _, hrest, rfl, rfl⟩
      · rintro ⟨⟨-, hall⟩, t, l₁, hc, us, _, hrest, rfl, rfl⟩
        exact ⟨t, l₁, hc, us, _, ⟨hall, hrest⟩, rfl, rfl⟩

/-- A condition compiles exactly if each of its tests has a comparison and the first ones are
    enforced. -/
theorem yields_iff_enforces {conds : Json} : (compileConditions conds).Yields s l ts l' ↔
    (∀ e ∈ (criteria conds).leaves, e.comparisons ≠ []) ∧
      Enforces conds s l ts l' (firstComparisons conds) := by
  rw [yields_compileConditions_iff]
  simp only [yields_entries_iff]
  constructor
  · rintro ⟨predicates, rfl, hshape, hall, hfirst⟩
    exact ⟨hall, predicates, rfl, hshape, hfirst⟩
  · rintro ⟨hall, predicates, rfl, hshape, hfirst⟩
    exact ⟨predicates, rfl, hshape, hall, hfirst⟩

section Counting

variable {entries : List Entry}

theorem length_le_flatMap (hall : ∀ e ∈ entries, e.comparisons ≠ []) :
    entries.length ≤ (entries.flatMap Entry.comparisons).length := by
  induction entries with
  | nil => exact Nat.le_refl 0
  | cons e entries ih =>
    rw [List.forall_mem_cons] at hall
    have hhead := List.length_pos_of_ne_nil hall.1
    have htail := ih hall.2
    rw [List.flatMap_cons, List.length_append, List.length_cons]
    omega

/-- Entries with at least one comparison each are as many as the comparisons exactly if none of
    them has two. -/
theorem length_flatMap_eq_iff (hall : ∀ e ∈ entries, e.comparisons ≠ []) :
    (entries.flatMap Entry.comparisons).length = entries.length ↔
      ∀ e ∈ entries, e.comparisons.length = 1 := by
  induction entries with
  | nil => simp
  | cons e entries ih =>
    rw [List.forall_mem_cons] at hall ⊢
    have hhead := List.length_pos_of_ne_nil hall.1
    have htail := length_le_flatMap hall.2
    rw [← ih hall.2, List.flatMap_cons, List.length_append, List.length_cons]
    omega

/-- A single comparison is the first one. -/
theorem flatMap_eq_filterMap (h : ∀ e ∈ entries, e.comparisons.length = 1) :
    entries.flatMap Entry.comparisons = entries.filterMap (·.comparisons.head?) := by
  induction entries with
  | nil => rfl
  | cons e entries ih =>
    rw [List.forall_mem_cons] at h
    obtain ⟨c, hc⟩ := List.length_eq_one_iff.mp h.1
    rw [List.flatMap_cons, List.filterMap_cons_some (by rw [hc]; rfl), hc, ih h.2]
    rfl

end Counting

theorem Enforces.single {conds : Json} (h : Enforces conds s l ts l' (writtenComparisons conds))
    (hall : ∀ e ∈ (criteria conds).leaves, e.comparisons ≠ []) :
    ∀ e ∈ (criteria conds).leaves, e.comparisons.length = 1 := by
  obtain ⟨predicates, -, hshape, hwritten⟩ := h
  have hcount : predicates.leaves.length = (writtenComparisons conds).length :=
    length_of_yields_mapM hwritten
  rw [Criteria.length_leaves _ _ hshape] at hcount
  exact (length_flatMap_eq_iff hall).mp hcount.symm

/-- A condition that compiles enforces the first comparison of each of its tests. It enforces all
    that are written exactly if no test has two of them. -/
theorem enforces_of_compileConditions {conds : Json}
    (h : (compileConditions conds).Yields s l ts l') :
    (∀ e ∈ (criteria conds).leaves, e.comparisons ≠ []) ∧
      Enforces conds s l ts l' (firstComparisons conds) ∧
      (Enforces conds s l ts l' (writtenComparisons conds) ↔
        ∀ e ∈ (criteria conds).leaves, e.comparisons.length = 1) := by
  obtain ⟨hall, hfirst⟩ := yields_iff_enforces.mp h
  refine ⟨hall, hfirst, fun h => h.single hall, fun hone => ?_⟩
  rwa [writtenComparisons, flatMap_eq_filterMap hone]

/-- Two tests of one field, of which the first has a parameter. -/
def likeAndEqual : Json :=
  .object [("name", .array [.object [("$like", .string ":pattern")],
    .object [("$eq", .string "Bob")]])]

theorem enforces_likeAndEqual : ∃ ts l',
    (compileConditions likeAndEqual).Yields peopleScope (.root "people") ts l' ∧
      (∀ e ∈ (criteria likeAndEqual).leaves, e.comparisons ≠ []) ∧
      Enforces likeAndEqual peopleScope (.root "people") ts l' (firstComparisons likeAndEqual) ∧
      (Enforces likeAndEqual peopleScope (.root "people") ts l' (writtenComparisons likeAndEqual) ↔
        ∀ e ∈ (criteria likeAndEqual).leaves, e.comparisons.length = 1) := by
  obtain ⟨ts, l', h, -⟩ := yields_of_peoplePass (compileConditions likeAndEqual) (fun _ => true) (by
    rw [compileConditions_eq]
    cbv)
  exact ⟨ts, l', h, enforces_of_compileConditions h⟩

/-- One test with two operators, the bounds of a range. -/
def fromAToB : Json :=
  .object [("name", .object [("$gte", .string "a"), ("$lte", .string "b")])]

/-- The upper bound is lost. -/
theorem not_enforces_fromAToB : ∃ ts l',
    (compileConditions fromAToB).Yields peopleScope (.root "people") ts l' ∧
      ts.map Template.text = ["people.name >= 'a'"] ∧
      (writtenComparisons fromAToB).map Comparison.operator = ["$gte", "$lte"] ∧
      ¬ Enforces fromAToB peopleScope (.root "people") ts l' (writtenComparisons fromAToB) := by
  obtain ⟨ts, l', h, htexts⟩ := yields_of_peoplePass (compileConditions fromAToB)
    (fun ts => ts.map Template.text = ["people.name >= 'a'"]) (by
      rw [compileConditions_eq]
      cbv)
  refine ⟨ts, l', h, of_decide_eq_true htexts, rfl, fun hwritten => ?_⟩
  have hsingle := hwritten.single (yields_iff_enforces.mp h).1 _ List.mem_cons_self
  cases hsingle

end QuerySheet.Sql

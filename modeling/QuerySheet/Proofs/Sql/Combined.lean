import QuerySheet.Proofs.Query.RoundTrip
import QuerySheet.Proofs.Sql.Criteria
import QuerySheet.Proofs.Sql.Spelled

/-!
# Conditions put together

A condition is its tests in their order, in whatever lists and objects they are written.

* `itemsTests_append`: a list has the tests of its parts one after the other, and it is refused
  exactly if one of its parts is;
* `Condition.spellings`: the ways to write the tests of two objects as one condition;
* `compileConditions_combined`: the predicates of two lists come one after the other, and all
  spellings compile alike.
-/

namespace QuerySheet.Sql

namespace Condition

/-! ## 1. Tests -/

theorem itemsTests_append {xs ys : List Json} {fields : Fields} :
    itemsTests (xs ++ ys) = .ok fields ↔
      ∃ fs gs, itemsTests xs = .ok fs ∧ itemsTests ys = .ok gs ∧ fs ++ gs = fields := by
  induction xs generalizing fields with
  | nil => simp [itemsTests]
  | cons v xs ih =>
    rw [List.cons_append]
    rcases entry_cases v with hv | ⟨own, rfl⟩ | ⟨hv, hobject⟩
    · rw [itemsTests_falsy hv, itemsTests_falsy hv, ih]
    · rw [itemsTests_object, itemsTests_object]
      constructor
      · intro h
        cases hrest : itemsTests (xs ++ ys) with
        | ok rest =>
          obtain ⟨fs, gs, hxs, hys, rfl⟩ := ih.mp hrest
          rw [hrest] at h
          cases h
          exact ⟨own ++ fs, gs, by rw [hxs]; rfl, hys, List.append_assoc ..⟩
        | error =>
          rw [hrest] at h
          cases h
      · rintro ⟨_, gs, hxs, hys, rfl⟩
        cases hfs : itemsTests xs with
        | ok fs =>
          rw [hfs] at hxs
          cases hxs
          rw [ih.mpr ⟨fs, gs, hfs, hys, rfl⟩, List.append_assoc]
          rfl
        | error =>
          rw [hfs] at hxs
          cases hxs
    · rw [itemsTests_other hv hobject, itemsTests_other hv hobject]
      simp

/-- Single tests in a list are the tests of an object. -/
theorem itemsTests_singles (fields : Fields) :
    itemsTests (fields.map fun field => .object [field]) = .ok fields := by
  induction fields with
  | nil => rfl
  | cons field rest ih =>
    rw [List.map_cons, itemsTests_object, ih]
    rfl

/-- The fields of an object put into another one. -/
def merged (a b : Fields) : Fields := b.foldl (fun acc field => acc.insert field.1 field.2) a

/-- A list of both objects, a list of the object that they are merged to, that object, and a list
    of its fields one by one. -/
def spellings (a b : Fields) : List Json :=
  [.array [.object a, .object b], .array [.object (merged a b)], .object (merged a b),
    .array ((merged a b).map fun field => .object [field])]

theorem tests_of_mem_spellings {a b : Fields} (h : ((a ++ b).map (·.1)).Nodup) {conds : Json}
    (hconds : conds ∈ spellings a b) : tests conds = .ok (a ++ b) := by
  have hmerged : merged a b = a ++ b := Fields.foldl_insert h
  rw [spellings, hmerged] at hconds
  simp only [List.mem_cons, List.not_mem_nil, or_false] at hconds
  rcases hconds with rfl | rfl | rfl | rfl
  · exact congrArg (fun gs => Except.ok (a ++ gs)) (List.append_nil b)
  · exact congrArg Except.ok (List.append_nil (a ++ b))
  · rfl
  · exact itemsTests_singles (a ++ b)

end Condition

open Condition

/-! ## 2. Predicates -/

variable {s : Scope} {l l' : Ledger} {ts : List Template}

theorem compileConditions_of_tests {conds : Json} {fields : Fields} (h : tests conds = .ok fields) :
    compileConditions conds = Criteria.predicates (fieldsCriteria fields) := by
  have hobject : compileConditions (.object fields) = testsWith window fields := by
    rw [compileConditions, conditionsWith.eq_def]
    rfl
  rw [compileConditions, conditionsWith.eq_def, h]
  exact hobject.symm.trans (compileConditions_eq (.object fields))

/-- A list that compiles has tests, and they are what is compiled. -/
theorem yields_compileConditions_array {items : List Json} :
    (compileConditions (.array items)).Yields s l ts l' ↔ ∃ fields, itemsTests items = .ok fields ∧
      (Criteria.predicates (fieldsCriteria fields)).Yields s l ts l' := by
  have htests : tests (.array items) = itemsTests items := rfl
  constructor
  · intro h
    cases hitems : itemsTests items with
    | ok fields =>
      rw [compileConditions_of_tests (htests.trans hitems)] at h
      exact ⟨fields, rfl, h⟩
    | error cause =>
      rw [compileConditions, conditionsWith.eq_def, htests, hitems] at h
      exact absurd h Compile.yields_fail
  · rintro ⟨fields, hitems, h⟩
    rwa [compileConditions_of_tests (htests.trans hitems)]

theorem yields_predicates_append {fs gs : Fields} :
    (Criteria.predicates (fieldsCriteria (fs ++ gs))).Yields s l ts l' ↔ ∃ ps l₁ qs,
      (Criteria.predicates (fieldsCriteria fs)).Yields s l ps l₁ ∧
        (Criteria.predicates (fieldsCriteria gs)).Yields s l₁ qs l' ∧ ts = ps ++ qs := by
  rw [fieldsCriteria_append, Criteria.predicates_append]
  simp only [Compile.yields_bind, Compile.yields_pure]
  constructor
  · rintro ⟨ps, l₁, hfs, qs, _, hgs, rfl, rfl⟩
    exact ⟨ps, l₁, qs, hfs, hgs, rfl⟩
  · rintro ⟨ps, l₁, qs, hfs, hgs, rfl⟩
    exact ⟨ps, l₁, hfs, qs, l', hgs, rfl, rfl⟩

theorem yields_compileConditions_append {xs ys : List Json} :
    (compileConditions (.array (xs ++ ys))).Yields s l ts l' ↔ ∃ ps l₁ qs,
      (compileConditions (.array xs)).Yields s l ps l₁ ∧
        (compileConditions (.array ys)).Yields s l₁ qs l' ∧ ts = ps ++ qs := by
  simp only [yields_compileConditions_array, itemsTests_append]
  constructor
  · rintro ⟨_, ⟨fs, gs, hxs, hys, rfl⟩, h⟩
    obtain ⟨ps, l₁, qs, hps, hqs, rfl⟩ := yields_predicates_append.mp h
    exact ⟨ps, l₁, qs, ⟨fs, hxs, hps⟩, ⟨gs, hys, hqs⟩, rfl⟩
  · rintro ⟨ps, l₁, qs, ⟨fs, hxs, hps⟩, ⟨gs, hys, hqs⟩, rfl⟩
    exact ⟨fs ++ gs, ⟨fs, gs, hxs, hys, rfl⟩,
      yields_predicates_append.mpr ⟨ps, l₁, qs, hps, hqs, rfl⟩⟩

/-- Two lists of conditions compile one after the other. Two objects without a common name compile
    in the same way and end in the same way in all spellings, and so does what goes wrong. -/
theorem compileConditions_combined {a b : Fields} (h : ((a ++ b).map (·.1)).Nodup)
    (xs ys : List Json) (s : Scope) (l : Ledger) :
    (∀ ts l', (compileConditions (.array (xs ++ ys))).Yields s l ts l' ↔ ∃ ps l₁ qs,
      (compileConditions (.array xs)).Yields s l ps l₁ ∧
        (compileConditions (.array ys)).Yields s l₁ qs l' ∧ ts = ps ++ qs) ∧
      ∀ conds ∈ spellings a b, ∀ conds' ∈ spellings a b,
        (compileConditions conds').outcome s l = (compileConditions conds).outcome s l := by
  refine ⟨fun ts l' => yields_compileConditions_append, fun conds hconds conds' hconds' => ?_⟩
  rw [compileConditions_of_tests (tests_of_mem_spellings h hconds),
    compileConditions_of_tests (tests_of_mem_spellings h hconds')]

/-- A test with a parameter. -/
def likePattern : Fields := [("name", .object [("$like", .string ":pattern")])]

/-- A choice of two tests. -/
def namelessOrBob : Fields :=
  [("$or", .array [.object [("name", .null)], .object [("name", .string "Bob")]])]

/-- All spellings of a test and a choice give the same predicates, here two. -/
theorem compileConditions_of_likePattern :
    ((likePattern ++ namelessOrBob).map (·.1)).Nodup ∧ ∃ ts l',
      ts.map Template.text = ["people.name LIKE ?",
        "(people.name IS NULL\n  OR people.name = 'Bob')"] ∧
        ∀ conds ∈ spellings likePattern namelessOrBob,
          (compileConditions conds).Yields peopleScope (.root "people") ts l' := by
  have hnames : ((likePattern ++ namelessOrBob).map (·.1)).Nodup := by decide
  have hcombined := (compileConditions_combined hnames [] [] peopleScope (.root "people")).2
  have hlist : .array [.object likePattern, .object namelessOrBob] ∈
      spellings likePattern namelessOrBob := List.mem_cons_self
  obtain ⟨ts, l', h, htexts⟩ := yields_of_peoplePass
    (compileConditions (.array [.object likePattern, .object namelessOrBob]))
    (fun ts => ts.map Template.text = ["people.name LIKE ?",
      "(people.name IS NULL\n  OR people.name = 'Bob')"]) (by
        rw [compileConditions_of_tests rfl]
        cbv)
  exact ⟨hnames, ts, l', of_decide_eq_true htexts,
    fun conds hconds => (hcombined _ hlist conds hconds).trans h⟩

end QuerySheet.Sql

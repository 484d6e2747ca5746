import QuerySheet.Proofs.Sql.Outcome
import QuerySheet.Proofs.Sql.Part

/-!
# Conditions as trees

A condition is made of tests by conjunctions and disjunctions. Its shape is read from JSON, and its
tests are compiled one after the other.

* `Criterion`: a tree of conjunctions and disjunctions (`Connective`), with anything in the place of
  tests;
* `criteria`: the trees that a condition is read as. They have an `Entry` in every place: a test of
  a field, or something that stands where a condition should;
* `compileConditions_eq`: a condition is compiled entry by entry, from left to right, and the
  predicates are put together as its trees are;
* `yields_compileConditions_iff`: each entry gives one predicate, in its place.
-/

namespace QuerySheet.Sql

/-! ## 1. Trees -/

/-- How parts of a condition are put together. -/
inductive Connective where
  | all
  | any

/-- The predicate of parts from those of the parts. -/
def Connective.text : Connective → List Template → Template
  | .all => Condition.all
  | .any => Condition.any

/-- Conjunctions and disjunctions of tests. -/
inductive Criterion (α : Type) where
  | test (a : α)
  | join (connective : Connective) (parts : List (Criterion α))

abbrev Criteria (α : Type) : Type := List (Criterion α)

section Trees

variable {α β : Type}

mutual

/-- The tests of a tree from left to right. -/
def Criterion.leaves : Criterion α → List α
  | .test a => [a]
  | .join _ parts => Criteria.leaves parts

def Criteria.leaves : Criteria α → List α
  | [] => []
  | c :: cs => c.leaves ++ Criteria.leaves cs

end

mutual

/-- A tree without what is in its tests. -/
def Criterion.shape : Criterion α → Criterion Unit
  | .test _ => .test ()
  | .join connective parts => .join connective (Criteria.shape parts)

def Criteria.shape : Criteria α → Criteria Unit
  | [] => []
  | c :: cs => c.shape :: Criteria.shape cs

end

mutual

/-- Compiles the tests of a tree from left to right. -/
def Criterion.compile (f : α → Compile β) : Criterion α → Compile (Criterion β)
  | .test a => return .test (← f a)
  | .join connective parts => return .join connective (← Criteria.compile f parts)

def Criteria.compile (f : α → Compile β) : Criteria α → Compile (Criteria β)
  | [] => return []
  | c :: cs => do
    let d ← c.compile f
    return d :: (← Criteria.compile f cs)

end

mutual

/-- The predicate of a tree of predicates. -/
def Criterion.text : Criterion Template → Template
  | .test t => t
  | .join connective parts => connective.text (Criteria.texts parts)

def Criteria.texts : Criteria Template → List Template
  | [] => []
  | c :: cs => c.text :: Criteria.texts cs

end

namespace Criteria

theorem leaves_append (cs ds : Criteria α) : leaves (cs ++ ds) = leaves cs ++ leaves ds := by
  induction cs with
  | nil => rfl
  | cons c cs ih => rw [List.cons_append, leaves, leaves, ih, List.append_assoc]

theorem texts_append (cs ds : Criteria Template) : texts (cs ++ ds) = texts cs ++ texts ds := by
  induction cs with
  | nil => rfl
  | cons c cs ih => rw [List.cons_append, texts, texts, ih, List.cons_append]

theorem compile_append (f : α → Compile β) (cs ds : Criteria α) :
    compile f (cs ++ ds) = (do
      let as ← compile f cs
      return as ++ (← compile f ds)) := by
  induction cs with
  | nil => simp only [List.nil_append, compile, pure_bind, bind_pure]
  | cons c cs ih => simp only [List.cons_append, compile, ih, bind_assoc, pure_bind]

end Criteria

/-! ## 2. Compiled trees -/

variable {f : α → Compile β} {s : Scope}

theorem yields_mapM_append {xs ys : List α} {zs : List β} {l l' : Ledger} :
    ((xs ++ ys).mapM f).Yields s l zs l' ↔ ∃ ps l₁ qs,
      (xs.mapM f).Yields s l ps l₁ ∧ (ys.mapM f).Yields s l₁ qs l' ∧ zs = ps ++ qs := by
  rw [List.mapM_append]
  simp only [Compile.yields_bind, Compile.yields_pure]
  constructor
  · rintro ⟨ps, l₁, hxs, qs, _, hys, rfl, rfl⟩
    exact ⟨ps, l₁, qs, hxs, hys, rfl⟩
  · rintro ⟨ps, l₁, qs, hxs, hys, rfl⟩
    exact ⟨ps, l₁, hxs, qs, l', hys, rfl, rfl⟩

theorem length_of_yields_mapM {xs : List α} {ys : List β} {l l' : Ledger}
    (h : (xs.mapM f).Yields s l ys l') : ys.length = xs.length := by
  induction xs generalizing ys l l' with
  | nil =>
    obtain ⟨rfl, -⟩ := Compile.yields_pure.mp h
    rfl
  | cons x xs ih =>
    simp only [List.mapM_cons, Compile.yields_bind, Compile.yields_pure] at h
    obtain ⟨y, l₁, -, zs, _, hxs, rfl, -⟩ := h
    rw [List.length_cons, List.length_cons, ih hxs]

mutual

/-- Trees of one shape have as many tests. -/
theorem Criterion.length_leaves (c : Criterion α) (d : Criterion β) (h : d.shape = c.shape) :
    d.leaves.length = c.leaves.length := by
  cases c with
  | test a => cases d with
    | test b => rfl
    | join => cases h
  | join connective parts => cases d with
    | join _ parts' => exact Criteria.length_leaves parts parts' (Criterion.join.inj h).2
    | test => cases h

theorem Criteria.length_leaves (cs : Criteria α) (ds : Criteria β)
    (h : ds.shape = cs.shape) :
    ds.leaves.length = cs.leaves.length := by
  cases cs with
  | nil => cases ds with
    | nil => rfl
    | cons => cases h
  | cons c cs => cases ds with
    | nil => cases h
    | cons d ds =>
      obtain ⟨hd, hds⟩ := List.cons.inj h
      simp only [Criteria.leaves, List.length_append, Criterion.length_leaves c d hd,
        Criteria.length_leaves cs ds hds]

end

mutual

/-- Compiling a tree is compiling its tests one after the other. -/
theorem Criterion.yields_compile_iff (c : Criterion α) {d : Criterion β} {l l' : Ledger} :
    (c.compile f).Yields s l d l' ↔
      d.shape = c.shape ∧ (c.leaves.mapM f).Yields s l d.leaves l' := by
  cases c with
  | test a =>
    simp only [Criterion.compile, Criterion.leaves, Criterion.shape, List.mapM_cons, List.mapM_nil,
      Compile.yields_bind, Compile.yields_pure]
    constructor
    · rintro ⟨b, _, hb, rfl, rfl⟩
      exact ⟨rfl, b, _, hb, _, _, ⟨rfl, rfl⟩, rfl, rfl⟩
    · rintro ⟨hshape, b, _, hb, _, _, ⟨rfl, rfl⟩, hleaves, rfl⟩
      cases d with
      | test b' =>
        cases hleaves
        exact ⟨b, _, hb, rfl, rfl⟩
      | join => cases hshape
  | join connective parts =>
    simp only [Criterion.compile, Compile.yields_bind, Compile.yields_pure,
      Criteria.yields_compile_iff parts]
    constructor
    · rintro ⟨parts', _, ⟨hshape, hparts⟩, rfl, rfl⟩
      exact ⟨congrArg (Criterion.join connective) hshape, hparts⟩
    · rintro ⟨hshape, hparts⟩
      cases d with
      | join connective' parts' =>
        obtain ⟨rfl, hinner⟩ := Criterion.join.inj hshape
        exact ⟨parts', _, ⟨hinner, hparts⟩, rfl, rfl⟩
      | test => cases hshape

theorem Criteria.yields_compile_iff (cs : Criteria α) {ds : Criteria β}
    {l l' : Ledger} : (Criteria.compile f cs).Yields s l ds l' ↔
      ds.shape = cs.shape ∧
        (cs.leaves.mapM f).Yields s l ds.leaves l' := by
  cases cs with
  | nil =>
    simp only [Criteria.compile, Criteria.leaves, Criteria.shape, List.mapM_nil,
      Compile.yields_pure]
    constructor
    · rintro ⟨rfl, rfl⟩
      exact ⟨rfl, rfl, rfl⟩
    · rintro ⟨hshape, -, rfl⟩
      cases ds with
      | nil => exact ⟨rfl, rfl⟩
      | cons => cases hshape
  | cons c cs =>
    simp only [Criteria.compile, Criteria.leaves, Criteria.shape, Compile.yields_bind,
      Compile.yields_pure, yields_mapM_append, Criterion.yields_compile_iff c,
      Criteria.yields_compile_iff cs]
    constructor
    · rintro ⟨d, l₁, ⟨hd, hleaves⟩, ds, _, ⟨hds, hrest⟩, rfl, rfl⟩
      exact ⟨by rw [Criteria.shape, hd, hds], d.leaves, l₁, Criteria.leaves ds, hleaves, hrest, rfl⟩
    · rintro ⟨hshape, ps, l₁, qs, hps, hqs, hleaves⟩
      cases ds with
      | nil => cases hshape
      | cons d ds =>
        obtain ⟨hd, hds⟩ := List.cons.inj hshape
        -- the predicates are told apart by their number, since the shape is known
        have hlength : d.leaves.length = ps.length := by
          rw [Criterion.length_leaves c d hd, length_of_yields_mapM hps]
        obtain ⟨rfl, rfl⟩ := List.append_inj hleaves hlength
        exact ⟨d, l₁, ⟨hd, hps⟩, ds, _, ⟨hds, hqs⟩, rfl, rfl⟩

end

end Trees

/-! ## 3. The tests of a condition -/

namespace Condition

/-- An entry of a list is falsy, an object of tests, or no condition. -/
theorem entry_cases (v : Json) : v.isFalsy = true ∨ (∃ fields, v = .object fields) ∨
    ¬ v.isFalsy = true ∧ ∀ fields, v ≠ .object fields := by
  by_cases hv : v.isFalsy = true
  · exact .inl hv
  · by_cases hobject : ∃ fields, v = .object fields
    · exact .inr (.inl hobject)
    · exact .inr (.inr ⟨hv, fun fields h => hobject ⟨fields, h⟩⟩)

variable {v : Json} {rest : List Json}

theorem itemsTests_falsy (hv : v.isFalsy = true) : itemsTests (v :: rest) = itemsTests rest := by
  simp only [itemsTests, hv, ↓reduceIte]

theorem itemsTests_object (fields : Fields) :
    itemsTests (.object fields :: rest) = (itemsTests rest).map (fields ++ ·) := rfl

theorem itemsTests_other (hv : ¬ v.isFalsy = true) (hobject : ∀ fields, v ≠ .object fields) :
    itemsTests (v :: rest) = .error (.invalidCondition v.compact) := by
  unfold itemsTests
  rw [if_neg hv]
  split
  · exact absurd rfl (hobject _)
  · rfl

end Condition

/-! ## 4. Reading a condition -/

/-- What is found in the place of a test. -/
inductive Entry where
  /-- A test of a field. -/
  | test (field : String) (op : Json)
  /-- Something that is no condition. -/
  | refused (cause : CompileError.Cause)

def Entry.compile : Entry → Compile Template
  | .test field op => compileOp field op
  | .refused cause => Compile.fail cause

/-- The tests of a field: several of them, one, or a value that the field must equal. -/
def testsOf (field : String) : Json → Criteria Entry
  | .array ops => ops.map fun op => .test (.test field op)
  | .object fields => [.test (.test field (.object fields))]
  | v => [.test (.test field (.object [("$eq", v)]))]

mutual

/-- The trees that a condition is read as. -/
def criteria : Json → Criteria Entry
  | .object fields => fieldsCriteria fields
  | .array items =>
    match Condition.itemsTests items with
    | .error cause => [.test (.refused cause)]
    | .ok _ => itemsCriteria items
  | v => if v.isFalsy then [] else [.test (.refused (.invalidCondition v.compact))]

def itemsCriteria : List Json → Criteria Entry
  | [] => []
  | .object fields :: rest => fieldsCriteria fields ++ itemsCriteria rest
  | _ :: rest => itemsCriteria rest

def fieldsCriteria : List (String × Json) → Criteria Entry
  | [] => []
  | (name, v) :: rest =>
    (if name = "$and" then if v.isFalsy then [] else [.join .all (criteria v)]
      else if name = "$or" then if v.isFalsy ∨ v = .array [] then [] else [.join .any (criteria v)]
      else testsOf name v) ++ fieldsCriteria rest

end

theorem testsOf_scalar {v : Json} (hv : Part.IsScalar v) (field : String) :
    testsOf field v = [.test (.test field (.object [("$eq", v)]))] := by
  unfold testsOf
  split
  · exact absurd rfl (hv.1 _)
  · exact absurd rfl (hv.2 _)
  · rfl

theorem criteria_scalar {v : Json} (hv : Part.IsScalar v) : criteria v =
    if v.isFalsy then [] else [.test (.refused (.invalidCondition v.compact))] := by
  unfold criteria
  split
  · exact absurd rfl (hv.2 _)
  · exact absurd rfl (hv.1 _)
  · rfl

/-- The trees of one field of a condition. -/
def fieldCriteria (name : String) (v : Json) : Criteria Entry :=
  if name = "$and" then if v.isFalsy then [] else [.join .all (criteria v)]
  else if name = "$or" then if v.isFalsy ∨ v = .array [] then [] else [.join .any (criteria v)]
  else testsOf name v

theorem fieldsCriteria_cons (name : String) (v : Json) (rest : Fields) :
    fieldsCriteria ((name, v) :: rest) = fieldCriteria name v ++ fieldsCriteria rest := by
  rw [fieldsCriteria, fieldCriteria]

theorem fieldsCriteria_append (fs gs : Fields) :
    fieldsCriteria (fs ++ gs) = fieldsCriteria fs ++ fieldsCriteria gs := by
  induction fs with
  | nil => rfl
  | cons field fs ih =>
    rw [List.cons_append, fieldsCriteria_cons, fieldsCriteria_cons, ih, List.append_assoc]

theorem itemsCriteria_cons_of_not_object {v : Json} {rest : List Json}
    (hobject : ∀ fields, v ≠ .object fields) : itemsCriteria (v :: rest) = itemsCriteria rest := by
  cases v with
  | object fields => exact absurd rfl (hobject fields)
  | null | bool | number | string | array => rfl

/-- What is falsy among the entries of a list has no tests. -/
theorem itemsCriteria_eq {items : List Json} {fields : Fields}
    (h : Condition.itemsTests items = .ok fields) :
    itemsCriteria items = fieldsCriteria fields := by
  induction items generalizing fields with
  | nil =>
    cases h
    rfl
  | cons v rest ih =>
    rcases Condition.entry_cases v with hv | ⟨fs, rfl⟩ | ⟨hv, hobject⟩
    · have hobject : ∀ fields, v ≠ .object fields := by
        rintro _ rfl
        cases hv
      rw [Condition.itemsTests_falsy hv] at h
      rw [itemsCriteria_cons_of_not_object hobject, ih h]
    · rw [Condition.itemsTests_object] at h
      cases hrest : Condition.itemsTests rest with
      | error =>
        rw [hrest] at h
        cases h
      | ok gs =>
        rw [hrest] at h
        cases h
        rw [itemsCriteria, fieldsCriteria_append, ih hrest]
    · rw [Condition.itemsTests_other hv hobject] at h
      cases h

/-! ## 5. Compiling a condition -/

/-- The predicates of trees of entries. -/
def Criteria.predicates (cs : Criteria Entry) : Compile (List Template) :=
  return texts (← compile Entry.compile cs)

theorem Criteria.predicates_append (cs ds : Criteria Entry) :
    predicates (cs ++ ds) = (do
      let ts ← predicates cs
      return ts ++ (← predicates ds)) := by
  simp only [predicates, compile_append, texts_append, bind_assoc, pure_bind]

theorem Criteria.predicates_test (field : String) (op : Json) :
    predicates [.test (.test field op)] = (do return [← compileOp field op]) := by
  simp only [predicates, compile, Criterion.compile, Entry.compile, texts, Criterion.text,
    bind_assoc, pure_bind]

theorem Criteria.predicates_join (connective : Connective) (cs : Criteria Entry) :
    predicates [.join connective cs] = (do return [connective.text (← predicates cs)]) := by
  simp only [predicates, compile, Criterion.compile, texts, Criterion.text, bind_assoc, pure_bind]

theorem opsWith_eq (field : String) (ops : List Json) :
    opsWith window field ops = Criteria.predicates (ops.map fun op => .test (.test field op)) := by
  induction ops with
  | nil => simp only [opsWith, List.map_nil, Criteria.predicates, Criteria.compile, pure_bind,
      Criteria.texts]
  | cons op ops ih =>
    have hcons : (op :: ops).map (fun op => Criterion.test (Entry.test field op)) =
        [.test (.test field op)] ++ ops.map fun op => .test (.test field op) := rfl
    rw [hcons, Criteria.predicates_append, Criteria.predicates_test, opsWith, ih]
    simp only [bind_assoc, pure_bind, List.cons_append, List.nil_append]
    rfl

/-- A value that a field must equal is a test of its own. -/
theorem compileOp_equal (field : String) (v : Json) :
    compileOp field (.object [("$eq", v)]) =
      Compile.within .op [.string field, .object [("$eq", v)]]
        (comparisonWith window field .eq v none) := by
  rw [compileOp, opWith]
  rfl

/-- How a part of a condition is compiled, by the trees that it is read as. -/
def Part.IsRead : Part → Prop
  | .conditions conds => conditionsWith window conds = Criteria.predicates (criteria conds)
  | .tests fields => testsWith window fields = Criteria.predicates (fieldsCriteria fields)
  | .test name v => testWith window name v = Criteria.predicates (fieldCriteria name v)
  | _ => True

theorem isRead_conditions {conds : Json} (ih : (Part.conditions conds).Below Part.IsRead) :
    (Part.conditions conds).IsRead := by
  have htests {fields : Fields} (h : Condition.tests conds = .ok fields) :
      conditionsWith window conds = Criteria.predicates (fieldsCriteria fields) := by
    rw [conditionsWith.eq_def, h]
    exact ih (.tests fields) (.conditionsTests h)
  have hrefused {cause : CompileError.Cause} (h : Condition.tests conds = .error cause) :
      conditionsWith window conds = Criteria.predicates [.test (.refused cause)] := by
    rw [conditionsWith.eq_def, h]
    rfl
  show conditionsWith window conds = _
  cases conds with
  | object fields => exact htests rfl
  | array items =>
    rw [criteria]
    split
    · exact hrefused ‹_›
    · rename_i h
      rw [itemsCriteria_eq h]
      exact htests h
  | null => exact htests rfl
  | bool | number | string =>
    rw [criteria_scalar (by simp [Part.IsScalar])]
    split
    · rename_i h
      exact htests (if_pos h)
    · rename_i h
      exact hrefused (if_neg h)

theorem isRead_tests {fields : Fields} (ih : (Part.tests fields).Below Part.IsRead) :
    (Part.tests fields).IsRead := by
  show testsWith window fields = _
  cases fields with
  | nil => simp only [testsWith, fieldsCriteria, Criteria.predicates, Criteria.compile, pure_bind,
      Criteria.texts]
  | cons field rest =>
    obtain ⟨name, v⟩ := field
    have hhead : testWith window name v = _ := ih (.test name v) .testsHead
    have htail : testsWith window rest = _ := ih (.tests rest) .testsTail
    rw [testsWith, hhead, htail, fieldsCriteria_cons, Criteria.predicates_append]

theorem isRead_test {name : String} {v : Json} (ih : (Part.test name v).Below Part.IsRead) :
    (Part.test name v).IsRead := by
  have hnested (h : (Part.test name v).Calls (.conditions v)) :
      conditionsWith window v = Criteria.predicates (criteria v) := ih (.conditions v) h
  show testWith window name v = _
  rw [testWith.eq_def, fieldCriteria]
  split
  · rename_i hand
    subst hand
    split
    · rfl
    · rename_i h
      rw [hnested (.testAnd h), Criteria.predicates_join]
      rfl
  · split
    · rename_i hor
      subst hor
      split
      · rfl
      · rename_i h
        rw [hnested (.testOr h), Criteria.predicates_join]
        rfl
    · split
      · exact opsWith_eq name _
      · exact (Criteria.predicates_test name _).symm
      · rename_i harray hobject
        rw [testsOf_scalar ⟨harray, hobject⟩, Criteria.predicates_test, compileOp_equal]

theorem isRead_part (p : Part) : p.IsRead := by
  refine Part.induction (fun p ih => ?_) p
  cases p with
  | conditions => exact isRead_conditions ih
  | tests => exact isRead_tests ih
  | test => exact isRead_test ih
  | _ => trivial

/-- A condition is compiled as it is read. -/
theorem compileConditions_eq (conds : Json) :
    compileConditions conds = Criteria.predicates (criteria conds) :=
  isRead_part (.conditions conds)

/-- Every entry of a condition that compiles gives one predicate, in its place. -/
theorem yields_compileConditions_iff {conds : Json} {s : Scope} {l l' : Ledger}
    {ts : List Template} : (compileConditions conds).Yields s l ts l' ↔
      ∃ predicates : Criteria Template, ts = predicates.texts ∧
        predicates.shape = (criteria conds).shape ∧
          ((criteria conds).leaves.mapM Entry.compile).Yields s l predicates.leaves l' := by
  rw [compileConditions_eq, Criteria.predicates]
  simp only [Compile.yields_bind, Compile.yields_pure, Criteria.yields_compile_iff]
  constructor
  · rintro ⟨predicates, _, ⟨hshape, hleaves⟩, rfl, rfl⟩
    exact ⟨predicates, rfl, hshape, hleaves⟩
  · rintro ⟨predicates, rfl, hshape, hleaves⟩
    exact ⟨predicates, l', ⟨hshape, hleaves⟩, rfl, rfl⟩

end QuerySheet.Sql

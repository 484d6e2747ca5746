import QuerySheet.Proofs.Sql.Spelling

/-!
# What is written of an expression

Not everything that is compiled is written: a test for being one of no values at all becomes a
constant, and what was compiled for it is left out.

* `Task.Written`: something that is written is a call of a kind;
* `Traces`: a property of phrases that comes in with calls of a kind, and that a phrase has besides
  exactly if one of its parts has it;
* `Traces.written_iff`: so an expression is written with the property exactly if such a call is
  written.
-/

namespace QuerySheet.Sql

/-! ## 1. Calls that are written -/

/-- A test for being one of no values at all, which is written as a constant. -/
def Part.IsNever (p : Part) : Prop :=
  ∃ field value transform, p = .comparison field .oneOf value transform ∧
    literalItems? value = some []

namespace Task

/-- Something that is written is a call of a kind. -/
inductive Written (own : String → Json → Prop) : Task → Prop
  | here {orders : List Json} {name : String} {raw : Json} (h : own name raw) :
      Written own ⟨orders, .call name raw⟩
  | call {t u : Task} (h : Calls t u) (hwritten : ¬ t.part.IsNever) (hu : Written own u) :
      Written own t

variable {own : String → Json → Prop} {orders : List Json}

/-- A call is one of the kind, or something that it calls is written with one. -/
theorem written_call_iff {name : String} {raw : Json} {ts : List Task}
    (h : Expands ⟨orders, .call name raw⟩ ts) :
    Written own ⟨orders, .call name raw⟩ ↔ own name raw ∨ ∃ u ∈ ts, u.Written own := by
  constructor
  · intro ht
    cases ht with
    | here hown => exact .inl hown
    | call hcall _ hu => exact .inr ⟨_, (h _).mp hcall, hu⟩
  · rintro (hown | ⟨u, hu, hsome⟩)
    · exact .here hown
    · exact .call ((h u).mpr hu) (fun ⟨_, _, _, hp, _⟩ => by cases hp) hsome

/-- What calls no function writes what it compiles, unless it is written as a constant. -/
theorem written_iff_of_ne {p : Part} {ts : List Task} (h : Expands ⟨orders, p⟩ ts)
    (hwritten : ¬ p.IsNever) (hcall : ∀ name raw, p ≠ .call name raw) :
    Written own ⟨orders, p⟩ ↔ ∃ u ∈ ts, u.Written own := by
  constructor
  · intro ht
    cases ht with
    | here => exact absurd rfl (hcall _ _)
    | call hu _ hsome => exact ⟨_, (h _).mp hu, hsome⟩
  · rintro ⟨u, hu, hsome⟩
    exact .call ((h u).mpr hu) hwritten hsome

theorem not_written_of_never {t : Task} (h : t.part.IsNever) : ¬ t.Written own := by
  intro ht
  cases ht with
  | here =>
    obtain ⟨field, value, transform, hpart, -⟩ := h
    cases hpart
  | call _ hwritten _ => exact hwritten h

theorem not_written_of_none {p : Part} (h : Expands ⟨orders, p⟩ [])
    (hcall : ∀ name raw, p ≠ .call name raw) : ¬ Written own ⟨orders, p⟩ := by
  intro ht
  cases ht with
  | here => exact hcall _ _ rfl
  | call hu => exact List.not_mem_nil ((h _).mp hu)

end Task

/-- It is no comparison. -/
theorem Part.not_isNever {p : Part}
    (h : ∀ field op value transform, p ≠ .comparison field op value transform) : ¬ p.IsNever :=
  fun ⟨_, _, _, hp, _⟩ => h _ _ _ _ hp

open Sql.Task in
theorem Part.Passes.expands {p q : Part} {orders : List Json} (h : p.Passes q) :
    Task.Expands ⟨orders, p⟩ [⟨orders, q⟩] := by
  cases h with
  | object => exact expands_object
  | function => exact expands_function
  | conditions h => exact expands_conditions h
  | ops _ hand hor => exact expands_testOps hand hor
  | op _ hand hor => exact expands_testOp hand hor
  | eq hand hor hv => exact expands_testEq hand hor hv
  | comparison hf ho => exact expands_op hf ho
  | leftField => exact expands_left_field
  | leftName => exact expands_left_name
  | leftCall => exact expands_left_call

/-! ## 2. Properties of phrases -/

/-- A phrase without parts. -/
def Phrase.isAtom : Phrase → Bool
  | .digits _ | .null | .number _ | .literal _ | .hole _ | .column _ _ | .rows => true
  | .call _ _ | .group _ | .condition _ | .minus _ | .orderBy _ | .beside _ _ _ | .after _ _
  | .orNull _ _ => false

/-- Phrases have a property from their parts. What calls and minus signs do is left open. -/
structure Additive (m : Phrase → Bool) : Prop where
  atom (φ : Phrase) (h : φ.isAtom = true) : m φ = false
  leading (φ : Phrase) (d : Digits) : m (.leading φ d) = m φ
  group (φ : Phrase) : m (.group φ) = m φ
  condition (φ : Phrase) : m (.condition φ) = m φ
  orderBy (φ : Phrase) : m (.orderBy φ) = m φ
  after (φ : Phrase) (tail : Tail) : m (.after φ tail) = m φ
  beside (gap : Gap) (φ ψ : Phrase) (h : gap ≠ .over) : m (.beside φ gap ψ) = (m φ || m ψ)
  orNull (φ ψ : Phrase) : m (.orNull φ ψ) = (m φ || m ψ)
  runningSum (φ ρ : Phrase) : m (.runningSum φ ρ) = (m φ || m ρ)

namespace Additive

variable {m : Phrase → Bool} {φ φ' ψ χ : Phrase}

section Parts

variable (hm : Additive m)

include hm

theorem join (gap : Gap) (h : gap ≠ .over) (φs : List Phrase) :
    m (.join gap φs) = φs.any m := by
  induction φs with
  | nil => exact hm.atom _ rfl
  | cons φ φs ih =>
    cases φs with
    | nil => simp [Phrase.join]
    | cons ψ rest =>
      rw [List.any_cons, ← ih]
      exact hm.beside _ _ _ h

theorem all (φs : List Phrase) : m (.all φs) = φs.any m := by
  cases φs with
  | nil => exact hm.atom _ rfl
  | cons φ φs => exact (hm.group _).trans (hm.join .all nofun (φ :: φs))

theorem any (φs : List Phrase) : m (.any φs) = φs.any m := by
  cases φs with
  | nil => exact hm.atom _ rfl
  | cons φ φs => exact (hm.group _).trans (hm.join .any nofun (φ :: φs))

theorem conjunction (φs : List Phrase) : m (.conjunction φs) = φs.any m := by
  cases φs with
  | nil => exact (hm.condition _).trans (hm.atom _ rfl)
  | cons φ φs => exact (hm.condition _).trans (hm.join .conjunction nofun (φ :: φs))

theorem leaf {e : Json} (h : Leaf e φ) : m φ = false := by
  cases h <;> exact hm.atom _ rfl

theorem recast (h : Recast φ φ') : m φ' = m φ := by
  cases h with
  | same => rfl
  | date | shorten | never => rw [hm.atom _ rfl, hm.atom _ rfl]
  | leading d => exact hm.leading _ d

theorem compares {op : Operator} {value : Json} (h : Compares op value φ ψ χ) :
    m χ = (m φ || m ψ) := by
  cases h with
  | @sign _ gap _ _ _ _ h hψ =>
    have hgap : gap ≠ .over := by
      rintro rfl
      cases op <;> cases h
    rw [← hm.recast hψ, hm.beside _ _ _ hgap]
  | like hφ hψ => rw [← hm.recast hφ, ← hm.recast hψ, hm.beside .like _ _ nofun]
  | isNull _ _ hψ => rw [← hm.recast hψ, hm.atom .null rfl, Bool.or_false, hm.after]
  | orNull _ _ hψ => rw [← hm.recast hψ, hm.orNull]
  | equal _ _ hψ => rw [← hm.recast hψ, hm.beside .equal _ _ nofun]

theorem directs (h : Directs φ φ') : m φ' = m φ := by
  cases h with
  | none => rfl
  | asc | desc => exact hm.after _ _

end Parts

end Additive

theorem Compares.ne_oneOf {op : Operator} {value : Json} {φ ψ χ : Phrase}
    (h : Compares op value φ ψ χ) : op ≠ .oneOf := by
  rintro rfl
  cases h with
  | sign _ h => cases h

theorem Leaf.ne_object {e : Json} {φ : Phrase} (h : Leaf e φ) (fields : Fields) :
    e ≠ .object fields := by
  cases h <;> nofun

/-! ## 3. Lists -/

section Literals

variable {orders : List Json} {φ : Phrase} {φs : List Phrase}

theorem Spells.of_object {name : String} {raw : Json} {rest : Fields}
    (h : Spells orders (.part (.expr (.object ((name, raw) :: rest)))) φs) :
    Spells orders (.part (.call name raw)) φs := by
  cases h with
  | leaf h => cases h
  | pass h hq =>
    cases h
    cases hq with
    | pass h hq =>
      cases h
      exact hq

/-- A literal is written as its argument is. -/
theorem Spells.of_literal {name : String} {raw : Json}
    (h : Spells orders (.part (.call name raw)) [φ])
    (hf : Function.ofName? name = some .literal) :
    ∃ v rest χ, Sql.arguments raw = v :: rest ∧ Spells orders (.part (.expr v)) [χ] ∧
      Recast χ φ := by
  cases h with
  | pass h => cases h
  | condition hg =>
    rw [hf] at hg
    cases hg
  | running hg =>
    rw [hf] at hg
    cases hg
  | call hg hargs h =>
    rw [hf] at hg
    cases hg
    cases h with
    | routine _ h => cases h
    | part h => rcases h with h | h <;> cases h
    | literal =>
      generalize hraw : Sql.arguments raw = args at hargs
      cases hargs with
      | pass h => cases h
      | arguments hv h hrest => exact ⟨_, _, _, rfl, hv, h⟩

variable {m : Phrase → Bool} (hm : Additive m)

include hm

theorem Additive.of_literal {raw v : Json} {rest : Fields}
    (h : Spells orders (.part (.expr (.object (("$literal", raw) :: rest)))) [φ])
    (hargs : ∀ w more, arguments raw = w :: more → w = v)
    (hv : ∀ {χ}, Spells orders (.part (.expr v)) [χ] → m χ = false) : m φ = false := by
  obtain ⟨w, more, χ, hw, hχ, hcast⟩ := h.of_object.of_literal rfl
  rw [hargs w more hw] at hχ
  rw [hm.recast hcast, hv hχ]

/-- The items of a list are not written where the list is. -/
theorem Additive.of_literalItems {v : Json} {items : List Json}
    (h : Spells orders (.part (.expr v)) [φ]) (hitems : literalItems? v = some items) :
    m φ = false := by
  fun_induction literalItems? v generalizing φ with
  | case1 items =>
    cases h with
    | pass h => cases h
    | leaf h => exact hm.leaf h
  | case2 v rest ih =>
    refine hm.of_literal h (fun w ws hw => ?_) fun hχ => ih hχ hitems
    exact (List.cons.inj hw).1.symm
  | case5 v rest _ hne ih =>
    refine hm.of_literal h (fun w ws hw => ?_) fun hχ => ih hχ hitems
    unfold arguments at hw
    split at hw
    · subst hw
      exact absurd rfl (hne (w :: ws))
    · exact (List.cons.inj hw).1.symm
  | _ => cases hitems

end Literals

/-! ## 4. Expressions -/

/-- Something that is written for these phrases is a call of a kind. -/
def Origin.Written (own : String → Json → Prop) (orders : List Json) : Origin → Prop
  | .part p => Task.Written own ⟨orders, p⟩
  | .rows => ∃ t ∈ windowTasks orders, t.Written own
  | .order e => ∃ t ∈ orderTasks orders e, t.Written own
  | .orders es => ∃ t ∈ es.flatMap (orderTasks orders), t.Written own

/-- Calls of a kind bring in a property of phrases. Neither conditions nor running sums are calls
    of the kind. -/
structure Traces (orders : List Json) (m : Phrase → Bool) (own : String → Json → Prop) : Prop
    extends Additive m where
  call {name : String} {raw : Json} {f : Function} {φs : List Phrase} {φ : Phrase}
    (hf : Function.ofName? name = some f)
    (hargs : Spells orders (.part (.arguments f.parameters (arguments raw))) φs)
    (h : Applies f φs φ) : m φ = true ↔ own name raw ∨ φs.any m = true
  special {name : String} (raw : Json) {f : Function} (hf : Function.ofName? name = some f)
    (h : f = .condition ∨ f = .sumOver) : ¬ own name raw

section Traces

open Sql.Task

variable {orders : List Json} {φs : List Phrase} {m : Phrase → Bool} {own : String → Json → Prop}

/-- An expression is written with the property exactly if a call of the kind is written. -/
theorem Traces.written_iff (hm : Traces orders m own) {origin : Origin}
    (h : Spells orders origin φs) : φs.any m = true ↔ origin.Written own orders := by
  induction h with
  | leaf h =>
    rw [List.any_cons, List.any_nil, hm.leaf h]
    exact iff_of_false nofun (not_written_of_none (expands_expr h.ne_object) nofun)
  | pass h _ ih =>
    rw [ih]
    refine ((written_iff_of_ne h.expands ?_ ?_).trans ?_).symm
    · cases h <;> exact Part.not_isNever nofun
    · cases h <;> nofun
    · simp [Origin.Written]
  | @condition name raw φs hf _ ih =>
    rw [List.any_cons, List.any_nil, Bool.or_false, hm.conjunction, ih]
    refine ((written_call_iff (expands_condition hf)).trans ?_).symm
    simp [Origin.Written, hm.special raw hf (.inl rfl)]
  | @call name raw f φs φ hf hargs h ih =>
    obtain ⟨hcondition, hsum⟩ := h.ne_special
    rw [List.any_cons, List.any_nil, Bool.or_false, hm.call hf hargs h, ih]
    refine ((written_call_iff (expands_call hf hcondition)).trans ?_).symm
    simp [Origin.Written, hsum]
  | @running name raw φ ρ hf _ _ ihargs ihrows =>
    rw [List.any_cons, List.any_nil, Bool.or_false] at ihargs ihrows ⊢
    rw [hm.runningSum, Bool.or_eq_true, ihargs, ihrows]
    refine ((written_call_iff (expands_call hf nofun)).trans ?_).symm
    simp [Origin.Written, hm.special raw hf (.inr rfl)]
  | noArguments h =>
    exact iff_of_false nofun (not_written_of_none (expands_arguments_none h) nofun)
  | arguments _ h _ ihv ihrest =>
    rw [List.any_cons, List.any_nil, Bool.or_false] at ihv
    rw [List.any_cons, Bool.or_eq_true, hm.recast h, ihv, ihrest]
    refine ((written_iff_of_ne expands_arguments (Part.not_isNever nofun) nofun).trans ?_).symm
    simp [Origin.Written]
  | noTests => exact iff_of_false nofun (not_written_of_none expands_tests_nil nofun)
  | tests _ _ ihv ihrest =>
    rw [List.any_append, Bool.or_eq_true, ihv, ihrest]
    refine ((written_iff_of_ne expands_tests (Part.not_isNever nofun) nofun).trans ?_).symm
    simp [Origin.Written]
  | noTest h => exact iff_of_false nofun (not_written_of_none (expands_test_none h) nofun)
  | all hv _ ih =>
    rw [List.any_cons, List.any_nil, Bool.or_false, hm.all, ih]
    refine ((written_iff_of_ne (expands_and rfl hv) (Part.not_isNever nofun) nofun).trans ?_).symm
    simp [Origin.Written]
  | any hv _ ih =>
    rw [List.any_cons, List.any_nil, Bool.or_false, hm.any, ih]
    refine ((written_iff_of_ne (expands_or rfl hv) (Part.not_isNever nofun) nofun).trans ?_).symm
    simp [Origin.Written]
  | noOps => exact iff_of_false nofun (not_written_of_none expands_ops_nil nofun)
  | ops _ _ ihop ihrest =>
    rw [List.any_cons, List.any_nil, Bool.or_false] at ihop
    rw [List.any_cons, Bool.or_eq_true, ihop, ihrest]
    refine ((written_iff_of_ne expands_ops (Part.not_isNever nofun) nofun).trans ?_).symm
    simp [Origin.Written]
  | comparison _ _ h ihleft ihvalue =>
    rw [List.any_cons, List.any_nil, Bool.or_false] at ihleft ihvalue ⊢
    rw [hm.compares h, Bool.or_eq_true, ihleft, ihvalue]
    refine ((written_iff_of_ne (expands_comparison fun _ hop => absurd hop h.ne_oneOf) ?_
      nofun).trans ?_).symm
    · rintro ⟨_, _, _, hp, -⟩
      cases hp
      exact h.ne_oneOf rfl
    · simp [Origin.Written]
  | never h =>
    rw [List.any_cons, List.any_nil, hm.atom _ rfl]
    exact iff_of_false nofun (not_written_of_never ⟨_, _, _, rfl, h⟩)
  | among h hne _ hvalue _ ihleft ihvalue ihitems =>
    rw [List.any_cons, List.any_nil, Bool.or_false] at ihleft ihvalue ⊢
    have hnot : ¬ Origin.Written own orders (.part (.expr _)) := fun hwritten =>
      absurd (ihvalue.mpr hwritten) (by rw [hm.of_literalItems hvalue h]; nofun)
    rw [hm.beside .among _ _ nofun, hm.group, hm.join .items nofun, Bool.or_eq_true, ihleft,
      ihitems]
    refine ((written_iff_of_ne (expands_oneOf h hne) ?_ nofun).trans ?_).symm
    · rintro ⟨_, _, _, hp, hnone⟩
      cases hp
      rw [h] at hnone
      exact hne (Option.some.inj hnone)
    · simp only [List.mem_cons, List.not_mem_nil, or_false, exists_eq_or_imp, exists_eq_left]
      exact or_congr_right (or_iff_right hnot)
  | noElements => exact iff_of_false nofun (not_written_of_none expands_elements_nil nofun)
  | elements _ h _ ihv ihrest =>
    rw [List.any_cons, List.any_nil, Bool.or_false] at ihv
    rw [List.any_cons, Bool.or_eq_true, hm.recast h, ihv, ihrest]
    refine ((written_iff_of_ne expands_elements (Part.not_isNever nofun) nofun).trans ?_).symm
    simp [Origin.Written]
  | allRows h =>
    subst h
    rw [List.any_cons, List.any_nil, hm.atom _ rfl]
    exact iff_of_false nofun fun ⟨_, ht, _⟩ => List.not_mem_nil ht
  | rows _ ih =>
    rw [List.any_cons, List.any_nil, Bool.or_false, hm.beside .blank _ _ nofun, hm.orderBy,
      hm.join .arguments nofun, hm.atom .rows rfl, Bool.or_false, ih]
    rfl
  | order he _ h ih =>
    rw [List.any_cons, List.any_nil, Bool.or_false] at ih ⊢
    rw [hm.directs h, ih]
    simp [Origin.Written, he]
  | noOrders => exact iff_of_false nofun fun ⟨_, ht, _⟩ => List.not_mem_nil ht
  | orders _ _ ihe ihes =>
    rw [List.any_cons, List.any_nil, Bool.or_false] at ihe
    rw [List.any_cons, Bool.or_eq_true, ihe, ihes]
    simp only [Origin.Written, List.flatMap_cons, List.mem_append, or_and_right, exists_or]

end Traces

end QuerySheet.Sql

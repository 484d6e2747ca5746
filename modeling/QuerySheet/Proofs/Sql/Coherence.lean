import Mathlib
import QuerySheet.Proofs.Sql.Contract
import QuerySheet.Proofs.Sql.Equality
import QuerySheet.Proofs.Sql.Holes
import QuerySheet.Proofs.Sql.Phases

/-!
# Casts on the way and casts that are repeated

A value may be cast more than once: as the argument of a call, as one side of an equality, as an
item of a list.

* `Operand.Definite`: what is known of a compiled operand that is a literal. Every expression is
  compiled to such an operand (`definite_compileExpr`), since what keeps it is kept by all steps;
* `cast_again`: what a cast gives has the wanted type or is the literal null, and is given back by
  the same cast, which leaves the ledger as it is;
* `Widened`: how an operand is cast that is neither a parameter nor null; `Becomes`: how a literal
  is cast (`yields_cast_iff`). A type in between does not matter (`Becomes.trans`), as the leading
  digits of a date are the leading digits of its month;
* `coherent_casts`: both for all expressions and for all literals.
-/

namespace QuerySheet.Sql

variable {s : Scope} {l l' : Ledger} {o a b r : Operand} {target type : ValueType}

/-! ## 1. Definite operands -/

namespace Operand

/-- A literal is no parameter and has one type. If that is the null type, it is the null. -/
structure Definite (o : Operand) : Prop where
  param : o.literal = true → o.param? = none
  type : o.literal = true → o.type ≠ .any
  null : o.literal = true → o.type = .null → o = .ofLiteral "NULL" .null

theorem definite_of_not_literal (h : o.literal = false) : o.Definite := by
  constructor <;> simp [h]

theorem definite_of_type (hparam : o.param? = none) (htype : o.type ≠ .any ∧ o.type ≠ .null) :
    o.Definite :=
  ⟨fun _ => hparam, fun _ => htype.1, fun _ hnull => absurd hnull htype.2⟩

theorem definite_null : (ofLiteral "NULL" .null).Definite :=
  ⟨fun _ => rfl, fun _ => nofun, fun _ _ => rfl⟩

theorem definite_ofNumber (n : Number) : (ofNumber n).Definite := by
  unfold ofNumber
  repeat' split
  all_goals exact definite_of_type rfl ⟨nofun, nofun⟩

theorem definite_ofScalar {v : Json} (h : (ofScalar v).Yields s l o l') : o.Definite := by
  unfold ofScalar at h
  split at h
  · exact (Compile.yields_pure.mp h).1 ▸ definite_null
  · exact (Compile.yields_pure.mp h).1 ▸ definite_of_type rfl ⟨nofun, nofun⟩
  · exact (Compile.yields_pure.mp h).1 ▸ definite_ofNumber _
  · exact (Compile.yields_pure.mp h).1 ▸ definite_of_type rfl ⟨nofun, nofun⟩
  · exact absurd h Compile.yields_fail

/-! ## 2. What a cast gives -/

/-- A cast to another type: of a parameter, of a literal null, or of anything else. -/
theorem cast_cases (hne : o.type ≠ target) (h : (o.cast target).Yields s l r l') :
    (o.param?.isSome ∧ r = o.retag target) ∨
    (o.param? = none ∧ o.type = .null ∧ o.literal = true ∧ l' = l ∧
      r = if target = .boolean then ofLiteral "0" .boolean else o) ∨
    (o.param? = none ∧ o.type ≠ .null ∧ (o.convert target).Yields s l r l') := by
  unfold cast at h
  rw [if_neg hne] at h
  split at h
  · rename_i ref href
    obtain ⟨_, l₁, -, h⟩ := Compile.yields_bind.mp h
    exact .inl ⟨by rw [href]; rfl, (Compile.yields_pure.mp h).1⟩
  · rename_i hparam
    refine .inr ?_
    by_cases hnull : o.type = .null
    · rw [if_pos hnull] at h
      by_cases hliteral : o.literal = true
      · refine .inl ⟨hparam, hnull, hliteral, ?_⟩
        rw [if_neg (by simp [hliteral])] at h
        split at h
        · rename_i hboolean
          rw [if_pos hboolean]
          exact (Compile.yields_pure.mp h).symm
        · rename_i hboolean
          rw [if_neg hboolean]
          exact (Compile.yields_pure.mp h).symm
      · rw [if_pos (by simp [hliteral])] at h
        exact absurd h Compile.yields_fail
    · rw [if_neg hnull] at h
      exact .inr ⟨hparam, hnull, h⟩

/-- An operand as a date. -/
inductive Dated (o : Operand) : Operand → Prop
  | date (h : o.type = .date) : Dated o o
  | text {n : Nat} (h : o.type = .string) (hliteral : o.literal = true)
      (hn : Date.parse? (unquote o.sql.text) = some n) : Dated o (ofLiteral (toString n) .date)
  | any (h : o.type = .any) : Dated o (o.retag .date)

/-- An operand as one of another type, if it is neither a parameter nor null. -/
inductive Widened (o : Operand) : ValueType → Operand → Prop
  | date {d : Operand} (hd : Dated o d) : Widened o .date d
  | month {d : Operand} (hd : Dated o d) : Widened o .dateMonth (d.truncateDate 6 .dateMonth)
  | year {d : Operand} (hd : Dated o d) : Widened o .dateYear (d.truncateDate 4 .dateYear)
  | yearOfMonth (h : o.type = .dateMonth) : Widened o .dateYear (o.truncateDate 4 .dateYear)
  | id (h : o.type = .string) : Widened o .id (o.retag .id)
  | float (h : o.type = .integer) : Widened o .float (o.retag .float)
  | any {target : ValueType} (h : o.type = .any) : Widened o target (o.retag target)

theorem yields_toDate_dated (h : o.toDate.Yields s l r l') : Dated o r ∧ l' = l := by
  unfold toDate at h
  split at h
  · rename_i hdate
    obtain ⟨rfl, rfl⟩ := Compile.yields_pure.mp h
    exact ⟨.date hdate, rfl⟩
  · rename_i htext
    split at h
    · rename_i hliteral
      dsimp only at h
      split at h
      · rename_i hn
        obtain ⟨rfl, rfl⟩ := Compile.yields_pure.mp h
        exact ⟨.text htext hliteral hn, rfl⟩
      · exact absurd h Compile.yields_fail
    · exact absurd h Compile.yields_fail
  · rename_i hany
    obtain ⟨rfl, rfl⟩ := Compile.yields_pure.mp h
    exact ⟨.any hany, rfl⟩
  · exact absurd h Compile.yields_fail

theorem yields_truncated {digits : Nat}
    (h : (o.toDate >>= fun d => pure (d.truncateDate digits type)).Yields s l r l') :
    ∃ d, Dated o d ∧ r = d.truncateDate digits type ∧ l' = l := by
  obtain ⟨d, l₁, hd, hr⟩ := Compile.yields_bind.mp h
  obtain ⟨hdated, rfl⟩ := yields_toDate_dated hd
  obtain ⟨rfl, rfl⟩ := Compile.yields_pure.mp hr
  exact ⟨d, hdated, rfl, rfl⟩

theorem yields_convert (h : (o.convert target).Yields s l r l') : Widened o target r ∧ l' = l := by
  unfold convert at h
  split at h
  · obtain ⟨hd, hl⟩ := yields_toDate_dated h
    exact ⟨.date hd, hl⟩
  · split at h
    all_goals first
      | exact absurd h Compile.yields_fail
      | obtain ⟨d, hd, rfl, hl⟩ := yields_truncated h
        exact ⟨.month hd, hl⟩
  · split at h
    all_goals rename_i hsource
    all_goals first
      | exact absurd h Compile.yields_fail
      | obtain ⟨d, hd, rfl, hl⟩ := yields_truncated h
        exact ⟨.year hd, hl⟩
      | obtain ⟨rfl, rfl⟩ := Compile.yields_pure.mp h
        exact ⟨.yearOfMonth hsource, rfl⟩
  · split at h
    · rename_i hsource _ _ _
      obtain ⟨rfl, rfl⟩ := Compile.yields_pure.mp h
      exact ⟨.id hsource, rfl⟩
    · rename_i hsource _ _ _
      obtain ⟨rfl, rfl⟩ := Compile.yields_pure.mp h
      exact ⟨.float hsource, rfl⟩
    · rename_i hsource _ _ _
      obtain ⟨rfl, rfl⟩ := Compile.yields_pure.mp h
      exact ⟨.any hsource, rfl⟩
    · exact absurd h Compile.yields_fail

theorem type_truncateDate (o : Operand) (digits : Nat) (type : ValueType) :
    (o.truncateDate digits type).type = type := by
  unfold truncateDate
  split <;> rfl

theorem Dated.type_eq (h : Dated o r) : r.type = .date := by
  cases h with
  | date h => exact h
  | text => rfl
  | any => rfl

theorem Dated.param (h : Dated o r) (hparam : o.param? = none) : r.param? = none := by
  cases h with
  | date => exact hparam
  | text => rfl
  | any => exact Contract.Lawful.param?_retag

theorem Widened.type_eq (h : Widened o target r) : r.type = target := by
  cases h with
  | date hd => exact hd.type_eq
  | month | year | yearOfMonth => exact type_truncateDate ..
  | id | float | any => rfl

theorem Widened.definite (h : Widened o target r) (ho : o.Definite) (hparam : o.param? = none) :
    r.Definite := by
  have htype := h.type_eq
  cases h with
  | date hd => exact definite_of_type (hd.param hparam) (by rw [htype]; decide)
  | month | year | yearOfMonth =>
    exact definite_of_type Contract.Lawful.param?_truncateDate (by rw [htype]; decide)
  | id | float => exact definite_of_type Contract.Lawful.param?_retag (by rw [htype]; decide)
  | any hany =>
    -- a value of any type is read from somewhere
    exact definite_of_not_literal (Bool.eq_false_iff.mpr fun hliteral => ho.type hliteral hany)

theorem definite_cast (ho : o.Definite) (h : (o.cast target).Yields s l r l') : r.Definite := by
  by_cases hsame : o.type = target
  · rw [cast, if_pos hsame] at h
    exact (Compile.yields_pure.mp h).1 ▸ ho
  rcases cast_cases hsame h with ⟨hparam, rfl⟩ | ⟨-, -, -, -, rfl⟩ | ⟨hparam, -, h⟩
  · refine definite_of_not_literal (Bool.eq_false_iff.mpr fun hliteral => ?_)
    rw [ho.param hliteral] at hparam
    cases hparam
  · split
    · exact definite_of_type rfl ⟨by decide, by decide⟩
    · exact ho
  · exact (yields_convert h).1.definite ho hparam

theorem cast_self (h : o.type = target) : (o.cast target).Yields s l o l := by
  rw [cast, if_pos h]
  exact Compile.yields_pure.mpr ⟨rfl, rfl⟩

theorem cast_null (h : target ≠ .boolean) :
    ((ofLiteral "NULL" .null).cast target).Yields s l (ofLiteral "NULL" .null) l := by
  by_cases hnull : target = .null
  · exact cast_self hnull.symm
  · rw [cast, if_neg fun e => hnull e.symm]
    simp only [param?, ofLiteral, if_true, Bool.not_true, Bool.false_eq_true, if_false, h]
    exact Compile.yields_pure.mpr ⟨rfl, rfl⟩

/-- What a cast gives has the wanted type or is the literal null. The same cast gives it back, in
    every scope and with every ledger. -/
theorem cast_again (ho : o.Definite) (h : (o.cast target).Yields s l r l') :
    (r.type = target ∨ r = .ofLiteral "NULL" .null) ∧
      ∀ s l, (r.cast target).Yields s l r l := by
  have hdone (htype : r.type = target) : (r.type = target ∨ r = .ofLiteral "NULL" .null) ∧
      ∀ s l, (r.cast target).Yields s l r l := ⟨.inl htype, fun _ _ => cast_self htype⟩
  by_cases hsame : o.type = target
  · obtain rfl := (Compile.yields_pure.mp (by rwa [cast, if_pos hsame] at h)).1
    exact hdone hsame
  rcases cast_cases hsame h with ⟨-, rfl⟩ | ⟨-, hnull, hliteral, -, hr⟩ | ⟨-, -, h⟩
  · exact hdone rfl
  · split at hr
    · rename_i hboolean
      exact hdone (hr ▸ hboolean.symm)
    · rename_i hboolean
      rw [hr, ho.null hliteral hnull]
      exact ⟨.inr rfl, fun s l => cast_null hboolean⟩
  · exact hdone (yields_convert h).1.type_eq

/-! ## 3. From one type to another, and on to a third one -/

theorem Dated.source (h : Dated o r) (hany : o.type ≠ .any) :
    o.type = .date ∨ o.type = .string := by
  cases h with
  | date h => exact .inl h
  | text h => exact .inr h
  | any h => exact absurd h hany

theorem Dated.literal (h : Dated o r) (hliteral : o.literal = true) : r.literal = true := by
  cases h with
  | date => exact hliteral
  | text => rfl
  | any => exact hliteral

theorem Dated.self (h : Dated o r) (hdate : o.type = .date) : r = o := by
  cases h with
  | date => rfl
  | text h | any h =>
    rw [h] at hdate
    cases hdate

theorem truncateDate_literal {digits : Nat} (hliteral : o.literal = true) :
    o.truncateDate digits type =
      ofLiteral (String.ofList (o.sql.text.toList.take digits)) type := by
  rw [truncateDate, if_pos hliteral]

/-- The leading digits of a month are those of its date. -/
theorem truncateDate_truncateDate (hliteral : o.literal = true) :
    (o.truncateDate 6 .dateMonth).truncateDate 4 type = o.truncateDate 4 type := by
  have htake : (o.sql.text.toList.take 6).take 4 = o.sql.text.toList.take 4 := List.take_take
  rw [truncateDate_literal hliteral, truncateDate_literal hliteral, truncateDate_literal rfl,
    ← htake, ofLiteral, ofLiteral, text_ofString, String.toList_ofList]
  rfl

section Literal

variable {A B : ValueType} (hany : o.type ≠ .any)

include hany

theorem Widened.source (h : Widened o target r) :
    o.type = .date ∨ o.type = .string ∨ o.type = .dateMonth ∨ o.type = .integer := by
  cases h with
  | date hd | month hd | year hd => exact (hd.source hany).imp_right .inl
  | yearOfMonth h => exact .inr (.inr (.inl h))
  | id h => exact .inr (.inl h)
  | float h => exact .inr (.inr (.inr h))
  | any h => exact absurd h hany

theorem Widened.target_ne (h : Widened o target r) : target ≠ .null ∧ target ≠ .any := by
  cases h with
  | any h => exact absurd h hany
  | _ => exact ⟨nofun, nofun⟩

/-- Nothing is widened to its own type, but a date is a date. -/
theorem Widened.eq_self (h : Widened o target r) (htype : o.type = target) : r = o := by
  cases h with
  | date hd => exact hd.self htype
  | month hd | year hd => exact absurd (hd.source hany) (by simp [htype])
  | yearOfMonth h | id h | float h => exact nomatch h.symm.trans htype
  | any h => exact absurd h hany

/-- The type in between does not matter: a month has the year of its date. -/
theorem Widened.trans (hliteral : o.literal = true) (hne : A ≠ B) (ha : Widened o A a)
    (hb : Widened a B b) : Widened o B b := by
  have htype := ha.type_eq
  cases ha with
  | date hd =>
    cases hb with
    | date => exact absurd rfl hne
    | month hd' => exact hd'.self htype ▸ .month hd
    | year hd' => exact hd'.self htype ▸ .year hd
    | yearOfMonth h | id h | float h | any h => exact nomatch htype.symm.trans h
  | month hd =>
    cases hb with
    | date hd' | month hd' | year hd' =>
      exact absurd (hd'.source (by simp [htype])) (by simp [htype])
    | yearOfMonth =>
      rw [truncateDate_truncateDate (hd.literal hliteral)]
      exact .year hd
    | id h | float h | any h => exact nomatch htype.symm.trans h
  | year | yearOfMonth | id | float =>
    exact absurd (hb.source (by simp [htype])) (by simp [htype])
  | any h => exact absurd h hany

theorem yields_of_dated (h : Dated o r) : o.toDate.Yields s l r l := by
  cases h with
  | date h =>
    rw [toDate, h]
    exact Compile.yields_pure.mpr ⟨rfl, rfl⟩
  | text h hliteral hn =>
    simp only [toDate, h, hliteral, if_true, hn]
    exact Compile.yields_pure.mpr ⟨rfl, rfl⟩
  | any h => exact absurd h hany

theorem Widened.yields (h : Widened o target r) : (o.convert target).Yields s l r l := by
  have htruncated {d : Operand} (hd : Dated o d) (digits : Nat) (type : ValueType) :
      (o.toDate >>= fun d => pure (d.truncateDate digits type)).Yields s l
        (d.truncateDate digits type) l :=
    Compile.yields_bind.mpr ⟨d, l, yields_of_dated hany hd, Compile.yields_pure.mpr ⟨rfl, rfl⟩⟩
  cases h with
  | date hd => exact yields_of_dated hany hd
  | month hd =>
    rcases hd.source hany with h | h <;> simp only [convert, h]
    · exact htruncated hd 6 .dateMonth
    · exact htruncated hd 6 .dateMonth
  | year hd =>
    rcases hd.source hany with h | h <;> simp only [convert, h]
    · exact htruncated hd 4 .dateYear
    · exact htruncated hd 4 .dateYear
  | yearOfMonth h | id h | float h => simp [convert, h]
  | any h => exact absurd h hany

end Literal

/-- A literal as one of another type. -/
inductive Becomes (o : Operand) : ValueType → Operand → Prop
  | self {target : ValueType} (h : o.type = target) : Becomes o target o
  | null {target : ValueType} (h : o.type = .null) (hne : o.type ≠ target) :
      Becomes o target (if target = .boolean then ofLiteral "0" .boolean else o)
  | widened {target : ValueType} {r : Operand} (hnull : o.type ≠ .null) (hne : o.type ≠ target)
      (h : Widened o target r) : Becomes o target r

theorem yields_cast_iff (ho : o.Definite) (hliteral : o.literal = true) :
    (o.cast target).Yields s l r l' ↔ Becomes o target r ∧ l' = l := by
  have hparam := ho.param hliteral
  have hany := ho.type hliteral
  constructor
  · intro h
    by_cases hsame : o.type = target
    · obtain ⟨rfl, rfl⟩ := Compile.yields_pure.mp (by rwa [cast, if_pos hsame] at h)
      exact ⟨.self hsame, rfl⟩
    rcases cast_cases hsame h with ⟨hsome, -⟩ | ⟨-, hnull, -, rfl, rfl⟩ | ⟨-, hnull, h⟩
    · rw [hparam] at hsome
      cases hsome
    · exact ⟨.null hnull hsame, rfl⟩
    · exact ⟨.widened hnull hsame (yields_convert h).1, (yields_convert h).2⟩
  · rintro ⟨h, rfl⟩
    cases h with
    | self h => exact cast_self h
    | null hnull hne =>
      simp only [cast, if_neg hne, hparam, if_pos hnull, hliteral, Bool.not_true,
        Bool.false_eq_true, if_false]
      split <;> exact Compile.yields_pure.mpr ⟨rfl, rfl⟩
    | widened hnull hne h =>
      rw [cast, if_neg hne, hparam]
      exact (if_neg hnull).symm ▸ h.yields hany

theorem Widened.literal (h : Widened o target r) (hliteral : o.literal = true) :
    r.literal = true := by
  cases h with
  | date hd => exact hd.literal hliteral
  | month hd | year hd => rw [truncateDate_literal (hd.literal hliteral)]; rfl
  | yearOfMonth => rw [truncateDate_literal hliteral]; rfl
  | id | float | any => exact hliteral

theorem Becomes.literal (h : Becomes o target r) (hliteral : o.literal = true) :
    r.literal = true := by
  cases h with
  | self => exact hliteral
  | null =>
    split
    · rfl
    · exact hliteral
  | widened _ _ h => exact h.literal hliteral

/-- By way of a second type a literal becomes the same as at once. -/
theorem Becomes.trans {A B : ValueType} (hliteral : o.literal = true) (hany : o.type ≠ .any)
    (ha : Becomes o A a) (hb : Becomes a B b) : Becomes o B b := by
  cases ha with
  | self => exact hb
  | null hnull hne =>
    split at hb
    · -- a truth value becomes nothing else
      cases hb with
      | self h =>
        obtain rfl : B = .boolean := h.symm
        exact .null hnull (by simp [hnull])
      | null h => exact absurd h (by simp [ofLiteral])
      | widened _ _ h => exact absurd (h.source (by simp [ofLiteral])) (by simp [ofLiteral])
    · exact hb
  | widened hnull hne ha =>
    have htype := ha.type_eq
    cases hb with
    | self h => exact .widened hnull (by rwa [← h, htype]) (by rwa [← h, htype])
    | null h => exact absurd (htype.symm.trans h) (ha.target_ne hany).1
    | widened _ hne' hb =>
      have h := ha.trans hany hliteral (htype ▸ hne') hb
      by_cases hback : o.type = B
      · rw [h.eq_self hany hback]
        exact .self hback
      · exact .widened hnull hback h

end Operand

/-! ## 4. All expressions -/

namespace Operand

/-- Of the operands of a compilation it is asked that they are definite. -/
def definiteness : Likeness := ⟨fun o _ => o.Definite, fun _ _ => True, fun _ _ => True,
  fun _ _ => True⟩

/-- A compilation gives nothing but what is asked for. The second one is not looked at. -/
def GivesDefinite (k : Kind) (m _ : Compile k.Carrier) : Prop :=
  ∀ s l a l', m.Yields s l a l' → definiteness.rel k a a

theorem definiteness_lawful : definiteness.Lawful where
  type_refl _ := trivial
  type_of _ := trivial
  sql_of _ := trivial
  fragment _ _ := definite_of_not_literal rfl
  array _ := definite_of_type rfl ⟨nofun, nofun⟩
  text _ := trivial
  append _ _ := trivial

theorem rel_self {k : Kind} {a a' : k.Carrier} (h : definiteness.rel k a a') :
    definiteness.rel k a a := by
  cases k with
  | operands | templates =>
    simp only [Likeness.rel, definiteness] at h ⊢
    induction h with
    | nil => exact .nil
    | cons h _ ih => exact .cons h ih
  | _ => exact h

theorem lockstep_definite : Lockstep definiteness Part.AnyName GivesDefinite where
  toLawful := definiteness_lawful
  pure h s l a l' hyields := (Compile.yields_pure.mp hyields).1 ▸ rel_self h
  fail _ _ _ _ _ _ h := absurd h Compile.yields_fail
  mistyped _ _ _ _ _ h := absurd h Compile.yields_fail
  bind hm hf s l b l' h := by
    obtain ⟨a, l₁, ha, hb⟩ := Compile.yields_bind.mp h
    exact hf a a (hm s l a l₁ ha) s l₁ b l' hb
  within _ _ _ _ hm s l a l' h := hm _ l a l' (Compile.yields_within.mp h)
  withField _ hm s l a l' h := hm _ l a l' h
  mark _ _ _ _ _ := trivial
  compileText _ s l o l' h := by
    unfold compileText at h
    split at h
    · obtain ⟨-, sql, type, rfl, -⟩ := (compileField_reads _ s l).yields h
      exact definite_of_not_literal rfl
    · obtain ⟨ref, l₁, -, hparam⟩ := Compile.yields_bind.mp h
      exact (Compile.yields_pure.mp hparam).1 ▸ definite_of_not_literal rfl
    · exact definite_ofScalar h
  scalar v s l o l' h := definite_ofScalar h
  cast ho _ s l r l' h := definite_cast ho h
  literal {o o'} ho s l r l' h := by
    split at h
    · exact (Compile.yields_pure.mp h).1 ▸ ho
    · exact absurd h Compile.yields_fail
  equality _ _ _ _ _ _ _ _ := trivial

theorem definite_compileExpr {e : Json} (h : (compileExpr e).Yields s l o l') : o.Definite :=
  have hpart : (Part.expr e).InStep definiteness GivesDefinite Sql.window Sql.window :=
    inStep_part lockstep_definite (.expr e) (Part.names_any _) fun _ _ _ _ _ _ => trivial
  hpart s l o l' h

theorem literal_ofScalar {v : Json} (h : (ofScalar v).Yields s l o l') : o.literal = true := by
  unfold ofScalar at h
  split at h
  · exact (Compile.yields_pure.mp h).1 ▸ rfl
  · exact (Compile.yields_pure.mp h).1 ▸ rfl
  · rw [(Compile.yields_pure.mp h).1]
    unfold ofNumber
    repeat' split
    all_goals rfl
  · exact (Compile.yields_pure.mp h).1 ▸ rfl
  · exact absurd h Compile.yields_fail

end Operand

/-- Whatever an expression is compiled to: what a cast of it gives has the wanted type or is the
    literal null, and the same cast gives it back, with any ledger and without a change to it. And
    if the literal of a value is cast to one type and then to a second one, a cast to the second
    type gives the same at once. -/
theorem coherent_casts :
    (∀ {e : Json} {s s' : Scope} {l l' l₁ l₂ : Ledger} {o r : Operand} {target : ValueType},
      (compileExpr e).Yields s l o l' → (o.cast target).Yields s' l₁ r l₂ →
      (r.type = target ∨ r = .ofLiteral "NULL" .null) ∧
        ∀ s l, (r.cast target).Yields s l r l) ∧
    ∀ {v : Json} {s s' s'' : Scope} {l l' l₁ l₂ l₃ l₄ : Ledger} {o a b : Operand}
      {A B : ValueType}, (Operand.ofScalar v).Yields s l o l' →
      (o.cast A).Yields s' l₁ a l₂ → (a.cast B).Yields s'' l₃ b l₄ →
      ∀ s l, (o.cast B).Yields s l b l := by
  refine ⟨fun he hr => Operand.cast_again (Operand.definite_compileExpr he) hr,
    fun hv ha hb s l => ?_⟩
  have ho := Operand.definite_ofScalar hv
  have hliteral := Operand.literal_ofScalar hv
  have hA := ((Operand.yields_cast_iff ho hliteral).mp ha).1
  have hB := ((Operand.yields_cast_iff (Operand.definite_cast ho ha) (hA.literal hliteral)).mp hb).1
  exact (Operand.yields_cast_iff ho hliteral).mpr ⟨hA.trans hliteral (ho.type hliteral) hB, rfl⟩

/-- The year of a date, by way of its month and at once. -/
theorem coherent_casts_of_date :
    let s := rootScope .none .empty { table := "payees" }
    let date := Operand.ofLiteral "'2020-01-15'" .string
    (compileExpr (.string "2020-01-15")).Yields s (.root "payees") date (.root "payees") ∧
      (date.cast .dateMonth).Yields s (.root "payees") (.ofLiteral "202001" .dateMonth)
        (.root "payees") ∧
      ((Operand.ofLiteral "202001" .dateMonth).cast .dateMonth).Yields s (.root "payees")
        (.ofLiteral "202001" .dateMonth) (.root "payees") ∧
      (date.cast .dateYear).Yields s (.root "payees") (.ofLiteral "2020" .dateYear)
        (.root "payees") := by
  intro s date
  have hdate : (compileExpr (.string "2020-01-15")).Yields s (.root "payees") date
      (.root "payees") := by
    rw [compileExpr_string]
    cbv
  have hscalar : (Operand.ofScalar (.string "2020-01-15")).Yields s (.root "payees") date
      (.root "payees") := by cbv
  have hmonth : (date.cast .dateMonth).Yields s (.root "payees") (.ofLiteral "202001" .dateMonth)
      (.root "payees") := by cbv
  have hyear : ((Operand.ofLiteral "202001" .dateMonth).cast .dateYear).Yields s (.root "payees")
      (.ofLiteral "2020" .dateYear) (.root "payees") := by cbv
  exact ⟨hdate, hmonth, (coherent_casts.1 hdate hmonth).2 _ _,
    coherent_casts.2 hscalar hmonth hyear _ _⟩

end QuerySheet.Sql

import QuerySheet.Proofs.Sql.ClosedText
import QuerySheet.Proofs.Sql.Contract
import QuerySheet.Proofs.Sql.Spelling

/-!
# Casts of operands and their phrases

* `Operand.Reads`: the text of an operand is that of a phrase, and its type fits it;
* `Ensures`: what holds of the result of a compilation in a scope of plain names;
* `ensures_compileText`, `ensures_ofScalar`: expressions without parts;
* `ensures_cast`, `ensures_parameter`: an operand of another type is recast from its phrase;
* `ensures_apply`: what a function makes of the operands that are its arguments.
-/

namespace QuerySheet.Sql

open Compile (Moves)

/-! ## 1. Operands -/

/-- The phrases that a literal of a type may be. -/
def Phrase.Literal (φ : Phrase) : ValueType → Prop
  | .date | .dateMonth | .dateYear => ∃ d, φ = .digits d
  | .null => φ = .null
  | .string => ∃ s, φ = .literal s
  | .any => False
  | _ => True

/-- The text of an operand is that of a phrase, and its type fits the phrase. -/
structure Operand.Reads (o : Operand) (φ : Phrase) : Prop where
  sql : o.sql = φ.template
  value : φ.isValue = true ∨ o.type = .boolean ∧ o.literal = false ∧ o.param? = none
  number : φ.isNumber = true → o.type = .integer ∨ o.type = .float
  param : ∀ ref, o.param? = some ref → (o.literal = false ∧ o.type = .param) ∧ φ = .hole ref
  literal : o.literal = true → φ.Literal o.type

namespace Operand

variable {o : Operand} {φ : Phrase}

theorem reads_fragment {sql : Template} {type : ValueType} (h : sql = φ.template)
    (hvalue : φ.isValue = true) (hnumber : φ.isNumber = false) : (fragment sql type).Reads φ where
  sql := h
  value := .inl hvalue
  number hφ := by rw [hnumber] at hφ; cases hφ
  param _ hparam := by cases hparam
  literal hliteral := by cases hliteral

theorem reads_condition {sql : Template} (h : sql = φ.template) (hnumber : φ.isNumber = false) :
    (fragment sql .boolean).Reads φ where
  sql := h
  value := .inr ⟨rfl, rfl, rfl⟩
  number hφ := by rw [hnumber] at hφ; cases hφ
  param _ hparam := by cases hparam
  literal hliteral := by cases hliteral

theorem reads_ofLiteral {s : String} {type : ValueType} (h : (s : Template) = φ.template)
    (hvalue : φ.isValue = true) (hliteral : φ.Literal type)
    (hnumber : φ.isNumber = true → type = .integer ∨ type = .float) :
    (ofLiteral s type).Reads φ where
  sql := h
  value := .inl hvalue
  number := hnumber
  param _ hparam := by cases hparam
  literal _ := hliteral

/-- Digits that stand for a date, or for a part of one. -/
theorem reads_digits (d : Digits) {type : ValueType} (h : (Phrase.digits d).Literal type) :
    (ofLiteral d.1 type).Reads (.digits d) :=
  reads_ofLiteral rfl rfl h nofun

theorem reads_ofParam (ref : ParamRef) : (ofParam ref).Reads (.hole ref) where
  sql := rfl
  value := .inl rfl
  number hφ := by cases hφ
  param _ hparam := ⟨⟨rfl, rfl⟩, by cases hparam; rfl⟩
  literal hliteral := by cases hliteral

theorem reads_ofArray (items : List Json) : (ofArray items).Reads (.digits .none) where
  sql := rfl
  value := .inl rfl
  number hφ := by cases hφ
  param _ hparam := by cases hparam
  literal _ := trivial

theorem reads_ofNumber (n : Number) : (ofNumber n).Reads (.number n) := by
  have hliteral (s : String) (type : ValueType) (htype : type = .integer ∨ type = .float)
      (h : (s : Template) = (Phrase.number n).template) : (ofLiteral s type).Reads (.number n) := by
    refine reads_ofLiteral h rfl ?_ fun _ => htype
    rcases htype with rfl | rfl <;> trivial
  unfold Phrase.template at hliteral
  unfold ofNumber at hliteral ⊢
  split
  · exact hliteral _ _ (.inl rfl) rfl
  · split
    · split
      · rename_i hinteger hbound
        exact hliteral _ _ (.inl rfl) (by simp only [hinteger, if_pos hbound]; rfl)
      · rename_i hinteger hbound
        exact hliteral _ _ (.inr rfl) (by simp only [hinteger, if_neg hbound]; rfl)
    · rename_i hinteger
      exact hliteral _ _ (.inr rfl) (by simp only [hinteger]; rfl)

namespace Reads

theorem isValue (h : o.Reads φ) (htype : o.type ≠ .boolean) : φ.isValue = true :=
  h.value.resolve_right fun hboolean => htype hboolean.1

theorem not_isNumber (h : o.Reads φ) (htype : o.type ≠ .integer ∧ o.type ≠ .float) :
    φ.isNumber = false := by
  by_contra hφ
  rcases h.number (by simpa using hφ) with h | h
  · exact htype.1 h
  · exact htype.2 h

/-- Another type for the same text. -/
theorem retag (h : o.Reads φ) {type : ValueType} (hvalue : φ.isValue = true)
    (hliteral : o.literal = true → φ.Literal type)
    (hnumber : φ.isNumber = true → type = .integer ∨ type = .float) :
    (o.retag type).Reads φ where
  sql := h.sql
  value := .inl hvalue
  number := hnumber
  param ref hparam := by
    rw [Contract.Lawful.param?_retag] at hparam
    cases hparam
  literal := hliteral

/-- What may be of any type is no literal. -/
theorem not_literal (h : o.Reads φ) (htype : o.type = .any) : o.literal = false := by
  by_contra hliteral
  have hany := h.literal (by simpa using hliteral)
  rw [htype] at hany
  exact hany

theorem retag_any (h : o.Reads φ) (htype : o.type = .any) (type : ValueType) :
    (o.retag type).Reads φ := by
  have hnumber := h.not_isNumber (by rw [htype]; decide)
  refine h.retag (h.isValue (by rw [htype]; decide)) (fun hliteral => ?_) fun hφ => ?_
  · rw [h.not_literal htype] at hliteral
    cases hliteral
  · rw [hnumber] at hφ
    cases hφ

end Reads

end Operand

/-! ## 2. What a compilation ensures -/

/-- In a scope of plain names with these orders a compilation that succeeds keeps the joins well
    formed, and `P` holds of its result. -/
def Ensures {α : Type} (orders : List Json) (P : α → Prop) (m : Compile α) : Prop :=
  ∀ s l a l', PlainScope IdentChar s → s.orders.getD [] = orders → JoinsOk s l →
    m.Yields s l a l' → JoinsOk s l' ∧ P a

namespace Ensures

variable {α β : Type} {orders : List Json} {P P' : α → Prop} {Q : β → Prop} {m : Compile α}
  {f : α → Compile β}

theorem pure {a : α} (h : P a) : Ensures orders P (Pure.pure a : Compile α) := by
  intro s l a' l' _ _ hl hm
  obtain ⟨rfl, rfl⟩ := Compile.yields_pure.mp hm
  exact ⟨hl, h⟩

theorem fail (cause : CompileError.Cause) : Ensures orders P (Compile.fail cause : Compile α) :=
  fun _ _ _ _ _ _ _ hm => absurd hm Compile.yields_fail

theorem bind (hm : Ensures orders P m) (hf : ∀ a, P a → Ensures orders Q (f a)) :
    Ensures orders Q (m >>= f) := by
  intro s l b l' hs ho hl h
  obtain ⟨a, l₁, ha, hb⟩ := Compile.yields_bind.mp h
  obtain ⟨hl₁, hP⟩ := hm s l a l₁ hs ho hl ha
  exact hf a hP s l₁ b l' hs ho hl₁ hb

theorem mono (hm : Ensures orders P m) (h : ∀ a, P a → P' a) : Ensures orders P' m :=
  fun s l a l' hs ho hl ha => (hm s l a l' hs ho hl ha).imp_right (h a)

/-- A scope with the same table, under the same name, and the same orders. -/
theorem withScope {g : Scope → Scope} (hg : ∀ s, (g s).schema = s.schema ∧
    (g s).table = s.table ∧ (g s).label = s.label ∧ (g s).orders = s.orders)
    (hm : Ensures orders P m) : Ensures orders P (withReader g m) := by
  intro s l a l' hs ho hl ha
  obtain ⟨hschema, htable, hlabel, horders⟩ := hg s
  have hok (l : Ledger) : JoinsOk (g s) l ↔ JoinsOk s l := by
    unfold JoinsOk
    rw [hschema, htable, hlabel]
  have hplain : PlainScope IdentChar (g s) := ⟨hschema ▸ hs.schema, hlabel ▸ hs.label⟩
  obtain ⟨hl', hP⟩ := hm (g s) l a l' hplain (horders ▸ ho) ((hok l).mpr hl)
    (Compile.yields_withReader.mp ha)
  exact ⟨(hok l').mp hl', hP⟩

theorem within (kind : FrameKind) (args : List Json) (hm : Ensures orders P m) :
    Ensures orders P (Compile.within kind args m) := by
  intro s l a l' hs ho hl ha
  exact withScope (g := fun s => { s with frames := kind :: s.frames })
    (fun _ => ⟨rfl, rfl, rfl, rfl⟩) hm s l a l' hs ho hl (Compile.yields_within.mp ha)

theorem withField (field : String) (hm : Ensures orders P m) :
    Ensures orders P (withField field m) :=
  withScope (fun _ => ⟨rfl, rfl, rfl, rfl⟩) hm

/-- Of the scope what goes on may assume that these are the orders. -/
theorem read {f : Scope → Compile β}
    (hf : ∀ s, s.orders.getD [] = orders → Ensures orders Q (f s)) :
    Ensures orders Q (MonadReader.read >>= f) :=
  fun s l b l' hs ho hl h => hf s ho s l b l' hs ho hl h

/-- A step that gives nothing of interest. -/
theorem of_moves (hm : Moves Extends m) : Ensures orders (fun _ => True) m :=
  fun _ _ _ _ _ _ hl ha => ⟨(hm.yields ha hl).1, trivial⟩

end Ensures

/-! ## 3. Texts and casts -/

theorem identChar_of_isDigit {c : Char} (h : c.isDigit = true) : IdentChar c :=
  .inl (by rw [Char.isAlphanum, h, Bool.or_true])

section Operands

variable {orders : List Json} {o : Operand} {φ : Phrase}

theorem ensures_compileField (reference : String) :
    Ensures orders (fun o => ∃ label name, o.Reads (.column label name) ∧ o.param? = none)
      (Path.compileField reference) := by
  intro s l o l' hs _ hl h
  obtain ⟨hext, label, name, type, rfl, halias, hname⟩ := (compileField_spec hl reference).yields h
  have hl' := (hext hl).1
  have hlabel : AllChars IdentChar label :=
    plain_alias_of_digits (fun _ => identChar_of_isDigit) hs hl' halias
  have hcolumn : AllChars IdentChar name := by
    rcases hname.2 with rfl | ⟨table, t, desc, ht, hdesc⟩
    · decide
    · exact hs.schema.field table t name desc ht hdesc
  exact ⟨hl', ⟨label, hlabel⟩, ⟨name, hcolumn⟩, Operand.reads_fragment rfl rfl rfl, rfl⟩

/-- An operand that an expression without parts is compiled to. -/
def Operand.IsLeaf (e : Json) (o : Operand) : Prop :=
  (∃ φ, Leaf e φ ∧ o.Reads φ) ∧ o.param?.isSome = isParameter e

theorem ensures_ofScalar (v : Json) (hv : isParameter v = false) :
    Ensures orders (·.IsLeaf v) (Operand.ofScalar v) := by
  cases v with
  | null => exact .pure ⟨⟨_, .null, Operand.reads_ofLiteral rfl rfl rfl nofun⟩, rfl⟩
  | bool b =>
    refine .pure ⟨⟨_, .bool b, Operand.reads_ofLiteral ?_ rfl trivial nofun⟩, rfl⟩
    cases b <;> rfl
  | number n =>
    refine .pure ⟨⟨_, .number n, Operand.reads_ofNumber n⟩, ?_⟩
    unfold Operand.ofNumber
    repeat' split
    all_goals rfl
  | string s =>
    exact .pure ⟨⟨_, .literal s, Operand.reads_ofLiteral rfl rfl ⟨s, rfl⟩ nofun⟩, hv.symm⟩
  | array | object => exact .fail _

theorem ensures_compileText (s : String) :
    Ensures orders (·.IsLeaf (.string s)) (compileText s) := by
  unfold compileText
  split
  · rename_i name hname
    refine (ensures_compileField _).mono fun o ho => ?_
    obtain ⟨label, name, hreads, hparam⟩ := ho
    refine ⟨⟨_, .column label name, hreads⟩, ?_⟩
    rw [hparam, isParameter, hname]
    rfl
  · rename_i c name hname
    refine .bind (.of_moves (steps_extends.pushSite _)) fun ref _ =>
      .pure ⟨⟨_, .hole ref, Operand.reads_ofParam ref⟩, ?_⟩
    rw [isParameter, hname]
    rfl
  · rename_i hdollar hcolon
    refine ensures_ofScalar _ ?_
    rw [isParameter]
    split
    · exact absurd ‹_› (hcolon _ _)
    · rfl

/-- A date is its own text, or the number of a text that is one. -/
theorem ensures_toDate (ho : o.Reads φ) :
    Ensures orders (fun o' => o'.type = .date ∧ (o.literal = false → o'.literal = false) ∧
      (o'.Reads φ ∨ ∃ s d, φ = .literal s ∧ o'.literal = true ∧ o'.Reads (.digits d)))
      o.toDate := by
  unfold Operand.toDate
  split
  · rename_i htype
    exact .pure ⟨htype, id, .inl ho⟩
  · rename_i htype
    split
    · rename_i hliteral
      have hφ := ho.literal hliteral
      rw [htype] at hφ
      obtain ⟨s, rfl⟩ := hφ
      dsimp only
      split
      · rename_i n _
        refine .pure ⟨rfl, fun h => ?_, .inr ⟨s, .ofNat n, rfl, rfl,
          Operand.reads_digits (.ofNat n) ⟨_, rfl⟩⟩⟩
        rw [h] at hliteral
        cases hliteral
      · exact .fail _
    · exact .fail _
  · rename_i htype
    exact .pure ⟨rfl, id, .inl (ho.retag_any htype _)⟩
  · exact .fail _

/-- The leading digits of a date. -/
theorem reads_truncateDate (ho : o.Reads φ) (htype : o.type = .date ∨ o.type = .dateMonth)
    (digits : Nat) {type : ValueType} (hliteral : ∀ d, (Phrase.digits d).Literal type) :
    ∃ φ', Recast φ φ' ∧ (o.truncateDate digits type).Reads φ' ∧
      (o.literal = true → ∃ d, φ' = .digits d) := by
  have hdate : φ.Literal o.type → ∃ d, φ = .digits d := by
    rcases htype with h | h <;> rw [h] <;> exact id
  unfold Operand.truncateDate
  split
  · rename_i hl
    obtain ⟨d, rfl⟩ := hdate (ho.literal hl)
    have htake : AllChars (fun c => c.isDigit = true)
        (String.ofList (o.sql.text.toList.take digits)) := by
      refine .ofList fun c hc => ?_
      rw [ho.sql] at hc
      unfold Phrase.template at hc
      rw [Operand.text_ofString] at hc
      exact d.2 c (List.mem_of_mem_take hc)
    exact ⟨_, .shorten d ⟨_, htake⟩, Operand.reads_digits ⟨_, htake⟩ (hliteral _),
      fun _ => ⟨_, rfl⟩⟩
  · rename_i hl
    have hvalue := ho.isValue (by rcases htype with h | h <;> rw [h] <;> decide)
    have hnumber := ho.not_isNumber (by rcases htype with h | h <;> rw [h] <;> decide)
    refine ⟨_, .leading (.ofNat digits) hvalue hnumber,
      Operand.reads_fragment ?_ rfl rfl, fun h => absurd h hl⟩
    rw [ho.sql]
    rfl

theorem truncateDate_kind (o : Operand) (digits : Nat) (type : ValueType) :
    (o.truncateDate digits type).type = type ∧
      (o.truncateDate digits type).literal = o.literal := by
  unfold Operand.truncateDate
  split
  · rename_i hliteral
    exact ⟨rfl, hliteral.symm⟩
  · rename_i hliteral
    exact ⟨rfl, by simpa [Operand.fragment] using hliteral⟩

/-- An operand that another one is cast to. -/
structure Operand.CastTo (o : Operand) (φ : Phrase) (target : ValueType) (o' : Operand) : Prop where
  reads : ∃ φ', Recast φ φ' ∧ o'.Reads φ'
  type : o'.type = target ∨ o'.type = .null
  literal : o.literal = false → o'.literal = false

theorem castTo_of_reads {o' : Operand} {target : ValueType} (h : o'.Reads φ)
    (htype : o'.type = target) (hliteral : o'.literal = o.literal) : o.CastTo φ target o' :=
  ⟨⟨φ, .same φ, h⟩, .inl htype, fun hl => hliteral.trans hl⟩

theorem ensures_leading (ho : o.Reads φ) (digits : Nat) {target : ValueType}
    (htarget : ∀ d, (Phrase.digits d).Literal target) :
    Ensures orders (o.CastTo φ target)
      (o.toDate >>= fun o' => pure (o'.truncateDate digits target)) := by
  refine .bind (ensures_toDate ho) fun date hdate => .pure ?_
  obtain ⟨htype, hliteral, hreads⟩ := hdate
  obtain ⟨hkind, hsame⟩ := truncateDate_kind date digits target
  refine ⟨?_, .inl hkind, fun hl => hsame.trans (hliteral hl)⟩
  rcases hreads with hreads | ⟨s, d, rfl, hl, hreads⟩
  · obtain ⟨φ', hφ', hreads', -⟩ := reads_truncateDate hreads (.inl htype) digits htarget
    exact ⟨φ', hφ', hreads'⟩
  · obtain ⟨φ', -, hreads', hdigits⟩ := reads_truncateDate hreads (.inl htype) digits htarget
    obtain ⟨d', rfl⟩ := hdigits hl
    exact ⟨_, .date s d', hreads'⟩

theorem ensures_convert (ho : o.Reads φ) (target : ValueType) :
    Ensures orders (o.CastTo φ target) (o.convert target) := by
  have hany (target : ValueType) (htype : o.type = .any) :
      o.CastTo φ target (o.retag target) :=
    castTo_of_reads (ho.retag_any htype target) rfl rfl
  unfold Operand.convert
  split
  · refine (ensures_toDate ho).mono fun o' h => ⟨?_, .inl h.1, h.2.1⟩
    rcases h.2.2 with hreads | ⟨s, d, rfl, -, hreads⟩
    · exact ⟨φ, .same φ, hreads⟩
    · exact ⟨_, .date s d, hreads⟩
  · split
    · exact ensures_leading ho 6 fun d => ⟨d, rfl⟩
    · exact ensures_leading ho 6 fun d => ⟨d, rfl⟩
    · exact ensures_leading ho 6 fun d => ⟨d, rfl⟩
    · exact .fail _
  · split
    · exact ensures_leading ho 4 fun d => ⟨d, rfl⟩
    · exact ensures_leading ho 4 fun d => ⟨d, rfl⟩
    · exact ensures_leading ho 4 fun d => ⟨d, rfl⟩
    · rename_i htype
      have hyear (d : Digits) : (Phrase.digits d).Literal .dateYear := ⟨d, rfl⟩
      obtain ⟨hkind, hsame⟩ := truncateDate_kind o 4 .dateYear
      obtain ⟨φ', hφ', hreads, -⟩ := reads_truncateDate ho (.inr htype) 4 hyear
      exact .pure ⟨⟨φ', hφ', hreads⟩, .inl hkind, hsame.trans⟩
    · exact .fail _
  · split
    · have htype : o.type = .string := by assumption
      have hvalue := ho.isValue (by rw [htype]; decide)
      have hnumber := ho.not_isNumber (by rw [htype]; decide)
      refine .pure (castTo_of_reads (ho.retag hvalue (fun _ => trivial) fun hφ => ?_) rfl rfl)
      rw [hnumber] at hφ
      cases hφ
    · have htype : o.type = .integer := by assumption
      have hvalue := ho.isValue (by rw [htype]; decide)
      exact .pure (castTo_of_reads (ho.retag hvalue (fun _ => trivial) fun _ => .inr rfl)
        rfl rfl)
    · exact .pure (hany _ (by assumption))
    · exact .fail _

theorem ensures_cast (ho : o.Reads φ) (target : ValueType) :
    Ensures orders (o.CastTo φ target) (o.cast target) := by
  unfold Operand.cast
  split
  · rename_i htype
    exact .pure (castTo_of_reads ho htype rfl)
  · split
    · rename_i ref href
      obtain ⟨⟨hliteral, -⟩, rfl⟩ := ho.param ref href
      refine .bind (.of_moves (steps_extends.inferParam ref target)) fun _ _ => .pure ?_
      refine castTo_of_reads (ho.retag rfl (fun hl => ?_) nofun) rfl rfl
      rw [hliteral] at hl
      cases hl
    · split
      · rename_i htype
        split
        · exact .fail _
        · rename_i hliteral
          have hliteral : o.literal = true := by simpa using hliteral
          have hφ := ho.literal hliteral
          rw [htype] at hφ
          have hφ : φ = .null := hφ
          subst hφ
          split
          · rename_i htarget
            refine .pure ⟨⟨_, .never, Operand.reads_digits .zero trivial⟩, .inl htarget.symm, ?_⟩
            intro hl
            rw [hl] at hliteral
            cases hliteral
          · exact .pure ⟨⟨_, .same _, ho⟩, .inr htype, id⟩
      · exact ensures_convert ho target

/-- What can be cast to something other than a boolean is no condition. -/
theorem ensures_castable (ho : o.Reads φ) {target : ValueType} (htarget : target ≠ .boolean) :
    Ensures orders (fun _ => φ.isValue = true) (o.cast target) := by
  rcases ho.value with hvalue | ⟨htype, -, hparam⟩
  · exact (ensures_cast ho target).mono fun _ _ => hvalue
  · unfold Operand.cast
    rw [if_neg fun h => htarget (h.symm.trans htype), hparam, htype]
    dsimp only
    rw [if_neg (by decide)]
    unfold Operand.convert
    rw [htype]
    cases target with
    | boolean => exact absurd rfl htarget
    | date =>
      unfold Operand.toDate
      dsimp only
      rw [htype]
      exact .fail _
    | _ => exact .fail _

end Operands

/-! ## 4. Calls -/

/-- What a parameter makes sure of its argument. -/
def Parameter.Takes (φ : Phrase) (o : Operand) : Parameter → Prop
  | .any => True
  | .castable type => type ≠ .boolean → φ.isValue = true
  | .cast type => o.type = type ∨ o.type = .null

/-- Arguments that the parameters of a call have admitted, with their phrases. -/
inductive Taken : List Parameter → List Operand → List Phrase → Prop
  | nil {ps : List Parameter} : Taken ps [] []
  | cons {p : Parameter} {ps : List Parameter} {o : Operand} {os : List Operand} {φ : Phrase}
      {φs : List Phrase} (ho : o.Reads φ) (hp : p.Takes φ o) (h : Taken ps os φs) :
      Taken (p :: ps) (o :: os) (φ :: φs)

theorem Taken.sql {ps : List Parameter} {os : List Operand} {φs : List Phrase}
    (h : Taken ps os φs) : os.map (·.sql) = φs.map Phrase.template := by
  induction h with
  | nil => rfl
  | cons ho _ _ ih => rw [List.map_cons, List.map_cons, ho.sql, ih]

theorem Taken.one {p : Parameter} {o : Operand} {φs : List Phrase} (h : Taken [p] [o] φs) :
    ∃ φ, φs = [φ] ∧ o.Reads φ ∧ p.Takes φ o := by
  cases h with
  | cons ho hp h =>
    cases h
    exact ⟨_, rfl, ho, hp⟩

theorem Taken.two {p q : Parameter} {o o' : Operand} {φs : List Phrase}
    (h : Taken [p, q] [o, o'] φs) : ∃ φ ψ, φs = [φ, ψ] ∧ o.Reads φ ∧ o'.Reads ψ := by
  cases h with
  | cons ho _ h =>
    obtain ⟨ψ, rfl, ho', -⟩ := h.one
    exact ⟨_, ψ, rfl, ho, ho'⟩

/-- An operand that a part spells. -/
def Operand.Spelled (orders : List Json) (p : Part) (o : Operand) : Prop :=
  ∃ φ, Spells orders (.part p) [φ] ∧ o.Reads φ

/-- The text in front of the rows of a running sum. -/
def IsWindow (orders : List Json) (t : Template) : Prop :=
  ∃ ρ, Spells orders .rows [ρ] ∧ t ++ (rowsText : Template) = ρ.template

section Calls

variable {orders : List Json} {o : Operand} {φ : Phrase}

theorem ensures_parameter (ho : o.Reads φ) (p : Parameter) :
    Ensures orders (fun o' => ∃ φ', Recast φ φ' ∧ o'.Reads φ' ∧ p.Takes φ' o') <|
      Parameter.admit p o := by
  cases p with
  | any => exact .pure ⟨φ, .same φ, ho, trivial⟩
  | castable type =>
    by_cases htype : type = .boolean
    · exact .bind (ensures_cast ho type) fun _ _ => .pure ⟨φ, .same φ, ho, absurd htype⟩
    · exact .bind (ensures_castable ho htype) fun _ hvalue =>
        .pure ⟨φ, .same φ, ho, fun _ => hvalue⟩
  | cast type =>
    refine (ensures_cast ho type).mono fun o' h => ?_
    obtain ⟨φ', hφ', hreads⟩ := h.reads
    exact ⟨φ', hφ', hreads, h.type⟩

theorem Operand.Reads.param?_eq_none (h : o.Reads φ) (ho : o.literal = true ∨ o.type ≠ .param) :
    o.param? = none := by
  cases hparam : o.param? with
  | none => rfl
  | some ref =>
    obtain ⟨⟨hliteral, htype⟩, -⟩ := h.param ref hparam
    rw [hliteral] at ho
    exact absurd htype (ho.resolve_left nofun)

variable {window : Compile Template} {name : String} {raw : Json} {f : Function}
  {args : List Operand} {φs : List Phrase}

theorem ensures_apply (hw : Ensures orders (IsWindow orders) window)
    (hf : Function.ofName? name = some f)
    (hargs : Spells orders (.part (.arguments f.parameters (arguments raw))) φs)
    (htaken : Taken f.parameters args φs) :
    Ensures orders (fun o => o.Spelled orders (.call name raw) ∧ o.param? = none)
      (f.apply args window) := by
  have fragment {φ : Phrase} {sql : Template} (type : ValueType) (h : Applies f φs φ)
      (hsql : sql = φ.template) (hvalue : φ.isValue = true) (hnumber : φ.isNumber = false) :
      Ensures orders (fun o => o.Spelled orders (.call name raw) ∧ o.param? = none)
        (pure (Operand.fragment sql type)) :=
    .pure ⟨⟨φ, .call hf hargs h, Operand.reads_fragment hsql hvalue hnumber⟩, rfl⟩
  have routine (r : Routine) {a : Operand} {p : Parameter} (type : ValueType)
      (h : f.routine? = some r) (hp : Taken [p] [a] φs) :
      Ensures orders (fun o => o.Spelled orders (.call name raw) ∧ o.param? = none)
        (pure (Operand.fragment (.call r.text [a.sql]) type)) := by
    obtain ⟨φ, rfl, ha, -⟩ := hp.one
    exact fragment type (.routine φ h) (by rw [ha.sql]; rfl) rfl rfl
  -- The month and the year of a date are the argument itself, which was cast to them.
  have part {a : Operand} {type : ValueType} (h : f = .month ∨ f = .year)
      (htype : type = .dateMonth ∨ type = .dateYear) (hp : Taken [.cast type] [a] φs) :
      Ensures orders (fun o => o.Spelled orders (.call name raw) ∧ o.param? = none)
        (pure a) := by
    obtain ⟨φ, rfl, ha, hcast⟩ := hp.one
    have hkind : a.type = .dateMonth ∨ a.type = .dateYear ∨ a.type = .null := by
      rcases htype with rfl | rfl
      · exact hcast.imp_right .inr
      · exact .inr hcast
    have hvalue := ha.isValue (by rcases hkind with h | h | h <;> rw [h] <;> decide)
    have hnumber := ha.not_isNumber (by rcases hkind with h | h | h <;> rw [h] <;> decide)
    have hparam := ha.param?_eq_none (.inr (by rcases hkind with h | h | h <;> rw [h] <;> decide))
    exact .pure ⟨⟨φ, .call hf hargs (.part h hvalue hnumber), ha⟩, hparam⟩
  unfold Function.apply
  split
  · exact routine .sum _ rfl htaken
  · obtain ⟨φ, rfl, ha, -⟩ := Taken.one htaken
    refine .bind hw fun t ht => ?_
    obtain ⟨ρ, hρ, hrows⟩ := ht
    refine .pure ⟨⟨_, .running hf hargs hρ, Operand.reads_fragment ?_ rfl rfl⟩, rfl⟩
    have hrows : t ++ ("ROWS BETWEEN CURRENT ROW AND UNBOUNDED FOLLOWING" : Template) =
      ρ.template := hrows
    rw [hrows, ha.sql]
    rfl
  · exact routine .count _ rfl htaken
  · refine fragment _ (.substr φs) ?_ rfl rfl
    rw [htaken.sql]
    exact congrArg (fun t : Template => ("SUBSTR" : Template) ++ t.parens)
      (Phrase.template_join .arguments φs).symm
  · exact routine .lower _ rfl htaken
  · obtain ⟨φ, rfl, ha, hcastable⟩ := Taken.one htaken
    exact fragment _ (.neg (hcastable (by decide))) (by rw [ha.sql]; rfl) rfl rfl
  · exact routine .abs _ rfl htaken
  · obtain ⟨φ, ψ, rfl, ha, hb⟩ := Taken.two htaken
    exact fragment _ (.idiv φ ψ) (by rw [ha.sql, hb.sql]; rfl) rfl rfl
  · exact part (.inl rfl) (.inl rfl) htaken
  · exact part (.inr rfl) (.inr rfl) htaken
  · obtain ⟨φ, rfl, ha, hcast⟩ := Taken.one htaken
    have hvalue := ha.isValue (by rcases hcast with h | h <;> rw [h] <;> decide)
    have hnumber := ha.not_isNumber (by rcases hcast with h | h <;> rw [h] <;> decide)
    refine fragment _ (.nocase hvalue hnumber) (by rw [ha.sql]; rfl) ?_ rfl
    simp only [Phrase.isValue, hvalue, hnumber, decide_true, Bool.not_false, Bool.and_self]
  · obtain ⟨φ, rfl, ha, -⟩ := Taken.one htaken
    split
    · rename_i hliteral
      have hvalue : φ.isValue = true := ha.value.resolve_right fun h => by
        rw [h.2.1] at hliteral
        cases hliteral
      exact .pure ⟨⟨φ, .call hf hargs (.literal hvalue), ha⟩, ha.param?_eq_none (.inl hliteral)⟩
    · exact .fail _
  · exact .fail _

end Calls

end QuerySheet.Sql

import QuerySheet.Proofs.Sql.Holes

/-!
# Occurrences with other numbers

The same part compiled twice gives the same text, but its parameters are other occurrences. When
the second run begins, `d` more sites have been numbered than when the first one began.

* `ParamRef.shift`, `Template.shift`, `Operand.shift`: the same with occurrences numbered `d` later.
  It makes no difference to a text (`text_shift`);
* `Settles`: a compilation that looks neither at its scope nor at its ledger, and gives the same
  for a renumbered operand. Casts do, except those of a parameter (`settles_cast`);
* `renumbered`: results of two runs are alike if they differ in the numbers of occurrences that
  began with the runs.
-/

namespace QuerySheet.Sql

/-! ## 1. Renumbering -/

section Shift

variable (d : Nat)

def ParamRef.shift (ref : ParamRef) : ParamRef := { ref with id := ref.id + d }

def Sign.shift : Sign → Sign
  | .char c => .char c
  | .hole ref => .hole (ref.shift d)

def Template.shift (t : Template) : Template := ⟨t.signs.map (Sign.shift d)⟩

def Source.shift : Source → Source
  | .param ref => .param (ref.shift d)
  | .fragment => .fragment
  | .array items => .array items

def Operand.shift (o : Operand) : Operand :=
  { o with sql := o.sql.shift d, source := o.source.shift d }

end Shift

variable {d : Nat}

namespace Template

@[simp] theorem shift_append (t u : Template) : (t ++ u).shift d = t.shift d ++ u.shift d :=
  congrArg Template.mk List.map_append

@[simp] theorem shift_ofString (s : String) : (ofString s).shift d = ofString s := by
  refine congrArg Template.mk ?_
  rw [ofString, List.map_map]
  rfl

@[simp] theorem text_shift (t : Template) : (t.shift d).text = t.text := by
  have hchar (x : Sign) : (x.shift d).toChar = x.toChar := by cases x <;> rfl
  rw [text, text, shift, List.map_map]
  exact congrArg String.ofList (List.map_congr_left fun x _ => hchar x)

/-- Where there are no occurrences none is renumbered. -/
theorem shift_of_holes {t : Template} (h : t.holes = []) : t.shift d = t := by
  refine congrArg Template.mk ((List.map_congr_left fun x hx => ?_).trans (List.map_id _))
  cases x with
  | char c => rfl
  | hole ref => cases List.filterMap_eq_nil_iff.mp h _ hx

end Template

namespace Operand

theorem shift_ofLiteral (text : String) (type : ValueType) :
    (ofLiteral text type).shift d = ofLiteral text type := by
  unfold ofLiteral shift
  rw [Template.shift_ofString]
  rfl

theorem shift_retag (o : Operand) (type : ValueType) :
    (o.shift d).retag type = (o.retag type).shift d := by
  obtain ⟨sql, _, literal, source⟩ := o
  cases source <;> rfl

theorem param?_shift (o : Operand) : (o.shift d).param? = o.param?.map (·.shift d) := by
  obtain ⟨sql, type, literal, source⟩ := o
  cases source <;> rfl

theorem param?_retag (o : Operand) (type : ValueType) : (o.retag type).param? = none := by
  obtain ⟨sql, _, literal, source⟩ := o
  cases source <;> rfl

theorem shift_truncateDate (o : Operand) (digits : Nat) (type : ValueType) :
    (o.shift d).truncateDate digits type = (o.truncateDate digits type).shift d := by
  unfold truncateDate
  show (if o.literal = true then _ else _) = _
  split
  · rw [shift_ofLiteral]
    exact congrArg (fun text : String => ofLiteral (String.ofList (text.toList.take digits)) type)
      (Template.text_shift o.sql)
  · simp [fragment, shift, Source.shift, Template.call, Template.intercalate, Template.parens]

theorem param?_truncateDate (o : Operand) (digits : Nat) (type : ValueType) :
    (o.truncateDate digits type).param? = none := by
  unfold truncateDate
  split <;> rfl

end Operand

/-! ## 2. Casts of what is no parameter -/

/-- Two compilations give an operand that is no parameter and the same one renumbered, or fail for
    one cause, whatever their scopes and ledgers. -/
def Settles (d : Nat) (m m' : Compile Operand) : Prop :=
  (∃ o : Operand, o.param? = none ∧ m = pure o ∧ m' = pure (o.shift d)) ∨
    ∃ cause : CompileError.Cause, cause ≠ .endlessWindow ∧ m = Compile.fail cause ∧
      m' = Compile.fail cause

namespace Settles

theorem pure {o o' : Operand} (ho : o.param? = none) (h : o' = o.shift d) :
    Settles d (Pure.pure o) (Pure.pure o') :=
  .inl ⟨o, ho, rfl, h ▸ rfl⟩

theorem fail (cause : CompileError.Cause) (h : cause ≠ .endlessWindow) :
    Settles d (Compile.fail cause) (Compile.fail cause) :=
  .inr ⟨cause, h, rfl, rfl⟩

theorem literal (text : String) (type : ValueType) :
    Settles d (Pure.pure (.ofLiteral text type)) (Pure.pure (.ofLiteral text type)) :=
  pure rfl (Operand.shift_ofLiteral text type).symm

theorem retag (o : Operand) (type : ValueType) :
    Settles d (Pure.pure (o.retag type)) (Pure.pure ((o.shift d).retag type)) :=
  pure (Operand.param?_retag o type) (Operand.shift_retag o type)

theorem ite (p : Prop) [Decidable p] {m m' n n' : Compile Operand} (hm : Settles d m m')
    (hn : Settles d n n') : Settles d (if p then m else n) (if p then m' else n') := by
  split
  · exact hm
  · exact hn

theorem bind {m m' : Compile Operand} {f : Operand → Compile Operand} (hm : Settles d m m')
    (hf : ∀ o, o.param? = none → Settles d (f o) (f (o.shift d))) :
    Settles d (m >>= f) (m' >>= f) := by
  rcases hm with ⟨o, ho, rfl, rfl⟩ | ⟨cause, hcause, rfl, rfl⟩
  · exact hf o ho
  · exact .inr ⟨cause, hcause, rfl, rfl⟩

end Settles

theorem settles_toDate {o : Operand} (ho : o.param? = none) :
    Settles d o.toDate (o.shift d).toDate := by
  have htext : (o.shift d).sql.text = o.sql.text := Template.text_shift o.sql
  obtain ⟨sql, type, literal, source⟩ := o
  unfold Operand.toDate
  cases type with
  | date => exact .pure ho rfl
  | string =>
    dsimp only [Operand.shift] at htext ⊢
    rw [htext]
    refine .ite _ ?_ (.fail _ (by nofun))
    split
    · exact .literal _ _
    · exact .fail _ (by nofun)
  | any => exact .retag _ .date
  | _ => exact .fail _ (by nofun)

theorem settles_convert {o : Operand} (ho : o.param? = none) (target : ValueType) :
    Settles d (o.convert target) ((o.shift d).convert target) := by
  have hleading (o : Operand) (digits : Nat) (type : ValueType) :
      Settles d (pure (o.truncateDate digits type)) (pure ((o.shift d).truncateDate digits type)) :=
    .pure (Operand.param?_truncateDate o digits type) (Operand.shift_truncateDate o digits type)
  have hdate := settles_toDate (d := d) ho
  obtain ⟨sql, type, literal, source⟩ := o
  unfold Operand.convert
  cases target with
  | date => exact hdate
  | dateMonth =>
    cases type with
    | date | string | any => exact .bind hdate fun o _ => hleading o 6 .dateMonth
    | _ => exact .fail _ (by nofun)
  | dateYear =>
    cases type with
    | date | string | any => exact .bind hdate fun o _ => hleading o 4 .dateYear
    | dateMonth => exact hleading _ 4 .dateYear
    | _ => exact .fail _ (by nofun)
  | _ => cases type <;> first | exact .retag _ _ | exact .fail _ (by nofun)

/-- A cast that is not one of a parameter. -/
theorem settles_cast {o : Operand} (ho : o.param? = none) (target : ValueType) :
    Settles d (o.cast target) ((o.shift d).cast target) := by
  have hparam : (o.shift d).param? = none := by rw [Operand.param?_shift, ho]; rfl
  unfold Operand.cast
  rw [hparam, ho]
  exact .ite _ (.pure ho rfl) <| .ite _
    (.ite _ (.fail _ (by nofun)) (.ite _ (.literal _ _) (.pure ho rfl)))
    (settles_convert ho target)

theorem settles_ofScalar (v : Json) : Settles d (Operand.ofScalar v) (Operand.ofScalar v) := by
  have hnumber (n : Number) :
      Settles d (pure (Operand.ofNumber n)) (pure (Operand.ofNumber n)) := by
    unfold Operand.ofNumber
    split
    · exact .literal _ _
    · split
      · split
        · exact .literal _ _
        · exact .literal _ _
      · exact .literal _ _
  cases v with
  | null | bool | string => exact .literal _ _
  | number n => exact hnumber n
  | array | object => exact .fail _ (by nofun)

/-! ## 3. Alike results -/

/-- Results of two runs, of which the first one began with the ledger `o` and the second one with
    `o'`. Places count from where the runs began. -/
def renumbered (d : Nat) (o o' : Ledger) : Likeness where
  operand x x' := (∀ ref, x.param? = some ref → o.siteCount < ref.id) ∧ x' = x.shift d
  template t t' := t' = t.shift d
  type := Eq
  place k k' := ∃ j, k = o.sites.length + j ∧ k' = o'.sites.length + j

theorem renumbered_of_not_param {o o' : Ledger} {x x' : Operand} (hx : x.param? = none)
    (h : x' = x.shift d) : (renumbered d o o').operand x x' := by
  refine ⟨fun ref href => ?_, h⟩
  rw [hx] at href
  cases href

theorem renumbered_lawful (o o' : Ledger) : (renumbered d o o').Lawful where
  type_refl _ := rfl
  type_of h := h.2 ▸ rfl
  sql_of h := h.2 ▸ rfl
  fragment := by
    rintro t _ type _ rfl rfl
    exact renumbered_of_not_param rfl rfl
  array items := by
    refine renumbered_of_not_param rfl ?_
    unfold Operand.ofArray Operand.shift
    rw [Template.shift_ofString]
    rfl
  text s := (Template.shift_ofString s).symm
  append := by
    rintro t _ u _ rfl rfl
    exact (Template.shift_append t u).symm

/-! ## 4. Comparisons up to numbers -/

/-- What a comparison of two runs up to numbers must respect: the ways to put compilations
    together, and the steps of a part. -/
structure Renumbering (d : Nat) (o o' : Ledger)
    (P : (k : Kind) → Compile k.Carrier → Compile k.Carrier → Prop) : Prop where
  pure : ∀ {k : Kind} {a a' : k.Carrier}, (renumbered d o o').rel k a a' →
    P k (Pure.pure a) (Pure.pure a')
  fail : ∀ {k : Kind} (cause : CompileError.Cause), cause ≠ .endlessWindow →
    P k (Compile.fail cause) (Compile.fail cause)
  bind : ∀ {k k' : Kind} {m m' : Compile k.Carrier} {f f' : k.Carrier → Compile k'.Carrier},
    P k m m' → (∀ a a', (renumbered d o o').rel k a a' → P k' (f a) (f' a')) →
      P k' (m >>= f) (m' >>= f')
  within : ∀ {k : Kind} (kind : FrameKind) (args : List Json) {m m' : Compile k.Carrier},
    P k m m' → P k (Compile.within kind args m) (Compile.within kind args m')
  withField : ∀ {k : Kind} (field : String) {m m' : Compile k.Carrier}, P k m m' →
    P k (Sql.withField field m) (Sql.withField field m')
  mark : P .place Compile.mark Compile.mark
  compileField : ∀ name, P .operand (Path.compileField name) (Path.compileField name)
  pushSite : ∀ name, P .operand (return .ofParam (← Compile.pushSite name))
    (return .ofParam (← Compile.pushSite name))
  inferParam : ∀ (ref : ParamRef) type, o.siteCount < ref.id →
    P .unit (Compile.inferParam ref type) (Compile.inferParam (ref.shift d) type)
  repeatSitesFrom : ∀ {mark mark' : Nat}, (renumbered d o o').place mark mark' →
    P .unit (Compile.repeatSitesFrom mark) (Compile.repeatSitesFrom mark')

namespace Renumbering

variable {o o' : Ledger} {P : (k : Kind) → Compile k.Carrier → Compile k.Carrier → Prop}
  (hP : Renumbering d o o' P)

include hP

theorem settled {m m' : Compile Operand} (h : Settles d m m') : P .operand m m' := by
  rcases h with ⟨x, hx, rfl, rfl⟩ | ⟨cause, hcause, rfl, rfl⟩
  · exact hP.pure (renumbered_of_not_param hx rfl)
  · exact hP.fail cause hcause

theorem compileText (s : String) : P .operand (Sql.compileText s) (Sql.compileText s) := by
  unfold Sql.compileText
  split
  · exact hP.compileField _
  · exact hP.pushSite _
  · exact hP.settled (settles_ofScalar _)

/-- The cast of a parameter notes its type. -/
theorem cast {x x' : Operand} (h : (renumbered d o o').operand x x') (type : ValueType) :
    P .operand (x.cast type) (x'.cast type) := by
  obtain ⟨hfresh, rfl⟩ := h
  cases hparam : x.param? with
  | none => exact hP.settled (settles_cast hparam type)
  | some ref =>
    have hparam' : (x.shift d).param? = some (ref.shift d) := by
      rw [Operand.param?_shift, hparam, Option.map_some]
    unfold Operand.cast
    rw [hparam, hparam']
    dsimp only
    by_cases htype : x.type = type
    · rw [if_pos htype, if_pos (show (x.shift d).type = type from htype)]
      exact hP.pure ⟨hfresh, rfl⟩
    · rw [if_neg htype, if_neg (show ¬ (x.shift d).type = type from htype)]
      refine hP.bind (k := .unit) (hP.inferParam ref type (hfresh ref hparam)) fun _ _ _ =>
        hP.pure ?_
      exact renumbered_of_not_param (Operand.param?_retag x type) (Operand.shift_retag x type)

/-- The sites that an equality binds twice are those since it began, in both runs. -/
theorem equality {mark mark' : Nat} {left left' right right' : Operand}
    (hmark : (renumbered d o o').place mark mark') (hleft : (renumbered d o o').operand left left')
    (hright : (renumbered d o o').operand right right') :
    P .template (Sql.equality mark left right) (Sql.equality mark' left' right') := by
  have hL := renumbered_lawful (d := d) o o'
  have hparam : right'.param?.isSome = right.param?.isSome := by
    rw [hright.2, Operand.param?_shift, Option.isSome_map]
  unfold Sql.equality
  rw [hparam, ← hL.type_of hleft]
  refine hP.bind (k := .operand) (hP.cast hright left.type) fun right right' h => ?_
  have hliteral : right'.literal = right.literal := h.2 ▸ rfl
  have hnull : (renumbered d o o').template (left.sql ++ (" IS NULL" : Template))
      (left'.sql ++ (" IS NULL" : Template)) :=
    hL.append (hL.sql_of hleft) (hL.text _)
  have hequal : (renumbered d o o').template (left.sql ++ (" = " : Template) ++ right.sql)
      (left'.sql ++ (" = " : Template) ++ right'.sql) :=
    hL.append (hL.append (hL.sql_of hleft) (hL.text _)) (hL.sql_of h)
  rw [hliteral, ← hL.type_of h]
  split
  · exact hP.pure hnull
  · split
    · refine hP.bind (k := .unit) (hP.repeatSitesFrom hmark) fun _ _ _ => hP.pure ?_
      have := hleft.2
      have := h.2
      show _ = _
      simp_all [Operand.shift]
    · exact hP.pure hequal

theorem lockstep : Lockstep (renumbered d o o') Part.AnyName P where
  toLawful := renumbered_lawful o o'
  pure := hP.pure
  fail := hP.fail
  mistyped := by
    rintro k type _ rfl
    exact hP.fail _ (by nofun)
  bind := hP.bind
  within := hP.within
  withField _ hm := hP.withField _ hm
  mark := hP.mark
  compileText _ := hP.compileText _
  scalar v := hP.settled (settles_ofScalar v)
  cast := by
    rintro x x' type _ h rfl
    exact hP.cast h type
  literal := by
    rintro x _ ⟨hfresh, rfl⟩
    show P _ (if x.literal = true then _ else _) (if x.literal = true then _ else _)
    split
    · exact hP.pure ⟨hfresh, rfl⟩
    · exact hP.fail _ (by nofun)
  equality := hP.equality

end Renumbering

end QuerySheet.Sql

import QuerySheet.Proofs.Sql.Grammar
import QuerySheet.Proofs.Sql.Joins

/-!
# What compiled text consists of

Expressions, conditions and orders are compiled to words, numbers, string literals, holes and
columns, put together in a few ways.

* `Language`: a set of texts that is closed under these ways;
* `Covers`: the columns of a scope are in the language;
* `Writes`: what a compilation gives, as far as the columns that it reads are covered;
* `writes_part`, `writes_orderByWith`, `writes_windowOf`: all parts give text of the language, with
  one lemma for each kind of part.
-/

namespace QuerySheet.Sql

open Compile (Moves After Trace)

/-! ## 1. Languages -/

/-- A character of the words of a statement and of whole numbers. -/
def WordChar (c : Char) : Prop := Ordinary c ∧ c ≠ '.'

instance : DecidablePred WordChar := fun _ => inferInstanceAs (Decidable (_ ∧ _))

/-- Whether a name may begin after a character. -/
def opensName (c : Char) : Bool := c == ' ' || c == '(' || c == ',' || c == '-'

/-- Words after which a name may begin. -/
def Separator (s : String) : Prop := AllChars WordChar s ∧ s.toList.getLast?.any opensName = true

instance {s : String} : Decidable (Separator s) := inferInstanceAs (Decidable (_ ∧ _))

theorem wordChar_natText (n : Nat) : AllChars WordChar (toString n) := by
  refine (isDigit_natText n).mono fun c hdigit => ⟨ordinary_of_isDigit hdigit, ?_⟩
  rintro rfl
  revert hdigit
  decide

theorem wordChar_intText (n : Int) : AllChars WordChar (toString n) := by
  cases n with
  | ofNat n => exact wordChar_natText n
  | negSucc n =>
    have hminus : AllChars WordChar "-" := by decide
    exact hminus.append (wordChar_natText (n + 1))

/-- A set of texts that is closed under the ways to put text together. -/
structure Language (L : Template → Prop) : Prop where
  word : ∀ {s : String}, AllChars WordChar s → L s
  number : ∀ x : Binary64, L x.text
  literal : ∀ s : String, L (Operand.quote s)
  hole : ∀ ref, L (.ofRef ref)
  after : ∀ {t s}, L t → AllChars WordChar s → L (t ++ s)
  before : ∀ {s t}, Separator s → L t → L (s ++ t)
  between : ∀ {t s u}, L t → Separator s → L u → L (t ++ s ++ u)
  call : ∀ {s t}, AllChars WordChar s → L t → L (s ++ t.parens)

namespace Language

variable {L : Template → Prop} (hL : Language L)

include hL

theorem parens {t : Template} (ht : L t) : L t.parens :=
  hL.call (s := "") (by decide) ht

theorem intercalate {sep : String} (hsep : Separator sep) {ts : List Template}
    (h : ∀ t ∈ ts, L t) : L (.intercalate sep ts) := by
  induction ts with
  | nil => exact hL.word (by decide)
  | cons t ts ih =>
    cases ts with
    | nil => exact h t List.mem_cons_self
    | cons u rest =>
      exact hL.between (h t List.mem_cons_self) hsep
        (ih fun v hv => h v (List.mem_cons_of_mem _ hv))

theorem apply {name : String} (hname : AllChars WordChar name) {ts : List Template}
    (h : ∀ t ∈ ts, L t) : L (.call name ts) :=
  hL.call hname (hL.intercalate (by decide) h)

theorem all {ts : List Template} (h : ∀ t ∈ ts, L t) : L (Condition.all ts) := by
  unfold Condition.all
  split
  · exact hL.word (by decide)
  · exact hL.parens (hL.intercalate (by decide) h)

theorem any {ts : List Template} (h : ∀ t ∈ ts, L t) : L (Condition.any ts) := by
  unfold Condition.any
  split
  · exact hL.word (by decide)
  · exact hL.parens (hL.intercalate (by decide) h)

end Language

/-! ## 2. Operands -/

variable {L : Template → Prop}

/-- A type whose literals are shortened to the leading digits. -/
def ValueType.IsDated (t : ValueType) : Prop :=
  t = .date ∨ t = .dateMonth ∨ t = .dateYear ∨ t = .any

/-- An operand with a text of the language. A date that is a literal is a word, so that its leading
    digits are one as well. -/
structure Operand.In (L : Template → Prop) (o : Operand) : Prop where
  text : L o.sql
  dated : o.literal = true → ValueType.IsDated o.type → AllChars WordChar o.sql.text
  param : o.param?.isSome = true → o.literal = false

namespace Operand

theorem in_fragment {sql : Template} (h : L sql) (type : ValueType) : (fragment sql type).In L where
  text := h
  dated hliteral := by cases hliteral
  param hparam := by cases hparam

theorem text_ofString (s : String) : (Template.ofString s).text = s := by
  unfold Template.ofString Template.text
  rw [List.map_map]
  have hmap : Sign.toChar ∘ Sign.char = id := rfl
  rw [hmap, List.map_id, String.ofList_toList]

/-- A literal that is not shortened. -/
theorem in_ofLiteral {s : String} (h : L s) {type : ValueType}
    (htype : ValueType.IsDated type → AllChars WordChar s) : (ofLiteral s type).In L where
  text := h
  dated _ hdated := by
    rw [ofLiteral, text_ofString]
    exact htype hdated
  param hparam := by cases hparam

/-- A literal that is a word is good at any type. -/
theorem in_ofWord (hL : Language L) {s : String} (h : AllChars WordChar s) (type : ValueType) :
    (ofLiteral s type).In L :=
  in_ofLiteral (hL.word h) fun _ => h

theorem in_ofParam (hL : Language L) (ref : ParamRef) : (ofParam ref).In L where
  text := hL.hole ref
  dated hliteral := by cases hliteral
  param _ := rfl

theorem in_ofArray (hL : Language L) (items : List Json) : (ofArray items).In L where
  text := hL.word (s := "") (by decide)
  dated _ htype := by rcases htype with h | h | h | h <;> cases h
  param hparam := by cases hparam

/-- Another type for the same text. -/
theorem In.retag {o : Operand} (h : o.In L) {type : ValueType}
    (htype : o.literal = true → ValueType.IsDated type → ValueType.IsDated o.type) :
    (o.retag type).In L where
  text := h.text
  dated hliteral hdated := h.dated hliteral (htype hliteral hdated)
  param hparam := by
    unfold Operand.retag Operand.param? at hparam
    dsimp only at hparam
    split at hparam
    · rename_i hsource
      split at hsource <;> cases hsource
    · cases hparam

theorem in_ofNumber (hL : Language L) (n : Number) : (ofNumber n).In L := by
  have hfloat (x : Binary64) : (ofLiteral x.text .float).In L :=
    in_ofLiteral (hL.number x) fun h => by rcases h with h | h | h | h <;> cases h
  unfold ofNumber
  split
  · exact in_ofWord hL (wordChar_intText _) _
  · split
    · split
      · exact in_ofWord hL (wordChar_intText _) _
      · exact hfloat _
    · exact hfloat _

end Operand

/-! ## 3. What a compilation writes -/

/-- The columns that can be read in a scope are in the language. -/
structure Covers (L : Template → Prop) (s : Scope) (l : Ledger) : Prop where
  column : ∀ label name, HasAlias s l label → IsColumnName s.schema name →
    L (.ofString (label ++ "." ++ name))
  star : L (.ofString (s.label ++ ".*"))

theorem HasAlias.gains {s : Scope} {l l' : Ledger} (h : Gains l l') {label : String}
    (halias : HasAlias s l label) : HasAlias s l' label := by
  cases halias with
  | root => exact .root
  | joined hj =>
    obtain ⟨place, key, hentry⟩ := hj
    obtain ⟨more, hentries, -⟩ := h
    refine .joined ⟨place, key, ?_⟩
    rw [hentries, List.getElem?_append_left (List.getElem?_eq_some_iff.mp hentry).1]
    exact hentry

/-- With fewer joins there is less to cover. -/
theorem Covers.gains {s : Scope} {l l' : Ledger} (h : Gains l l') (hcovers : Covers L s l') :
    Covers L s l where
  column label name halias := hcovers.column label name (halias.gains h)
  star := hcovers.star

/-- The joins stay well formed, and `P` holds of the result under an assumption `A`, if the columns
    that can be read afterwards are covered. -/
def Writes {α : Type} (L : Template → Prop) (A : Prop) (P : α → Prop) (m : Compile α) : Prop :=
  ∀ s l, JoinsOk s l →
    m.After s l (fun a l' => (JoinsOk s l' ∧ Gains l l') ∧ (A → Covers L s l' → P a)) fun _ => True

namespace Writes

variable {α β : Type} {A B : Prop} {P : α → Prop} {Q : β → Prop} {m : Compile α}
  {f : α → Compile β}

theorem pure {a : α} (h : A → P a) : Writes L A P (Pure.pure a : Compile α) :=
  fun _ _ hl => ⟨⟨hl, .of_eq rfl rfl⟩, fun hA _ => h hA⟩

theorem fail (cause : CompileError.Cause) : Writes L A P (Compile.fail cause : Compile α) :=
  fun _ _ _ => trivial

/-- What goes on may assume what the first part gives. -/
theorem bind (hm : Writes L A P m) (hf : ∀ a, Writes L (A ∧ P a) Q (f a)) :
    Writes L A Q (m >>= f) := by
  intro s l hl
  rw [Compile.after_bind]
  refine (hm s l hl).mono (fun a l₁ h => ?_) fun _ _ => trivial
  obtain ⟨⟨hl₁, hgains⟩, hP⟩ := h
  refine (hf a s l₁ hl₁).mono (fun b l₂ h => ?_) fun _ _ => trivial
  obtain ⟨⟨hl₂, hgains'⟩, hQ⟩ := h
  exact ⟨⟨hl₂, hgains.trans hgains'⟩,
    fun hA hcovers => hQ ⟨hA, hP hA (hcovers.gains hgains')⟩ hcovers⟩

theorem mono {P' : α → Prop} (hm : Writes L A P m) (h : ∀ a, A → P a → P' a) :
    Writes L A P' m :=
  fun s l hl => (hm s l hl).mono
    (fun a _ ha => ⟨ha.1, fun hA hcovers => h a hA (ha.2 hA hcovers)⟩) fun _ _ => trivial

theorem assume (hm : Writes L B P m) (h : A → B) : Writes L A P m :=
  fun s l hl => (hm s l hl).mono
    (fun _ _ ha => ⟨ha.1, fun hA hcovers => ha.2 (h hA) hcovers⟩) fun _ _ => trivial

/-- A scope with the same table, under the same name. -/
theorem withScope {g : Scope → Scope}
    (hg : ∀ s, (g s).schema = s.schema ∧ (g s).table = s.table ∧ (g s).label = s.label)
    (hm : Writes L A P m) : Writes L A P (withReader g m) := by
  intro s l hl
  obtain ⟨hschema, htable, hlabel⟩ := hg s
  have hok (l : Ledger) : JoinsOk (g s) l ↔ JoinsOk s l := by
    unfold JoinsOk
    rw [hschema, htable, hlabel]
  have hcovers (l : Ledger) (h : Covers L s l) : Covers L (g s) l := by
    refine ⟨fun label name halias hname => h.column label name ?_ (hschema ▸ hname),
      hlabel ▸ h.star⟩
    cases halias with
    | root => exact hlabel ▸ .root
    | joined hj => exact .joined hj
  rw [Compile.after_withReader]
  exact (hm (g s) l ((hok l).mpr hl)).mono
    (fun a l' h => ⟨⟨(hok l').mp h.1.1, h.1.2⟩, fun hA hc => h.2 hA (hcovers l' hc)⟩)
    fun _ _ => trivial

theorem within (kind : FrameKind) (args : List Json) (hm : Writes L A P m) :
    Writes L A P (Compile.within kind args m) := by
  intro s l hl
  rw [Compile.after_within]
  exact withScope (g := fun s => { s with frames := kind :: s.frames })
    (fun _ => ⟨rfl, rfl, rfl⟩) hm s l hl

theorem withField (field : String) (hm : Writes L A P m) : Writes L A P (withField field m) :=
  withScope (fun _ => ⟨rfl, rfl, rfl⟩) hm

/-- A step that gives nothing of interest. -/
theorem of_moves (hm : Moves Extends m) : Writes L A (fun _ => True) m := by
  intro s l hl
  have h := hm s l hl
  unfold After
  split <;> rename_i hm'
  · rw [hm'] at h
    exact ⟨h, fun _ _ => trivial⟩
  · trivial

theorem read : Writes L A (fun s => L (.ofString (s.label ++ ".*")))
    (MonadReader.read : Compile Scope) :=
  fun _ _ hl => ⟨⟨hl, .of_eq rfl rfl⟩, fun _ hcovers => hcovers.star⟩

theorem mapM_forall₂ {R : α → β → Prop} {xs : List α} {f : α → Compile β}
    (hf : ∀ x ∈ xs, Writes L A (R x) (f x)) : Writes L A (List.Forall₂ R xs) (xs.mapM f) := by
  induction xs with
  | nil => exact pure fun _ => .nil
  | cons x xs ih =>
    rw [List.mapM_cons]
    refine bind (hf x List.mem_cons_self) fun y =>
      bind ((ih fun x hx => hf x (List.mem_cons_of_mem _ hx)).assume And.left) fun ys =>
        pure fun h => ?_
    obtain ⟨⟨-, hy⟩, hys⟩ := h
    exact .cons hy hys

theorem mapM {xs : List α} {f : α → Compile β} (hf : ∀ x ∈ xs, Writes L A Q (f x)) :
    Writes L A (fun ys => ∀ y ∈ ys, Q y) (xs.mapM f) := by
  refine (mapM_forall₂ hf).mono fun ys _ h => ?_
  clear hf
  induction h with
  | nil => exact List.forall_mem_nil _
  | cons hy _ ih => exact List.forall_mem_cons.mpr ⟨hy, ih⟩

theorem yields {s : Scope} {l l' : Ledger} {a : α} (hm : Writes L A P m) (hl : JoinsOk s l)
    (h : m.Yields s l a l') : (JoinsOk s l' ∧ Gains l l') ∧ (A → Covers L s l' → P a) :=
  (hm s l hl).yields h

end Writes

section Parts

variable (hL : Language L) {A : Prop}

/-! ## 4. Texts, casts and calls -/

theorem writes_compileField (name : String) :
    Writes L A (·.In L) (Path.compileField name) := by
  intro s l hl
  refine (compileField_spec hl name).mono (fun o l' h => ?_) fun _ _ => trivial
  obtain ⟨hext, label, column, type, rfl, halias, hname⟩ := h
  exact ⟨hext hl, fun _ hcovers =>
    Operand.in_fragment (hcovers.column label column halias hname) type⟩

include hL

theorem writes_ofScalar (v : Json) : Writes L A (·.In L) (Operand.ofScalar v) := by
  have hnull : AllChars WordChar "NULL" := by decide
  cases v with
  | null => exact .pure fun _ => Operand.in_ofWord hL hnull _
  | bool b =>
    refine .pure fun _ => Operand.in_ofWord hL ?_ _
    split <;> decide
  | number n => exact .pure fun _ => Operand.in_ofNumber hL n
  | string s =>
    refine .pure fun _ => Operand.in_ofLiteral (hL.literal s) fun h => ?_
    rcases h with h | h | h | h <;> cases h
  | array | object => exact .fail _

theorem writes_compileText (s : String) : Writes L A (·.In L) (compileText s) := by
  unfold compileText
  split
  · exact writes_compileField _
  · exact .bind (.of_moves (steps_extends.pushSite _)) fun ref =>
      .pure fun _ => Operand.in_ofParam hL ref
  · exact writes_ofScalar hL _

variable {o : Operand}

theorem writes_toDate (ho : A → o.In L) :
    Writes L A (fun o' => o'.In L ∧ o'.type = .date) o.toDate := by
  unfold Operand.toDate
  split
  · rename_i htype
    exact .pure fun h => ⟨ho h, htype⟩
  · split
    · dsimp only
      split
      · exact .pure fun _ => ⟨Operand.in_ofWord hL (wordChar_natText _) _, rfl⟩
      · exact .fail _
    · exact .fail _
  · rename_i htype
    exact .pure fun h => ⟨(ho h).retag fun _ _ => .inr (.inr (.inr htype)), rfl⟩
  · exact .fail _

theorem in_truncateDate (ho : o.In L) (htype : ValueType.IsDated o.type) (digits : Nat)
    (type : ValueType) : (o.truncateDate digits type).In L := by
  unfold Operand.truncateDate
  split
  · rename_i hliteral
    exact Operand.in_ofWord hL
      (.ofList fun c hc => ho.dated hliteral htype c (List.mem_of_mem_take hc)) type
  · refine Operand.in_fragment (hL.call (by decide) (hL.after (hL.apply (by decide) ?_)
      (by decide))) type
    intro t ht
    simp only [List.mem_cons, List.not_mem_nil, or_false] at ht
    rcases ht with rfl | rfl | rfl
    · exact ho.text
    · exact hL.word (by decide)
    · exact hL.word (wordChar_natText digits)

theorem writes_convert (ho : A → o.In L) (target : ValueType) :
    Writes L A (·.In L) (o.convert target) := by
  have hleading (digits : Nat) (type : ValueType) :
      Writes L A (·.In L) (o.toDate >>= fun o => pure (o.truncateDate digits type)) :=
    .bind (writes_toDate hL ho) fun o' => .pure fun h =>
      in_truncateDate hL h.2.1 (.inl h.2.2) digits type
  unfold Operand.convert
  split
  · exact (writes_toDate hL ho).mono fun _ _ h => h.1
  · split
    · exact hleading 6 .dateMonth
    · exact hleading 6 .dateMonth
    · exact hleading 6 .dateMonth
    · exact .fail _
  · split
    · exact hleading 4 .dateYear
    · exact hleading 4 .dateYear
    · exact hleading 4 .dateYear
    · rename_i htype
      exact .pure fun h => in_truncateDate hL (ho h) (.inr (.inl htype)) 4 .dateYear
    · exact .fail _
  · split
    · exact .pure fun h => (ho h).retag fun _ h => by rcases h with h | h | h | h <;> cases h
    · exact .pure fun h => (ho h).retag fun _ h => by rcases h with h | h | h | h <;> cases h
    · have htype : o.type = .any := by assumption
      exact .pure fun h => (ho h).retag fun _ _ => .inr (.inr (.inr htype))
    · exact .fail _

theorem writes_cast (ho : A → o.In L) (target : ValueType) :
    Writes L A (·.In L) (o.cast target) := by
  have hzero : AllChars WordChar "0" := by decide
  unfold Operand.cast
  split
  · exact .pure ho
  · split
    · rename_i ref href
      refine .bind (.of_moves (steps_extends.inferParam ref target)) fun _ =>
        .pure fun h => (ho h.1).retag fun hliteral => ?_
      rw [(ho h.1).param (by rw [href]; rfl)] at hliteral
      cases hliteral
    · split
      · split
        · exact .fail _
        · split
          · exact .pure fun _ => Operand.in_ofWord hL hzero _
          · exact .pure ho
      · exact writes_convert hL ho target

theorem writes_argument (ho : A → o.In L) (p : Parameter) :
    Writes L A (·.In L) <| Parameter.admit p o := by
  cases p with
  | any => exact .pure ho
  | castable type => exact .bind (writes_cast hL ho type) fun _ => .pure fun h => ho h.1
  | cast type => exact writes_cast hL ho type

theorem writes_apply {window : Compile Template} (hw : ∀ A, Writes L A L window) (f : Function)
    {args : List Operand} (hargs : A → ∀ a ∈ args, a.In L) :
    Writes L A (·.In L) (f.apply args window) := by
  have fragment {sql : Template} (h : A → L sql) (type : ValueType) :
      Writes L A (·.In L) (pure (Operand.fragment sql type)) :=
    .pure fun hA => Operand.in_fragment (h hA) type
  have call (name : String) (hname : AllChars WordChar name) {a : Operand} (ha : a.In L) :
      L (.call name [a.sql]) :=
    hL.apply hname fun t ht => List.mem_singleton.mp ht ▸ ha.text
  unfold Function.apply
  split
  · exact fragment (fun h => call "SUM" (by decide) (hargs h _ List.mem_cons_self)) _
  · refine .bind (hw _) fun rows => .pure fun h => Operand.in_fragment (hL.parens ?_) _
    exact hL.between (call "SUM" (by decide) (hargs h.1 _ List.mem_cons_self)) (by decide)
      (hL.parens (hL.after h.2 (by decide)))
  · exact fragment (fun h => call "COUNT" (by decide) (hargs h _ List.mem_cons_self)) _
  · refine fragment (fun h => hL.apply (by decide) fun t ht => ?_) _
    obtain ⟨a, ha, rfl⟩ := List.mem_map.mp ht
    exact (hargs h a ha).text
  · exact fragment (fun h => call "LOWER" (by decide) (hargs h _ List.mem_cons_self)) _
  · exact fragment (fun h => hL.parens (hL.before (by decide)
      (hargs h _ List.mem_cons_self).text)) _
  · exact fragment (fun h => call "ABS" (by decide) (hargs h _ List.mem_cons_self)) _
  · exact fragment (fun h => hL.parens (hL.between (hargs h _ List.mem_cons_self).text (by decide)
      (hargs h _ (List.mem_cons_of_mem _ List.mem_cons_self)).text)) _
  · exact .pure fun h => hargs h _ List.mem_cons_self
  · exact .pure fun h => hargs h _ List.mem_cons_self
  · exact fragment (fun h => hL.after (hargs h _ List.mem_cons_self).text (by decide)) _
  · split
    · exact .pure fun h => hargs h _ List.mem_cons_self
    · exact .fail _
  · exact .fail _

theorem writes_equality (mark : Nat) {left right : Operand} (hleft : A → L left.sql)
    (hright : A → right.In L) : Writes L A L (equality mark left right) := by
  unfold equality
  refine .bind (writes_cast hL hright left.type) fun right => ?_
  split
  · exact .pure fun h => hL.after (hleft h.1) (by decide)
  · split
    · refine .bind (.of_moves (steps_extends.repeatSitesFrom mark)) fun _ => .pure fun h => ?_
      have hl := hleft h.1.1
      have hr := h.1.2.text
      have hthen := hL.between (hL.before (s := "CASE WHEN ") (by decide) hl)
        (s := " IS NULL THEN ") (by decide) hr
      have helse := hL.between hthen (s := " IS NULL ELSE ") (by decide) hl
      exact hL.after (hL.between helse (by decide) hr) (by decide)
    · exact .pure fun h => hL.between (hleft h.1) (by decide) h.2.text

/-! ## 5. Parts -/

omit hL in
/-- A part gives text of the language. -/
def Part.Writes (L : Template → Prop) (window : Compile Template) : Part → Prop
  | .expr e => ∀ A, Sql.Writes L A (·.In L) (exprWith window e)
  | .function fields => ∀ A, Sql.Writes L A (·.In L) (functionWith window fields)
  | .call name raw => ∀ A, Sql.Writes L A (·.In L) (callWith window name raw)
  | .arguments ps args =>
    ∀ A, Sql.Writes L A (fun os => ∀ o ∈ os, o.In L) (argumentsWith window ps args)
  | .conditions conds => ∀ A, Sql.Writes L A (fun ts => ∀ t ∈ ts, L t) (conditionsWith window conds)
  | .tests fields => ∀ A, Sql.Writes L A (fun ts => ∀ t ∈ ts, L t) (testsWith window fields)
  | .test name v => ∀ A, Sql.Writes L A (fun ts => ∀ t ∈ ts, L t) (testWith window name v)
  | .ops field items => ∀ A, Sql.Writes L A (fun ts => ∀ t ∈ ts, L t) (opsWith window field items)
  | .op field v => ∀ A, Sql.Writes L A L (opWith window field v)
  | .comparison field operator value transform =>
    ∀ A, Sql.Writes L A L (comparisonWith window field operator value transform)
  | .left field transform => ∀ A, Sql.Writes L A (·.In L) (leftWith window field transform)
  | .elements items =>
    ∀ A type, Sql.Writes L A (fun ts => ∀ t ∈ ts, L t) (elementsWith window type items)

variable {window : Compile Template}

theorem writes_expr {e : Json}
    (ih : (Part.expr e).Below (Part.Writes L window)) :
    (Part.expr e).Writes L window := by
  intro A
  rw [exprWith.eq_def]
  refine .within _ _ ?_
  split
  · exact writes_compileText hL _
  · exact .pure fun _ => Operand.in_ofArray hL _
  · exact ih _ .exprObject A
  · exact writes_ofScalar hL _

omit hL in
theorem writes_function {fields : Fields}
    (ih : (Part.function fields).Below (Part.Writes L window)) :
    (Part.function fields).Writes L window := by
  intro A
  rw [functionWith.eq_def]
  refine .within _ _ ?_
  split
  · exact .fail _
  · exact ih _ .functionHead A

theorem writes_call (hw : ∀ A, Writes L A L window) {name : String} {raw : Json}
    (ih : (Part.call name raw).Below (Part.Writes L window)) :
    (Part.call name raw).Writes L window := by
  intro A
  rw [callWith.eq_def]
  split
  · exact .fail _
  · split
    · exact .fail _
    · rename_i hf
      refine .bind (ih _ (.callCondition hf) A) fun parts =>
        .pure fun h => Operand.in_fragment ?_ _
      split
      · exact hL.word (by decide)
      · exact hL.intercalate (by decide) h.2
    · rename_i f hne hf
      refine .bind (.of_moves (holds_checkArity steps_extends.toClosed _ _)) fun _ =>
        .bind (ih _ (.callArguments hf ?_) _) fun args => writes_apply hL hw f And.right
      rintro rfl
      exact hne rfl

theorem writes_arguments {ps : List Parameter} {args : List Json}
    (ih : (Part.arguments ps args).Below (Part.Writes L window)) :
    (Part.arguments ps args).Writes L window := by
  intro A
  rw [argumentsWith.eq_def]
  split
  · exact .bind (ih _ .argumentsHead A) fun o => .bind (writes_argument hL And.right _) fun o =>
      .bind (ih _ .argumentsTail _) fun os => .pure fun h =>
        List.forall_mem_cons.mpr ⟨h.1.2, h.2⟩
  · exact .pure fun _ => List.forall_mem_nil _

omit hL in
theorem writes_conditions {conds : Json}
    (ih : (Part.conditions conds).Below (Part.Writes L window)) :
    (Part.conditions conds).Writes L window := by
  intro A
  rw [conditionsWith.eq_def]
  split
  · exact .fail _
  · rename_i h
    exact ih _ (.conditionsTests h) A

omit hL in
theorem writes_tests {fields : Fields}
    (ih : (Part.tests fields).Below (Part.Writes L window)) :
    (Part.tests fields).Writes L window := by
  intro A
  rw [testsWith.eq_def]
  split
  · exact .pure fun _ => List.forall_mem_nil _
  · exact .bind (ih _ .testsHead A) fun here => .bind (ih _ .testsTail _) fun more =>
      .pure fun h => List.forall_mem_append.mpr ⟨h.1.2, h.2⟩

theorem writes_test {name : String} {v : Json}
    (ih : (Part.test name v).Below (Part.Writes L window)) :
    (Part.test name v).Writes L window := by
  intro A
  rw [testWith.eq_def]
  split
  · rename_i hand
    subst hand
    split
    · exact .pure fun _ => List.forall_mem_nil _
    · rename_i hv
      exact .bind (ih _ (.testAnd hv) A) fun ts =>
        .pure fun h => List.forall_mem_singleton.mpr (hL.all h.2)
  · rename_i hand
    split
    · rename_i hor
      subst hor
      split
      · exact .pure fun _ => List.forall_mem_nil _
      · rename_i hv
        exact .bind (ih _ (.testOr hv) A) fun ts =>
          .pure fun h => List.forall_mem_singleton.mpr (hL.any h.2)
    · rename_i hor
      split
      · exact ih _ (.testOps hand hor) A
      · exact .bind (ih _ (.testOp hand hor) A) fun t =>
          .pure fun h => List.forall_mem_singleton.mpr h.2
      · rename_i harray hobject
        exact .bind (.within _ _ (ih _ (.testEq hand hor ⟨harray, hobject⟩) A))
          fun t => .pure fun h => List.forall_mem_singleton.mpr h.2

omit hL in
theorem writes_ops {field : String} {items : List Json}
    (ih : (Part.ops field items).Below (Part.Writes L window)) :
    (Part.ops field items).Writes L window := by
  intro A
  rw [opsWith.eq_def]
  split
  · exact .pure fun _ => List.forall_mem_nil _
  · exact .bind (ih _ .opsHead A) fun t => .bind (ih _ .opsTail _) fun ts =>
      .pure fun h => List.forall_mem_cons.mpr ⟨h.1.2, h.2⟩

omit hL in
theorem writes_op {field : String} {v : Json}
    (ih : (Part.op field v).Below (Part.Writes L window)) :
    (Part.op field v).Writes L window := by
  intro A
  rw [opWith.eq_def]
  refine .within _ _ ?_
  split
  · split
    · exact .fail _
    · rename_i hf
      split
      · exact .fail _
      · rename_i ho
        exact ih _ (.opComparison hf ho) A
  · exact .fail _

omit hL in
/-- The sign of a comparison, with room on both sides. -/
theorem separator_comparison {op : Operator} {sign : String} (h : op.comparison? = some sign) :
    Separator (" " ++ sign ++ " ") := by
  cases op <;> simp only [Operator.comparison?, Option.some.injEq, reduceCtorEq] at h
  all_goals
    subst h
    decide

theorem writes_comparison {field : String} {op : Operator} {value : Json}
    {transform : Option Json}
    (ih : (Part.comparison field op value transform).Below (Part.Writes L window)) :
    (Part.comparison field op value transform).Writes L window := by
  intro A
  rw [comparisonWith.eq_def]
  refine .bind (.of_moves (steps_extends.mark)) fun mark => .bind (ih _ .comparisonLeft _)
    fun left => .bind (ih _ .comparisonValue _) fun right => ?_
  split
  · rename_i sign hsign
    refine .bind (writes_cast hL And.right _) fun right => .pure fun h => ?_
    have htext := hL.between h.1.1.2.text (separator_comparison hsign) h.2.text
    simp only [Template.ofString_append, ← Template.append_assoc] at htext
    exact htext
  · split
    · split
      · exact .fail _
      · rename_i items h
        split
        · exact .pure fun _ => hL.word (by decide)
        · rename_i hne
          refine .bind (ih _ (.comparisonElements h ?_) _ _) fun parts => .pure fun h => ?_
          · rintro rfl
            exact hne rfl
          · exact hL.between h.1.1.2.text (by decide)
              (hL.parens (hL.intercalate (by decide) h.2))
    · exact .bind (writes_cast hL (fun h => h.1.2) _) fun left =>
        .bind (writes_cast hL (fun h => h.1.2) _) fun right => .pure fun h =>
          hL.between h.1.2.text (by decide) h.2.text
    · exact writes_equality hL mark (fun h => h.1.2.text) And.right
    · exact .fail _

omit hL in
theorem writes_left {field : String} {transform : Option Json}
    (ih : (Part.left field transform).Below (Part.Writes L window)) :
    (Part.left field transform).Writes L window := by
  intro A
  rw [leftWith.eq_def]
  split
  · exact ih _ .leftField A
  · exact .withField field (ih _ .leftName A)
  · exact .withField field (ih _ .leftCall A)
  · exact .fail _

theorem writes_elements {items : List Json}
    (ih : (Part.elements items).Below (Part.Writes L window)) :
    (Part.elements items).Writes L window := by
  intro A type
  rw [elementsWith.eq_def]
  split
  · exact .pure fun _ => List.forall_mem_nil _
  · exact .bind (.within _ _ (.bind (ih _ .elementsHead A) fun o => writes_cast hL And.right type))
      fun o => .bind (ih _ .elementsTail _ type) fun ts =>
        .pure fun h => List.forall_mem_cons.mpr ⟨h.1.2.text, h.2⟩

theorem writes_part (hw : ∀ A, Writes L A L window) (p : Part) : p.Writes L window := by
  induction p using Part.induction with
  | step p ih =>
    cases p with
    | expr => exact writes_expr hL ih
    | function => exact writes_function ih
    | call => exact writes_call hL hw ih
    | arguments => exact writes_arguments hL ih
    | conditions => exact writes_conditions ih
    | tests => exact writes_tests ih
    | test => exact writes_test hL ih
    | ops => exact writes_ops ih
    | op => exact writes_op ih
    | comparison => exact writes_comparison hL ih
    | left => exact writes_left ih
    | elements => exact writes_elements hL ih

/-! ## 6. Orders -/

theorem writes_directed {sql : Template} (h : A → L sql) (direction : Option Json) :
    Writes L A L (directed sql direction) := by
  unfold directed
  split
  · exact .pure h
  · exact .pure h
  · split
    · rename_i d hd
      have hdir : AllChars WordChar d := by rcases hd with rfl | rfl <;> decide
      exact .pure fun hA => hL.after (hL.after (h hA) (by decide)) hdir
    · exact .fail _
  · exact .fail _

theorem writes_order (hw : ∀ A, Writes L A L window) (e : Json) :
    Writes L A L (orderWith window e) := by
  have hexpr (e : Json) : Writes L A (·.In L) (exprWith window e) :=
    writes_part hL hw (.expr e) A
  unfold orderWith
  split
  · exact .bind (hexpr _) fun _ => .pure fun h => h.2.text
  · split
    · exact .fail _
    · split
      · exact .bind (hexpr _) fun _ => writes_directed hL (fun h => h.2.text) _
      · exact .bind (hexpr _) fun _ => writes_directed hL (fun h => h.2.text) _
  · exact .bind (hexpr _) fun _ => .pure fun h => h.2.text

theorem writes_orderByWith (hw : ∀ A, Writes L A L window) (orders : List Json) :
    Writes L A L (orderByWith window orders) :=
  .within _ _ <| .bind (.mapM fun e _ => writes_order hL hw e) fun _ =>
    .pure fun h => hL.intercalate (by decide) h.2

theorem writes_windowOf (nesting : Nat) (A : Prop) : Writes L A L (windowOf nesting) := by
  induction nesting generalizing A with
  | zero =>
    unfold windowOf
    refine .bind .read fun s => ?_
    split
    · exact .fail _
    · exact .pure fun _ => hL.word (by decide)
  | succ nesting ih =>
    unfold windowOf
    refine .bind .read fun s => ?_
    split
    · exact .bind (writes_orderByWith hL ih _) fun t => .pure fun h =>
        hL.after (hL.before (by decide) h.2) (by decide)
    · exact .pure fun _ => hL.word (by decide)

theorem writes_window (A : Prop) : Writes L A L Sql.window := writes_windowOf hL maxNesting A

end Parts

end QuerySheet.Sql

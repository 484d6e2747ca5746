import QuerySheet.Proofs.Sql.Marks
import QuerySheet.Proofs.Sql.Outline
import QuerySheet.Proofs.Sql.Phrased
import QuerySheet.Proofs.Sql.Written

/-!
# Aggregates that are written

An aggregate is `COUNT`, or `SUM` without `OVER` behind its arguments. A text is searched for calls
of them outside of literals.

* `AppliesAggregate`: such a call is in a text;
* `Phrase.aggregates`, `Phrase.Reads`: such a call is in a phrase, which its text then tells. The
  sum of a running sum does not count, but what it sums up does;
* `traces_aggregates`: calls of `$sum` and `$count` bring them in, and nothing else does;
* `Aggregates`: what is written for an item of a select list has one.
-/

namespace QuerySheet.Sql

/-! ## 1. Calls in a text -/

/-- It is this word, in upper or lower case. -/
def Lexeme.isNamed (name : String) : Lexeme → Bool
  | .word cs => cs.map Char.toUpper = name.toList
  | .sign _ | .literal => false

/-- What follows the parenthesis that closes the first of this many open ones. -/
def behindGroup : (depth : Nat) → List Lexeme → List Lexeme
  | _, [] => []
  | depth, x :: rest =>
    if x = .sign '(' then behindGroup (depth + 1) rest
    else if x = .sign ')' then if depth ≤ 1 then rest else behindGroup (depth - 1) rest
    else behindGroup depth rest

def startsOver (xs : List Lexeme) : Bool := xs.head?.any (Lexeme.isNamed "OVER")

/-- A call of `COUNT` begins here, or one of `SUM` that `OVER` does not follow. -/
def beginsAggregate (x : Lexeme) (rest : List Lexeme) : Bool :=
  rest.head? = some (.sign '(') &&
    (x.isNamed "COUNT" || x.isNamed "SUM" && !startsOver (behindGroup 0 rest))

def aggregates : List Lexeme → Bool
  | [] => false
  | x :: rest => beginsAggregate x rest || aggregates rest

/-- Outside of literals a text calls `COUNT`, or `SUM` without `OVER`. -/
def AppliesAggregate (text : String) : Prop := aggregates (visible (lexemes text)) = true

instance (text : String) : Decidable (AppliesAggregate text) := inferInstanceAs (Decidable (_ = _))

/-- It is no parenthesis. -/
def Lexeme.isLevel (x : Lexeme) : Bool := x ≠ .sign '(' && x ≠ .sign ')'

/-- The words by which aggregates are told. -/
def aggregateWords : List String := ["COUNT", "SUM", "OVER"]

/-- It takes no part in a call of an aggregate. -/
def Lexeme.isPlain (x : Lexeme) : Bool := x.isLevel && aggregateWords.all (!x.isNamed ·)

/-- Each parenthesis that is opened is closed, and none besides. -/
def Balanced (xs : List Lexeme) : Prop :=
  ∀ depth rest, behindGroup (depth + 1) (xs ++ rest) = behindGroup (depth + 1) rest

section Lists

variable {xs ys rest : List Lexeme} {x : Lexeme}

theorem balanced_nil : Balanced [] := fun _ _ => rfl

theorem Balanced.append (hx : Balanced xs) (hy : Balanced ys) : Balanced (xs ++ ys) := by
  intro depth rest
  rw [List.append_assoc, hx, hy]

theorem balanced_of_isLevel (h : x.isLevel = true) : Balanced [x] := by
  simp only [Lexeme.isLevel, Bool.and_eq_true, decide_eq_true_eq] at h
  intro depth rest
  rw [List.singleton_append, behindGroup, if_neg h.1, if_neg h.2]

theorem balanced_of_all (h : xs.all Lexeme.isLevel = true) : Balanced xs := by
  induction xs with
  | nil => exact balanced_nil
  | cons x xs ih =>
    rw [List.all_cons, Bool.and_eq_true] at h
    exact (balanced_of_isLevel h.1).append (ih h.2)

theorem Balanced.parens (h : Balanced xs) : Balanced (.sign '(' :: (xs ++ [.sign ')'])) := by
  intro depth rest
  have hopen : behindGroup (depth + 1) (.sign '(' :: (xs ++ .sign ')' :: rest)) =
      behindGroup (depth + 1 + 1) (xs ++ .sign ')' :: rest) := rfl
  rw [List.cons_append, List.append_assoc, List.singleton_append, hopen, h]
  rfl

/-- What follows a group. -/
theorem Balanced.behindGroup (h : Balanced xs) (rest : List Lexeme) :
    Sql.behindGroup 0 (.sign '(' :: (xs ++ .sign ')' :: rest)) = rest :=
  h 0 (.sign ')' :: rest)

theorem isNamed_of_isPlain (h : x.isPlain = true) {word : String} (hword : word ∈ aggregateWords) :
    x.isNamed word = false := by
  rw [Lexeme.isPlain, Bool.and_eq_true, List.all_eq_true] at h
  simpa using h.2 word hword

theorem isLevel_of_isPlain (h : x.isPlain = true) : x.isLevel = true :=
  (Bool.and_eq_true_iff.mp h).1

theorem aggregates_sign (c : Char) (rest : List Lexeme) :
    aggregates (.sign c :: rest) = aggregates rest := by
  rw [aggregates, beginsAggregate, Lexeme.isNamed, Lexeme.isNamed, Bool.false_and, Bool.or_false,
    Bool.and_false, Bool.false_or]

theorem aggregates_plain (h : xs.all Lexeme.isPlain = true) (rest : List Lexeme) :
    aggregates (xs ++ rest) = aggregates rest := by
  induction xs with
  | nil => rfl
  | cons x xs ih =>
    rw [List.all_cons, Bool.and_eq_true] at h
    rw [List.cons_append, aggregates, beginsAggregate, isNamed_of_isPlain h.1 (by decide),
      isNamed_of_isPlain h.1 (by decide), Bool.false_and, Bool.or_false, Bool.and_false,
      Bool.false_or, ih h.2]

theorem startsOver_plain (h : xs.all Lexeme.isPlain = true) (hne : xs ≠ []) (rest : List Lexeme) :
    startsOver (xs ++ rest) = false := by
  cases xs with
  | nil => exact absurd rfl hne
  | cons x xs =>
    rw [List.all_cons, Bool.and_eq_true] at h
    exact isNamed_of_isPlain h.1 (by decide)

theorem plain_wordOf {cs : List Char}
    (h : ∀ word ∈ aggregateWords, cs.map Char.toUpper ≠ word.toList) :
    (wordOf cs).all Lexeme.isPlain = true := by
  cases cs with
  | nil => rfl
  | cons c cs =>
    have hwords : aggregateWords.all (!(Lexeme.word (c :: cs)).isNamed ·) = true :=
      List.all_eq_true.mpr fun word hword => by simpa [Lexeme.isNamed] using h word hword
    rw [wordOf, List.all_cons, List.all_nil, Bool.and_true, Lexeme.isPlain, hwords, Bool.and_true]
    rfl

theorem plain_visible (h : xs.all Lexeme.isPlain = true) :
    (visible xs).all Lexeme.isPlain = true := by
  rw [List.all_eq_true] at h ⊢
  exact fun x hx => h x (List.mem_of_mem_filter hx)

end Lists

/-! ## 2. Calls in phrases -/

namespace Phrase

/-- A call of an aggregate stands in it. The sum of a running sum is none. -/
def aggregates : Phrase → Bool
  | .beside (.call .sum φ) .over ψ => φ.aggregates || ψ.aggregates
  | .call f φ => f = .count || f = .sum || φ.aggregates
  | .group φ | .condition φ | .minus φ | .orderBy φ | .after φ _ => φ.aggregates
  | .beside φ _ ψ | .orNull φ ψ => φ.aggregates || ψ.aggregates
  | .digits _ | .null | .number _ | .literal _ | .hole _ | .column _ _ | .rows => false

theorem aggregates_beside (φ ψ : Phrase) {gap : Gap} (h : gap ≠ .over) :
    (beside φ gap ψ).aggregates = (φ.aggregates || ψ.aggregates) := by
  rw [aggregates]
  rintro χ - rfl
  exact h rfl

theorem additive_aggregates : Additive aggregates where
  atom φ h := by cases φ <;> first | rfl | cases h
  leading φ d := by simp [Phrase.leading, Phrase.join, aggregates]
  group _ := rfl
  condition _ := rfl
  orderBy _ := rfl
  after _ _ := rfl
  beside gap φ ψ h := aggregates_beside φ ψ h
  orNull _ _ := rfl
  runningSum _ _ := rfl

/-- The text of a phrase calls what the phrase calls. -/
def Reads (φ : Phrase) : Prop :=
  ∀ rest, startsOver rest = false →
    Sql.aggregates (visible φ.lexemes ++ rest) = (φ.aggregates || Sql.aggregates rest)

section Reads

variable {φ ψ : Phrase}

theorem plain_number (n : Number) : (visible (number n).lexemes).all Lexeme.isPlain = true := by
  have hletter : aggregateWords.all hasLetter = true := by decide
  have hword {cs : List Char} (h : ∀ c ∈ cs, InNumber c) : (Lexeme.word cs).isPlain = true := by
    have hwords : aggregateWords.all (!(Lexeme.word cs).isNamed ·) = true :=
      List.all_eq_true.mpr fun word hword => by
        simpa [Lexeme.isNamed] using
          toUpper_ne_of_inNumber h (List.all_eq_true.mp hletter word hword)
    rw [Lexeme.isPlain, hwords]
    rfl
  obtain ⟨ls, hls, htext⟩ := lexemes_number n
  refine plain_visible ?_
  rw [lexemes, htext, List.all_append, Bool.and_eq_true]
  refine ⟨by cases n.isNegative <;> decide, ?_⟩
  cases hls with
  | plain h => rw [List.all_cons, hword h]; rfl
  | scaled h hc h' =>
    rw [List.all_cons, List.all_cons, List.all_cons, hword h, hword h']
    rcases hc with rfl | rfl <;> decide

/-- Phrases without parts call nothing. -/
theorem plain_atom (h : φ.isAtom = true) : (visible φ.lexemes).all Lexeme.isPlain = true := by
  have hletter : aggregateWords.all hasLetter = true := by decide
  have hdot : ∀ word ∈ aggregateWords, '.' ∉ word.toList := by decide
  cases φ with
  | digits d =>
    refine plain_visible (plain_wordOf fun word hword => ?_)
    exact toUpper_ne_of_inNumber (fun c hc => .inl (d.2 c hc))
      (List.all_eq_true.mp hletter word hword)
  | column label name =>
    refine plain_visible (plain_wordOf fun word hword => ?_)
    exact toUpper_ne_of_dot (by simp) (hdot word hword)
  | number n => exact plain_number n
  | null | rows => decide
  | literal | hole => rfl
  | call | group | condition | minus | orderBy | beside | after | orNull => cases h

theorem isLevel_of_plain {xs : List Lexeme} (h : xs.all Lexeme.isPlain = true) :
    xs.all Lexeme.isLevel = true := by
  rw [List.all_eq_true] at h ⊢
  exact fun x hx => isLevel_of_isPlain (h x hx)

/-- A text that calls nothing, with blanks or without. -/
def IsFixed (s : String) : Prop := (visible (Sql.lexemes s)).all Lexeme.isPlain = true

instance (s : String) : Decidable (IsFixed s) := inferInstanceAs (Decidable (_ = _))

theorem fixed_gap (gap : Gap) : gap ≠ .over → IsFixed gap.text := by
  cases gap <;> decide

theorem fixed_tail (tail : Tail) : IsFixed tail.text := by
  cases tail <;> decide

theorem balanced (φ : Phrase) : Balanced (visible φ.lexemes) := by
  have fixed {s : String} (h : (visible (Sql.lexemes s)).all Lexeme.isLevel = true) :
      Balanced (visible (Sql.lexemes s)) := balanced_of_all h
  induction φ with
  | digits | null | number | literal | hole | column | rows =>
    exact balanced_of_all (isLevel_of_plain (plain_atom rfl))
  | call f φ ih =>
    rw [lexemes, visible_append, visible_wordOf, visible_parens]
    exact (balanced_of_all (by cases f <;> rfl)).append ih.parens
  | group φ ih =>
    rw [lexemes, visible_parens]
    exact ih.parens
  | condition φ ih => exact ih
  | minus φ ih =>
    rw [lexemes, ← List.singleton_append, visible_append]
    exact (balanced_of_all (by decide)).append ih
  | orderBy φ ih =>
    rw [lexemes, visible_append]
    exact (fixed (by decide)).append ih
  | beside φ gap ψ ihφ ihψ =>
    have hgap : Balanced (visible (Sql.lexemes gap.text)) := by
      cases gap <;> exact fixed (by decide)
    rw [lexemes, visible_append, visible_append]
    exact ihφ.append (hgap.append ihψ)
  | after φ tail ih =>
    rw [lexemes, visible_append]
    exact ih.append (by cases tail <;> exact fixed (by decide))
  | orNull φ ψ ihφ ihψ =>
    simp only [lexemes, visible_append]
    exact (fixed (by decide)).append <| ihφ.append <| (fixed (by decide)).append <|
      ihψ.append <| (fixed (by decide)).append <| ihφ.append <| (fixed (by decide)).append <|
        ihψ.append (fixed (by decide))

theorem reads_atom (h : φ.isAtom = true) : φ.Reads := by
  intro rest _
  rw [aggregates_plain (plain_atom h), additive_aggregates.atom φ h, Bool.false_or]

/-- Behind a phrase in parentheses the text goes on. -/
theorem Reads.closed (h : φ.Reads) (rest : List Lexeme) :
    Sql.aggregates (.sign '(' :: (visible φ.lexemes ++ .sign ')' :: rest)) =
      (φ.aggregates || Sql.aggregates rest) := by
  rw [aggregates_sign, h _ rfl, aggregates_sign]

theorem Reads.group (h : φ.Reads) : φ.group.Reads := by
  intro rest _
  rw [lexemes, visible_parens, List.cons_append, List.append_assoc, List.singleton_append, h.closed]
  rfl

theorem Reads.minus (h : φ.Reads) : φ.minus.Reads := by
  intro rest hrest
  have hsign : visible φ.minus.lexemes = .sign '-' :: visible φ.lexemes := rfl
  rw [hsign, List.cons_append, aggregates_sign, h rest hrest]
  rfl

/-- The text of a call. -/
theorem visible_call (f : Routine) (φ : Phrase) (rest : List Lexeme) :
    visible (call f φ).lexemes ++ rest =
      .word f.text.toList :: .sign '(' :: (visible φ.lexemes ++ .sign ')' :: rest) := by
  rw [lexemes, visible_append, visible_wordOf, visible_parens]
  cases f <;> simp [wordOf, Routine.text]

theorem beginsAggregate_call (f : Routine) (φ : Phrase) (rest : List Lexeme) :
    beginsAggregate (.word f.text.toList)
      (.sign '(' :: (visible φ.lexemes ++ .sign ')' :: rest)) =
        (f = .count || f = .sum && !startsOver rest) := by
  rw [beginsAggregate, φ.balanced.behindGroup]
  cases f <;> rfl

theorem Reads.call (f : Routine) (h : φ.Reads) : (Phrase.call f φ).Reads := by
  intro rest hrest
  have hcall : (Phrase.call f φ).aggregates = (f = .count || f = .sum || φ.aggregates) := by
    rw [aggregates]
  rw [visible_call, Sql.aggregates, beginsAggregate_call, h.closed, hrest, hcall, Bool.not_false,
    Bool.and_true, Bool.or_assoc (_ || _)]

/-- A phrase before a text that calls nothing. -/
theorem Reads.before (h : φ.Reads) {s : String} (hs : IsFixed s)
    (hne : visible (Sql.lexemes s) ≠ []) (rest : List Lexeme) :
    Sql.aggregates (visible φ.lexemes ++ (visible (Sql.lexemes s) ++ rest)) =
      (φ.aggregates || Sql.aggregates rest) := by
  rw [h _ (startsOver_plain hs hne rest), aggregates_plain hs]

theorem Reads.beside (hφ : φ.Reads) (hψ : ψ.Reads) {gap : Gap} (hgap : gap.isWindow = false) :
    (Phrase.beside φ gap ψ).Reads := by
  intro rest hrest
  have hne : visible (Sql.lexemes gap.text) ≠ [] := by
    cases gap <;> first | decide | cases hgap
  have hover : gap ≠ .over := by
    rintro rfl
    cases hgap
  rw [lexemes, visible_append, visible_append, List.append_assoc, List.append_assoc,
    hφ.before (fixed_gap gap hover) hne, hψ rest hrest, aggregates_beside φ ψ hover, Bool.or_assoc]

theorem Reads.after (h : φ.Reads) (tail : Tail) : (Phrase.after φ tail).Reads := by
  intro rest _
  have hne : visible (Sql.lexemes tail.text) ≠ [] := by cases tail <;> decide
  rw [lexemes, visible_append, List.append_assoc, h.before (fixed_tail tail) hne]
  rfl

theorem Reads.orNull (hφ : φ.Reads) (hψ : ψ.Reads) : (Phrase.orNull φ ψ).Reads := by
  intro rest _
  have skip {s : String} (hs : IsFixed s) (xs : List Lexeme) :
      Sql.aggregates (visible (Sql.lexemes s) ++ xs) = Sql.aggregates xs := aggregates_plain hs xs
  simp only [lexemes, visible_append, List.append_assoc]
  rw [skip (by decide), hφ.before (by decide) (by decide), hψ.before (by decide) (by decide),
    hφ.before (by decide) (by decide), hψ.before (by decide) (by decide), aggregates]
  cases φ.aggregates <;> cases ψ.aggregates <;> rfl

/-- The sum of a running sum does not count, as `OVER` follows it. -/
theorem Reads.runningSum (hφ : φ.Reads) (hψ : ψ.Reads) : (Phrase.runningSum φ ψ).Reads := by
  refine Reads.group fun rest hrest => ?_
  have hover (xs : List Lexeme) :
      startsOver (visible (Sql.lexemes Gap.over.text) ++ xs) = true := rfl
  have hskip (xs : List Lexeme) : Sql.aggregates (visible (Sql.lexemes Gap.over.text) ++
      .sign '(' :: xs) = Sql.aggregates (.sign '(' :: xs) := rfl
  rw [lexemes, visible_append, visible_append, List.append_assoc, List.append_assoc, visible_call,
    Sql.aggregates, beginsAggregate_call, hφ.closed, hover, Phrase.lexemes, visible_parens,
    List.cons_append, List.append_assoc, List.singleton_append, hskip, hψ.closed]
  exact (Bool.or_assoc φ.aggregates ψ.aggregates (Sql.aggregates rest)).symm

/-- The text of a regular phrase calls what the phrase calls. -/
theorem Regular.reads (h : φ.Regular) : φ.Reads := by
  induction h with
  | digits | null | number | literal | hole | column => exact reads_atom rfl
  | call f _ ih => exact ih.call f
  | group _ ih => exact ih.group
  | condition _ ih => exact ih
  | minus _ ih => exact ih.minus
  | beside hgap _ _ ihφ ihψ => exact ihφ.beside ihψ hgap
  | after tail _ ih => exact ih.after tail
  | orNull _ _ ihφ ihψ => exact ihφ.orNull ihψ
  | runningSum _ ih => exact ih.runningSum (reads_atom rfl)
  | @runningSumBy φ ω _ _ ihφ ihω =>
    refine ihφ.runningSum fun rest hrest => ?_
    have hstart (xs : List Lexeme) : Sql.aggregates (visible (Sql.lexemes "ORDER BY ") ++ xs) =
        Sql.aggregates xs := aggregates_plain (by decide) xs
    have hblank : visible (Sql.lexemes Gap.blank.text) = [] := by decide
    have hgap : Gap.blank ≠ .over := nofun
    have hrows : IsFixed rowsText := by decide
    have hne : visible (Sql.lexemes rowsText) ≠ [] := by decide
    simp only [lexemes, visible_append, List.append_assoc]
    rw [hstart, hblank, List.nil_append, ihω.before hrows hne, aggregates_beside _ _ hgap,
      aggregates, aggregates, Bool.or_false]

theorem Regular.appliesAggregate_iff (h : φ.Regular) :
    AppliesAggregate φ.template.text ↔ φ.aggregates = true := by
  have h := h.reads [] rfl
  rw [List.append_nil, Sql.aggregates, Bool.or_false] at h
  rw [AppliesAggregate, lexemes_template, h]

end Reads

end Phrase

/-! ## 3. Calls in expressions -/

def namesAggregate (name : String) : Bool := (Function.ofName? name).any Function.isAggregate

/-- A call of an aggregate, whatever its arguments. -/
def CallsAggregate (name : String) (_ : Json) : Prop := namesAggregate name = true

theorem namesAggregate_eq {name : String} {f : Function} (h : Function.ofName? name = some f) :
    namesAggregate name = f.isAggregate := by
  rw [namesAggregate, h]
  rfl

theorem traces_aggregates (orders : List Json) :
    Traces orders Phrase.aggregates CallsAggregate where
  toAdditive := Phrase.additive_aggregates
  call {name raw f φs φ} hf _ h := by
    have hadd := Phrase.additive_aggregates
    rw [CallsAggregate, namesAggregate_eq hf]
    cases h with
    | @routine _ r φ hr => cases f <;> cases hr <;> simp [Phrase.aggregates, Function.isAggregate]
    | substr =>
      have hcall (φ : Phrase) : (Phrase.call .substr φ).aggregates = φ.aggregates := by
        simp [Phrase.aggregates]
      rw [hcall, hadd.join .arguments nofun]
      simp [Function.isAggregate]
    | neg => simp [Phrase.aggregates, Function.isAggregate]
    | idiv => simp [Phrase.aggregates, Function.isAggregate]
    | part hpart => rcases hpart with rfl | rfl <;> simp [Function.isAggregate]
    | nocase => simp [Phrase.aggregates, Function.isAggregate]
    | literal => simp [Function.isAggregate]
  special raw f hf h := by
    rw [CallsAggregate, namesAggregate_eq hf]
    rcases h with rfl | rfl <;> nofun

/-- What is written for an item of a select list calls an aggregate. -/
def Aggregates (orders : List Json) (item : Json) : Prop :=
  ∃ t ∈ itemTasks orders item, t.Written CallsAggregate

theorem ValueSpells.aggregates_iff {orders : List Json} {value : Json} {φ : Phrase}
    (h : ValueSpells orders value φ) :
    φ.aggregates = true ↔ (columnTask orders value).Written CallsAggregate := by
  have hsingle : [φ].any Phrase.aggregates = φ.aggregates := by simp
  rw [← hsingle]
  cases value with
  | string | object | null | bool | number | array => exact (traces_aggregates _).written_iff h

end QuerySheet.Sql

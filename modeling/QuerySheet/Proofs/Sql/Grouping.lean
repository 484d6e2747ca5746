import Mathlib
import QuerySheet.Proofs.Sql.Lexing
import QuerySheet.Proofs.Sql.Spelled

/-!
# Operands and their groups

A test places the texts of its operands beside an operator. What an operand is compiled to has no
operator of a test outside of parentheses, string literals and case distinctions, so that it stays
one operand there, unless it is a condition that is used as a value: the tests of such a condition
are written as they are.

* `Grouped`: a text has no operator of a test outside of groups;
* `isOpen`: the expressions that are written without a group, by their shape;
* `Placed`: the operands of a test, and the text that is made of theirs;
* `operands_of_compileOp`: an operand is grouped exactly if its expression is not open.
-/

namespace QuerySheet.Sql

/-! ## 1. Operators outside of groups -/

/-- Words and signs that join tests or make one. -/
def operatorWords : List String := ["AND", "OR", "NOT", "LIKE", "IN", "IS", "BETWEEN"]

namespace Lexeme

/-- A word is one of these, in upper or lower case. -/
def isAmong (words : List String) (cs : List Char) : Bool :=
  words.any fun word => cs.map Char.toUpper = word.toList

def opens : Lexeme → Bool
  | .word cs => isAmong ["CASE"] cs
  | .sign c => c = '('
  | .literal => false

def closes : Lexeme → Bool
  | .word cs => isAmong ["END"] cs
  | .sign c => c = ')'
  | .literal => false

def isOperator : Lexeme → Bool
  | .word cs => isAmong operatorWords cs
  | .sign c => c = '=' || c = '<' || c = '>'
  | .literal => false

end Lexeme

/-- Outside of groups, this many of which are open, there is an operator. -/
def bare : Nat → List Lexeme → Bool
  | _, [] => false
  | depth, x :: xs =>
    if x.opens then bare (depth + 1) xs
    else if x.closes then bare (depth - 1) xs
    else depth = 0 && x.isOperator || bare depth xs

/-- No operator of a test stands in a text outside of parentheses, literals and case
    distinctions. -/
def Grouped (text : String) : Prop := bare 0 (lexemes text) = false

instance (text : String) : Decidable (Grouped text) := inferInstanceAs (Decidable (_ = _))

/-! ## 2. Operators of phrases -/

/-- It neither opens nor closes a group. -/
def Lexeme.IsFlat (x : Lexeme) : Prop := x.opens = false ∧ x.closes = false

instance (x : Lexeme) : Decidable x.IsFlat := inferInstanceAs (Decidable (_ ∧ _))

theorem bare_flat {xs : List Lexeme} (h : ∀ x ∈ xs, x.IsFlat) (depth : Nat)
    (rest : List Lexeme) :
    bare depth (xs ++ rest) = (depth = 0 && xs.any Lexeme.isOperator || bare depth rest) := by
  induction xs with
  | nil => simp
  | cons x xs ih =>
    obtain ⟨hopens, hcloses⟩ := h x List.mem_cons_self
    rw [List.cons_append, bare, hopens, hcloses, if_neg nofun, if_neg nofun,
      ih fun y hy => h y (List.mem_cons_of_mem _ hy), List.any_cons]
    cases decide (depth = 0) <;> simp [Bool.or_assoc]

/-- What stands in parentheses does not count. -/
theorem bare_parens {xs : List Lexeme} {loose : Bool}
    (h : ∀ depth rest, bare depth (xs ++ rest) = (depth = 0 && loose || bare depth rest))
    (depth : Nat) (rest : List Lexeme) :
    bare depth (.sign '(' :: (xs ++ .sign ')' :: rest)) = bare depth rest := by
  have hopen : bare depth (.sign '(' :: (xs ++ .sign ')' :: rest)) =
      bare (depth + 1) (xs ++ .sign ')' :: rest) := rfl
  have hclose : bare (depth + 1) (.sign ')' :: rest) = bare depth rest := rfl
  rw [hopen, h, hclose]
  simp

/-- The words of operators and groups. -/
def reserved : List String := "CASE" :: "END" :: operatorWords

theorem Lexeme.not_isAmong {words : List String} {cs : List Char}
    (hwords : ∀ word ∈ words, word ∈ reserved)
    (h : ∀ word ∈ reserved, cs.map Char.toUpper ≠ word.toList) : isAmong words cs = false := by
  unfold isAmong
  rw [List.any_eq_false]
  exact fun word hword => by simpa using h word (hwords word hword)

/-- A word that is not reserved. -/
theorem bare_word {cs : List Char} (h : ∀ word ∈ reserved, cs.map Char.toUpper ≠ word.toList)
    (depth : Nat) (rest : List Lexeme) : bare depth (.word cs :: rest) = bare depth rest := by
  rw [bare, Lexeme.opens, Lexeme.closes, Lexeme.isOperator,
    Lexeme.not_isAmong (by decide) h, Lexeme.not_isAmong (by decide) h,
    Lexeme.not_isAmong (by decide) h]
  simp

theorem not_reserved_of_inNumber {cs : List Char} (h : ∀ c ∈ cs, InNumber c) :
    ∀ word ∈ reserved, cs.map Char.toUpper ≠ word.toList := by
  have hletter : reserved.all hasLetter = true := by decide
  exact fun word hword => toUpper_ne_of_inNumber h (List.all_eq_true.mp hletter word hword)

/-- No reserved word has a dot. -/
theorem not_reserved_of_dot {cs : List Char} (h : '.' ∈ cs) :
    ∀ word ∈ reserved, cs.map Char.toUpper ≠ word.toList := by
  have hdot : ∀ word ∈ reserved, '.' ∉ word.toList := by decide
  exact fun word hword => toUpper_ne_of_dot h (hdot word hword)

theorem bare_wordOf {cs : List Char} (h : ∀ word ∈ reserved, cs.map Char.toUpper ≠ word.toList)
    (depth : Nat) (rest : List Lexeme) : bare depth (wordOf cs ++ rest) = bare depth rest := by
  cases cs with
  | nil => rfl
  | cons c cs => exact bare_word h depth rest

/-- The sign of a number, or of its exponent. -/
theorem bare_sign {c : Char} (hc : c = '-' ∨ c = '+') (depth : Nat) (rest : List Lexeme) :
    bare depth (.sign c :: rest) = bare depth rest := by
  rcases hc with rfl | rfl <;> simp [bare, Lexeme.opens, Lexeme.closes, Lexeme.isOperator]

theorem bare_number (n : Number) (depth : Nat) (rest : List Lexeme) :
    bare depth ((Phrase.number n).lexemes ++ rest) = bare depth rest := by
  obtain ⟨ls, hls, htext⟩ := lexemes_number n
  have hmagnitude : bare depth (ls ++ rest) = bare depth rest := by
    cases hls with
    | plain h => exact bare_word (not_reserved_of_inNumber h) depth rest
    | scaled h hc h' =>
      refine (bare_word (not_reserved_of_inNumber h) depth _).trans ?_
      exact (bare_sign hc depth _).trans (bare_word (not_reserved_of_inNumber h') depth rest)
  rw [Phrase.lexemes, htext]
  cases n.isNegative with
  | false => exact hmagnitude
  | true => exact (bare_sign (.inl rfl) depth _).trans hmagnitude

theorem bare_routine (f : Routine) (depth : Nat) (rest : List Lexeme) :
    bare depth (wordOf f.text.toList ++ rest) = bare depth rest :=
  bare_wordOf (by cases f <;> decide) depth rest

theorem any_gap (gap : Gap) : (lexemes gap.text).any Lexeme.isOperator = gap.isOperator := by
  cases gap <;> decide

theorem any_tail (tail : Tail) : (lexemes tail.text).any Lexeme.isOperator = tail.isOperator := by
  cases tail <;> decide

/-- Outside of groups an operator stands in a phrase exactly if it is loose. -/
theorem bare_lexemes (φ : Phrase) (depth : Nat) (rest : List Lexeme) :
    bare depth (φ.lexemes ++ rest) = (depth = 0 && φ.isLoose || bare depth rest) := by
  induction φ generalizing depth rest with
  | digits d =>
    rw [Phrase.lexemes, Phrase.isLoose, Bool.and_false, Bool.false_or]
    exact bare_wordOf (not_reserved_of_inNumber fun c hc => .inl (d.2 c hc)) depth rest
  | column label name =>
    rw [Phrase.lexemes, Phrase.isLoose, Bool.and_false, Bool.false_or]
    exact bare_wordOf (not_reserved_of_dot (by simp)) depth rest
  | number n =>
    rw [Phrase.isLoose, Bool.and_false, Bool.false_or]
    exact bare_number n depth rest
  | null | rows => exact bare_flat (by decide) depth rest
  | literal => exact bare_flat (show ∀ x ∈ [Lexeme.literal], x.IsFlat by decide) depth rest
  | hole => exact bare_flat (show ∀ x ∈ [Lexeme.sign '?'], x.IsFlat by decide) depth rest
  | call f φ ih =>
    rw [Phrase.lexemes, Phrase.isLoose, Bool.and_false, Bool.false_or, List.append_assoc,
      bare_routine, List.cons_append, List.append_assoc, List.singleton_append, bare_parens ih]
  | group φ ih =>
    rw [Phrase.lexemes, Phrase.isLoose, Bool.and_false, Bool.false_or, List.cons_append,
      List.append_assoc, List.singleton_append, bare_parens ih]
  | condition φ ih => exact ih depth rest
  | minus φ ih =>
    exact (bare_sign (.inl rfl) depth _).trans (ih depth rest)
  | orderBy φ ih =>
    rw [Phrase.lexemes, Phrase.isLoose, List.append_assoc, bare_flat (by decide), ih]
    cases decide (depth = 0) <;> rfl
  | beside φ gap ψ ihφ ihψ =>
    rw [Phrase.lexemes, Phrase.isLoose, List.append_assoc, List.append_assoc, ihφ,
      bare_flat (by cases gap <;> decide), ihψ, any_gap, Bool.or_comm gap.isOperator,
      Bool.and_or_distrib_left, Bool.and_or_distrib_left, Bool.or_assoc, Bool.or_assoc]
  | after φ tail ih =>
    rw [Phrase.lexemes, Phrase.isLoose, List.append_assoc, ih,
      bare_flat (by cases tail <;> decide), any_tail, Bool.or_comm tail.isOperator,
      Bool.and_or_distrib_left, Bool.or_assoc]
  | orNull φ ψ ihφ ihψ =>
    have hinner (s : String) (h : ∀ x ∈ lexemes s, x.IsFlat) (rest : List Lexeme) :
        bare (depth + 1) (lexemes s ++ rest) = bare (depth + 1) rest := by
      rw [bare_flat h]
      rfl
    have hcase (rest : List Lexeme) :
        bare depth (lexemes "CASE WHEN " ++ rest) = bare (depth + 1) rest :=
      hinner " WHEN " (by decide) rest
    have hend : bare (depth + 1) (lexemes " END" ++ rest) = bare depth rest := rfl
    have hφ (rest : List Lexeme) :
        bare (depth + 1) (φ.lexemes ++ rest) = bare (depth + 1) rest := by
      rw [ihφ]
      rfl
    have hψ (rest : List Lexeme) :
        bare (depth + 1) (ψ.lexemes ++ rest) = bare (depth + 1) rest := by
      rw [ihψ]
      rfl
    simp only [Phrase.lexemes, List.append_assoc]
    rw [hcase, hφ, hinner _ (by decide), hψ, hinner _ (by decide), hφ, hinner _ (by decide), hψ,
      hend, Phrase.isLoose, Bool.and_false, Bool.false_or]

theorem grouped_template (φ : Phrase) : Grouped φ.template.text ↔ φ.isLoose = false := by
  have h := bare_lexemes φ 0 []
  rw [List.append_nil] at h
  rw [Grouped, Phrase.lexemes_template, h]
  simp [bare]

/-! ## 3. Open expressions -/

/-- The left side of a test, as an expression. -/
def leftSide (field : String) : Option Json → Json
  | none => fieldReference field
  | some (.string name) => .object [(name, .string "$")]
  | some transform => transform

/-- The operator of a test, and its left and right side. -/
def sides? (field : String) : Json → Option (Operator × Json × Json)
  | .object fields =>
    match fields.find? (·.1 ≠ transformKey) with
    | some (name, right) => (Operator.ofName? name).map
        (·, leftSide field (fields.lookup transformKey), right)
    | none => none
  | _ => none

/-- A test for this is written without a group. -/
def isBare : Operator → Json → Bool
  | .eq, value => !isParameter value
  | .oneOf, value => literalItems? value ≠ some []
  | _, _ => true

/-- A test of one field is written without a group. -/
def opIsBare (field : String) (op : Json) : Bool :=
  (sides? field op).any fun (operator, _, value) => isBare operator value

/-- For each test that is written for an entry of a condition, whether it is without a group. -/
def bareTests (name : String) (v : Json) : List Bool :=
  if name = "$and" then if v.isFalsy then [] else [false]
  else if name = "$or" then if v.isFalsy ∨ v = .array [] then [] else [false]
  else
    match v with
    | .array ops => ops.map (opIsBare name)
    | .object fields => [opIsBare name (.object fields)]
    | v => [isBare .eq v]

/-- The same for all entries of a condition. -/
def bareConditions (conds : Json) : List Bool :=
  match Condition.tests conds with
  | .ok fields => fields.flatMap fun (name, v) => bareTests name v
  | .error _ => []

/-- A condition that is used as a value, of several tests or of one that has no group. -/
def isOpen : Json → Bool
  | .object ((name, raw) :: _) => Function.ofName? name = some .condition &&
      match bareConditions raw with
      | [] => false
      | [test] => test
      | _ :: _ :: _ => true
  | _ => false

section Spelling

variable {orders : List Json} {φ φ' ψ χ : Phrase} {φs : List Phrase}

theorem Leaf.isLoose {e : Json} (h : Leaf e φ) : φ.isLoose = false := by
  cases h <;> rfl

theorem Recast.isLoose (h : Recast φ φ') : φ'.isLoose = φ.isLoose := by
  cases h with
  | leading _ hvalue => exact (Phrase.not_isLoose_of_isValue hvalue).symm
  | same | date | shorten | never => rfl

theorem Applies.isLoose {f : Function} (h : Applies f φs φ) : φ.isLoose = false := by
  cases h with
  | part _ hvalue | literal hvalue => exact Phrase.not_isLoose_of_isValue hvalue
  | nocase hvalue =>
    rw [Phrase.isLoose, Phrase.not_isLoose_of_isValue hvalue]
    rfl
  | routine | substr | neg | idiv => rfl

theorem Compares.isLoose {op : Operator} {value : Json} (h : Compares op value φ ψ χ) :
    χ.isLoose = isBare op value := by
  cases h with
  | sign _ hgap => cases op <;> cases hgap <;> rfl
  | like => rfl
  | isNull _ hparam | equal _ hparam | orNull _ hparam =>
    rw [isBare, hparam]
    rfl

theorem isBare_of_literalItems {value : Json} {items : List Json}
    (h : literalItems? value = some items) (hne : items ≠ []) : isBare .oneOf value = true := by
  rw [isBare, h]
  exact decide_eq_true fun e => hne (Option.some.inj e)

theorem sides_of_find {field name : String} {fields : Fields} {right : Json} {operator : Operator}
    (hf : fields.find? (·.1 ≠ transformKey) = some (name, right))
    (ho : Operator.ofName? name = some operator) :
    sides? field (.object fields) =
      some (operator, leftSide field (fields.lookup transformKey), right) := by
  unfold sides?
  dsimp only
  rw [hf]
  dsimp only
  rw [ho]
  rfl

/-- A test of two sides is loose unless it has a group. -/
theorem isLoose_comparison {field : String} {op : Operator} {value : Json}
    {transform : Option Json}
    (h : Spells orders (.part (.comparison field op value transform)) φs) :
    φs.map Phrase.isLoose = [isBare op value] := by
  cases h with
  | pass h => cases h
  | comparison _ _ h => rw [List.map_cons, List.map_nil, h.isLoose]
  | never h =>
    rw [isBare, h]
    rfl
  | among h hne => rw [List.map_cons, List.map_nil, isBare_of_literalItems h hne, Phrase.isLoose,
      Gap.isOperator, Bool.true_or, Bool.true_or]

theorem isLoose_op {field : String} {op : Json} (h : Spells orders (.part (.op field op)) φs) :
    φs.map Phrase.isLoose = [opIsBare field op] := by
  cases h with
  | pass h hq =>
    cases h with
    | comparison hf ho =>
      rw [isLoose_comparison hq, opIsBare, sides_of_find hf ho]
      rfl

theorem isLoose_ops {field : String} {ops : List Json}
    (h : Spells orders (.part (.ops field ops)) φs) :
    φs.map Phrase.isLoose = ops.map (opIsBare field) := by
  induction ops generalizing φs with
  | nil =>
    cases h with
    | pass h => cases h
    | noOps => rfl
  | cons op ops ih =>
    cases h with
    | pass h => cases h
    | ops hop hrest =>
      rw [List.map_cons, List.map_cons, ih hrest, List.cons.inj (isLoose_op hop) |>.1]

theorem isLoose_test {name : String} {v : Json} (h : Spells orders (.part (.test name v)) φs) :
    φs.map Phrase.isLoose = bareTests name v := by
  unfold bareTests
  cases h with
  | noTest h =>
    rcases h with ⟨rfl, h⟩ | ⟨rfl, h⟩
    · rw [if_pos rfl, if_pos h]
      rfl
    · rw [if_neg (by decide), if_pos rfl, if_pos h]
      rfl
  | @all _ φs hv =>
    rw [if_pos rfl, if_neg hv]
    cases φs <;> rfl
  | @any _ φs hv =>
    rw [if_neg (by decide), if_pos rfl, if_neg hv]
    cases φs <;> rfl
  | pass h hq =>
    cases h with
    | ops items hand hor =>
      rw [if_neg hand, if_neg hor]
      exact isLoose_ops hq
    | op fields hand hor =>
      rw [if_neg hand, if_neg hor]
      exact isLoose_op hq
    | eq hand hor hv =>
      rw [if_neg hand, if_neg hor, isLoose_comparison hq]
      split
      · exact absurd rfl (hv.1 _)
      · exact absurd rfl (hv.2 _)
      · rfl

theorem isLoose_tests {fields : Fields} (h : Spells orders (.part (.tests fields)) φs) :
    φs.map Phrase.isLoose = fields.flatMap fun (name, v) => bareTests name v := by
  induction fields generalizing φs with
  | nil =>
    cases h with
    | pass h => cases h
    | noTests => rfl
  | cons field fields ih =>
    cases h with
    | pass h => cases h
    | tests hv hrest => rw [List.map_append, isLoose_test hv, ih hrest, List.flatMap_cons]

theorem isLoose_conditions {conds : Json} (h : Spells orders (.part (.conditions conds)) φs) :
    φs.map Phrase.isLoose = bareConditions conds := by
  cases h with
  | pass h hq =>
    cases h with
    | conditions h =>
      rw [isLoose_tests hq, bareConditions, h]

/-- A call is loose exactly if it is an open condition. -/
theorem isLoose_function {fields : Fields} (h : Spells orders (.part (.function fields)) [φ]) :
    φ.isLoose = isOpen (.object fields) := by
  cases h with
  | pass h hq =>
    cases h with
    | function name raw rest =>
      rw [isOpen]
      have hclosed {f : Function} (hf : Function.ofName? name = some f) (hne : f ≠ .condition) :
          decide (Function.ofName? name = some .condition) = false :=
        decide_eq_false fun e => hne (Option.some.inj (hf.symm.trans e))
      cases hq with
      | pass h => cases h
      | @condition _ _ φs hf h =>
        rw [Phrase.isLoose_conjunction, ← isLoose_conditions h, hf]
        match φs with
        | [] => rfl
        | [φ] => rfl
        | _ :: _ :: _ => rfl
      | call hf _ h =>
        rw [hclosed hf h.ne_special.1, Bool.false_and]
        exact h.isLoose
      | running hf =>
        rw [hclosed hf nofun, Bool.false_and]
        rfl

theorem isLoose_expr {e : Json} (h : Spells orders (.part (.expr e)) [φ]) :
    φ.isLoose = isOpen e := by
  cases h with
  | leaf h =>
    rw [h.isLoose]
    cases h <;> rfl
  | pass h hq =>
    cases h
    exact isLoose_function hq

theorem Spells.leftSide {field : String} {transform : Option Json}
    (h : Spells orders (.part (.left field transform)) φs) :
    Spells orders (.part (.expr (leftSide field transform))) φs := by
  cases h with
  | pass h hq =>
    cases h with
    | leftField => exact hq
    | leftName => exact .pass (.object _) hq
    | leftCall => exact .pass (.object _) hq

end Spelling

/-! ## 4. Operands -/

/-- A text that an expression may be compiled to, as an operand of some type. -/
def OperandText (orders : List Json) (e : Json) (t : Template) : Prop :=
  ∃ φ φ', Spells orders (.part (.expr e)) [φ] ∧ Recast φ φ' ∧ t = φ'.template

/-- The operands of a test, from its operator, its left and its right side, and its text. -/
inductive Placed : Operator → Json → Json → List (Json × Template) → Template → Prop
  | sign {op : Operator} {gap : Gap} (left value : Json) (a b : Template)
      (h : Gap.ofOperator? op = some gap) :
      Placed op left value [(left, a), (value, b)] (a ++ gap.text ++ b)
  | like (left value : Json) (a b : Template) :
      Placed .like left value [(left, a), (value, b)] (a ++ " LIKE " ++ b)
  | equal (left value : Json) (a b : Template) :
      Placed .eq left value [(left, a), (value, b)] (a ++ " = " ++ b)
  | isNull (left value : Json) (a : Template) :
      Placed .eq left value [(left, a)] (a ++ " IS NULL")
  | orNull (left value : Json) (a b : Template) :
      Placed .eq left value [(left, a), (value, b)] ("CASE WHEN " ++ a ++ " IS NULL THEN " ++ b ++
        " IS NULL ELSE " ++ a ++ " = " ++ b ++ " END")
  | among (left value : Json) {items : List Json} (a : Template)
      {elements : List (Json × Template)} (h : literalItems? value = some items) (hne : items ≠ [])
      (helements : elements.map Prod.fst = Condition.distinct items) :
      Placed .oneOf left value ((left, a) :: elements)
        (a ++ " IN " ++ (Template.intercalate "," (elements.map Prod.snd)).parens)
  | never (left value : Json) (h : literalItems? value = some []) :
      Placed .oneOf left value [] "0"

section Operands

variable {orders : List Json} {φ φ' ψ χ : Phrase} {φs : List Phrase}

theorem grouped_iff {e : Json} {t : Template} (h : OperandText orders e t) :
    Grouped t.text ↔ isOpen e = false := by
  obtain ⟨φ, φ', hφ, hcast, rfl⟩ := h
  rw [grouped_template, hcast.isLoose, isLoose_expr hφ]

theorem operandText {e : Json} (h : Spells orders (.part (.expr e)) [φ]) (hcast : Recast φ φ') :
    OperandText orders e φ'.template := ⟨φ, φ', h, hcast, rfl⟩

theorem elements_of_spells {items : List Json}
    (h : Spells orders (.part (.elements items)) φs) :
    ∃ elements : List (Json × Template), elements.map Prod.fst = items ∧
      elements.map Prod.snd = φs.map Phrase.template ∧
        ∀ p ∈ elements, OperandText orders p.1 p.2 := by
  induction items generalizing φs with
  | nil =>
    cases h with
    | pass h => cases h
    | noElements => exact ⟨[], rfl, rfl, nofun⟩
  | cons v items ih =>
    cases h with
    | pass h => cases h
    | elements hv hcast hrest =>
      obtain ⟨elements, hitems, htexts, hall⟩ := ih hrest
      refine ⟨(v, _) :: elements, congrArg (v :: ·) hitems, congrArg (_ :: ·) htexts, ?_⟩
      exact List.forall_mem_cons.mpr ⟨operandText hv hcast, hall⟩

/-- The operands of a comparison are written as their sides are. -/
theorem placed_of_compares {op : Operator} {left value : Json}
    (hleft : Spells orders (.part (.expr left)) [φ])
    (hvalue : Spells orders (.part (.expr value)) [ψ]) (h : Compares op value φ ψ χ) :
    ∃ operands, Placed op left value operands χ.template ∧
      ∀ p ∈ operands, OperandText orders p.1 p.2 := by
  have two {a b : Template} (ha : OperandText orders left a) (hb : OperandText orders value b) :
      ∀ p ∈ [(left, a), (value, b)], OperandText orders p.1 p.2 :=
    List.forall_mem_cons.mpr ⟨ha, List.forall_mem_singleton.mpr hb⟩
  have hφ := operandText hleft (.same φ)
  cases h with
  | sign _ hgap hψ => exact ⟨_, .sign _ _ _ _ hgap, two hφ (operandText hvalue hψ)⟩
  | like hφ hψ => exact ⟨_, .like _ _ _ _, two (operandText hleft hφ) (operandText hvalue hψ)⟩
  | isNull => exact ⟨_, .isNull _ _ _, List.forall_mem_singleton.mpr hφ⟩
  | orNull _ _ hψ => exact ⟨_, .orNull _ _ _ _, two hφ (operandText hvalue hψ)⟩
  | equal _ _ hψ => exact ⟨_, .equal _ _ _ _, two hφ (operandText hvalue hψ)⟩

theorem placed_of_comparison {field : String} {op : Operator} {value : Json}
    {transform : Option Json}
    (h : Spells orders (.part (.comparison field op value transform)) [χ]) :
    ∃ operands, Placed op (leftSide field transform) value operands χ.template ∧
      ∀ p ∈ operands, OperandText orders p.1 p.2 := by
  cases h with
  | pass h => cases h
  | comparison hleft hvalue h => exact placed_of_compares hleft.leftSide hvalue h
  | never h => exact ⟨[], .never _ _ h, nofun⟩
  | @among _ _ _ _ φ _ φs h hne hleft _ hitems =>
    obtain ⟨elements, hdistinct, htexts, hall⟩ := elements_of_spells hitems
    have htext : (Phrase.beside φ .among (.group (.join .items φs))).template =
        φ.template ++ " IN " ++ (Template.intercalate "," (elements.map Prod.snd)).parens := by
      rw [htexts]
      exact congrArg (φ.template ++ Template.ofString " IN " ++ Template.parens ·)
        (Phrase.template_join .items φs)
    rw [htext]
    exact ⟨_, .among _ _ _ h hne hdistinct,
      List.forall_mem_cons.mpr ⟨operandText hleft.leftSide (.same _), hall⟩⟩

theorem placed_of_op {field : String} {op : Json}
    (h : Spells orders (.part (.op field op)) [χ]) :
    ∃ operator left value operands, sides? field op = some (operator, left, value) ∧
      Placed operator left value operands χ.template ∧
        ∀ p ∈ operands, OperandText orders p.1 p.2 := by
  cases h with
  | pass h hq =>
    cases h with
    | comparison hf ho =>
      obtain ⟨operands, hplaced, hall⟩ := placed_of_comparison hq
      exact ⟨_, _, _, operands, sides_of_find hf ho, hplaced, hall⟩

end Operands

/-- In a scope of plain names a test places the texts of its operands beside its operator, each
    with no operator of a test outside of groups exactly if its expression is not an open
    condition. -/
theorem operands_of_compileOp {s : Scope} {l l' : Ledger} {field : String} {op : Json}
    {t : Template} (hs : PlainScope IdentChar s) (hl : JoinsOk s l)
    (h : (compileOp field op).Yields s l t l') :
    ∃ operator left value operands, sides? field op = some (operator, left, value) ∧
      Placed operator left value operands t ∧
        ∀ p ∈ operands, OperandText (s.orders.getD []) p.1 p.2 ∧
          (Grouped p.2.text ↔ isOpen p.1 = false) := by
  obtain ⟨χ, hχ, rfl⟩ := spelled_of_compileOp hs hl h
  obtain ⟨operator, left, value, operands, hsides, hplaced, hall⟩ := placed_of_op hχ
  exact ⟨operator, left, value, operands, hsides, hplaced,
    fun p hp => ⟨hall p hp, grouped_iff (hall p hp)⟩⟩

/-- The test for a name. -/
def isNamed : Json := .object [("$eq", .string "a")]

theorem operands_of_isNamed : ∃ t l',
    (compileOp "name" isNamed).Yields peopleScope (.root "people") t l' ∧
      ∃ operator left value operands, sides? "name" isNamed = some (operator, left, value) ∧
        Placed operator left value operands t ∧
          ∀ p ∈ operands, OperandText [] p.1 p.2 ∧ (Grouped p.2.text ↔ isOpen p.1 = false) := by
  obtain ⟨t, l', h, -⟩ := yields_of_peoplePass (compileOp "name" isNamed) (fun _ => true)
    (by cbv)
  exact ⟨t, l', h, operands_of_compileOp plainScope_people joinsOk_people h⟩

theorem compileFunction_condition (raw : Json) (rest : Fields) :
    compileFunction (("$condition", raw) :: rest) =
      Compile.within .function [.object (("$condition", raw) :: rest)] do
        let parts ← compileConditions raw
        return .fragment (if parts.isEmpty then "1" else .intercalate " AND " parts) .boolean := by
  rw [compileFunction, functionWith.eq_def]
  dsimp only
  rw [callWith.eq_def]
  rfl

theorem compileOp_transform (field : String) (call : Fields) (value : Json) :
    compileOp field (.object [(transformKey, .object call), ("$eq", value)]) =
      Compile.within .op [.string field, .object [(transformKey, .object call), ("$eq", value)]]
        (do
          let mark ← Compile.mark
          let left ← withField field (compileFunction call)
          let right ← compileExpr value
          equality mark left right) := by
  rw [compileOp, opWith.eq_def]
  show Compile.within .op _ (comparisonWith window field .eq value (some (.object call))) = _
  rw [comparisonWith.eq_def, leftWith.eq_def]
  rfl

/-- Two tests that are used as a value. -/
def twoNames : Fields :=
  [("$condition", .array [.object [("name", .string "a")], .object [("name", .string "b")]])]

/-- The value is true. -/
def areTwoNames : Json := .object [(transformKey, .object twoNames), ("$eq", .bool true)]

/-- Beside the sign of a comparison the two tests are no longer one operand: the sign binds to the
    second one. -/
theorem not_grouped_of_twoNames : ∃ o l₁ t l',
    (compileFunction twoNames).Yields peopleScope (.root "people") o l₁ ∧
      (compileOp "name" areTwoNames).Yields peopleScope (.root "people") t l' ∧
        o.sql.text = "people.name = 'a' AND people.name = 'b'" ∧
          t.text = o.sql.text ++ " = 1" ∧ ¬ Grouped o.sql.text := by
  obtain ⟨o, l₁, hleft, ho⟩ := yields_of_peoplePass (compileFunction twoNames)
    (fun o => o.sql.text = "people.name = 'a' AND people.name = 'b'")
    (by rw [twoNames, compileFunction_condition]; cbv)
  obtain ⟨t, l', hop, ht⟩ := yields_of_peoplePass (compileOp "name" areTwoNames)
    (fun t => t.text = "people.name = 'a' AND people.name = 'b' = 1")
    (by rw [areTwoNames, compileOp_transform, twoNames, compileFunction_condition]; cbv)
  have ho : o.sql.text = "people.name = 'a' AND people.name = 'b'" := of_decide_eq_true ho
  have ht : t.text = "people.name = 'a' AND people.name = 'b' = 1" := of_decide_eq_true ht
  refine ⟨o, l₁, t, l', hleft, hop, ho, ?_, ?_⟩
  · rw [ht, ho]
    rfl
  · rw [ho]
    decide

end QuerySheet.Sql

import Mathlib
import QuerySheet.Proofs.Sql.Lexing
import QuerySheet.Proofs.Sql.Spelled
import QuerySheet.Proofs.Sql.Written

/-!
# Comments in compiled expressions

Two minus signs side by side begin a comment, and so do a slash and an asterisk. An asterisk is no
part of a compiled expression. A minus sign is written in front of negative numbers and by a
negation, which leaves no room behind it.

* `HasPair`: two characters stand side by side in a text, outside of string literals;
* `Task.Negates`: a negative number is negated by something that is written;
* `hasPair_iff_of_compileExpr`: that is when a compiled expression has two minus signs side by side.
-/

namespace QuerySheet.Sql

/-! ## 1. Characters side by side -/

/-- Outside of string literals two characters of a text stand side by side. -/
def HasPair (a b : Char) (text : String) : Prop :=
  [Lexeme.sign a, Lexeme.sign b] <:+: lexemes text

instance (a b : Char) (text : String) : Decidable (HasPair a b text) :=
  inferInstanceAs (Decidable (_ <:+: _))

theorem pair_cons {a b x : Lexeme} {xs : List Lexeme} :
    [a, b] <:+: x :: xs ↔ (x = a ∧ xs.head? = some b) ∨ [a, b] <:+: xs := by
  rw [List.infix_cons_iff, List.cons_prefix_cons, eq_comm (a := a)]
  refine or_congr_left (and_congr_right fun _ => ?_)
  cases xs with
  | nil => simp
  | cons y ys => simp [List.cons_prefix_cons, eq_comm]

/-- A lexeme that is not there does not count. -/
theorem pair_append {a b : Lexeme} {xs ys : List Lexeme} (h : a ∉ xs) :
    [a, b] <:+: xs ++ ys ↔ [a, b] <:+: ys := by
  induction xs with
  | nil => rfl
  | cons x xs ih =>
    have hx : x ≠ a := fun e => h (e ▸ List.mem_cons_self)
    rw [List.cons_append, pair_cons, ih fun hmem => h (List.mem_cons_of_mem _ hmem)]
    exact ⟨fun h => h.resolve_left fun hfirst => hx hfirst.1, .inr⟩

/-! ## 2. Minus signs in phrases -/

/-- A minus sign. -/
abbrev dash : Lexeme := .sign '-'

/-- A text that is not empty and has no minus sign. -/
def NoDash (xs : List Lexeme) : Prop := xs ≠ [] ∧ dash ∉ xs

instance (xs : List Lexeme) : Decidable (NoDash xs) := inferInstanceAs (Decidable (_ ∧ _))

namespace Phrase

theorem dash_not_mem_wordOf (cs : List Char) : dash ∉ wordOf cs := by
  cases cs <;> simp [wordOf]

theorem noDash_gap (gap : Gap) : NoDash (Sql.lexemes gap.text) := by
  cases gap <;> decide

theorem noDash_tail (tail : Tail) : NoDash (Sql.lexemes tail.text) := by
  cases tail <;> decide

theorem noDash_routine (f : Routine) : NoDash (wordOf f.text.toList) := by
  cases f <;> decide

theorem head_of_noDash {xs : List Lexeme} (h : NoDash xs) (rest : List Lexeme) :
    (xs ++ rest).head? ≠ some dash := by
  cases xs with
  | nil => exact absurd rfl h.1
  | cons x xs => exact fun e => h.2 (Option.some.inj e ▸ List.mem_cons_self)

theorem head_wordOf (cs : List Char) {rest : List Lexeme} (h : rest.head? ≠ some dash) :
    (wordOf cs ++ rest).head? ≠ some dash := by
  cases cs with
  | nil => exact h
  | cons c cs => nofun

theorem head_number (n : Number) (rest : List Lexeme) :
    ((number n).lexemes ++ rest).head? = some dash ↔ n.isNegative = true := by
  obtain ⟨ls, hls, htext⟩ := lexemes_number n
  rw [lexemes, htext]
  cases n.isNegative with
  | false => cases hls <;> simp [minusOf]
  | true => simp [minusOf]

theorem never {xs : List Lexeme} (hxs : xs.head? ≠ some dash) :
    xs.head? = some dash ↔ false = true := ⟨fun e => absurd e hxs, nofun⟩

/-- A phrase starts with a minus sign exactly if its text does. -/
theorem head_lexemes (φ : Phrase) {rest : List Lexeme} (h : rest.head? ≠ some dash) :
    (φ.lexemes ++ rest).head? = some dash ↔ φ.startsWithMinus = true := by
  induction φ generalizing rest with
  | digits | column => exact never (head_wordOf _ h)
  | null | rows => exact never (head_of_noDash (by decide) rest)
  | number n => exact head_number n rest
  | literal | hole | group => exact never nofun
  | call f φ =>
    rw [lexemes, List.append_assoc]
    exact never (head_of_noDash (noDash_routine f) _)
  | condition φ ih => exact ih h
  | minus φ => exact ⟨fun _ => rfl, fun _ => rfl⟩
  | orderBy φ =>
    rw [lexemes, List.append_assoc]
    exact never (head_of_noDash (by decide) _)
  | beside φ gap ψ ih =>
    rw [lexemes, List.append_assoc, List.append_assoc]
    exact ih (head_of_noDash (noDash_gap gap) _)
  | after φ tail ih =>
    rw [lexemes, List.append_assoc]
    exact ih (head_of_noDash (noDash_tail tail) _)
  | orNull φ ψ =>
    rw [lexemes, List.append_assoc]
    exact never (head_of_noDash (by decide) _)

theorem pair_number (n : Number) (rest : List Lexeme) :
    [dash, dash] <:+: (number n).lexemes ++ rest ↔ [dash, dash] <:+: rest := by
  obtain ⟨ls, hls, htext⟩ := lexemes_number n
  have hsign {xs : List Lexeme} (hxs : xs.head? ≠ some dash) (c : Char) :
      [dash, dash] <:+: .sign c :: xs ↔ [dash, dash] <:+: xs :=
    pair_cons.trans (or_iff_right fun e => hxs e.2)
  have hword (cs : List Char) (xs : List Lexeme) :
      [dash, dash] <:+: .word cs :: xs ↔ [dash, dash] <:+: xs :=
    pair_cons.trans (or_iff_right fun e => by cases e.1)
  have hmagnitude : [dash, dash] <:+: ls ++ rest ↔ [dash, dash] <:+: rest := by
    cases hls with
    | plain => exact hword _ _
    | scaled => exact (hword _ _).trans ((hsign (by simp) _).trans (hword _ _))
  have hhead : (ls ++ rest).head? ≠ some dash := by cases hls <;> simp
  rw [lexemes, htext]
  cases n.isNegative with
  | false => exact hmagnitude
  | true => exact (hsign hhead '-').trans hmagnitude

theorem pair_skip {xs : List Lexeme} (hxs : dash ∉ xs) (rest : List Lexeme) :
    [dash, dash] <:+: xs ++ rest ↔ false = true ∨ [dash, dash] <:+: rest :=
  (pair_append hxs).trans (or_iff_right nofun).symm

theorem pair_sign {c : Char} (hc : c ≠ '-') (rest : List Lexeme) :
    [dash, dash] <:+: .sign c :: rest ↔ [dash, dash] <:+: rest :=
  pair_cons.trans (or_iff_right fun e => hc (Lexeme.sign.inj e.1))

theorem head_sign {c : Char} (hc : c ≠ '-') (rest : List Lexeme) :
    (Lexeme.sign c :: rest).head? ≠ some dash :=
  fun e => hc (Lexeme.sign.inj (Option.some.inj e))

/-- A phrase has two minus signs side by side exactly if it negates something that starts with
    one. -/
theorem pair_lexemes (φ : Phrase) {rest : List Lexeme} (h : rest.head? ≠ some dash) :
    [dash, dash] <:+: φ.lexemes ++ rest ↔ φ.negates = true ∨ [dash, dash] <:+: rest := by
  induction φ generalizing rest with
  | digits | column => exact pair_skip (dash_not_mem_wordOf _) rest
  | null | rows => exact pair_skip (by decide) rest
  | number n => exact (pair_number n rest).trans (or_iff_right nofun).symm
  | literal => exact pair_skip (show dash ∉ [.literal] by decide) rest
  | hole => exact pair_skip (show dash ∉ [.sign '?'] by decide) rest
  | call f φ ih =>
    rw [lexemes, List.append_assoc, pair_append (noDash_routine f).2, List.cons_append,
      pair_sign (by decide), List.append_assoc, List.singleton_append,
      ih (head_sign (by decide) _), pair_sign (by decide)]
    rfl
  | group φ ih =>
    rw [lexemes, List.cons_append, pair_sign (by decide), List.append_assoc,
      List.singleton_append, ih (head_sign (by decide) _), pair_sign (by decide)]
    rfl
  | condition φ ih => exact ih h
  | minus φ ih =>
    rw [lexemes, List.cons_append, pair_cons, head_lexemes φ h, ih h, negates, Bool.or_eq_true,
      or_assoc]
    exact or_congr_left (and_iff_right rfl)
  | orderBy φ ih =>
    rw [lexemes, List.append_assoc, pair_append (by decide), ih h]
    rfl
  | beside φ gap ψ ihφ ihψ =>
    rw [lexemes, List.append_assoc, List.append_assoc, ihφ (head_of_noDash (noDash_gap gap) _),
      pair_append (noDash_gap gap).2, ihψ h, negates, Bool.or_eq_true, or_assoc]
  | after φ tail ih =>
    rw [lexemes, List.append_assoc, ih (head_of_noDash (noDash_tail tail) _),
      pair_append (noDash_tail tail).2]
    rfl
  | orNull φ ψ ihφ ihψ =>
    simp only [lexemes, List.append_assoc]
    rw [pair_append (by decide), ihφ (head_of_noDash (by decide) _), pair_append (by decide),
      ihψ (head_of_noDash (by decide) _), pair_append (by decide),
      ihφ (head_of_noDash (by decide) _), pair_append (by decide),
      ihψ (head_of_noDash (by decide) _), pair_append (by decide), negates, Bool.or_eq_true]
    tauto

/-- An asterisk. -/
abbrev star : Lexeme := .sign '*'

theorem star_not_mem_wordOf (cs : List Char) : star ∉ wordOf cs := by
  cases cs <;> simp [wordOf]

theorem star_not_mem (φ : Phrase) : star ∉ φ.lexemes := by
  induction φ with
  | digits | column => exact star_not_mem_wordOf _
  | null | rows => decide
  | number n =>
    obtain ⟨ls, hls, htext⟩ := lexemes_number n
    have hmagnitude : star ∉ ls := by
      cases hls with
      | plain => simp
      | scaled _ hc _ => rcases hc with rfl | rfl <;> simp
    rw [lexemes, htext, List.mem_append, not_or]
    refine ⟨?_, hmagnitude⟩
    cases n.isNegative <;> decide
  | literal | hole => simp [lexemes]
  | call f φ ih => simp [lexemes, ih, star_not_mem_wordOf]
  | group φ ih => simp [lexemes, ih]
  | condition φ ih => exact ih
  | minus φ ih => simp [lexemes, ih]
  | orderBy φ ih =>
    rw [lexemes, List.mem_append, not_or]
    exact ⟨by decide, ih⟩
  | beside φ gap ψ ihφ ihψ =>
    rw [lexemes, List.mem_append, List.mem_append, not_or, not_or]
    exact ⟨ihφ, by cases gap <;> decide, ihψ⟩
  | after φ tail ih =>
    rw [lexemes, List.mem_append, not_or]
    exact ⟨ih, by cases tail <;> decide⟩
  | orNull φ ψ ihφ ihψ =>
    simp only [lexemes, List.mem_append, not_or]
    exact ⟨by decide, ihφ, by decide, ihψ, by decide, ihφ, by decide, ihψ, by decide⟩

theorem hasPair_dash (φ : Phrase) : HasPair '-' '-' φ.template.text ↔ φ.negates = true := by
  have h := @pair_lexemes φ [] nofun
  rw [List.append_nil] at h
  rw [HasPair, lexemes_template, h]
  exact or_iff_left (by simp)

theorem not_hasPair_star (φ : Phrase) (c : Char) : ¬ HasPair c '*' φ.template.text := by
  rw [HasPair, lexemes_template]
  exact fun h => star_not_mem φ (h.subset (by simp))

end Phrase

/-! ## 3. Negated numbers -/

/-- A number below zero, or the literal of one. -/
def isNegative : Json → Bool
  | .number n => n.isNegative
  | .object ((name, .array (v :: _)) :: _) =>
    Function.ofName? name = some .literal && isNegative v
  | .object ((name, v) :: _) => Function.ofName? name = some .literal && isNegative v
  | _ => false

/-- The negation of a negative number. -/
def IsNegation (name : String) (raw : Json) : Prop :=
  Function.ofName? name = some .neg ∧
    ∃ v rest, arguments raw = v :: rest ∧ isNegative v = true

namespace Task

/-- Something that is written negates a negative number. -/
inductive Negates : Task → Prop
  | here {orders : List Json} {name : String} {raw v : Json} {rest : List Json}
      (hf : Function.ofName? name = some .neg) (hargs : arguments raw = v :: rest)
      (hv : isNegative v = true) : Negates ⟨orders, .call name raw⟩
  | call {t u : Task} (h : Calls t u) (hwritten : ¬ t.part.IsNever) (hu : Negates u) : Negates t

theorem negates_iff_written {t : Task} : t.Negates ↔ t.Written IsNegation := by
  constructor
  · intro h
    induction h with
    | here hf hargs hv => exact .here ⟨hf, _, _, hargs, hv⟩
    | call h hwritten _ ih => exact .call h hwritten ih
  · intro h
    induction h with
    | here h =>
      obtain ⟨hf, v, rest, hargs, hv⟩ := h
      exact .here hf hargs hv
    | call h hwritten _ ih => exact .call h hwritten ih

end Task

/-! ## 4. Numbers and their spelling -/

section Spelling

variable {orders : List Json} {φ φ' ψ χ : Phrase} {φs : List Phrase}

theorem Recast.number_iff (h : Recast φ φ') (n : Number) : φ' = .number n ↔ φ = .number n := by
  cases h with
  | same => rfl
  | date | shorten | never => exact ⟨nofun, nofun⟩
  | leading d _ hnumber =>
    refine ⟨nofun, ?_⟩
    rintro rfl
    cases hnumber

/-- Of all calls only literals are written as numbers. -/
theorem Spells.not_number {name : String} {raw : Json}
    (h : Spells orders (.part (.call name raw)) [φ])
    (hf : Function.ofName? name ≠ some .literal) (n : Number) : φ ≠ .number n := by
  cases h with
  | pass h => cases h
  | condition => nofun
  | running => nofun
  | call hg _ h =>
    cases h with
    | part _ _ hnumber =>
      rintro rfl
      cases hnumber
    | literal => exact absurd hg hf
    | routine | substr | neg | idiv | nocase => nofun

theorem isNegative_object {name : String} {raw v : Json} {rest : Fields}
    (h : Spells orders (.part (.expr (.object ((name, raw) :: rest)))) [φ])
    (hargs : ∀ w more, arguments raw = w :: more → w = v)
    (hv : ∀ {χ}, Spells orders (.part (.expr v)) [χ] →
      ((∃ n, χ = .number n ∧ n.isNegative = true) ↔ isNegative v = true)) :
    (∃ n, φ = .number n ∧ n.isNegative = true) ↔
      (Function.ofName? name = some .literal && isNegative v) = true := by
  by_cases hf : Function.ofName? name = some .literal
  · obtain ⟨w, more, χ, hw, hχ, hcast⟩ := h.of_object.of_literal hf
    rw [hargs w more hw] at hχ
    simp only [hf, decide_true, Bool.true_and]
    rw [← hv hχ]
    exact exists_congr fun n => and_congr_left' (hcast.number_iff n)
  · simp only [hf, decide_false, Bool.false_and]
    refine ⟨?_, nofun⟩
    rintro ⟨n, hn, -⟩
    exact absurd hn (h.of_object.not_number hf n)

/-- An expression is written as a negative number exactly if it is one, or the literal of one. -/
theorem isNegative_iff {v : Json} (h : Spells orders (.part (.expr v)) [φ]) :
    (∃ n, φ = .number n ∧ n.isNegative = true) ↔ isNegative v = true := by
  fun_induction isNegative v generalizing φ with
  | case1 n =>
    cases h with
    | pass h => cases h
    | leaf h =>
      cases h
      exact ⟨fun ⟨_, hn, h⟩ => by cases hn; exact h, fun h => ⟨n, rfl, h⟩⟩
  | case2 name v more rest ih =>
    refine isNegative_object h (fun w ws hw => ?_) ih
    exact (List.cons.inj hw).1.symm
  | case3 name v rest hne ih =>
    refine isNegative_object h (fun w ws hw => ?_) ih
    unfold arguments at hw
    split at hw
    · subst hw
      exact absurd rfl (hne w ws)
    · exact (List.cons.inj hw).1.symm
  | case4 v hnumber hcons hobject =>
    refine ⟨?_, nofun⟩
    rintro ⟨n, rfl, -⟩
    cases h with
    | leaf h =>
      cases h
      exact absurd rfl (hnumber n)
    | pass h hq =>
      cases h with
      | object fields =>
        cases hq with
        | pass h => cases h with
          | function name raw rest => exact absurd rfl (hobject name raw rest)

theorem additive_negates : Additive Phrase.negates where
  atom φ h := by cases φ <;> first | rfl | cases h
  leading φ d := by simp [Phrase.leading, Phrase.join, Phrase.negates]
  group _ := rfl
  condition _ := rfl
  orderBy _ := rfl
  after _ _ := rfl
  beside _ _ _ _ := rfl
  orNull _ _ := rfl
  runningSum _ _ := rfl

theorem Applies.negates {f : Function} (h : Applies f φs φ) (hf : f ≠ .neg) :
    φ.negates = φs.any Phrase.negates := by
  cases h with
  | neg => exact absurd rfl hf
  | substr => exact additive_negates.join .arguments nofun φs
  | routine | idiv | part | nocase | literal => simp [Phrase.negates]

end Spelling

/-! ## 5. Expressions -/

/-- Something that is written for these phrases negates a negative number. -/
def Origin.Negates (orders : List Json) : Origin → Prop
  | .part p => Task.Negates ⟨orders, p⟩
  | .rows => ∃ t ∈ windowTasks orders, t.Negates
  | .order e => ∃ t ∈ orderTasks orders e, t.Negates
  | .orders es => ∃ t ∈ es.flatMap (orderTasks orders), t.Negates

section Negations

variable {orders : List Json} {φ : Phrase} {φs : List Phrase}

/-- A negation negates a negative number, or its argument does. -/
theorem Spells.negates_neg {name : String} {raw : Json} {χ : Phrase}
    (hf : Function.ofName? name = some .neg)
    (hargs : Spells orders (.part (.arguments Function.neg.parameters (Sql.arguments raw))) φs)
    (h : Applies .neg φs χ) :
    χ.negates = true ↔ IsNegation name raw ∨ φs.any Phrase.negates = true := by
  cases h with
  | routine _ h => cases h
  | part h => rcases h with h | h <;> cases h
  | @neg φ hvalue =>
    unfold IsNegation
    generalize Sql.arguments raw = args at hargs
    cases hargs with
    | pass h => cases h
    | @arguments _ _ v rest χ _ _ hv hcast _ =>
      have hstart : φ.startsWithMinus = true ↔ isNegative v = true := by
        rw [Phrase.startsWithMinus_of_isValue hvalue, ← isNegative_iff hv]
        exact exists_congr fun n => and_congr_left' (hcast.number_iff n)
      rw [Phrase.negates, Phrase.negates, Bool.or_eq_true, hstart]
      simp [hf]

/-- Minus signs side by side come in with the negations of negative numbers. -/
theorem traces_negates : Traces orders Phrase.negates IsNegation where
  toAdditive := additive_negates
  call {name raw f φs φ} hf hargs h := by
    by_cases hneg : f = .neg
    · subst hneg
      exact hargs.negates_neg hf h
    · rw [h.negates hneg]
      exact (or_iff_right fun hown => hneg (Option.some.inj (hf.symm.trans hown.1))).symm
  special raw f hf h hown := by
    have hneg := Option.some.inj (hf.symm.trans hown.1)
    rcases h with rfl | rfl <;> cases hneg

/-- A minus sign is written in front of one exactly if a negative number is negated. -/
theorem negates_iff_of_spells {origin : Origin} (h : Spells orders origin φs) :
    φs.any Phrase.negates = true ↔ origin.Negates orders := by
  rw [traces_negates.written_iff h]
  cases origin <;> simp only [Origin.Written, Origin.Negates, Task.negates_iff_written]

end Negations

/-- In a scope of plain names the text of an expression has two minus signs side by side exactly if
    a negative number is negated by something that is written. It never has an asterisk behind a
    slash. -/
theorem hasPair_iff_of_compileExpr {s : Scope} {l l' : Ledger} {e : Json} {o : Operand}
    (hs : PlainScope IdentChar s) (hl : JoinsOk s l) (h : (compileExpr e).Yields s l o l') :
    (HasPair '-' '-' o.sql.text ↔ Task.Negates ⟨s.orders.getD [], .expr e⟩) ∧
      ¬ HasPair '/' '*' o.sql.text := by
  obtain ⟨φ, hφ, hreads⟩ := spelled_of_compileExpr hs hl h
  have hnegates := negates_iff_of_spells hφ
  rw [List.any_cons, List.any_nil, Bool.or_false] at hnegates
  rw [hreads.sql]
  exact ⟨φ.hasPair_dash.trans hnegates, φ.not_hasPair_star '/'⟩

/-- The negation of a number. -/
def negated (n : Int) : Json := .object [("$neg", .number (.int n))]

theorem hasPair_iff_of_negated : ∃ o l',
    (compileExpr (negated 5)).Yields peopleScope (.root "people") o l' ∧
      (HasPair '-' '-' o.sql.text ↔ Task.Negates ⟨[], .expr (negated 5)⟩) ∧
        ¬ HasPair '/' '*' o.sql.text := by
  obtain ⟨o, l', h, -⟩ := yields_of_peoplePass (compileExpr (negated 5)) (fun _ => true) (by cbv)
  exact ⟨o, l', h, hasPair_iff_of_compileExpr plainScope_people joinsOk_people h⟩

/-- The negation of a negative number begins a comment. -/
theorem hasPair_of_negated : ∃ o l',
    (compileExpr (negated (-5))).Yields peopleScope (.root "people") o l' ∧
      o.sql.text = "(--5)" ∧ HasPair '-' '-' o.sql.text := by
  obtain ⟨o, l', h, ho⟩ := yields_of_peoplePass (compileExpr (negated (-5)))
    (fun o => o.sql.text = "(--5)") (by cbv)
  have htext : o.sql.text = "(--5)" := of_decide_eq_true ho
  exact ⟨o, l', h, htext, htext ▸ by decide⟩

end QuerySheet.Sql

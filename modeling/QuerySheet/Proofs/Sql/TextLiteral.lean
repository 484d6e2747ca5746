import Mathlib
import QuerySheet.Proofs.Sql.DateLiterals
import QuerySheet.Proofs.Sql.Identifier
import QuerySheet.Proofs.Sql.Phases

/-!
# Strings as literals

A string becomes a literal between single quotes. A single quote inside is written twice, so that
no text can end its literal; a backslash in front of a dollar sign is dropped.

* `replaceAll`: a text with another one for every occurrence of a part, from left to right;
* `IsTextToken`: a text is one literal between single quotes, and what it denotes. It is read as a
  name between quotes is (`Identifier.quoted`);
* `isTextToken_quote`, `unquote_quote_eq`: the literal of a string, for all strings;
* `one_token_of_string`: every string gives one token, and every text that is not a parameter can be
  written, with a backslash in front of each of its dollar signs.
-/

namespace QuerySheet.Sql

/-! ## 1. Replacing parts of a text -/

/-- A text with `new` for every occurrence of `old`, from left to right. Where one was found the
    search goes on behind it. An empty part is never found. -/
def replaceIn (old new : List Char) : List Char → List Char
  | [] => []
  | c :: cs =>
    if old.isPrefixOf (c :: cs) ∧ old ≠ [] then new ++ replaceIn old new (cs.drop (old.length - 1))
    else c :: replaceIn old new cs
termination_by cs => cs.length
decreasing_by
  · simp only [List.length_drop, List.length_cons]
    omega
  · exact Nat.lt_succ_self _

/-- The same of strings. -/
def replaceAll (s old new : String) : String :=
  String.ofList (replaceIn old.toList new.toList s.toList)

namespace Operand

section Dollar

variable {c : Char} {cs old new : List Char}

theorem replaceIn_cons_of_not (h : ¬ old <+: c :: cs) :
    replaceIn old new (c :: cs) = c :: replaceIn old new cs := by
  rw [replaceIn, if_neg fun hold => h (List.isPrefixOf_iff_prefix.mp hold.1)]

/-- What a literal of a string leaves of it. -/
theorem unescapeDollar_eq (cs : List Char) :
    unescapeDollar cs = replaceIn ['\\', '$'] ['$'] cs := by
  fun_induction unescapeDollar cs with
  | case1 => rw [replaceIn]
  | case2 rest ih => simp [replaceIn, ih]
  | case3 c rest hc ih =>
    rw [ih, replaceIn_cons_of_not]
    rintro ⟨rest, h⟩
    cases h
    exact hc _ rfl rfl

theorem replaceIn_dollar (cs : List Char) :
    replaceIn ['$'] new ('$' :: cs) = new ++ replaceIn ['$'] new cs := by
  simp [replaceIn]

theorem replaceIn_of_ne_dollar (hc : c ≠ '$') :
    replaceIn ['$'] new (c :: cs) = c :: replaceIn ['$'] new cs :=
  replaceIn_cons_of_not fun ⟨_, h⟩ => hc (List.cons.inj h).1.symm

/-- A text with a backslash in front of each dollar sign does not begin with one. -/
theorem ne_dollar_of_replaceIn {rest : List Char}
    (h : replaceIn ['$'] ['\\', '$'] cs = c :: rest) : c ≠ '$' := by
  rintro rfl
  cases cs with
  | nil => simp [replaceIn] at h
  | cons d cs =>
    by_cases hd : d = '$'
    · subst hd
      simp [replaceIn_dollar] at h
    · rw [replaceIn_of_ne_dollar hd] at h
      exact hd (List.cons.inj h).1

theorem replaceIn_eq_nil_iff : replaceIn ['$'] ['\\', '$'] cs = [] ↔ cs = [] := by
  refine ⟨fun h => ?_, fun h => by rw [h, replaceIn]⟩
  cases cs with
  | nil => rfl
  | cons c cs =>
    by_cases hc : c = '$'
    · simp [hc, replaceIn_dollar] at h
    · simp [replaceIn_of_ne_dollar hc] at h

/-- Backslashes in front of dollar signs come and go, whatever else there is in the text. -/
theorem unescapeDollar_replaceIn (cs : List Char) :
    unescapeDollar (replaceIn ['$'] ['\\', '$'] cs) = cs := by
  induction cs with
  | nil => simp [replaceIn, unescapeDollar]
  | cons c cs ih =>
    by_cases hc : c = '$'
    · subst hc
      rw [replaceIn_dollar, List.cons_append, List.cons_append, List.nil_append, unescapeDollar, ih]
    · rw [replaceIn_of_ne_dollar hc, unescapeDollar, ih]
      -- what follows a backslash of the text is not a dollar sign any more
      exact fun rest _ h => ne_dollar_of_replaceIn h rfl

end Dollar

end Operand

/-! ## 2. Tokens -/

/-- A text is one literal between single quotes that denotes `content`. Two quotes inside are one
    that is meant, and the literal ends where the text ends. -/
def IsTextToken (text content : String) : Prop :=
  ∃ rest, text.toList = '\'' :: rest ∧ Identifier.quoted '\'' rest = some (content.toList, [])

namespace Operand

variable {s t : String}

theorem quoted_doubleQuotes (cs : List Char) :
    Identifier.quoted '\'' (doubleQuotes cs ++ ['\'']) = some (cs, []) := by
  fun_induction doubleQuotes cs with
  | case1 => rfl
  | case2 rest ih => simp [Identifier.quoted, ih]
  | case3 c rest hc ih => simp [Identifier.quoted_of_ne hc, ih]

theorem isTextToken_quote (s : String) : IsTextToken (quote s) (replaceAll s "\\$" "$") := by
  refine ⟨doubleQuotes (unescapeDollar s.toList) ++ ['\''], String.toList_ofList, ?_⟩
  rw [quoted_doubleQuotes, replaceAll, String.toList_ofList, unescapeDollar_eq]
  rfl

theorem unquote_quote_eq (s : String) : unquote (quote s) = replaceAll s "\\$" "$" := by
  rw [unquote_quote, replaceAll, unescapeDollar_eq]
  rfl

theorem replaceAll_replaceAll (t : String) : replaceAll (replaceAll t "$" "\\$") "\\$" "$" = t := by
  have h := unescapeDollar_replaceIn t.toList
  rw [unescapeDollar_eq] at h
  simp only [replaceAll, String.toList_ofList]
  exact (congrArg String.ofList h).trans String.ofList_toList

end Operand

/-! ## 3. What is compiled to a literal -/

/-- A colon in front of something makes a parameter of a text. -/
def IsParameter (t : String) : Prop := ∃ c rest, t.toList = ':' :: c :: rest

variable {scope : Scope} {l l' : Ledger} {s t : String} {o : Operand}

theorem yields_string : (Operand.ofScalar (.string s)).Yields scope l o l' ↔
    o = .ofLiteral (Operand.quote s) .string ∧ l' = l :=
  Compile.yields_pure

theorem isParameter_iff : IsParameter t ↔ ∃ cs, t.toList = ':' :: cs ∧ cs ≠ [] := by
  constructor
  · rintro ⟨c, rest, h⟩
    exact ⟨c :: rest, h, List.cons_ne_nil c rest⟩
  · rintro ⟨cs, h, hne⟩
    obtain ⟨c, rest, rfl⟩ := List.exists_cons_of_ne_nil hne
    exact ⟨c, rest, h⟩

/-- The backslashes neither make a parameter of a text nor keep it from being one. -/
theorem isParameter_replaceAll : IsParameter (replaceAll t "$" "\\$") ↔ IsParameter t := by
  rw [isParameter_iff, isParameter_iff, replaceAll, String.toList_ofList]
  change (∃ cs, replaceIn ['$'] ['\\', '$'] t.toList = _ ∧ _) ↔ _
  cases t.toList with
  | nil => simp [replaceIn]
  | cons c cs =>
    by_cases hc : c = '$'
    · simp [hc, Operand.replaceIn_dollar]
    · simp [Operand.replaceIn_of_ne_dollar hc, Operand.replaceIn_eq_nil_iff]

theorem compileText_of_not_parameter (h : ¬ IsParameter t) :
    compileText (replaceAll t "$" "\\$") = Operand.ofScalar (.string (replaceAll t "$" "\\$")) := by
  unfold compileText
  split
  · rename_i hfield
    rw [replaceAll, String.toList_ofList] at hfield
    exact absurd rfl (Operand.ne_dollar_of_replaceIn hfield)
  · rename_i c name hparameter
    exact absurd (isParameter_replaceAll.mp ⟨c, name, hparameter⟩) h
  · rfl

/-- A parameter is not a literal. -/
theorem not_yields_of_parameter {text : String} (h : IsParameter t) :
    ¬ (compileText t).Yields scope l (.ofLiteral text .string) l' := by
  obtain ⟨c, rest, ht⟩ := h
  unfold compileText
  split
  · simp_all
  · rw [Compile.yields_bind]
    rintro ⟨ref, l₁, -, hparam⟩
    have hsame := (Compile.yields_pure.mp hparam).1
    simp [Operand.ofLiteral, Operand.ofParam] at hsame
  · simp_all

/-- The literal of a string is one token: it begins with a quote and ends, read with two quotes for
    one, at its last character. It denotes the string without the backslashes in front of dollar
    signs, which is also what is between the quotes. And with a backslash in front of each dollar
    sign a text is compiled to a literal that denotes it, unless it is a parameter. -/
theorem one_token_of_string (s t : String) (scope : Scope) (l : Ledger) :
    (∃ text, (Operand.ofScalar (.string s)).Yields scope l (.ofLiteral text .string) l ∧
      IsTextToken text (replaceAll s "\\$" "$") ∧
      Operand.unquote text = replaceAll s "\\$" "$") ∧
    ((∃ text, (compileExpr (.string (replaceAll t "$" "\\$"))).Yields scope l
        (.ofLiteral text .string) l ∧ IsTextToken text t ∧ Operand.unquote text = t) ↔
      ¬ IsParameter t) := by
  refine ⟨⟨_, yields_string.mpr ⟨rfl, rfl⟩, Operand.isTextToken_quote s,
    Operand.unquote_quote_eq s⟩, fun ⟨text, hyields, _⟩ hparameter => ?_, fun h => ?_⟩
  · rw [compileExpr_string, Compile.yields_within] at hyields
    exact not_yields_of_parameter (isParameter_replaceAll.mpr hparameter) hyields
  · refine ⟨Operand.quote (replaceAll t "$" "\\$"), ?_, ?_, ?_⟩
    · rw [compileExpr_string, compileText_of_not_parameter h, Compile.yields_within]
      exact yields_string.mpr ⟨rfl, rfl⟩
    · have htoken := Operand.isTextToken_quote (replaceAll t "$" "\\$")
      rwa [Operand.replaceAll_replaceAll] at htoken
    · rw [Operand.unquote_quote_eq, Operand.replaceAll_replaceAll]

/-- A lone colon, quotes and backslashes: only the dollar sign needs one more backslash. -/
example : Operand.quote (replaceAll "it's \\$5" "$" "\\$") = "'it''s \\$5'" := by cbv

end QuerySheet.Sql

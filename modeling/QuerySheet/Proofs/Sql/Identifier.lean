import Mathlib
import QuerySheet.Sql.Statement

/-!
# Names as tokens

SQLite reads a name as one token: a word, unless it is reserved, or any text between double quotes,
grave accents or brackets. A double quote or a grave accent inside is written twice.

* `Identifier.scan` reads the token at the begin of a text. Which words are reserved is left open;
* `Identifies`: a text is one such token, and the name that it denotes;
* `identifies_self_iff`, `identifies_quoted_iff`: which names are denoted by themselves, and which
  by themselves between double quotes;
* `NeedsQuotes`: the names that a statement puts between quotes.
-/

namespace QuerySheet.Sql

/-! ## 1. Tokens -/

namespace Identifier

/-- A character that a word begins with: a letter, an underscore, or any character beyond ASCII. -/
def starts (c : Char) : Bool := c.isAlpha || c == '_' || 128 ≤ c.toNat

/-- A character that a word goes on with. -/
def continues (c : Char) : Bool := starts c || c.isDigit || c == '$'

/-- What stands in front of the quote that closes a name, and behind it. Two quotes inside are one
    of the name. -/
def quoted (quote : Char) : List Char → Option (List Char × List Char)
  | [] => none
  | c :: rest =>
    if c = quote then
      match rest with
      | [] => some ([], [])
      | d :: more =>
        if d = quote then (quoted quote more).map (Prod.map (quote :: ·) id)
        else some ([], d :: more)
    else (quoted quote rest).map (Prod.map (c :: ·) id)

/-- What stands in front of the bracket that closes a name, and behind it. -/
def bracketed (cs : List Char) : Option (List Char × List Char) :=
  match cs.dropWhile (· != ']') with
  | [] => none
  | _ :: rest => some (cs.takeWhile (· != ']'), rest)

/-- The name that a text begins with, and what follows its token. -/
def scan (reserved : String → Bool) : List Char → Option (List Char × List Char)
  | [] => none
  | c :: rest =>
    if c = '"' ∨ c = '`' then quoted c rest
    else if c = '[' then bracketed rest
    else if starts c then
      let word := c :: rest.takeWhile continues
      if reserved (String.ofList word) then none else some (word, rest.dropWhile continues)
    else none

variable {quote c : Char} {cs name rest : List Char}

theorem quoted_of_ne (h : c ≠ quote) :
    quoted quote (c :: cs) = (quoted quote cs).map (Prod.map (c :: ·) id) := by
  rw [quoted.eq_def]
  exact if_neg h

/-- The quotes are left out of the name. -/
theorem length_quoted (h : quoted quote cs = some (name, rest)) :
    name.length + rest.length < cs.length := by
  fun_induction quoted quote cs generalizing name rest with
  | case1 => cases h
  | case2 =>
    cases h
    exact Nat.one_pos
  | case3 more ih =>
    obtain ⟨⟨inner, rest⟩, hinner, h⟩ := Option.map_eq_some_iff.mp h
    cases h
    have hlength := ih hinner
    simp only [List.length_cons, id_eq] at hlength ⊢
    omega
  | case4 d more hd =>
    cases h
    exact Nat.lt_of_le_of_lt (Nat.zero_add _).le (Nat.lt_succ_self _)
  | case5 c more hc ih =>
    obtain ⟨⟨inner, rest⟩, hinner, h⟩ := Option.map_eq_some_iff.mp h
    cases h
    have hlength := ih hinner
    simp only [List.length_cons, id_eq] at hlength ⊢
    omega

theorem length_bracketed (h : bracketed cs = some (name, rest)) :
    name.length + rest.length < cs.length := by
  have hsplit := congrArg List.length (List.takeWhile_append_dropWhile (p := (· != ']')) (l := cs))
  unfold bracketed at h
  split at h
  · cases h
  · rename_i hdrop
    cases h
    rw [hdrop, List.length_append, List.length_cons] at hsplit
    omega

/-- Between quotes a text stands for itself exactly if there is no such quote in it. -/
theorem quoted_concat_iff : quoted quote (cs ++ [quote]) = some (cs, []) ↔ quote ∉ cs := by
  induction cs with
  | nil => simp [quoted]
  | cons c cs ih =>
    rw [List.cons_append]
    by_cases hc : c = quote
    · subst hc
      refine iff_of_false (fun h => ?_) fun h => h List.mem_cons_self
      -- two quotes give one, so that there is too little left for the rest of the name
      have hne : cs ++ [c] ≠ [] := List.append_ne_nil_of_right_ne_nil cs (List.cons_ne_nil c [])
      obtain ⟨d, more, hmore⟩ := List.exists_cons_of_ne_nil hne
      rw [hmore, quoted.eq_def] at h
      simp only [if_true] at h
      split at h
      · obtain ⟨⟨inner, rest⟩, hinner, h⟩ := Option.map_eq_some_iff.mp h
        cases h
        have hlength := length_quoted hinner
        have hsame := congrArg List.length hmore
        simp only [List.length_append, List.length_cons, List.length_nil] at hlength hsame
        omega
      · cases h
    · have hne : quote ≠ c := fun h => hc h.symm
      rw [quoted_of_ne hc, List.mem_cons, not_or, and_iff_right hne, ← ih]
      cases quoted quote (cs ++ [quote]) with
      | none => simp
      | some found => simp [Prod.ext_iff]

end Identifier

/-! ## 2. What a text denotes -/

open Identifier

/-- A text is one token, which denotes a name. -/
def Identifies (reserved : String → Bool) (text name : String) : Prop :=
  scan reserved text.toList = some (name.toList, [])

instance {reserved : String → Bool} {text name : String} :
    Decidable (Identifies reserved text name) := inferInstanceAs (Decidable (_ = _))

/-- A name that is a word. -/
def IsWord (name : String) : Prop :=
  ∃ c rest, name.toList = c :: rest ∧ starts c = true ∧ ∀ d ∈ rest, continues d = true

variable {reserved : String → Bool} {name : String}

/-- A name denotes itself exactly if it is a word that is not reserved. -/
theorem identifies_self_iff :
    Identifies reserved name name ↔ IsWord name ∧ reserved name = false := by
  unfold Identifies IsWord
  cases hname : name.toList with
  | nil => simp [scan]
  | cons c rest =>
    -- a quote or a bracket is no part of the name that it begins
    have hshort {found : Option (List Char × List Char)}
        (h : ∀ name more, found = some (name, more) → name.length + more.length < rest.length) :
        found ≠ some (c :: rest, []) := fun hfound => by
      have hlength := h _ _ hfound
      simp only [List.length_cons, List.length_nil] at hlength
      omega
    have hword : c :: rest.takeWhile continues = c :: rest ∧ rest.dropWhile continues = [] ↔
        ∀ d ∈ rest, continues d = true := by
      rw [List.cons.injEq, and_iff_right rfl, List.dropWhile_eq_nil_iff, List.takeWhile_eq_self_iff]
      exact and_self_iff
    have hplain : (∃ d more, c :: rest = d :: more ∧ starts d = true ∧
        ∀ e ∈ more, continues e = true) ↔ starts c = true ∧ ∀ d ∈ rest, continues d = true := by
      constructor
      · rintro ⟨d, more, h, hd⟩
        cases h
        exact hd
      · exact fun h => ⟨c, rest, rfl, h⟩
    rw [hplain, scan]
    split
    · rename_i hquote
      refine iff_of_false (hshort fun _ _ => length_quoted) fun h => ?_
      rcases hquote with rfl | rfl <;> exact absurd h.1.1 (by decide)
    · split
      · rename_i hbracket
        subst hbracket
        exact iff_of_false (hshort fun _ _ => length_bracketed) fun h => absurd h.1.1 (by decide)
      · split
        · rename_i hstarts
          rw [and_iff_right hstarts]
          dsimp only
          constructor
          · intro h
            split at h
            · cases h
            · rename_i hfree
              have hall := hword.mp (Prod.mk.inj (Option.some.inj h))
              rw [(hword.mpr hall).1, ← hname, String.ofList_toList] at hfree
              exact ⟨hall, Bool.eq_false_iff.mpr hfree⟩
          · rintro ⟨hall, hfree⟩
            obtain ⟨htake, hdrop⟩ := hword.mpr hall
            rw [htake, hdrop, ← hname, String.ofList_toList, hfree]
            rfl
        · rename_i hstarts
          exact iff_of_false (Option.some_ne_none _).symm fun h => hstarts h.1.1

theorem identifies_quoted_iff :
    Identifies reserved ("\"" ++ name ++ "\"") name ↔ '"' ∉ name.toList := by
  have htext : ("\"" ++ name ++ "\"").toList = '"' :: (name.toList ++ ['"']) := by
    simp [String.toList_append]
  rw [Identifies, htext, scan, if_pos (.inl rfl)]
  exact quoted_concat_iff

/-! ## 3. Names in a statement -/

/-- A name that is put between double quotes as an alias. -/
def NeedsQuotes (name : String) : Prop := '.' ∈ name.toList ∨ name = "group"

instance (name : String) : Decidable (NeedsQuotes name) := inferInstanceAs (Decidable (_ ∨ _))

theorem quoteAlias_of_needsQuotes (h : NeedsQuotes name) :
    quoteAlias name = "\"" ++ name ++ "\"" := by
  exact if_pos (h.imp_left List.contains_iff_mem.mpr)

theorem quoteAlias_of_not_needsQuotes (h : ¬ NeedsQuotes name) : quoteAlias name = name := by
  exact if_neg fun hquotes => h (hquotes.imp_left List.contains_iff_mem.mp)

theorem quoted_ne_self : "\"" ++ name ++ "\"" ≠ name := fun h => by
  have hlength := congrArg (fun s => s.toList.length) h
  have hone : "\"".toList.length = 1 := rfl
  simp only [String.toList_append, List.length_append] at hlength
  omega

end QuerySheet.Sql

import QuerySheet.Proofs.Sql.Language
import QuerySheet.Proofs.Sql.Phrase

/-!
# The lexemes of a text

A text falls into words, single characters between them, and string literals. A phrase is not put
together so that two of its words run into one, or that a literal goes on behind it, so its lexemes
are those of its parts one after the other.

* `lexemes`: the lexemes of a text;
* `Phrase.lexemes`, `lexemes_template`: the lexemes of a phrase;
* `lexemes_number`: a number is one word, which a sign may precede, or two with a sign between them.
-/

namespace QuerySheet.Sql

/-! ## 1. Reading -/

inductive Lexeme where
  | word (cs : List Char)
  /-- A character that is neither part of a word nor of a literal. -/
  | sign (c : Char)
  | literal
  deriving DecidableEq

/-- A character of a word, of a column or of a number. -/
def InWord (c : Char) : Prop := IdentChar c ∨ c = '.'

instance : DecidablePred InWord := fun _ => inferInstanceAs (Decidable (_ ∨ _))

/-- The word that was read so far, if any. -/
def wordOf : List Char → List Lexeme
  | [] => []
  | c :: cs => [.word (c :: cs)]

/-- The lexemes from here on, behind the begin of a word. In a literal two quotes stand for one. -/
def lex : (quoted : Bool) → (word : List Char) → List Char → List Lexeme
  | _, word, [] => wordOf word
  | true, word, '\'' :: '\'' :: rest => lex true word rest
  | true, word, '\'' :: rest => lex false word rest
  | true, word, _ :: rest => lex true word rest
  | false, word, c :: rest =>
    if c = '\'' then wordOf word ++ .literal :: lex true [] rest
    else if InWord c then lex false (word ++ [c]) rest
    else wordOf word ++ .sign c :: lex false [] rest

def lexemes (text : String) : List Lexeme := lex false [] text.toList

/-! ## 2. Texts one after the other -/

/-- A word or a literal ends before this text. -/
def Breaks (cs : List Char) : Prop := ∀ c ∈ cs.head?, ¬ InWord c ∧ c ≠ '\''

theorem breaks_nil : Breaks [] := nofun

theorem breaks_cons {c : Char} (h : ¬ InWord c ∧ c ≠ '\'') (rest : List Char) :
    Breaks (c :: rest) := by
  rintro d hd
  cases hd
  exact h

theorem lex_inWord {c : Char} (h : InWord c) (word rest : List Char) :
    lex false word (c :: rest) = lex false (word ++ [c]) rest := by
  have hquote : c ≠ '\'' := by
    rintro rfl
    exact absurd h (by decide)
  rw [lex, if_neg hquote, if_pos h]

theorem lex_sign {c : Char} (h : ¬ InWord c ∧ c ≠ '\'') (word rest : List Char) :
    lex false word (c :: rest) = wordOf word ++ .sign c :: lex false [] rest := by
  rw [lex, if_neg h.2, if_neg h.1]

theorem lex_breaks {rest : List Char} (h : Breaks rest) (word : List Char) :
    lex false word rest = wordOf word ++ lex false [] rest := by
  cases rest with
  | nil => exact (List.append_nil _).symm
  | cons c rest =>
    rw [lex_sign (h c rfl), lex_sign (h c rfl)]
    rfl

/-- A text without quotes, and what follows it. -/
theorem lex_append {cs rest : List Char} (hquote : '\'' ∉ cs) (h : Breaks rest)
    (word : List Char) : lex false word (cs ++ rest) = lex false word cs ++ lex false [] rest := by
  induction cs generalizing word with
  | nil => exact lex_breaks h word
  | cons c cs ih =>
    have hc : c ≠ '\'' := fun e => hquote (e ▸ List.mem_cons_self)
    have ih := ih fun hmem => hquote (List.mem_cons_of_mem _ hmem)
    rw [List.cons_append]
    by_cases hword : InWord c
    · rw [lex_inWord hword, lex_inWord hword, ih]
    · rw [lex_sign ⟨hword, hc⟩, lex_sign ⟨hword, hc⟩, ih, List.append_assoc]
      rfl

theorem lex_word {cs : List Char} (h : ∀ c ∈ cs, InWord c) (word : List Char) :
    lex false word cs = wordOf (word ++ cs) := by
  induction cs generalizing word with
  | nil => rw [List.append_nil]; rfl
  | cons c cs ih =>
    rw [lex_inWord (h c List.mem_cons_self), ih fun d hd => h d (List.mem_cons_of_mem _ hd),
      List.append_assoc]
    rfl

theorem not_mem_of_inWord {cs : List Char} (h : ∀ c ∈ cs, InWord c) : '\'' ∉ cs :=
  fun hmem => absurd (h _ hmem) (by decide)

/-- A word, and what follows it. -/
theorem lex_word_append {cs rest : List Char} (h : ∀ c ∈ cs, InWord c) (hrest : Breaks rest) :
    lex false [] (cs ++ rest) = wordOf cs ++ lex false [] rest := by
  rw [lex_append (not_mem_of_inWord h) hrest, lex_word h]
  rfl

/-- A text without quotes whose last character belongs to no word. -/
def Halts (s : String) : Prop :=
  '\'' ∉ s.toList ∧ s.toList.getLast?.all (fun c => !decide (InWord c)) = true

instance (s : String) : Decidable (Halts s) := inferInstanceAs (Decidable (_ ∧ _))

theorem lex_halts {s : String} (h : Halts s) (rest : List Char) :
    lex false [] (s.toList ++ rest) = lexemes s ++ lex false [] rest := by
  obtain ⟨hquote, hlast⟩ := h
  unfold lexemes
  rcases List.eq_nil_or_concat s.toList with hs | ⟨cs, c, hs⟩
  · rw [hs]
    rfl
  · rw [List.concat_eq_append] at hs
    rw [hs] at hquote hlast ⊢
    have hc : ¬ InWord c ∧ c ≠ '\'' := by
      refine ⟨by simpa using hlast, ?_⟩
      rintro rfl
      exact hquote (by simp)
    have hcs : '\'' ∉ cs := fun hmem => hquote (List.mem_append_left _ hmem)
    rw [List.append_assoc, List.singleton_append, lex_append hcs (breaks_cons hc _),
      lex_append hcs (breaks_cons hc _), lex_sign hc, lex_sign hc, List.append_assoc]
    rfl

theorem lex_quoted {rest : List Char} (h : Breaks rest) (body : List Char) :
    lex true [] (Operand.doubleQuotes body ++ '\'' :: rest) = lex false [] rest := by
  induction body with
  | nil =>
    have hrest : ∀ more, rest = '\'' :: more → False := by
      rintro more rfl
      exact (h '\'' rfl).2 rfl
    rw [Operand.doubleQuotes, List.nil_append, lex]
    exact hrest
  | cons c body ih =>
    by_cases hc : c = '\''
    · subst hc
      rw [Operand.doubleQuotes, List.cons_append, List.cons_append, lex]
      exact ih
    · rw [doubleQuotes_of_ne hc, List.cons_append, lex]
      · exact ih
      · exact fun _ e => absurd e hc
      · exact hc

/-! ## 3. Numbers -/

/-- A digit, the point of a number, or the mark of its exponent. -/
def InNumber (c : Char) : Prop := c.isDigit = true ∨ c = '.' ∨ c = 'e'

instance : DecidablePred InNumber := fun _ => inferInstanceAs (Decidable (_ ∨ _))

/-- A word of a number. -/
def IsDigits (cs : List Char) : Prop := cs ≠ [] ∧ ∀ c ∈ cs, InNumber c

/-- A number without its sign: a word, or two with the sign of an exponent between them. -/
inductive Magnitude : List Char → Prop
  | plain {cs : List Char} (h : IsDigits cs) : Magnitude cs
  | scaled {cs ds : List Char} {c : Char} (h : IsDigits cs) (hc : c = '-' ∨ c = '+')
      (h' : IsDigits ds) : Magnitude (cs ++ c :: ds)

/-- The minus sign of a negative number. -/
def minusOf (negative : Bool) : List Char := if negative then ['-'] else []

theorem isDigits_natText (n : Nat) : IsDigits (toString n).toList := by
  refine ⟨fun h => ?_, fun c hc => .inl (isDigit_natText n c hc)⟩
  have hpos : 0 < (Nat.toDigits 10 n).length := Nat.length_toDigits_pos
  rw [← Nat.toList_repr, show n.repr.toList = [] from h] at hpos
  cases hpos

theorem intText (n : Int) :
    ∃ cs, Magnitude cs ∧ (toString n).toList = minusOf (decide (n < 0)) ++ cs := by
  cases n with
  | ofNat n =>
    refine ⟨_, .plain (isDigits_natText n), ?_⟩
    have hn : decide (Int.ofNat n < 0) = false := by simp
    rw [hn]
    rfl
  | negSucc n =>
    refine ⟨_, .plain (isDigits_natText (n + 1)), ?_⟩
    have hn : decide (Int.negSucc n < 0) = true := by simp
    rw [hn]
    exact String.toList_append

theorem magnitude_digitsText (d : Binary64.Digits) : Magnitude d.text.toList := by
  have hdigits : ∀ c ∈ (toString d.digits).toList, InNumber c := (isDigits_natText d.digits).2
  have hzeros (n : Int) : AllChars InNumber (String.ofList (List.replicate n.toNat '0')) := by
    refine .ofList fun c hc => ?_
    rw [List.eq_of_mem_replicate hc]
    decide
  have plain {s : String} (h : AllChars InNumber s) (hne : s.toList ≠ []) : Magnitude s.toList :=
    .plain ⟨hne, h⟩
  unfold Binary64.Digits.text
  dsimp only
  split
  · exact plain (by decide) (by decide)
  · split
    · split
      · exact plain (.append (.append hdigits (hzeros _)) (by decide)) (by simp)
      · split
        · exact plain (.append (.append (.take hdigits _) (by decide)) (.drop hdigits _)) (by simp)
        · exact plain (.append (.append (by decide) (hzeros _)) hdigits) (by simp)
    · -- The word in front of the exponent's sign ends in its mark.
      generalize hpower : ((toString d.digits).length : Int) + d.exponent - 1 = power
      generalize hfraction : (if ((toString d.digits).drop 1).toString.isEmpty = true then ""
        else "." ++ ((toString d.digits).drop 1).toString) = fraction
      have hfraction : AllChars InNumber fraction := by
        rw [← hfraction]
        split
        · decide
        · exact .append (by decide) (.drop hdigits 1)
      have hword : AllChars InNumber (((toString d.digits).take 1).toString ++ fraction ++ "e") :=
        .append (.append (.take hdigits 1) hfraction) (by decide)
      have hsign : ∃ c, (c = '-' ∨ c = '+') ∧
          (if power < 0 then "e-" else "e+").toList = ['e', c] := by
        split
        · exact ⟨'-', .inl rfl, rfl⟩
        · exact ⟨'+', .inr rfl, rfl⟩
      obtain ⟨c, hc, hmark⟩ := hsign
      have h := Magnitude.scaled ⟨by simp, hword⟩ hc (isDigits_natText power.natAbs)
      rw [String.toList_append, String.toList_append] at h
      rw [String.toList_append, String.toList_append, String.toList_append, hmark]
      simpa using h

theorem negative_of_integer? {x : Binary64} {k : Int} (h : x.integer? = some k) (hk : k ≠ 0) :
    decide (k < 0) = x.negative := by
  unfold Binary64.integer? at h
  split at h
  · obtain ⟨_, hmagnitude, hn⟩ := Option.map_eq_some_iff.mp h
    obtain ⟨n, -, hcast⟩ := Option.bind_eq_some_iff.mp hmagnitude
    cases hcast
    cases hnegative : x.negative with
    | false =>
      rw [hnegative] at hn
      have hn : (n : Int) = k := hn
      exact decide_eq_false (by omega)
    | true =>
      rw [hnegative] at hn
      have hn : -(n : Int) = k := hn
      exact decide_eq_true (by omega)
  · cases h

/-- A number is written with a minus sign exactly if it is negative. -/
theorem numberText (n : Number) :
    ∃ cs, Magnitude cs ∧ (Operand.ofNumber n).sql.text.toList = minusOf n.isNegative ++ cs := by
  have hint (k : Int) : ∃ cs, Magnitude cs ∧
      (Operand.ofLiteral (toString k) .integer).sql.text.toList =
        minusOf (decide (k < 0)) ++ cs := by
    rw [Operand.ofLiteral, Operand.text_ofString]
    exact intText k
  have hfloat (x : Binary64) : ∃ cs, Magnitude cs ∧
      (Operand.ofLiteral x.text .float).sql.text.toList = minusOf x.negative ++ cs := by
    rw [Operand.ofLiteral, Operand.text_ofString, Binary64.text, String.toList_append]
    refine ⟨_, magnitude_digitsText x.shortest, ?_⟩
    cases x.negative <;> rfl
  cases n with
  | int k => exact hint k
  | float x =>
    unfold Operand.ofNumber Number.isNegative
    dsimp only
    generalize hinteger : x.integer? = whole
    cases whole with
    | none =>
      dsimp only
      exact hfloat x
    | some k =>
      dsimp only
      split
      · exact hint k
      · rename_i hbound
        -- Beyond the bound the number is no zero, so its sign is that of its value.
        have hk : k ≠ 0 := by
          rintro rfl
          exact hbound ⟨by decide, by decide⟩
        rw [negative_of_integer? hinteger hk]
        exact hfloat x

theorem toUpper_of_isDigit {c : Char} (h : c.isDigit = true) : c.toUpper = c := by
  have hle : c.val ≤ '9'.val := by
    simp only [Char.isDigit, Bool.and_eq_true, decide_eq_true_eq] at h
    exact h.2
  refine dif_neg fun hlower => ?_
  exact absurd (UInt32.le_trans hlower.1 hle) (by decide)

/-- A word has a letter that no number has. -/
def hasLetter (word : String) : Bool :=
  word.toList.any fun c => !decide (InNumber c ∨ c = 'E')

/-- No number is such a word, also if upper and lower case are the same. -/
theorem toUpper_ne_of_inNumber {cs : List Char} (h : ∀ c ∈ cs, InNumber c) {word : String}
    (hword : hasLetter word = true) : cs.map Char.toUpper ≠ word.toList := by
  have hupper : ∀ c ∈ cs.map Char.toUpper, InNumber c ∨ c = 'E' := by
    intro c hc
    obtain ⟨d, hd, rfl⟩ := List.mem_map.mp hc
    rcases h d hd with hdigit | rfl | rfl
    · rw [toUpper_of_isDigit hdigit]
      exact .inl (.inl hdigit)
    · decide
    · decide
  intro heq
  obtain ⟨c, hc, hnot⟩ := List.any_eq_true.mp hword
  have hnot : ¬ (InNumber c ∨ c = 'E') := by simpa using hnot
  exact hnot (hupper c (heq ▸ hc))

/-- A word with a dot in it is none without. -/
theorem toUpper_ne_of_dot {cs : List Char} (h : '.' ∈ cs) {word : String}
    (hword : '.' ∉ word.toList) : cs.map Char.toUpper ≠ word.toList :=
  fun heq => hword (heq ▸ List.mem_map.mpr ⟨'.', h, by decide⟩)

/-- The lexemes of a number without its sign. -/
inductive IsMagnitude : List Lexeme → Prop
  | plain {cs : List Char} (h : ∀ c ∈ cs, InNumber c) : IsMagnitude [.word cs]
  | scaled {cs ds : List Char} {c : Char} (h : ∀ c ∈ cs, InNumber c) (hc : c = '-' ∨ c = '+')
      (h' : ∀ c ∈ ds, InNumber c) : IsMagnitude [.word cs, .sign c, .word ds]

theorem inWord_of_inNumber {c : Char} (h : InNumber c) : InWord c := by
  rcases h with h | rfl | rfl
  · exact .inl (.inl (by rw [Char.isAlphanum, h, Bool.or_true]))
  · decide
  · decide

theorem lex_digits {cs : List Char} (h : IsDigits cs) : lex false [] cs = [.word cs] := by
  rw [lex_word fun c hc => inWord_of_inNumber (h.2 c hc)]
  cases cs with
  | nil => exact absurd rfl h.1
  | cons c cs => rfl

theorem lex_magnitude {cs : List Char} (h : Magnitude cs) : IsMagnitude (lex false [] cs) := by
  cases h with
  | plain h =>
    rw [lex_digits h]
    exact .plain h.2
  | scaled h hc h' =>
    have hsign : ∀ c : Char, c = '-' ∨ c = '+' → ¬ InWord c ∧ c ≠ '\'' := by
      rintro c (rfl | rfl) <;> decide
    have hquote := not_mem_of_inWord fun c hc => inWord_of_inNumber (h.2 c hc)
    rw [lex_append hquote (breaks_cons (hsign _ hc) _), lex_digits h, lex_sign (hsign _ hc),
      lex_digits h']
    exact .scaled h.2 hc h'.2

/-- The lexemes of a number. -/
theorem lexemes_number (n : Number) : ∃ ls, IsMagnitude ls ∧
    lexemes (Operand.ofNumber n).sql.text = (minusOf n.isNegative).map .sign ++ ls := by
  obtain ⟨cs, hcs, htext⟩ := numberText n
  refine ⟨_, lex_magnitude hcs, ?_⟩
  rw [lexemes, htext]
  cases n.isNegative with
  | false => rfl
  | true => exact lex_sign (by decide) [] cs

theorem not_mem_numberText (n : Number) :
    '\'' ∉ (Operand.ofNumber n).sql.text.toList := by
  obtain ⟨cs, hcs, htext⟩ := numberText n
  have hword {cs : List Char} (h : IsDigits cs) : '\'' ∉ cs :=
    not_mem_of_inWord fun c hc => inWord_of_inNumber (h.2 c hc)
  have hmagnitude : '\'' ∉ cs := by
    cases hcs with
    | plain h => exact hword h
    | scaled h hc h' =>
      intro hmem
      rcases List.mem_append.mp hmem with hmem | hmem
      · exact hword h hmem
      · rcases List.mem_cons.mp hmem with rfl | hmem
        · exact absurd hc (by decide)
        · exact hword h' hmem
  rw [htext, List.mem_append]
  rintro (hmem | hmem)
  · revert hmem
    cases n.isNegative <;> decide
  · exact hmagnitude hmem

/-! ## 4. The lexemes of phrases -/

namespace Template

/-- The characters of a text. -/
def chars (t : Template) : List Char := t.signs.map Sign.toChar

theorem toList_text (t : Template) : t.text.toList = t.chars := String.toList_ofList

theorem chars_append (t u : Template) : (t ++ u).chars = t.chars ++ u.chars := List.map_append

theorem chars_ofString (s : String) : (ofString s).chars = s.toList := by
  rw [← toList_text, Operand.text_ofString]

theorem chars_parens (t : Template) : t.parens.chars = '(' :: (t.chars ++ [')']) := by
  unfold parens
  rw [chars_append, chars_append, chars_ofString, chars_ofString]
  rfl

end Template

namespace Phrase

/-- The lexemes of a phrase, from those of its parts. -/
def lexemes : Phrase → List Lexeme
  | .digits d => wordOf d.1.toList
  | .null => Sql.lexemes "NULL"
  | .number n => Sql.lexemes (Operand.ofNumber n).sql.text
  | .literal _ => [.literal]
  | .hole _ => [.sign '?']
  | .column label name => wordOf (label.1 ++ "." ++ name.1).toList
  | .rows => Sql.lexemes rowsText
  | .call f φ => wordOf f.text.toList ++ .sign '(' :: (φ.lexemes ++ [.sign ')'])
  | .group φ => .sign '(' :: (φ.lexemes ++ [.sign ')'])
  | .condition φ => φ.lexemes
  | .minus φ => .sign '-' :: φ.lexemes
  | .orderBy φ => Sql.lexemes "ORDER BY " ++ φ.lexemes
  | .beside φ gap ψ => φ.lexemes ++ (Sql.lexemes gap.text ++ ψ.lexemes)
  | .after φ tail => φ.lexemes ++ Sql.lexemes tail.text
  | .orNull φ ψ => Sql.lexemes "CASE WHEN " ++ (φ.lexemes ++ (Sql.lexemes " IS NULL THEN " ++
      (ψ.lexemes ++ (Sql.lexemes " IS NULL ELSE " ++ (φ.lexemes ++ (Sql.lexemes " = " ++
        (ψ.lexemes ++ Sql.lexemes " END")))))))

theorem breaks_blank (s : String) (h : s.toList.head? = some ' ') (rest : List Char) :
    Breaks (s.toList ++ rest) := by
  obtain ⟨more, hs⟩ := List.head?_eq_some_iff.mp h
  rw [hs]
  exact breaks_cons (by decide) _

theorem breaks_gap (gap : Gap) (rest : List Char) : Breaks (gap.text.toList ++ rest) := by
  cases gap <;> exact breaks_cons (by decide) _

theorem breaks_tail (tail : Tail) (rest : List Char) : Breaks (tail.text.toList ++ rest) := by
  cases tail <;> exact breaks_cons (by decide) _

theorem inWord_of_isDigit {c : Char} (h : c.isDigit = true) : InWord c :=
  .inl (.inl (by rw [Char.isAlphanum, h, Bool.or_true]))

theorem inWord_column (label name : Ident) : ∀ c ∈ (label.1 ++ "." ++ name.1).toList, InWord c := by
  have hdot : AllChars InWord "." := by decide
  exact ((label.2.mono fun _ => .inl).append hdot).append (name.2.mono fun _ => .inl)

theorem inWord_routine (f : Routine) : AllChars InWord f.text := by
  cases f <;> decide

theorem chars_quote (s : String) (rest : List Char) :
    (Template.ofString (Operand.quote s)).chars ++ rest =
      '\'' :: (Operand.doubleQuotes (Operand.unescapeDollar s.toList) ++ '\'' :: rest) := by
  rw [Template.chars_ofString, Operand.quote, String.toList_ofList, List.cons_append,
    List.append_assoc]
  rfl

/-- The lexemes of a phrase, and of what follows it. -/
theorem lex_template (φ : Phrase) {rest : List Char} (h : Breaks rest) :
    lex false [] (φ.template.chars ++ rest) = φ.lexemes ++ lex false [] rest := by
  induction φ generalizing rest with
  | digits d =>
    rw [template, Template.chars_ofString]
    exact lex_word_append (fun c hc => inWord_of_isDigit (d.2 c hc)) h
  | null =>
    rw [template, Template.chars_ofString]
    exact lex_append (by decide) h []
  | number n =>
    rw [template, ← Template.toList_text]
    exact lex_append (not_mem_numberText n) h []
  | literal s =>
    rw [template, chars_quote, lex, if_pos rfl, lex_quoted h]
    rfl
  | hole ref =>
    show lex false [] ('?' :: rest) = _
    rw [lex_sign (by decide)]
    rfl
  | column label name =>
    rw [template, Template.chars_ofString]
    exact lex_word_append (inWord_column label name) h
  | rows =>
    rw [template, Template.chars_ofString]
    exact lex_append (by decide) h []
  | call f φ ih =>
    rw [template, Template.chars_append, Template.chars_ofString, Template.chars_parens,
      List.append_assoc, List.cons_append, List.append_assoc, List.singleton_append,
      lex_word_append (inWord_routine f) (breaks_cons (by decide) _), lex_sign (by decide),
      ih (breaks_cons (by decide) _), lex_sign (by decide)]
    simp [lexemes, wordOf]
  | group φ ih =>
    rw [template, Template.chars_parens, List.cons_append, List.append_assoc,
      List.singleton_append, lex_sign (by decide), ih (breaks_cons (by decide) _),
      lex_sign (by decide)]
    simp [lexemes, wordOf]
  | condition φ ih => exact ih h
  | minus φ ih =>
    rw [template, Template.chars_append, Template.chars_ofString, List.append_assoc]
    show lex false [] ('-' :: (φ.template.chars ++ rest)) = _
    rw [lex_sign (by decide), ih h]
    rfl
  | orderBy φ ih =>
    rw [template, Template.chars_append, Template.chars_ofString, List.append_assoc,
      lex_halts (by decide), ih h, lexemes, List.append_assoc]
  | beside φ gap ψ ihφ ihψ =>
    have hgap : Halts gap.text := by cases gap <;> decide
    rw [template, Template.chars_append, Template.chars_append, Template.chars_ofString,
      List.append_assoc, List.append_assoc, ihφ (breaks_gap gap _), lex_halts hgap, ihψ h, lexemes,
      List.append_assoc, List.append_assoc]
  | after φ tail ih =>
    have htail : '\'' ∉ tail.text.toList := by cases tail <;> decide
    rw [template, Template.chars_append, Template.chars_ofString, List.append_assoc,
      ih (breaks_tail tail _), lex_append htail h, lexemes, List.append_assoc]
    rfl
  | orNull φ ψ ihφ ihψ =>
    simp only [template, Template.chars_append, Template.chars_ofString, List.append_assoc]
    rw [lex_halts (by decide), ihφ (breaks_blank " IS NULL THEN " (by decide) _),
      lex_halts (by decide), ihψ (breaks_blank " IS NULL ELSE " (by decide) _),
      lex_halts (by decide), ihφ (breaks_blank " = " (by decide) _), lex_halts (by decide),
      ihψ (breaks_blank " END" (by decide) _), lex_append (by decide) h]
    simp only [lexemes, List.append_assoc]
    rfl

theorem lexemes_template (φ : Phrase) : Sql.lexemes φ.template.text = φ.lexemes := by
  have h := lex_template φ breaks_nil
  rw [List.append_nil] at h
  rw [Sql.lexemes, Template.toList_text, h]
  exact List.append_nil _

end Phrase

end QuerySheet.Sql

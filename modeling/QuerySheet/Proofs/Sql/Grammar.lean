import QuerySheet.Sql.Operand

/-!
# Closed templates

Text is safe to put together with other text when it opens nothing that it does not close.

* `Ordinary` characters open and close nothing; numbers are made of them;
* `Closed` is the grammar of such signs: plain characters, holes, string literals in which a quote
  is written twice, quoted identifiers, and groups in parentheses. It is kept by all ways to build
  templates;
* `afterGroup` reads a text up to the parenthesis that closes a group, and `IsGroup` says that this
  is its last character. What is closed does not count (`afterGroup_closed`), so a closed template
  in parentheses is a group (`isGroup_parens`);
* `marksFrom` finds the question marks outside of literals and quoted identifiers. In a closed
  template these are the holes (`marksFrom_closed`).
-/

namespace QuerySheet.Sql

/-! ## 1. Characters -/

/-- All characters of a text are of a kind. -/
def AllChars (p : Char → Prop) (s : String) : Prop := ∀ c ∈ s.toList, p c

/-- A character that neither opens nor closes anything, and is no question mark. -/
def Ordinary (c : Char) : Prop := c ≠ '\'' ∧ c ≠ '"' ∧ c ≠ '(' ∧ c ≠ ')' ∧ c ≠ '?'

instance : DecidablePred Ordinary := fun _ => inferInstanceAs (Decidable (_ ∧ _))

instance {p : Char → Prop} [DecidablePred p] {s : String} : Decidable (AllChars p s) :=
  List.decidableBAll p s.toList

namespace AllChars

variable {p q : Char → Prop} {s t : String}

theorem mono (h : AllChars p s) (hpq : ∀ c, p c → q c) : AllChars q s :=
  fun c hc => hpq c (h c hc)

theorem append (hs : AllChars p s) (ht : AllChars p t) : AllChars p (s ++ t) := by
  intro c hc
  rw [String.toList_append, List.mem_append] at hc
  exact hc.elim (hs c) (ht c)

theorem ofList {cs : List Char} (h : ∀ c ∈ cs, p c) : AllChars p (String.ofList cs) := by
  intro c hc
  rw [String.toList_ofList] at hc
  exact h c hc

theorem take (h : AllChars p s) (n : Nat) : AllChars p (s.take n).toString := by
  intro c hc
  have htake : (s.take n).toString.toList = s.toList.take n := String.toList_copy_take
  rw [htake] at hc
  exact h c (List.mem_of_mem_take hc)

theorem drop (h : AllChars p s) (n : Nat) : AllChars p (s.drop n).toString := by
  intro c hc
  have hdrop : (s.drop n).toString.toList = s.toList.drop n := String.toList_copy_drop
  rw [hdrop] at hc
  exact h c (List.mem_of_mem_drop hc)

end AllChars

theorem ordinary_of_isDigit {c : Char} (h : c.isDigit = true) : Ordinary c := by
  refine ⟨?_, ?_, ?_, ?_, ?_⟩ <;> rintro rfl <;> revert h <;> decide

theorem isDigit_natText (n : Nat) : AllChars (fun c => c.isDigit = true) (toString n) := by
  intro c hc
  rw [show toString n = n.repr from rfl, Nat.toList_repr] at hc
  exact Nat.isDigit_of_mem_toDigits (by decide) (by decide) hc

theorem ordinary_natText (n : Nat) : AllChars Ordinary (toString n) :=
  (isDigit_natText n).mono fun _ => ordinary_of_isDigit

theorem ordinary_digitsText (d : Binary64.Digits) : AllChars Ordinary d.text := by
  have hdigits : AllChars Ordinary (toString d.digits) := ordinary_natText d.digits
  have hzeros (n : Int) : AllChars Ordinary (String.ofList (List.replicate n.toNat '0')) := by
    refine .ofList fun c hc => ?_
    rw [List.eq_of_mem_replicate hc]
    decide
  have hpoint : AllChars Ordinary "." := by decide
  unfold Binary64.Digits.text
  dsimp only
  split
  · decide
  · split
    · split
      · exact (hdigits.append (hzeros _)).append (by decide)
      · split
        · exact ((hdigits.take _).append hpoint).append (hdigits.drop _)
        · exact AllChars.append (.append (by decide) (hzeros _)) hdigits
    · refine .append (.append (.append (hdigits.take 1) ?_) ?_) (ordinary_natText _)
      · split
        · decide
        · exact hpoint.append (hdigits.drop 1)
      · split <;> decide

theorem ordinary_floatText (x : Binary64) : AllChars Ordinary x.text := by
  unfold Binary64.text
  refine .append ?_ (ordinary_digitsText _)
  split <;> decide

/-! ## 2. The grammar -/

/-- Signs that open nothing that they do not close. -/
inductive Closed (plain : Char → Prop) : List Sign → Prop
  | nil : Closed plain []
  | char {c : Char} {rest : List Sign} (hc : plain c) (h : Closed plain rest) :
      Closed plain (.char c :: rest)
  | hole {ref : ParamRef} {rest : List Sign} (h : Closed plain rest) :
      Closed plain (.hole ref :: rest)
  | literal (body : List Char) {rest : List Sign} (h : Closed plain rest) :
      Closed plain (('\'' :: (Operand.doubleQuotes body ++ ['\''])).map .char ++ rest)
  | identifier {name : List Char} {rest : List Sign} (hname : ∀ c ∈ name, plain c)
      (h : Closed plain rest) : Closed plain (('"' :: (name ++ ['"'])).map .char ++ rest)
  | parens {inner rest : List Sign} (hinner : Closed plain inner) (h : Closed plain rest) :
      Closed plain (.char '(' :: (inner ++ .char ')' :: rest))

namespace Closed

variable {plain : Char → Prop}

theorem append {signs more : List Sign} (h : Closed plain signs) (hmore : Closed plain more) :
    Closed plain (signs ++ more) := by
  induction h with
  | nil => exact hmore
  | char hc _ ih => exact .char hc ih
  | hole _ ih => exact .hole ih
  | literal body _ ih =>
    rw [List.append_assoc]
    exact .literal body ih
  | identifier hname _ ih =>
    rw [List.append_assoc]
    exact .identifier hname ih
  | parens hinner _ _ ih =>
    rw [List.cons_append, List.append_assoc, List.cons_append]
    exact .parens hinner ih

theorem ofChars {cs : List Char} (h : ∀ c ∈ cs, plain c) : Closed plain (cs.map .char) := by
  induction cs with
  | nil => exact .nil
  | cons c cs ih =>
    exact .char (h c List.mem_cons_self) (ih fun d hd => h d (List.mem_cons_of_mem _ hd))

end Closed

/-- A template whose signs are closed. -/
def Template.Closed (plain : Char → Prop) (t : Template) : Prop := Sql.Closed plain t.signs

namespace Template

variable {plain : Char → Prop} {t u : Template}

theorem Closed.append (ht : t.Closed plain) (hu : u.Closed plain) : (t ++ u).Closed plain :=
  Sql.Closed.append ht hu

theorem Closed.parens (ht : t.Closed plain) : t.parens.Closed plain := by
  have hsigns : t.parens.signs = .char '(' :: (t.signs ++ .char ')' :: []) := by
    show ("(".toList.map Sign.char ++ t.signs) ++ ")".toList.map Sign.char = _
    rfl
  unfold Template.Closed
  rw [hsigns]
  exact .parens ht .nil

theorem closed_ofString {s : String} (h : AllChars plain s) : (ofString s).Closed plain :=
  Sql.Closed.ofChars h

theorem closed_ofRef (ref : ParamRef) : (ofRef ref).Closed plain := .hole .nil

theorem closed_intercalate {separator : String} {ts : List Template}
    (hsep : AllChars plain separator) (h : ∀ t ∈ ts, t.Closed plain) :
    (intercalate separator ts).Closed plain := by
  induction ts with
  | nil => exact .nil
  | cons t ts ih =>
    cases ts with
    | nil => exact h t List.mem_cons_self
    | cons u rest =>
      have hrest := ih fun v hv => h v (List.mem_cons_of_mem _ hv)
      exact ((h t List.mem_cons_self).append (closed_ofString hsep)).append hrest

theorem closed_quote (s : String) : (ofString (Operand.quote s)).Closed plain := by
  have h : Sql.Closed plain _ := .literal (Operand.unescapeDollar s.toList) .nil
  rw [List.append_nil] at h
  unfold Template.Closed ofString Operand.quote
  rwa [String.toList_ofList]

end Template

/-! ## 3. Signs as characters -/

theorem chars_literal (body : List Char) (more : List Sign) (rest : List Char) :
    (('\'' :: (Operand.doubleQuotes body ++ ['\''])).map Sign.char ++ more).map Sign.toChar ++
      rest =
      '\'' :: (Operand.doubleQuotes body ++ '\'' :: (more.map Sign.toChar ++ rest)) := by
  simp [Sign.toChar, Function.comp_def]

theorem chars_identifier (name : List Char) (more : List Sign) (rest : List Char) :
    (('"' :: (name ++ ['"'])).map Sign.char ++ more).map Sign.toChar ++ rest =
      '"' :: (name ++ '"' :: (more.map Sign.toChar ++ rest)) := by
  simp [Sign.toChar, Function.comp_def]

theorem chars_parens (inner more : List Sign) (rest : List Char) :
    (Sign.char '(' :: (inner ++ .char ')' :: more)).map Sign.toChar ++ rest =
      '(' :: (inner.map Sign.toChar ++ ')' :: (more.map Sign.toChar ++ rest)) := by
  simp [Sign.toChar]

theorem doubleQuotes_of_ne {c : Char} (hc : c ≠ '\'') (body : List Char) :
    Operand.doubleQuotes (c :: body) = c :: Operand.doubleQuotes body := by
  rw [Operand.doubleQuotes]
  exact hc

/-! ## 4. Groups -/

/-- What follows the parenthesis that closes the group of a text, in which `depth` groups are open
    within it. In a literal parentheses do not count and two quotes stand for one. -/
def afterGroup : (literal : Bool) → (depth : Nat) → List Char → Option (List Char)
  | _, _, [] => none
  | true, depth, '\'' :: '\'' :: rest => afterGroup true depth rest
  | true, depth, '\'' :: rest => afterGroup false depth rest
  | true, depth, _ :: rest => afterGroup true depth rest
  | false, depth, '\'' :: rest => afterGroup true depth rest
  | false, depth, '(' :: rest => afterGroup false (depth + 1) rest
  | false, 0, ')' :: rest => some rest
  | false, depth + 1, ')' :: rest => afterGroup false depth rest
  | false, depth, _ :: rest => afterGroup false depth rest

/-- A text begins with a parenthesis, and the one that closes it is its last character. -/
def IsGroup (text : String) : Prop :=
  ∃ rest, text.toList = '(' :: rest ∧ afterGroup false 0 rest = some []

/-- Two quotes in a literal are as good as the end of one and the begin of another. -/
theorem afterGroup_quote (depth : Nat) (rest : List Char) :
    afterGroup true depth ('\'' :: rest) = afterGroup false depth rest := by
  cases rest with
  | nil => rfl
  | cons c rest =>
    by_cases hc : c = '\''
    · subst hc
      rw [afterGroup, afterGroup]
    · rw [afterGroup]
      intro rest' h
      exact hc (List.cons.inj h).1

theorem afterGroup_literal (depth : Nat) (body rest : List Char) :
    afterGroup true depth (Operand.doubleQuotes body ++ '\'' :: rest) =
      afterGroup false depth rest := by
  induction body with
  | nil => exact afterGroup_quote depth rest
  | cons c body ih =>
    by_cases hc : c = '\''
    · subst hc
      rw [Operand.doubleQuotes, List.cons_append, List.cons_append, afterGroup]
      exact ih
    · rw [doubleQuotes_of_ne hc, List.cons_append, afterGroup]
      · exact ih
      · exact fun _ e => absurd e hc
      · exact hc

theorem afterGroup_other {c : Char} (hquote : c ≠ '\'') (hopen : c ≠ '(') (hclose : c ≠ ')')
    (depth : Nat) (rest : List Char) :
    afterGroup false depth (c :: rest) = afterGroup false depth rest := by
  rw [afterGroup] <;> simp_all

section Groups

variable {plain : Char → Prop} (hquote : ¬ plain '\'') (hopen : ¬ plain '(') (hclose : ¬ plain ')')

include hquote hopen hclose

theorem afterGroup_plain {c : Char} (hc : plain c) (depth : Nat) (rest : List Char) :
    afterGroup false depth (c :: rest) = afterGroup false depth rest :=
  afterGroup_other (fun e => hquote (e ▸ hc)) (fun e => hopen (e ▸ hc)) (fun e => hclose (e ▸ hc))
    depth rest

/-- Closed text does not count. -/
theorem afterGroup_closed {signs : List Sign} (h : Closed plain signs) (depth : Nat)
    (rest : List Char) :
    afterGroup false depth (signs.map Sign.toChar ++ rest) = afterGroup false depth rest := by
  -- A group goes one deeper and comes back, so the depth is general in the induction.
  induction h generalizing depth rest with
  | nil => rfl
  | char hc _ ih =>
    rw [List.map_cons, List.cons_append, Sign.toChar,
      afterGroup_plain hquote hopen hclose hc, ih]
  | hole _ ih =>
    rw [List.map_cons, List.cons_append, Sign.toChar,
      afterGroup_other (by decide) (by decide) (by decide), ih]
  | @literal body more _ ih =>
    rw [chars_literal, afterGroup, afterGroup_literal, ih]
  | @identifier name more hname _ ih =>
    have hskip : ∀ cs : List Char, (∀ c ∈ cs, plain c) → ∀ tail,
        afterGroup false depth (cs ++ tail) = afterGroup false depth tail := by
      intro cs hcs tail
      induction cs with
      | nil => rfl
      | cons c cs ihc =>
        rw [List.cons_append, afterGroup_plain hquote hopen hclose (hcs c List.mem_cons_self)]
        exact ihc fun d hd => hcs d (List.mem_cons_of_mem _ hd)
    rw [chars_identifier, afterGroup_other (by decide) (by decide) (by decide), hskip name hname,
      afterGroup_other (by decide) (by decide) (by decide), ih]
  | @parens inner more _ _ ihinner ih =>
    rw [chars_parens, afterGroup, ihinner, afterGroup, ih]

/-- A closed template in parentheses is a group. -/
theorem isGroup_parens {t : Template} (h : t.Closed plain) : IsGroup t.parens.text := by
  refine ⟨t.signs.map Sign.toChar ++ [')'], ?_, ?_⟩
  · have hsigns : t.parens.signs = .char '(' :: (t.signs ++ [.char ')']) := by
      show ("(".toList.map Sign.char ++ t.signs) ++ ")".toList.map Sign.char = _
      rfl
    unfold Template.text
    rw [String.toList_ofList, hsigns]
    simp [Sign.toChar]
  · rw [afterGroup_closed hquote hopen hclose h]
    rfl

end Groups

/-! ## 5. Question marks -/

/-- What a character of a statement belongs to. -/
inductive Region where
  | text
  | literal
  | identifier

/-- The places of the question marks of a text that begins at a place, other than those in
    literals and in quoted identifiers. In a literal two quotes stand for one. -/
def marksFrom : Region → (place : Nat) → List Char → List Nat
  | _, _, [] => []
  | .text, place, '\'' :: rest => marksFrom .literal (place + 1) rest
  | .text, place, '"' :: rest => marksFrom .identifier (place + 1) rest
  | .text, place, '?' :: rest => place :: marksFrom .text (place + 1) rest
  | .text, place, _ :: rest => marksFrom .text (place + 1) rest
  | .literal, place, '\'' :: '\'' :: rest => marksFrom .literal (place + 2) rest
  | .literal, place, '\'' :: rest => marksFrom .text (place + 1) rest
  | .literal, place, _ :: rest => marksFrom .literal (place + 1) rest
  | .identifier, place, '"' :: rest => marksFrom .text (place + 1) rest
  | .identifier, place, _ :: rest => marksFrom .identifier (place + 1) rest

/-- The places of the question marks that are parameters. -/
def marks (sql : String) : List Nat := marksFrom .text 0 sql.toList

theorem marksFrom_quote (place : Nat) (rest : List Char) :
    marksFrom .literal place ('\'' :: rest) = marksFrom .text (place + 1) rest := by
  cases rest with
  | nil => rfl
  | cons c rest =>
    by_cases hc : c = '\''
    · subst hc
      rw [marksFrom, marksFrom]
    · generalize hrest : marksFrom .text (place + 1) (c :: rest) = more
      rw [marksFrom]
      · exact hrest
      · intro rest' h
        exact hc (List.cons.inj h).1

theorem marksFrom_literal (place : Nat) (body rest : List Char) :
    marksFrom .literal place (Operand.doubleQuotes body ++ '\'' :: rest) =
      marksFrom .text (place + (Operand.doubleQuotes body).length + 1) rest := by
  induction body generalizing place with
  | nil => exact marksFrom_quote place rest
  | cons c body ih =>
    by_cases hc : c = '\''
    · subst hc
      rw [Operand.doubleQuotes, List.cons_append, List.cons_append, marksFrom, ih]
      simp only [List.length_cons]
      congr 1
      omega
    · rw [doubleQuotes_of_ne hc, List.cons_append, marksFrom]
      · rw [ih, List.length_cons]
        congr 1
        omega
      · exact fun _ e => absurd e hc
      · exact hc

theorem marksFrom_identifier {name : List Char} (hname : '"' ∉ name) (place : Nat)
    (rest : List Char) :
    marksFrom .identifier place (name ++ '"' :: rest) =
      marksFrom .text (place + name.length + 1) rest := by
  induction name generalizing place with
  | nil => rfl
  | cons c name ih =>
    have hc : c ≠ '"' := fun e => hname (e ▸ List.mem_cons_self)
    rw [List.cons_append, marksFrom]
    · rw [ih fun h => hname (List.mem_cons_of_mem _ h), List.length_cons]
      congr 1
      omega
    · exact hc

theorem marksFrom_other {c : Char} (hquote : c ≠ '\'') (hdouble : c ≠ '"') (hmark : c ≠ '?')
    (place : Nat) (rest : List Char) :
    marksFrom .text place (c :: rest) = marksFrom .text (place + 1) rest := by
  rw [marksFrom] <;> assumption

theorem holesFrom_append (place : Nat) (signs more : List Sign) :
    Template.holesFrom place (signs ++ more) =
      Template.holesFrom place signs ++ Template.holesFrom (place + signs.length) more := by
  induction signs generalizing place with
  | nil => rfl
  | cons sign signs ih =>
    cases sign with
    | char c =>
      rw [List.cons_append, Template.holesFrom, Template.holesFrom, ih, List.length_cons]
      congr 2
      omega
    | hole ref =>
      rw [List.cons_append, Template.holesFrom, Template.holesFrom, ih, List.length_cons,
        List.cons_append]
      congr 3
      omega

theorem holesFrom_chars (place : Nat) (cs : List Char) :
    Template.holesFrom place (cs.map .char) = [] := by
  induction cs generalizing place with
  | nil => rfl
  | cons c cs ih => exact ih (place + 1)

section Marks

variable {plain : Char → Prop} (hquote : ¬ plain '\'') (hdouble : ¬ plain '"') (hmark : ¬ plain '?')

include hquote hdouble hmark

/-- The question marks of closed signs are their holes. -/
theorem marksFrom_closed {signs : List Sign} (h : Closed plain signs) (place : Nat)
    (rest : List Char) :
    marksFrom .text place (signs.map Sign.toChar ++ rest) =
      Template.holesFrom place signs ++ marksFrom .text (place + signs.length) rest := by
  induction h generalizing place rest with
  | nil => rfl
  | @char c more hc _ ih =>
    rw [List.map_cons, List.cons_append, Sign.toChar,
      marksFrom_other (fun e => hquote (e ▸ hc)) (fun e => hdouble (e ▸ hc))
        (fun e => hmark (e ▸ hc)), ih, Template.holesFrom, List.length_cons]
    congr 2
    omega
  | hole _ ih =>
    rw [List.map_cons, List.cons_append, Sign.toChar, marksFrom, ih, Template.holesFrom,
      List.length_cons, List.cons_append]
    congr 3
    omega
  | @literal body more _ ih =>
    rw [chars_literal, marksFrom, marksFrom_literal, ih, holesFrom_append, holesFrom_chars,
      List.nil_append]
    simp only [List.length_append, List.length_map, List.length_cons, List.length_nil]
    congr 2 <;> omega
  | @identifier name more hname _ ih =>
    rw [chars_identifier, marksFrom, marksFrom_identifier fun h => hdouble (hname _ h), ih,
      holesFrom_append, holesFrom_chars, List.nil_append]
    simp only [List.length_append, List.length_map, List.length_cons, List.length_nil]
    congr 2 <;> omega
  | @parens inner more _ _ ihinner ih =>
    rw [chars_parens, marksFrom_other (by decide) (by decide) (by decide), ihinner,
      marksFrom_other (by decide) (by decide) (by decide), ih, Template.holesFrom,
      holesFrom_append, Template.holesFrom, List.append_assoc]
    simp only [List.length_append, List.length_cons]
    congr 3
    omega

/-- The question marks of a closed template are its holes. -/
theorem marks_text {t : Template} (h : t.Closed plain) : marks t.text = t.holePlaces := by
  have hmarks := marksFrom_closed hquote hdouble hmark h 0 []
  rw [List.append_nil, marksFrom, List.append_nil] at hmarks
  unfold marks Template.text
  rw [String.toList_ofList]
  exact hmarks

end Marks

end QuerySheet.Sql

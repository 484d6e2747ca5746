import QuerySheet.Proofs.Sql.Lexing
import QuerySheet.Proofs.Sql.Regular

/-!
# The outline of a statement

A text is read as a list of clauses. A clause begins with a keyword that stands outside of
parentheses and of names in quotes, and goes on up to the next one.

* `outline`, `HasShape`: the clauses of a text, and the order that those of a query have;
* `Unbroken`: lexemes that go into the clause they stand in, whatever follows. Regular phrases are
  such (`Regular.unbroken`), since the `ORDER BY` of a running sum stands in a group;
* `Template.Body`, `Template.Clauses`: texts that are put together are read part by part.
-/

namespace QuerySheet.Sql

/-! ## 1. Clauses -/

/-- The words that begin a clause. -/
inductive Keyword where
  | select
  | source
  | left
  | join
  | filter
  | group
  | order
  | limit
  | offset
  deriving DecidableEq

namespace Keyword

def text : Keyword → String
  | .select => "SELECT"
  | .source => "FROM"
  | .left => "LEFT"
  | .join => "JOIN"
  | .filter => "WHERE"
  | .group => "GROUP"
  | .order => "ORDER"
  | .limit => "LIMIT"
  | .offset => "OFFSET"

def all : List Keyword :=
  [.select, .source, .left, .join, .filter, .group, .order, .limit, .offset]

/-- The keyword that a word is, in upper or lower case. -/
def ofWord? (cs : List Char) : Option Keyword :=
  all.find? fun k => cs.map Char.toUpper = k.text.toList

end Keyword

def Lexeme.keyword? : Lexeme → Option Keyword
  | .word cs => Keyword.ofWord? cs
  | .sign _ | .literal => none

/-- A keyword with what follows it. -/
abbrev Clause := Keyword × List Lexeme

/-- What a text was read as: the lexemes in front of its first keyword, and its clauses. -/
structure Outline where
  lead : List Lexeme
  clauses : List Clause
  deriving DecidableEq

def Outline.prepend (xs : List Lexeme) (o : Outline) : Outline := { o with lead := xs ++ o.lead }

/-- The outline of what follows this many open parentheses, or an open quote as well. -/
def outline : (depth : Nat) → (quoted : Bool) → List Lexeme → Outline
  | _, _, [] => ⟨[], []⟩
  | depth, true, x :: rest => (outline depth (x ≠ .sign '"') rest).prepend [x]
  | depth, false, x :: rest =>
    if x = .sign '"' then (outline depth true rest).prepend [x]
    else if x = .sign '(' then (outline (depth + 1) false rest).prepend [x]
    else if x = .sign ')' then (outline (depth - 1) false rest).prepend [x]
    else
      match if depth = 0 then x.keyword? else none with
      | some k =>
        let behind := outline 0 false rest
        ⟨[], (k, behind.lead) :: behind.clauses⟩
      | none => (outline depth false rest).prepend [x]

def Lexeme.isBlank : Lexeme → Bool
  | .sign c => c = ' ' || c = '\n'
  | .word _ | .literal => false

/-- The lexemes that are no blanks. -/
def visible (xs : List Lexeme) : List Lexeme := xs.filter (!·.isBlank)

def outlineOf (text : String) : Outline := outline 0 false (visible (lexemes text))

/-! ## 2. The shape of a query -/

def isNumeral (cs : List Char) : Bool := !cs.isEmpty && cs.all Char.isDigit

/-- Nothing, `LIMIT n`, or `LIMIT n OFFSET m`. -/
def isLimited : List Clause → Bool
  | [] => true
  | [(.limit, [.word n])] => isNumeral n
  | [(.limit, [.word n]), (.offset, [.word m])] => isNumeral n && isNumeral m
  | _ => false

def startsWithBy (xs : List Lexeme) : Bool := xs.head? = some (.word ['B', 'Y'])

def isOrdered : List Clause → Bool
  | (.order, body) :: rest => startsWithBy body && isLimited rest
  | rest => isLimited rest

def isGrouped : List Clause → Bool
  | (.group, body) :: rest => startsWithBy body && isOrdered rest
  | rest => isOrdered rest

def isFiltered : List Clause → Bool
  | (.filter, condition) :: rest => !condition.isEmpty && isGrouped rest
  | _ => false

/-- Any number of left joins, and then the conditions. -/
def isJoined : List Clause → Bool
  | (.left, []) :: (.join, joined) :: rest => !joined.isEmpty && isJoined rest
  | rest => isFiltered rest

def isSelect : List Clause → Bool
  | (.select, columns) :: (.source, relation) :: rest =>
    !columns.isEmpty && !relation.isEmpty && isJoined rest
  | _ => false

/-- A text is a query by its clauses: `SELECT` with columns, `FROM` with a relation, `LEFT JOIN`s,
    `WHERE`, `GROUP BY` or not, `ORDER BY` or not, and a limit, which an offset may follow, or
    not. What stands in the clauses is not looked at. -/
def HasShape (text : String) : Prop :=
  (outlineOf text).lead = [] ∧ isSelect (outlineOf text).clauses = true

instance (text : String) : Decidable (HasShape text) := inferInstanceAs (Decidable (_ ∧ _))

/-! ## 3. What begins no clause -/

/-- Behind at least this many open parentheses the lexemes go into the clause they stand in. -/
def Unbroken (least : Nat) (xs : List Lexeme) : Prop :=
  ∀ depth rest, least ≤ depth →
    outline depth false (xs ++ rest) = (outline depth false rest).prepend xs

/-- It neither opens nor closes anything, nor does it begin a clause there. -/
def Lexeme.isFree (least : Nat) (x : Lexeme) : Bool :=
  x ≠ .sign '"' && x ≠ .sign '(' && x ≠ .sign ')' && (0 < least || x.keyword?.isNone)

section Unbroken

variable {least : Nat} {xs ys : List Lexeme} {x : Lexeme}

theorem Unbroken.mono {more : Nat} (h : Unbroken least xs) (hle : least ≤ more) :
    Unbroken more xs :=
  fun depth rest hdepth => h depth rest (Nat.le_trans hle hdepth)

theorem unbroken_nil : Unbroken least [] := fun _ _ _ => rfl

theorem Unbroken.append (hx : Unbroken least xs) (hy : Unbroken least ys) :
    Unbroken least (xs ++ ys) := by
  intro depth rest hdepth
  rw [List.append_assoc, hx _ _ hdepth, hy _ _ hdepth]
  unfold Outline.prepend
  rw [List.append_assoc]

theorem unbroken_of_isFree (h : x.isFree least = true) : Unbroken least [x] := by
  intro depth rest hdepth
  simp only [Lexeme.isFree, Bool.and_eq_true, Bool.or_eq_true, decide_eq_true_eq] at h
  obtain ⟨⟨⟨hquote, hopen⟩, hclose⟩, hkey⟩ := h
  have hnone : (if depth = 0 then x.keyword? else none) = none := by
    split
    · rename_i hzero
      exact Option.isNone_iff_eq_none.mp (hkey.resolve_left (by omega))
    · rfl
  rw [List.singleton_append, outline, if_neg hquote, if_neg hopen, if_neg hclose, hnone]

theorem unbroken_of_all (h : xs.all (Lexeme.isFree least) = true) : Unbroken least xs := by
  induction xs with
  | nil => exact unbroken_nil
  | cons x xs ih =>
    rw [List.all_cons, Bool.and_eq_true] at h
    exact (unbroken_of_isFree h.1).append (ih h.2)

/-- What stands in parentheses is one deeper. -/
theorem Unbroken.parens (h : Unbroken (least + 1) xs) :
    Unbroken least (.sign '(' :: (xs ++ [.sign ')'])) := by
  intro depth rest hdepth
  have hopen : outline depth false (.sign '(' :: (xs ++ .sign ')' :: rest)) =
      (outline (depth + 1) false (xs ++ .sign ')' :: rest)).prepend [.sign '('] := rfl
  have hclose : outline (depth + 1) false (.sign ')' :: rest) =
      (outline depth false rest).prepend [.sign ')'] := rfl
  rw [List.cons_append, List.append_assoc, List.singleton_append, hopen,
    h _ _ (Nat.succ_le_succ hdepth), hclose]
  unfold Outline.prepend
  simp

/-- A name in quotes begins no clause, whatever it is. -/
theorem unbroken_quoted (h : x ≠ .sign '"') : Unbroken least [.sign '"', x, .sign '"'] := by
  intro depth rest hdepth
  have hstart : outline depth false (.sign '"' :: x :: .sign '"' :: rest) =
      (outline depth true (x :: .sign '"' :: rest)).prepend [.sign '"'] := rfl
  have hend : outline depth true (.sign '"' :: rest) =
      (outline depth false rest).prepend [.sign '"'] := rfl
  rw [List.cons_append, List.cons_append, List.singleton_append, hstart, outline, decide_eq_true h,
    hend]
  rfl

end Unbroken

/-! ## 4. Words -/

theorem keyword_eq_none {cs : List Char} (h : ∀ k : Keyword, cs.map Char.toUpper ≠ k.text.toList) :
    Keyword.ofWord? cs = none := by
  rw [Keyword.ofWord?, List.find?_eq_none]
  exact fun k _ => by simpa using h k

theorem keyword_of_inNumber {cs : List Char} (h : ∀ c ∈ cs, InNumber c) :
    Keyword.ofWord? cs = none :=
  keyword_eq_none fun k => toUpper_ne_of_inNumber h (by cases k <;> decide)

theorem keyword_of_dot {cs : List Char} (h : '.' ∈ cs) : Keyword.ofWord? cs = none :=
  keyword_eq_none fun k => toUpper_ne_of_dot h (by cases k <;> decide)

/-- Keywords are made of letters. -/
theorem keyword_of_isDigit {cs : List Char} {c : Char} (hc : c ∈ cs) (h : c.isDigit = true) :
    Keyword.ofWord? cs = none := by
  have hletters (k : Keyword) : k.text.toList.any Char.isDigit = false := by cases k <;> decide
  refine keyword_eq_none fun k heq => ?_
  have hmem : c ∈ k.text.toList := heq ▸ List.mem_map.mpr ⟨c, hc, toUpper_of_isDigit h⟩
  exact List.any_eq_false.mp (hletters k) c hmem h

theorem visible_append (xs ys : List Lexeme) : visible (xs ++ ys) = visible xs ++ visible ys :=
  List.filter_append xs ys

theorem visible_wordOf (cs : List Char) : visible (wordOf cs) = wordOf cs := by
  cases cs <;> rfl

theorem isFree_word {least : Nat} {cs : List Char} (h : Keyword.ofWord? cs = none) :
    (Lexeme.word cs).isFree least = true := by
  simp [Lexeme.isFree, Lexeme.keyword?, h]

theorem unbroken_wordOf {least : Nat} {cs : List Char} (h : Keyword.ofWord? cs = none) :
    Unbroken least (wordOf cs) := by
  cases cs with
  | nil => exact unbroken_nil
  | cons c cs => exact unbroken_of_isFree (isFree_word h)

/-! ## 5. Phrases -/

section Phrases

variable {least : Nat} {φ : Phrase}

theorem unbroken_number (n : Number) : Unbroken least (visible (Phrase.number n).lexemes) := by
  obtain ⟨ls, hls, htext⟩ := lexemes_number n
  have hsign {c : Char} (hc : c = '-' ∨ c = '+') : Unbroken least (visible [.sign c]) := by
    rcases hc with rfl | rfl <;> exact unbroken_of_all (by simp [visible, Lexeme.isBlank,
      Lexeme.isFree, Lexeme.keyword?])
  have hword {cs : List Char} (h : ∀ c ∈ cs, InNumber c) : Unbroken least (visible [.word cs]) :=
    unbroken_of_isFree (isFree_word (keyword_of_inNumber h))
  rw [Phrase.lexemes, htext, visible_append]
  refine .append ?_ ?_
  · cases n.isNegative with
    | false => exact unbroken_nil
    | true => exact hsign (.inl rfl)
  · cases hls with
    | plain h => exact hword h
    | @scaled cs ds c h hc h' =>
      rw [show [Lexeme.word cs, .sign c, .word ds] = [.word cs] ++ ([.sign c] ++ [.word ds]) from
        rfl, visible_append, visible_append]
      exact (hword h).append ((hsign hc).append (hword h'))

theorem visible_parens (xs : List Lexeme) :
    visible (.sign '(' :: (xs ++ [.sign ')'])) = .sign '(' :: (visible xs ++ [.sign ')']) := by
  rw [show Lexeme.sign '(' :: (xs ++ [.sign ')']) = [.sign '('] ++ (xs ++ [.sign ')']) from rfl,
    visible_append, visible_append]
  rfl

theorem unbroken_call (f : Routine) (h : Unbroken (least + 1) (visible φ.lexemes)) :
    Unbroken least (visible (Phrase.call f φ).lexemes) := by
  have hname : Keyword.ofWord? f.text.toList = none := by cases f <;> decide
  rw [Phrase.lexemes, visible_append, visible_wordOf, visible_parens]
  exact (unbroken_wordOf hname).append h.parens

theorem unbroken_group (h : Unbroken (least + 1) (visible φ.lexemes)) :
    Unbroken least (visible (Phrase.group φ).lexemes) := by
  rw [Phrase.lexemes, visible_parens]
  exact h.parens

theorem unbroken_beside {ψ : Phrase} (gap : Gap) (hφ : Unbroken least (visible φ.lexemes))
    (hψ : Unbroken least (visible ψ.lexemes)) :
    Unbroken least (visible (Phrase.beside φ gap ψ).lexemes) := by
  have hgap : Unbroken 0 (visible (lexemes gap.text)) := by
    cases gap <;> exact unbroken_of_all (by decide)
  rw [Phrase.lexemes, visible_append, visible_append]
  exact hφ.append ((hgap.mono (Nat.zero_le _)).append hψ)

/-- No clause begins in a regular phrase. -/
theorem Phrase.Regular.unbroken (h : φ.Regular) : Unbroken 0 (visible φ.lexemes) := by
  have fixed {s : String} (hs : (visible (Sql.lexemes s)).all (Lexeme.isFree 0) = true) :
      Unbroken 0 (visible (Sql.lexemes s)) := unbroken_of_all hs
  have hrows : Unbroken 0 (visible (Phrase.rows).lexemes) := fixed (by decide)
  induction h with
  | digits d =>
    rw [lexemes, visible_wordOf]
    exact unbroken_wordOf (keyword_of_inNumber fun c hc => .inl (d.2 c hc))
  | null => exact fixed (by decide)
  | number n => exact unbroken_number n
  | literal | hole => exact unbroken_of_all rfl
  | column label name =>
    rw [lexemes, visible_wordOf]
    exact unbroken_wordOf (keyword_of_dot (by simp))
  | call f _ ih => exact unbroken_call f (ih.mono (Nat.zero_le _))
  | group _ ih => exact unbroken_group (ih.mono (Nat.zero_le _))
  | condition _ ih => exact ih
  | minus _ ih =>
    rw [lexemes, ← List.singleton_append, visible_append]
    exact (unbroken_of_all (by decide)).append ih
  | @beside _ _ gap _ _ _ ihφ ihψ => exact unbroken_beside gap ihφ ihψ
  | after tail _ ih =>
    rw [lexemes, visible_append]
    exact ih.append (by cases tail <;> exact fixed (by decide))
  | orNull _ _ ihφ ihψ =>
    simp only [lexemes, visible_append]
    exact (fixed (by decide)).append <| ihφ.append <| (fixed (by decide)).append <|
      ihψ.append <| (fixed (by decide)).append <| ihφ.append <| (fixed (by decide)).append <|
        ihψ.append (fixed (by decide))
  | runningSum _ ih =>
    exact unbroken_group (unbroken_beside .over (unbroken_call .sum (ih.mono (Nat.zero_le _)))
      (unbroken_group (hrows.mono (Nat.zero_le _))))
  | runningSumBy _ _ ihφ ihω =>
    -- The orders stand in two groups, so their keyword begins no clause.
    have horder : Unbroken 1 (visible (Sql.lexemes "ORDER BY ")) := unbroken_of_all (by decide)
    have horders := (horder.append (ihω.mono (Nat.zero_le 1))).mono (Nat.le_succ 1)
    rw [← visible_append] at horders
    exact unbroken_group (unbroken_beside .over (unbroken_call .sum (ihφ.mono (Nat.zero_le _)))
      (unbroken_group (unbroken_beside .blank horders (hrows.mono (Nat.zero_le _)))))

end Phrases

/-! ## 6. Texts -/

/-- A text is read as these lexemes, whatever follows it. -/
def Template.Shows (t : Template) (xs : List Lexeme) : Prop :=
  ∀ rest, Breaks rest → visible (lex false [] (t.chars ++ rest)) = xs ++ visible (lex false [] rest)

/-- Two texts with this one between them are read apart. -/
def Separates (s : String) : Prop :=
  Halts s ∧ s.toList.head?.any (fun c => !decide (InWord c) && c ≠ '\'') = true

instance (s : String) : Decidable (Separates s) := inferInstanceAs (Decidable (_ ∧ _))

theorem Separates.breaks {s : String} (h : Separates s) (rest : List Char) :
    Breaks (s.toList ++ rest) := by
  have hfirst := h.2
  cases hs : s.toList with
  | nil =>
    rw [hs] at hfirst
    cases hfirst
  | cons c more =>
    rw [hs] at hfirst
    exact breaks_cons (by simpa using hfirst) _

namespace Template

section Shows

variable {t u : Template} {xs ys : List Lexeme}

theorem Shows.nil (h : (ofString "").Shows xs) : xs = [] := by
  have h := h [] breaks_nil
  have hnone : xs ++ visible (lex false [] []) = [] := h.symm
  exact (List.append_eq_nil_iff.mp hnone).1

theorem Shows.visible_lexemes (h : t.Shows xs) : visible (lexemes t.text) = xs := by
  have h := h [] breaks_nil
  rw [List.append_nil] at h
  rw [lexemes, toList_text, h]
  exact List.append_nil xs

theorem shows_fixed {s : String} (h : '\'' ∉ s.toList) :
    (ofString s).Shows (visible (lexemes s)) := by
  intro rest hrest
  rw [chars_ofString, lex_append h hrest, visible_append]
  rfl

theorem shows_word {s : String} (h : AllChars InWord s) : (ofString s).Shows (wordOf s.toList) := by
  intro rest hrest
  rw [chars_ofString, lex_word_append h hrest, visible_append, visible_wordOf]

theorem shows_phrase (φ : Phrase) : φ.template.Shows (visible φ.lexemes) := by
  intro rest hrest
  rw [φ.lex_template hrest, visible_append]

theorem Shows.behind {s : String} (hs : Halts s) (hu : u.Shows ys) :
    (ofString s ++ u).Shows (visible (lexemes s) ++ ys) := by
  intro rest hrest
  rw [chars_append, chars_ofString, List.append_assoc, lex_halts hs, visible_append, hu _ hrest,
    List.append_assoc]

theorem Shows.beside {s : String} (ht : t.Shows xs) (hs : Separates s) (hu : u.Shows ys) :
    (t ++ ofString s ++ u).Shows (xs ++ (visible (lexemes s) ++ ys)) := by
  intro rest hrest
  have hbreaks : Breaks ((ofString s ++ u).chars ++ rest) := by
    rw [chars_append, chars_ofString, List.append_assoc]
    exact hs.breaks _
  rw [append_assoc, chars_append, List.append_assoc, ht _ hbreaks, hu.behind hs.1 rest hrest,
    List.append_assoc, List.append_assoc, List.append_assoc]

end Shows

/-- A text is read as these lexemes, and no clause begins in it. -/
structure Body (t : Template) (xs : List Lexeme) : Prop where
  shows : t.Shows xs
  unbroken : Unbroken 0 xs

section Body

variable {t u : Template} {xs ys : List Lexeme}

theorem body_fixed {s : String} (h : '\'' ∉ s.toList)
    (hfree : (visible (lexemes s)).all (Lexeme.isFree 0) = true) :
    (ofString s).Body (visible (lexemes s)) := ⟨shows_fixed h, unbroken_of_all hfree⟩

theorem body_word {s : String} (h : AllChars InWord s) (hfree : Keyword.ofWord? s.toList = none) :
    (ofString s).Body (wordOf s.toList) := ⟨shows_word h, unbroken_wordOf hfree⟩

theorem body_phrase {φ : Phrase} (h : φ.Regular) : φ.template.Body (visible φ.lexemes) :=
  ⟨shows_phrase φ, h.unbroken⟩

theorem Body.beside {s : String} (ht : t.Body xs) (hs : Separates s)
    (hfree : (visible (lexemes s)).all (Lexeme.isFree 0) = true) (hu : u.Body ys) :
    (t ++ ofString s ++ u).Body (xs ++ (visible (lexemes s) ++ ys)) :=
  ⟨ht.shows.beside hs hu.shows, ht.unbroken.append ((unbroken_of_all hfree).append hu.unbroken)⟩

theorem Body.behind {s : String} (hs : Halts s)
    (hfree : (visible (lexemes s)).all (Lexeme.isFree 0) = true) (hu : u.Body ys) :
    (ofString s ++ u).Body (visible (lexemes s) ++ ys) :=
  ⟨hu.shows.behind hs, (unbroken_of_all hfree).append hu.unbroken⟩

end Body

/-- A text is read as these clauses, if one begins behind it or nothing does. -/
def Clauses (t : Template) (cs : List Clause) : Prop :=
  ∃ xs, t.Shows xs ∧ ∀ rest, (outline 0 false rest).lead = [] →
    outline 0 false (xs ++ rest) = ⟨[], cs ++ (outline 0 false rest).clauses⟩

section Clauses

variable {t u : Template} {cs ds : List Clause}

theorem clauses_empty : Clauses (ofString "") [] :=
  ⟨[], fun _ _ => rfl, fun rest h => by rw [List.nil_append, List.nil_append, ← h]⟩

theorem Clauses.nil (h : Clauses (ofString "") cs) : cs = [] := by
  obtain ⟨xs, hxs, h⟩ := h
  have h := h [] rfl
  rw [hxs.nil] at h
  exact (List.append_eq_nil_iff.mp (congrArg Outline.clauses h).symm).1

theorem outline_keyword (k : Keyword) (rest : List Lexeme) :
    outline 0 false (.word k.text.toList :: rest) =
      ⟨[], (k, (outline 0 false rest).lead) :: (outline 0 false rest).clauses⟩ := by
  have hkey : (Lexeme.word k.text.toList).keyword? = some k := by cases k <;> decide
  rw [outline, if_neg nofun, if_neg nofun, if_neg nofun, if_pos rfl, hkey]

theorem Shows.keyword {xs : List Lexeme} (h : t.Shows xs) (k : Keyword) :
    (ofString (k.text ++ " ") ++ t).Shows (.word k.text.toList :: xs) := by
  have hhalts : Halts (k.text ++ " ") := by cases k <;> decide
  have hshows : visible (lexemes (k.text ++ " ")) = [.word k.text.toList] := by
    cases k <;> decide
  have hbehind := h.behind hhalts
  rw [hshows] at hbehind
  exact hbehind

/-- A keyword with a text that no clause begins in. -/
theorem Body.clause {xs : List Lexeme} (h : t.Body xs) (k : Keyword) :
    Clauses (ofString (k.text ++ " ") ++ t) [(k, xs)] := by
  refine ⟨_, h.shows.keyword k, fun rest hrest => ?_⟩
  rw [List.cons_append, outline_keyword, h.unbroken _ _ (Nat.zero_le _)]
  unfold Outline.prepend
  dsimp only
  rw [hrest, List.append_nil]
  rfl

/-- A keyword that another one follows. -/
theorem Clauses.keyword (h : Clauses t cs) (k : Keyword) :
    Clauses (ofString (k.text ++ " ") ++ t) ((k, []) :: cs) := by
  obtain ⟨xs, hxs, h⟩ := h
  refine ⟨_, hxs.keyword k, fun rest hrest => ?_⟩
  rw [List.cons_append, outline_keyword, h rest hrest]
  rfl

theorem Clauses.beside {s : String} (ht : Clauses t cs) (hs : Separates s)
    (hblank : visible (lexemes s) = []) (hu : Clauses u ds) :
    Clauses (t ++ ofString s ++ u) (cs ++ ds) := by
  obtain ⟨xs, hxs, hcs⟩ := ht
  obtain ⟨ys, hys, hds⟩ := hu
  refine ⟨_, hxs.beside hs hys, fun rest hrest => ?_⟩
  have hbehind := hds rest hrest
  rw [hblank, List.nil_append, List.append_assoc, hcs _ (by rw [hbehind]), hbehind,
    List.append_assoc]

theorem clauses_intercalate {ts : List Template} {css : List (List Clause)}
    (h : List.Forall₂ Clauses ts css) : Clauses (.intercalate "\n" ts) css.flatten := by
  induction h with
  | nil => exact clauses_empty
  | @cons t cs ts css ht hts ih =>
    cases hts with
    | nil =>
      rw [List.flatten_cons, List.flatten_nil, List.append_nil]
      exact ht
    | cons hu hus => exact ht.beside (by decide) (by decide) ih

/-- Empty texts do not count. -/
theorem clauses_nonempty {ts : List Template} {css : List (List Clause)}
    (h : List.Forall₂ Clauses ts css) :
    ∃ dss, List.Forall₂ Clauses (ts.filter (!·.isEmpty)) dss ∧ dss.flatten = css.flatten := by
  induction h with
  | nil => exact ⟨[], .nil, rfl⟩
  | @cons t cs ts css ht _ ih =>
    obtain ⟨dss, hdss, hflat⟩ := ih
    by_cases hempty : t.isEmpty = true
    · have hsigns : t = ofString "" := congrArg Template.mk (List.isEmpty_iff.mp hempty)
      rw [hsigns] at ht
      refine ⟨dss, ?_, ?_⟩
      · rw [List.filter_cons_of_neg (by simp [hempty])]
        exact hdss
      · rw [hflat, List.flatten_cons, ht.nil, List.nil_append]
    · refine ⟨cs :: dss, ?_, by rw [List.flatten_cons, List.flatten_cons, hflat]⟩
      rw [List.filter_cons_of_pos (by simp [hempty])]
      exact .cons ht hdss

theorem Clauses.outlineOf (h : Clauses t cs) : outlineOf t.text = ⟨[], cs⟩ := by
  obtain ⟨xs, hxs, h⟩ := h
  have h := h [] rfl
  rw [List.append_nil] at h
  rw [Sql.outlineOf, hxs.visible_lexemes, h]
  exact congrArg (Outline.mk []) (List.append_nil cs)

end Clauses

end Template

end QuerySheet.Sql

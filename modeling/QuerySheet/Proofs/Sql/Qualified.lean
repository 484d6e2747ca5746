import QuerySheet.Sql.Statement
import QuerySheet.Proofs.Sql.Language

/-!
# Qualified columns

A point in a text, outside of literals, stands behind the alias that a column is read from.

* `Qualified` is the grammar of texts in which every such alias is one of a `Vocabulary`, the other
  points being those of numbers and of the names that selected columns are given. What is compiled
  is a language of such texts (`language_reads`);
* `qualifiers` reads off a text what stands in front of its points. Where the names are plain these
  are numbers and aliases of the vocabulary (`alias_of_mem_qualifiers`).
-/

namespace QuerySheet.Sql

/-! ## 1. The grammar -/

/-- The names that a text may have: aliases that columns are read from, columns, and names that
    selected columns are given. -/
structure Vocabulary where
  qualifier : String → Prop
  column : String → Prop
  output : String → Prop

/-- Neither a point nor a quote. -/
def Inert (c : Char) : Prop := c ≠ '.' ∧ c ≠ '\'' ∧ c ≠ '"'

instance : DecidablePred Inert := fun _ => inferInstanceAs (Decidable (_ ∧ _))

/-- Signs whose points stand behind aliases. `fresh` says whether a name may begin. -/
inductive Qualified (v : Vocabulary) : Bool → List Sign → Prop
  | nil {fresh : Bool} : Qualified v fresh []
  | char {fresh : Bool} {c : Char} {rest : List Sign} (hc : Inert c)
      (h : Qualified v (opensName c) rest) : Qualified v fresh (.char c :: rest)
  | hole {fresh : Bool} {ref : ParamRef} {rest : List Sign} (h : Qualified v false rest) :
      Qualified v fresh (.hole ref :: rest)
  | literal {fresh : Bool} (body : List Char) {rest : List Sign} (h : Qualified v false rest) :
      Qualified v fresh (('\'' :: (Operand.doubleQuotes body ++ ['\''])).map .char ++ rest)
  | number {digits : List Char} {rest : List Sign} (hdigits : ∀ c ∈ digits, c.isDigit = true)
      (h : Qualified v false rest) : Qualified v true ((digits ++ ['.']).map .char ++ rest)
  | column {label name : String} {rest : List Sign} (hlabel : v.qualifier label)
      (hname : v.column name) (h : Qualified v false rest) :
      Qualified v true ((label ++ "." ++ name).toList.map .char ++ rest)
  | output {fresh : Bool} {name : String} {rest : List Sign} (hname : v.output name)
      (h : Qualified v false rest) :
      Qualified v fresh ((" AS " ++ quoteAlias name).toList.map .char ++ rest)

/-- A template whose columns are read from aliases of a vocabulary. -/
def Template.Reads (v : Vocabulary) (t : Template) : Prop := Qualified v true t.signs

namespace Qualified

variable {v : Vocabulary} {fresh : Bool} {signs more : List Sign}

theorem append (h : Qualified v fresh signs) (hmore : ∀ fresh, Qualified v fresh more) :
    Qualified v fresh (signs ++ more) := by
  induction h with
  | nil => exact hmore _
  | char hc _ ih => exact .char hc ih
  | hole _ ih => exact .hole ih
  | literal body _ ih =>
    rw [List.append_assoc]
    exact .literal body ih
  | number hdigits _ ih =>
    rw [List.append_assoc]
    exact .number hdigits ih
  | column hlabel hname _ ih =>
    rw [List.append_assoc]
    exact .column hlabel hname ih
  | output hname _ ih =>
    rw [List.append_assoc]
    exact .output hname ih

theorem chars {cs : List Char} (hcs : ∀ c ∈ cs, Inert c) (hmore : ∀ fresh, Qualified v fresh more)
    (fresh : Bool) : Qualified v fresh (cs.map .char ++ more) := by
  induction cs generalizing fresh with
  | nil => exact hmore fresh
  | cons c cs ih =>
    exact .char (hcs c List.mem_cons_self) (ih (fun d hd => hcs d (List.mem_cons_of_mem _ hd)) _)

theorem ofChars {cs : List Char} (hcs : ∀ c ∈ cs, Inert c) : Qualified v fresh (cs.map .char) := by
  have h : Qualified v fresh (cs.map .char ++ []) := chars hcs (fun _ => .nil) fresh
  rwa [List.append_nil] at h

/-- Behind a character that opens a name a text may begin. -/
theorem opened {cs : List Char} (hcs : ∀ c ∈ cs, Inert c)
    (hlast : cs.getLast?.any opensName = true) (h : Qualified v true more) (fresh : Bool) :
    Qualified v fresh (cs.map .char ++ more) := by
  induction cs generalizing fresh with
  | nil => cases hlast
  | cons c cs ih =>
    refine .char (hcs c List.mem_cons_self) ?_
    cases cs with
    | nil =>
      have hc : opensName c = true := hlast
      rw [hc]
      exact h
    | cons d cs =>
      rw [List.getLast?_cons_cons] at hlast
      exact ih (fun e he => hcs e (List.mem_cons_of_mem _ he)) hlast _

end Qualified

theorem inert_of_wordChar {c : Char} (h : WordChar c) : Inert c := ⟨h.2, h.1.1, h.1.2.1⟩

/-! ## 2. Numbers -/

section Numbers

variable {v : Vocabulary} {s t : String}

theorem inert_of_isDigit {c : Char} (h : c.isDigit = true) : Inert c := by
  refine ⟨?_, ?_, ?_⟩ <;> rintro rfl <;> revert h <;> decide

theorem opensName_of_isDigit {c : Char} (h : c.isDigit = true) : opensName c = false := by
  refine Bool.eq_false_iff.mpr fun hopens => ?_
  simp only [opensName, Bool.or_eq_true, beq_iff_eq] at hopens
  rcases hopens with ((rfl | rfl) | rfl) | rfl <;> revert h <;> decide

/-- Digits with a point and more behind it. -/
theorem qualified_point (hs : AllChars (fun c => c.isDigit = true) s) (ht : AllChars Inert t) :
    Qualified v true ((s ++ "." ++ t).toList.map .char) := by
  have h := Qualified.number (v := v) hs (Qualified.ofChars ht)
  rwa [← List.map_append, List.append_assoc, show ['.'] = ".".toList from rfl,
    ← List.append_assoc, ← String.toList_append, ← String.toList_append] at h

theorem qualified_digitsText (d : Binary64.Digits) :
    Qualified v true (d.text.toList.map .char) := by
  have hdigits : AllChars (fun c => c.isDigit = true) (toString d.digits) := isDigit_natText _
  have hzeros (n : Int) : AllChars (fun c => c.isDigit = true)
      (String.ofList (List.replicate n.toNat '0')) := by
    refine .ofList fun c hc => ?_
    rw [List.eq_of_mem_replicate hc]
    decide
  have hinert {s : String} (h : AllChars (fun c => c.isDigit = true) s) : AllChars Inert s :=
    h.mono fun _ => inert_of_isDigit
  unfold Binary64.Digits.text
  dsimp only
  split
  · exact qualified_point (s := "0") (t := "0") (by decide) (by decide)
  · split
    · split
      · rw [show ".0" = "." ++ "0" from rfl, ← String.append_assoc]
        exact qualified_point (hdigits.append (hzeros _)) (by decide)
      · split
        · exact qualified_point (hdigits.take _) (hinert (hdigits.drop _))
        · rw [String.append_assoc, show "0." = "0" ++ "." from rfl]
          exact qualified_point (by decide) (hinert ((hzeros _).append hdigits))
    · have hexponent (power : Int) : AllChars Inert
          ((if power < 0 then "e-" else "e+") ++ toString power.natAbs) := by
        refine .append ?_ (hinert (isDigit_natText _))
        split <;> decide
      split
      · rw [String.append_empty, String.append_assoc]
        exact .ofChars ((hinert (hdigits.take 1)).append (hexponent _))
      · rw [← String.append_assoc, String.append_assoc, String.append_assoc]
        exact qualified_point (hdigits.take 1) ((hinert (hdigits.drop 1)).append (hexponent _))

theorem qualified_floatText (x : Binary64) : Qualified v true (x.text.toList.map .char) := by
  unfold Binary64.text
  rw [String.toList_append, List.map_append]
  split
  · have hminus : AllChars Inert "-" := by decide
    exact .opened hminus (by decide) (qualified_digitsText _) true
  · exact qualified_digitsText _

end Numbers

/-! ## 3. The language -/

section Reads

variable {v : Vocabulary}

theorem language_reads : Language (Template.Reads v) := by
  have inert {s : String} (h : AllChars WordChar s) : AllChars Inert s :=
    h.mono fun _ => inert_of_wordChar
  have word {s : String} (h : AllChars WordChar s) (fresh : Bool) :
      Qualified v fresh (s.toList.map .char) := .ofChars (inert h)
  have opened {s : String} {t : Template} (h : Separator s) (ht : t.Reads v) (fresh : Bool) :
      Qualified v fresh (s.toList.map .char ++ t.signs) := .opened (inert h.1) h.2 ht fresh
  exact {
    word := fun h => word h true
    number := qualified_floatText
    literal := fun s => by
      have h : Qualified v true _ := .literal (Operand.unescapeDollar s.toList) .nil
      rw [List.append_nil] at h
      unfold Template.Reads Template.ofString Operand.quote
      rwa [String.toList_ofList]
    hole := fun _ => .hole .nil
    after := fun ht h => ht.append (word h)
    before := fun h ht => opened h ht true
    between := fun {t s u} ht h hu => by
      rw [Template.append_assoc]
      exact Qualified.append ht (opened h hu)
    call := fun {s t} h ht => by
      have hclose : AllChars Inert ")" := by decide
      refine Qualified.chars (inert h) (fun fresh => ?_) true
      exact .char (by decide) (ht.append fun _ => .ofChars hclose) }

theorem reads_column {label name : String} (hlabel : v.qualifier label) (hname : v.column name) :
    (Template.ofString (label ++ "." ++ name)).Reads v := by
  have h : Qualified v true _ := .column hlabel hname .nil
  rwa [List.append_nil] at h

theorem reads_output {t : Template} {name : String} (ht : t.Reads v) (hname : v.output name) :
    (t ++ " AS " ++ quoteAlias name).Reads v := by
  rw [Template.append_assoc, ← Template.ofString_append]
  refine ht.append fun fresh => ?_
  have h : Qualified v fresh _ := .output hname .nil
  rwa [List.append_nil] at h

end Reads

/-! ## 4. Reading qualifiers off a text -/

/-- What stands in front of the points of signs, outside of literals and quoted names. `quote` is
    the quote that is open, and `word` what stands since a name could begin. -/
def qualifiers : (quote : Option Char) → (word : List Char) → List Sign → List (List Char)
  | _, _, [] => []
  | some q, word, s :: rest => qualifiers (if s = .char q then none else some q) word rest
  | none, word, .hole _ :: rest => qualifiers none (word ++ ['?']) rest
  | none, word, .char c :: rest =>
    if c = '.' then word :: qualifiers none ['.'] rest
    else if c = '\'' ∨ c = '"' then qualifiers (some c) word rest
    else qualifiers none (if opensName c then [] else word ++ [c]) rest

/-- No name has a quote. Nothing in an alias is taken for its begin, and no column has a point. -/
structure Vocabulary.Plain (v : Vocabulary) : Prop where
  qualifier : ∀ label, v.qualifier label → AllChars (fun c => Inert c ∧ opensName c = false) label
  column : ∀ name, v.column name → AllChars Inert name
  output : ∀ name, v.output name → AllChars (fun c => c ≠ '\'' ∧ c ≠ '"') name

section Qualifiers

variable {word cs : List Char} {rest : List Sign}

theorem qualifiers_char {c : Char} (hc : Inert c) : qualifiers none word (.char c :: rest) =
    qualifiers none (if opensName c then [] else word ++ [c]) rest := by
  rw [qualifiers, if_neg hc.1, if_neg (not_or.mpr hc.2)]

theorem qualifiers_run (hcs : ∀ c ∈ cs, Inert c ∧ opensName c = false) :
    qualifiers none word (cs.map .char ++ rest) = qualifiers none (word ++ cs) rest := by
  induction cs generalizing word with
  | nil => rw [List.append_nil]; rfl
  | cons c cs ih =>
    obtain ⟨hc, hopens⟩ := hcs c List.mem_cons_self
    rw [List.map_cons, List.cons_append, qualifiers_char hc, hopens,
      ih fun d hd => hcs d (List.mem_cons_of_mem _ hd)]
    simp

theorem qualifiers_inert (hcs : ∀ c ∈ cs, Inert c) (word : List Char) :
    ∃ word', qualifiers none word (cs.map .char ++ rest) = qualifiers none word' rest := by
  induction cs generalizing word with
  | nil => exact ⟨word, rfl⟩
  | cons c cs ih =>
    rw [List.map_cons, List.cons_append, qualifiers_char (hcs c List.mem_cons_self)]
    exact ih (fun d hd => hcs d (List.mem_cons_of_mem _ hd)) _

/-- What is between quotes is skipped. -/
theorem qualifiers_quoted {q : Char} (hcs : q ∉ cs) :
    qualifiers (some q) word (cs.map .char ++ .char q :: rest) = qualifiers none word rest := by
  induction cs with
  | nil => simp [qualifiers]
  | cons c cs ih =>
    have hne : ¬ c = q := fun h => hcs (h ▸ List.mem_cons_self)
    rw [List.map_cons, List.cons_append, qualifiers, if_neg (by simpa using hne)]
    exact ih fun h => hcs (List.mem_cons_of_mem _ h)

theorem qualifiers_literal (body : List Char) :
    qualifiers none word (('\'' :: (Operand.doubleQuotes body ++ ['\''])).map .char ++ rest) =
      qualifiers none word rest := by
  have hopen (more : List Sign) : qualifiers none word (.char '\'' :: more) =
      qualifiers (some '\'') word more := by simp [qualifiers]
  have hclose (more : List Sign) : qualifiers (some '\'') word (.char '\'' :: more) =
      qualifiers none word more := by simp [qualifiers]
  rw [List.map_cons, List.cons_append, hopen]
  fun_induction Operand.doubleQuotes body with
  | case1 => exact hclose rest
  | case2 _ ih =>
    rw [List.cons_append, List.cons_append, List.map_cons, List.map_cons, List.cons_append,
      List.cons_append, hclose, hopen]
    exact ih
  | case3 c _ hne ih =>
    have hc : ¬ c = '\'' := by
      rintro rfl
      exact hne rfl
    rw [List.cons_append, List.map_cons, List.cons_append, qualifiers, if_neg (by simpa using hc)]
    exact ih

theorem qualifiers_output {name : String}
    (hname : AllChars (fun c => c ≠ '\'' ∧ c ≠ '"') name) (word : List Char) :
    ∃ word', qualifiers none word ((" AS " ++ quoteAlias name).toList.map .char ++ rest) =
      qualifiers none word' rest := by
  have has : AllChars Inert " AS " := by decide
  rw [String.toList_append, List.map_append, List.append_assoc]
  obtain ⟨word', h⟩ : ∃ word', qualifiers none word (" AS ".toList.map .char ++
      ((quoteAlias name).toList.map .char ++ rest)) =
        qualifiers none word' ((quoteAlias name).toList.map .char ++ rest) :=
    qualifiers_inert has word
  rw [h]
  unfold quoteAlias
  split
  · refine ⟨word', ?_⟩
    have hquote : '"' ∉ name.toList := fun h => (hname '"' h).2 rfl
    have hsigns : ("\"" ++ name ++ "\"").toList.map Sign.char ++ rest =
        .char '"' :: (name.toList.map .char ++ .char '"' :: rest) := by
      simp [String.toList_append]
    rw [hsigns, qualifiers, if_neg (by decide), if_pos (.inr rfl)]
    exact qualifiers_quoted hquote
  · rename_i hbare
    refine qualifiers_inert (fun c hc => ⟨?_, hname c hc⟩) word'
    rintro rfl
    exact hbare (.inl (List.contains_iff_mem.mpr hc))

/-- In front of the points of a text with plain names stand aliases and numbers. -/
theorem alias_of_mem_qualifiers {v : Vocabulary} (hv : v.Plain) {fresh : Bool} {signs : List Sign}
    (h : Qualified v fresh signs) (hword : fresh = true → word = []) :
    ∀ w ∈ qualifiers none word signs,
      v.qualifier (String.ofList w) ∨ ∀ c ∈ w, c.isDigit = true := by
  induction h generalizing word with
  | nil => exact fun w hw => absurd hw List.not_mem_nil
  | @char _ c _ hc _ ih =>
    rw [qualifiers_char hc]
    exact ih fun hopens => by rw [if_pos hopens]
  | hole _ ih => exact ih (by nofun)
  | literal body _ ih =>
    rw [qualifiers_literal]
    exact ih (by nofun)
  | @number digits rest hdigits _ ih =>
    have hrun : ∀ c ∈ digits, Inert c ∧ opensName c = false := fun c hc =>
      ⟨inert_of_isDigit (hdigits c hc), opensName_of_isDigit (hdigits c hc)⟩
    rw [hword rfl, List.map_append, List.append_assoc, qualifiers_run hrun]
    intro w hw
    rcases List.mem_cons.mp hw with rfl | hw
    · exact .inr hdigits
    · exact ih (by nofun) w hw
  | @column label name rest hlabel hname _ ih =>
    have hsigns : (label ++ "." ++ name).toList.map Sign.char ++ rest =
        label.toList.map .char ++ .char '.' :: (name.toList.map .char ++ rest) := by
      simp [String.toList_append]
    rw [hword rfl, hsigns, qualifiers_run (hv.qualifier label hlabel)]
    obtain ⟨word', hinert⟩ : ∃ word', qualifiers none ['.'] (name.toList.map .char ++ rest) =
        qualifiers none word' rest := qualifiers_inert (hv.column name hname) ['.']
    intro w hw
    rcases List.mem_cons.mp hw with rfl | hw
    · rw [List.nil_append, String.ofList_toList]
      exact .inl hlabel
    · rw [hinert] at hw
      exact ih (by nofun) w hw
  | output hname _ ih =>
    obtain ⟨word', houtput⟩ := qualifiers_output (hv.output _ hname) word
    rw [houtput]
    exact ih (by nofun)

end Qualifiers

end QuerySheet.Sql

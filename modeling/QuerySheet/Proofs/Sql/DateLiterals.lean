import Mathlib
import QuerySheet.Proofs.Sql.Equality

/-!
# Dates in the text of a statement

A date may be written into a statement, or bound to a parameter of it. What is written is the number
of the whole date, and of a month or a year the leading digits of that number; what is bound is the
number of the characters in front.

* `Denotes`: a decimal text with its number;
* `yields_cast`: the literal that a text is cast to;
* `denotes_of_cast_iff`: when the two are the same number. A number is written without the zeros in
  front, so its leading digits are not those of the date if the year starts with a zero.
-/

namespace QuerySheet

/-! ## 1. Leading digits -/

/-- A decimal text denotes a number. -/
def Denotes (text : String) (n : Nat) : Prop :=
  text.toList ≠ [] ∧ (∀ c ∈ text.toList, c.isDigit = true) ∧ Digit.number text.toList = n

namespace Digit

variable {n k : Nat}

theorem isDigit_of_mem_toDigits {c : Char} (h : c ∈ Nat.toDigits 10 n) : c.isDigit = true :=
  Nat.isDigit_of_mem_toDigits (by decide) (Nat.le_refl 10) h

theorem pow_le_of_pos (h : 0 < n) : 10 ^ ((Nat.toDigits 10 n).length - 1) ≤ n := by
  by_contra hlt
  have hpos : 0 < (Nat.toDigits 10 n).length := Nat.length_toDigits_pos
  by_cases hone : (Nat.toDigits 10 n).length = 1
  · rw [hone] at hlt
    exact hlt h
  · have hle := (Nat.length_toDigits_le_iff (by decide) (by omega)).mpr (Nat.lt_of_not_le hlt)
    omega

theorem div_pow_lt {a b : Nat} (hpow : 10 ^ a ≤ n) (hab : a < b) : n / 10 ^ b < n / 10 ^ a := by
  obtain ⟨k, rfl⟩ := Nat.exists_eq_add_of_lt hab
  rw [Nat.add_assoc, Nat.pow_add, ← Nat.div_div_eq_div_mul]
  exact Nat.div_lt_self (Nat.div_pos hpow (Nat.pow_pos (by decide)))
    (Nat.one_lt_pow (Nat.succ_ne_zero k) (by decide))

/-- The leading digits of a number are the number without the digits behind them. -/
theorem denotes_take (hk : 0 < k) (m : Nat) :
    Denotes (String.ofList ((Nat.toDigits 10 n).take k)) m ↔
      n / 10 ^ ((Nat.toDigits 10 n).length - k) = m := by
  have hdigits : ∀ c ∈ Nat.toDigits 10 n, c.isDigit = true := fun c => isDigit_of_mem_toDigits
  have hne : (Nat.toDigits 10 n).take k ≠ [] := by
    have hpos : 0 < (Nat.toDigits 10 n).length := Nat.length_toDigits_pos
    refine List.ne_nil_of_length_pos ?_
    rw [List.length_take]
    omega
  rw [Denotes, String.toList_ofList, number_take hdigits, number_toDigits]
  exact ⟨fun h => h.2.2, fun h => ⟨hne, fun c hc => hdigits c (List.mem_of_mem_take hc), h⟩⟩

end Digit

namespace Sql

variable {type : ValueType} {size digits n : Nat} {s : String} {scope : Scope} {l l' : Ledger}
  {o : Operand} {w : Json}

/-! ## 2. The literal of a date -/

namespace Operand

theorem unescapeDollar_of_forall_ne {cs : List Char} (h : ∀ c ∈ unescapeDollar cs, c ≠ '$') :
    unescapeDollar cs = cs := by
  fun_induction unescapeDollar cs with
  | case1 => rfl
  | case2 rest => exact absurd rfl (h '$' List.mem_cons_self)
  | case3 c rest _ ih => rw [ih fun d hd => h d (List.mem_cons_of_mem c hd)]

theorem unquote_quote (s : String) :
    unquote (quote s) = String.ofList (unescapeDollar s.toList) := by
  have htext := unquote_text (String.ofList (unescapeDollar s.toList))
  rwa [Literal.sql, String.toList_ofList] at htext

/-- There is no dollar sign in a date. -/
theorem parse?_unquote_quote (s : String) (h : Date.parse? (unquote (quote s)) = some n) :
    Date.parse? s = some n := by
  rw [unquote_quote, Date.parse?, String.toList_ofList] at h
  obtain ⟨ds, hds, hdigits, -⟩ := Date.parseChars?_eq_some_iff.mp h
  have hsame : unescapeDollar s.toList = s.toList := by
    refine unescapeDollar_of_forall_ne fun c hc => ?_
    rcases (Date.dashed?_eq_some hds).2.2 c hc with hc | rfl
    · rintro rfl
      exact absurd (hdigits '$' hc) (by decide)
    · decide
  rwa [hsame] at h

theorem yields_toDate (h : (ofLiteral (quote s) .string).toDate.Yields scope l o l') :
    ∃ n, Date.parse? s = some n ∧ o = ofLiteral (toString n) .date := by
  simp only [toDate, ofLiteral, text_ofString, if_true] at h
  split at h
  · rename_i n hn
    exact ⟨n, parse?_unquote_quote s hn, (Compile.yields_pure.mp h).1⟩
  · exact absurd h Compile.yields_fail

theorem truncateDate_toString (n k : Nat) :
    (ofLiteral (toString n) .date).truncateDate k type =
      ofLiteral (String.ofList ((Nat.toDigits 10 n).take k)) type := by
  have hdigits : (toString n).toList = Nat.toDigits 10 n := Nat.toList_repr
  simp only [truncateDate, ofLiteral, if_true, text_ofString, hdigits]

theorem cast_quote (hform : DateForm type size digits) :
    (ofLiteral (quote s) .string).cast type = (ofLiteral (quote s) .string).convert type := by
  cases hform <;> simp only [cast, ofLiteral, param?, reduceCtorEq, if_false]

/-- A text is cast to the leading digits of its date. -/
theorem yields_cast (hform : DateForm type size digits)
    (h : ((ofLiteral (quote s) .string).cast type).Yields scope l o l') :
    ∃ n, Date.parse? s = some n ∧
      o = ofLiteral (String.ofList ((Nat.toDigits 10 n).take digits)) type := by
  have htype : (ofLiteral (quote s) .string).type = .string := rfl
  rw [cast_quote hform] at h
  cases hform with
  | date =>
    rw [convert] at h
    obtain ⟨n, hn, rfl⟩ := yields_toDate h
    refine ⟨n, hn, ?_⟩
    have hlength : (Nat.toDigits 10 n).length ≤ 8 :=
      (Nat.length_toDigits_le_iff (by decide) (by decide)).mpr (Date.parse_lt hn)
    rw [List.take_of_length_le hlength, ← Nat.toList_repr, String.ofList_toList]
    rfl
  | month =>
    simp only [convert, htype] at h
    obtain ⟨o', l₁, ho, hpure⟩ := Compile.yields_bind.mp h
    obtain ⟨n, hn, rfl⟩ := yields_toDate ho
    exact ⟨n, hn, (Compile.yields_pure.mp hpure).1.trans (truncateDate_toString n 6)⟩
  | year =>
    simp only [convert, htype] at h
    obtain ⟨o', l₁, ho, hpure⟩ := Compile.yields_bind.mp h
    obtain ⟨n, hn, rfl⟩ := yields_toDate ho
    exact ⟨n, hn, (Compile.yields_pure.mp hpure).1.trans (truncateDate_toString n 4)⟩

end Operand

/-! ## 3. Both ways -/

/-- Take a text that is cast to a date as a literal and is stored as one too. What is written
    denotes the stored number exactly if the text has no more characters than the dates of the
    type, or its year does not start with a zero, or all its digits are zeros. -/
theorem denotes_of_cast_iff (hform : DateForm type size digits)
    (hcast : (Operand.ofScalar (.string s) >>= (·.cast type)).Yields scope l o l')
    (hencode : Stored.encode (.string s) type = .ok w) :
    (o.literal = true ∧ o.type = type) ∧ ∃ m : Nat, w = .int m ∧
      (Denotes o.sql.text m ↔ s.length = size ∨ s.toList.head? ≠ some '0' ∨
        ∀ c ∈ s.toList, c.isDigit = true → c = '0') := by
  obtain ⟨o', l₁, hliteral, hcast⟩ := Compile.yields_bind.mp hcast
  obtain ⟨rfl, rfl⟩ := Compile.yields_pure.mp hliteral
  obtain ⟨n, hn, rfl⟩ := Operand.yields_cast hform hcast
  obtain ⟨ds, hds, hdigits, rfl⟩ := Date.parseChars?_eq_some_iff.mp hn
  obtain ⟨es, hes, -, hsize, rfl⟩ := Stored.encode_string hform hencode
  obtain rfl := hform.take_eq hds hes
  obtain ⟨hlength, hhead, -⟩ := Date.dashed?_eq_some hds
  refine ⟨⟨rfl, rfl⟩, _, rfl, ?_⟩
  have hpos : 0 < digits := by cases hform <;> decide
  have hcut : s.length = size ↔ ds.length ≤ digits := by
    rw [List.length_take, String.length_toList] at hsize
    rw [String.length_toList] at hlength
    cases hform <;> omega
  have hzeros : (∀ c ∈ s.toList, c.isDigit = true → c = '0') ↔ Digit.number ds = 0 := by
    rw [Digit.number_eq_zero_iff hdigits, ← Date.filter_isDigit hds hdigits]
    simp only [List.mem_filter, and_imp]
  have hwritten : (Nat.toDigits 10 (Digit.number ds)).length ≤ ds.length :=
    (Nat.length_toDigits_le_iff (by decide) (by omega)).mpr (Digit.number_lt hdigits)
  rw [show (Operand.ofLiteral _ type).sql.text = _ from Operand.text_ofString _,
    Digit.denotes_take hpos, Digit.number_take hdigits, hcut, hhead, hzeros]
  constructor
  · intro hsame
    by_contra hnone
    simp only [not_or, not_not] at hnone
    obtain ⟨hlong, hzero, hnonzero⟩ := hnone
    have hlt := Digit.length_toDigits_number_lt hdigits hzero (by omega)
    have hpow := Digit.pow_le_of_pos (Nat.pos_of_ne_zero hnonzero)
    have hpow' : 10 ^ ((Nat.toDigits 10 (Digit.number ds)).length - digits) ≤ Digit.number ds :=
      Nat.le_trans (Nat.pow_le_pow_right (by decide) (by omega)) hpow
    exact absurd hsame (Nat.ne_of_gt (Digit.div_pow_lt hpow' (by omega)))
  · rintro (hshort | hhead | hzero)
    · rw [Nat.sub_eq_zero_of_le hshort, Nat.sub_eq_zero_of_le (Nat.le_trans hwritten hshort)]
    · rw [Digit.toDigits_number hdigits (List.ne_nil_of_length_pos (by omega)) hhead]
    · rw [hzero, Nat.zero_div, Nat.zero_div]

/-- A text, cast to a type as a literal, in the scope of a table. -/
def CastsTo (s : String) (type : ValueType) (text : String) : Prop :=
  (Operand.ofScalar (.string s) >>= (·.cast type)).Yields amountsScope (.root "transactions")
    (.ofLiteral text type) (.root "transactions")

theorem denotes_of_cast_month :
    CastsTo "2020-01-15" .dateMonth "202001" ∧
    Stored.encode (.string "2020-01-15") .dateMonth = .ok (.int 202001) ∧
    Denotes "202001" 202001 := by
  have hcast : CastsTo "2020-01-15" .dateMonth "202001" := rfl
  have hencode : Stored.encode (.string "2020-01-15") .dateMonth = .ok (.int 202001) := by cbv
  obtain ⟨-, m, hm, hdenotes⟩ := denotes_of_cast_iff .month hcast hencode
  obtain rfl : 202001 = m := Int.ofNat.inj (Number.int.inj (Json.number.inj hm))
  rw [Operand.ofLiteral, Operand.text_ofString] at hdenotes
  exact ⟨hcast, hencode, hdenotes.mpr (.inr (.inl (by decide)))⟩

/-- The month of a date of the year 999 is written as the leading digits of a shorter number. -/
theorem not_denotes_of_early_year :
    CastsTo "0999-04-05" .dateMonth "999040" ∧
    Stored.encode (.string "0999-04-05") .dateMonth = .ok (.int 99904) ∧
    ¬ Denotes "999040" 99904 := by
  refine ⟨rfl, by cbv, fun h => ?_⟩
  exact absurd h.2.2 (by decide)

end Sql

end QuerySheet

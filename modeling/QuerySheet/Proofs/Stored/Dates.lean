import Mathlib
import QuerySheet.Stored.Value

/-!
# Dates in storage

A date is stored as the integer of its digits and read back by the number of digits that the
integer is written with, so zeros in front of a date are lost.

* `Digit.toDigits_number`: digits are written as they were unless the first one is a zero, and then
  there are fewer (`Digit.length_toDigits_number_lt`);
* `Date.parseChars?_eq_some_iff`: to read a date is to take the dashes off its digits;
* `DateForm`: the types of dates with the sizes of their texts. `Stored.encode_string` says what a
  text is stored as;
* `Stored.decode_encode_iff`: a date is read back as it was unless its year starts with a zero.
-/

namespace QuerySheet

/-! ## 1. Decimal digits -/

namespace Digit

variable {ds : List Char} {c : Char}

theorem value_lt (h : c.isDigit = true) : value c < 10 := by
  have hle : c.toNat ≤ 57 := by
    simp only [Char.isDigit, Bool.and_eq_true, decide_eq_true_eq] at h
    exact UInt32.le_iff_toNat_le.mp h.2
  have hzero : '0'.toNat = 48 := rfl
  unfold value
  omega

theorem digitChar_value (h : c.isDigit = true) : (value c).digitChar = c := by
  have hle : 48 ≤ c.toNat := by
    simp only [Char.isDigit, Bool.and_eq_true, decide_eq_true_eq] at h
    exact UInt32.le_iff_toNat_le.mp h.1
  have hzero : '0'.toNat = 48 := rfl
  refine Char.toNat_inj.mp ?_
  rw [Nat.toNat_digitChar_of_lt_ten (value_lt h), value, hzero]
  omega

theorem value_eq_zero_iff (h : c.isDigit = true) : value c = 0 ↔ c = '0' := by
  refine ⟨fun hc => ?_, fun hc => hc ▸ rfl⟩
  rw [← digitChar_value h, hc]
  rfl

theorem number_append (as bs : List Char) :
    number (as ++ bs) = 10 ^ bs.length * number as + number bs := by
  have hsplit := Nat.ofDigitChars_append (b := 10) (l := as) (m := bs) 0
  rw [Nat.ofDigitChars_eq_ofDigitChars_zero (l := bs)] at hsplit
  exact hsplit

theorem number_lt (h : ∀ c ∈ ds, c.isDigit = true) : number ds < 10 ^ ds.length := by
  induction ds using List.reverseRecOn with
  | nil => exact Nat.one_pos
  | append_singleton ds c ih =>
    have hds := ih fun d hd => h d (List.mem_append_left _ hd)
    have hc := value_lt (h c (List.mem_append_right _ List.mem_cons_self))
    rw [number_concat, List.length_append, List.length_singleton, Nat.pow_succ]
    omega

theorem number_eq_zero_iff (h : ∀ c ∈ ds, c.isDigit = true) :
    number ds = 0 ↔ ∀ c ∈ ds, c = '0' := by
  induction ds using List.reverseRecOn with
  | nil => exact iff_of_true rfl (List.forall_mem_nil _)
  | append_singleton ds c ih =>
    have hds := ih fun d hd => h d (List.mem_append_left _ hd)
    have hc := value_eq_zero_iff (h c (List.mem_append_right _ List.mem_cons_self))
    rw [number_concat, Nat.add_eq_zero_iff, Nat.mul_eq_zero, or_iff_right (by decide), hds, hc]
    simp only [List.mem_append, List.mem_singleton, or_imp, forall_and, forall_eq]

theorem number_toDigits (n : Nat) : number (Nat.toDigits 10 n) = n :=
  Nat.ofDigitChars_toDigits (by decide) (Nat.le_refl 10)

/-- The first digits are what is left of a number when the others are divided off. -/
theorem number_take (h : ∀ c ∈ ds, c.isDigit = true) (k : Nat) :
    number (ds.take k) = number ds / 10 ^ (ds.length - k) := by
  have hrest : number (ds.drop k) < 10 ^ (ds.length - k) := by
    have hdigits : ∀ c ∈ ds.drop k, c.isDigit = true :=
      fun c hc => h c (List.mem_of_mem_drop hc)
    have hlt := number_lt hdigits
    rwa [List.length_drop] at hlt
  have hsplit := number_append (ds.take k) (ds.drop k)
  rw [List.take_append_drop, List.length_drop] at hsplit
  rw [hsplit, Nat.mul_add_div (Nat.pow_pos (by decide)), Nat.div_eq_of_lt hrest, Nat.add_zero]

/-- Digits without a zero in front are those that their number is written with. -/
theorem toDigits_number (h : ∀ c ∈ ds, c.isDigit = true) (hne : ds ≠ [])
    (hhead : ds.head? ≠ some '0') : Nat.toDigits 10 (number ds) = ds := by
  induction ds using List.reverseRecOn with
  | nil => exact absurd rfl hne
  | append_singleton ds c ih =>
    have hc := h c (List.mem_append_right _ List.mem_cons_self)
    have hlast : Nat.toDigits 10 (value c) = [c] := by
      rw [Nat.toDigits_of_lt_base (value_lt hc), digitChar_value hc]
    by_cases hds : ds = []
    · rw [hds, List.nil_append, number, List.foldl_cons, List.foldl_nil, Nat.mul_zero, Nat.zero_add,
        hlast]
    · have hbefore : Nat.toDigits 10 (number ds) = ds := by
        refine ih (fun d hd => h d (List.mem_append_left _ hd)) hds fun hzero => hhead ?_
        rw [List.head?_append_of_ne_nil _ hds, hzero]
      have hpos : 0 < number ds := by
        refine Nat.pos_of_ne_zero fun hzero => hhead ?_
        rw [hzero] at hbefore
        rw [← hbefore]
        rfl
      rw [number_concat, ← Nat.toDigits_append_toDigits (by decide) hpos (value_lt hc), hbefore,
        hlast]

/-- A zero in front is not written. -/
theorem length_toDigits_number_lt (h : ∀ c ∈ ds, c.isDigit = true) (hhead : ds.head? = some '0')
    (hlength : 1 < ds.length) : (Nat.toDigits 10 (number ds)).length < ds.length := by
  obtain ⟨rest, rfl⟩ := List.head?_eq_some_iff.mp hhead
  have hnumber : number ('0' :: rest) = number rest := by
    have hsplit := number_append ['0'] rest
    rwa [show number ['0'] = 0 from rfl, Nat.mul_zero, Nat.zero_add] at hsplit
  rw [List.length_cons] at hlength ⊢
  rw [hnumber, Nat.lt_succ_iff, Nat.length_toDigits_le_iff (by decide) (by omega)]
  exact number_lt fun c hc => h c (List.mem_cons_of_mem _ hc)

end Digit

/-! ## 2. The dashed form -/

namespace Date

variable {ds es cs : List Char} {n : Nat}

theorem dashed?_injective (hds : dashed? ds = some cs) (hes : dashed? es = some cs) : ds = es := by
  unfold dashed? at hds hes
  split at hds <;> split at hes <;> cases hds <;> cases hes <;> rfl

/-- The sizes of dates, and what their characters are. -/
theorem dashed?_eq_some (h : dashed? ds = some cs) :
    (ds.length = 4 ∧ cs.length = 4 ∨ ds.length = 6 ∧ cs.length = 7 ∨
      ds.length = 8 ∧ cs.length = 10) ∧
    cs.head? = ds.head? ∧ ∀ c, c ∈ cs → c ∈ ds ∨ c = '-' := by
  unfold dashed? at h
  split at h
  · cases h
    exact ⟨.inl ⟨rfl, rfl⟩, rfl, fun c hc => .inl hc⟩
  · cases h
    refine ⟨.inr (.inl ⟨rfl, rfl⟩), rfl, fun c hc => ?_⟩
    simp only [List.mem_cons] at hc ⊢
    tauto
  · cases h
    refine ⟨.inr (.inr ⟨rfl, rfl⟩), rfl, fun c hc => ?_⟩
    simp only [List.mem_cons] at hc ⊢
    tauto
  · cases h

theorem digits?_eq_some_iff : parseChars?.digits? ds = some n ↔
    (∀ c ∈ ds, c.isDigit = true) ∧ Digit.number ds = n := by
  rw [parseChars?.digits?, ← List.all_eq_true]
  split <;> simp_all

/-- To read a date is to take the dashes off its digits. -/
theorem parseChars?_eq_some_iff : parseChars? cs = some n ↔
    ∃ ds, dashed? ds = some cs ∧ (∀ c ∈ ds, c.isDigit = true) ∧ Digit.number ds = n := by
  constructor
  · intro h
    unfold parseChars? at h
    split at h
    · exact ⟨_, rfl, digits?_eq_some_iff.mp h⟩
    · exact ⟨_, rfl, digits?_eq_some_iff.mp h⟩
    · exact ⟨_, rfl, digits?_eq_some_iff.mp h⟩
    · cases h
  · rintro ⟨ds, hds, hdigits⟩
    unfold dashed? at hds
    split at hds
    · cases hds
      exact digits?_eq_some_iff.mpr hdigits
    · cases hds
      exact digits?_eq_some_iff.mpr hdigits
    · cases hds
      exact digits?_eq_some_iff.mpr hdigits
    · cases hds

theorem parse_lt (h : parseChars? cs = some n) : n < 10 ^ 8 := by
  obtain ⟨ds, hds, hdigits, rfl⟩ := parseChars?_eq_some_iff.mp h
  refine Nat.lt_of_lt_of_le (Digit.number_lt hdigits) (Nat.pow_le_pow_right (by decide) ?_)
  have hlength := (dashed?_eq_some hds).1
  omega

theorem toList_toString (n : Nat) : (toString (n : Int)).toList = Nat.toDigits 10 n :=
  Nat.toList_repr

theorem format?_natCast (n : Nat) :
    format? n = (dashed? (Nat.toDigits 10 n)).map String.ofList := by
  rw [format?, toList_toString]

end Date

/-- A type of dates, with the characters and the digits of its texts. -/
inductive DateForm : ValueType → Nat → Nat → Prop
  | date : DateForm .date 10 8
  | month : DateForm .dateMonth 7 6
  | year : DateForm .dateYear 4 4

theorem Date.filter_isDigit {ds cs : List Char} (hds : dashed? ds = some cs)
    (hdigits : ∀ c ∈ ds, c.isDigit = true) : cs.filter Char.isDigit = ds := by
  have hdash : '-'.isDigit = false := rfl
  unfold dashed? at hds
  split at hds <;> cases hds <;> simp_all

/-- The digits in front of a date. -/
theorem DateForm.take_eq {type : ValueType} {size digits : Nat} {ds es cs : List Char}
    (hform : DateForm type size digits) (hds : Date.dashed? ds = some cs)
    (hes : Date.dashed? es = some (cs.take size)) : es = ds.take digits := by
  refine Date.dashed?_injective hes ?_
  unfold Date.dashed? at hds
  split at hds <;> cases hds <;> cases hform <;> rfl

/-! ## 3. Storage -/

namespace Stored

variable {type : ValueType} {size digits n : Nat} {cs ps : List Char} {s : String} {w : Json}

theorem bytesPrefix?_eq_some (h : bytesPrefix? size cs = some ps) :
    ps <+: cs ∧ (ps.map Char.utf8Size).sum = size := by
  fun_induction bytesPrefix? size cs generalizing ps with
  | case1 cs =>
    cases h
    exact ⟨List.nil_prefix, rfl⟩
  | case2 size hsize => cases h
  | case3 size c rest hsize hlt => cases h
  | case4 size c rest hsize hlt ih =>
    obtain ⟨qs, hqs, rfl⟩ := Option.map_eq_some_iff.mp h
    obtain ⟨hbegin, hsum⟩ := ih hqs
    refine ⟨(List.prefix_cons_inj c).mpr hbegin, ?_⟩
    rw [List.map_cons, List.sum_cons, hsum]
    omega

theorem utf8Size_of_isDigit {c : Char} (h : c.isDigit = true) : c.utf8Size = 1 := by
  have hle : c.val ≤ 57 := by
    simp only [Char.isDigit, Bool.and_eq_true, decide_eq_true_eq] at h
    exact h.2
  exact Char.utf8Size_eq_one_iff.mpr (UInt32.le_trans hle (by decide))

/-- A text that is stored as a date has one in front, with all the characters of its type. -/
theorem encode_string (hform : DateForm type size digits)
    (h : encode (.string s) type = .ok w) :
    ∃ ds, Date.dashed? ds = some (s.toList.take size) ∧ (∀ c ∈ ds, c.isDigit = true) ∧
      (s.toList.take size).length = size ∧ w = .int (Digit.number ds) := by
  have hdate : encodeDate type size (.string s) = .ok w := by
    cases hform <;> exact h
  unfold encodeDate at hdate
  dsimp only at hdate
  split at hdate
  · rename_i n hn
    cases hdate
    obtain ⟨ps, hps, hparse⟩ := Option.bind_eq_some_iff.mp hn
    obtain ⟨hbegin, hsum⟩ := bytesPrefix?_eq_some hps
    obtain ⟨ds, hds, hdigits, rfl⟩ := Date.parseChars?_eq_some_iff.mp hparse
    have hone (k : Nat) (hk : k ∈ ps.map Char.utf8Size) : k = 1 := by
      obtain ⟨c, hc, rfl⟩ := List.mem_map.mp hk
      rcases (Date.dashed?_eq_some hds).2.2 c hc with hc | rfl
      · exact utf8Size_of_isDigit (hdigits c hc)
      · rfl
    have hlength : ps.length = size := by
      rw [← hsum, List.eq_replicate_of_mem hone, List.sum_replicate, List.length_map, smul_eq_mul,
        Nat.mul_one]
    have htake : s.toList.take size = ps := by
      rw [List.prefix_iff_eq_take.mp hbegin, hlength]
    rw [htake]
    exact ⟨ds, hds, hdigits, hlength, rfl⟩
  · cases hdate

/-- A text that is a date is stored as that date, if it can be stored as one. -/
theorem encode_date (hparse : Date.parse? s = some n) (h : encode (.string s) .date = .ok w) :
    w = .int n := by
  obtain ⟨ds, hds, hdigits, -, rfl⟩ := encode_string .date h
  obtain ⟨es, hes, -, rfl⟩ := Date.parseChars?_eq_some_iff.mp hparse
  have hlength := (Date.dashed?_eq_some hes).1
  rw [List.take_of_length_le (by omega)] at hds
  rw [Date.dashed?_injective hds hes]

theorem fitsSigned_of_lt (h : n < 10 ^ 8) : fitsSigned 64 n = true := by
  have htwo : Power.two (64 - 1) = 9223372036854775808 := rfl
  rw [fitsSigned, htwo, Bool.and_eq_true, decide_eq_true_eq, decide_eq_true_eq]
  omega

theorem int64?_natCast (h : n < 10 ^ 8) : (Json.int n).int64? = some (n : Int) := by
  rw [Json.int64?, if_pos (fitsSigned_of_lt h)]

theorem decode_natCast (hform : DateForm type size digits) (hn : n < 10 ^ 8) :
    decode (.int n) type =
      ((Date.dashed? (Nat.toDigits 10 n)).map fun cs => .string (String.ofList cs)).getD
        (.int n) := by
  have hdate : (Json.int n).int64?.bind Date.format? =
      (Date.dashed? (Nat.toDigits 10 n)).map String.ofList := by
    rw [int64?_natCast hn, Option.bind_some, Date.format?_natCast]
  generalize Date.dashed? (Nat.toDigits 10 n) = found at hdate ⊢
  cases hform with
  | date => cases found <;> rw [decode.eq_3, hdate] <;> rfl
  | month => cases found <;> rw [decode.eq_4, hdate] <;> rfl
  | year => cases found <;> rw [decode.eq_5, hdate] <;> rfl

theorem decode_eq_string_iff (hform : DateForm type size digits) (hn : n < 10 ^ 8) :
    decode (.int n) type = .string (String.ofList cs) ↔
      Date.dashed? (Nat.toDigits 10 n) = some cs := by
  rw [decode_natCast hform hn]
  cases Date.dashed? (Nat.toDigits 10 n) with
  | none => simp
  | some ds => simp [String.ofList_inj]

/-- Take a text that is stored as a date, which is one of its first ten, seven or four characters.
    It is stored as the number of its digits. It is read back as those characters exactly if the
    year does not start with a zero; else it is read back as the number, or as a date of another
    type. -/
theorem decode_encode_iff (hform : DateForm type size digits)
    (h : encode (.string s) type = .ok w) :
    w = .int (Digit.number ((s.toList.take size).filter Char.isDigit)) ∧
    (decode w type = .string (String.ofList (s.toList.take size)) ↔ s.toList.head? ≠ some '0') ∧
    (s.toList.head? = some '0' → decode w type = w ∨
      ∃ cs, cs.length < size ∧ decode w type = .string (String.ofList cs)) := by
  obtain ⟨ds, hds, hdigits, hsize, rfl⟩ := encode_string hform h
  obtain ⟨hlength, hhead, hmem⟩ := Date.dashed?_eq_some hds
  have hshort : Digit.number ds < 10 ^ 8 :=
    Date.parse_lt (Date.parseChars?_eq_some_iff.mpr ⟨ds, hds, hdigits, rfl⟩)
  have hhead : s.toList.head? = ds.head? := by
    rw [← hhead, List.head?_take, if_neg]
    omega
  have hzero (h0 : ds.head? = some '0') :
      (Nat.toDigits 10 (Digit.number ds)).length < ds.length :=
    Digit.length_toDigits_number_lt hdigits h0 (by omega)
  refine ⟨by rw [Date.filter_isDigit hds hdigits], ?_, fun h0 => ?_⟩
  · rw [decode_eq_string_iff hform hshort, hhead]
    constructor
    · intro hdashed h0
      have hsame := Date.dashed?_injective hdashed hds
      exact Nat.lt_irrefl _ (hsame ▸ hzero h0)
    · intro h0
      have hne : ds ≠ [] := List.ne_nil_of_length_pos (by omega)
      rw [Digit.toDigits_number hdigits hne h0, hds]
  · rw [decode_natCast hform hshort]
    cases hcs : Date.dashed? (Nat.toDigits 10 (Digit.number ds)) with
    | none => exact .inl rfl
    | some cs =>
      have hlt := hzero (hhead ▸ h0)
      have hlength' := (Date.dashed?_eq_some hcs).1
      exact .inr ⟨cs, by omega, rfl⟩

theorem decode_encode_of_day :
    encode (.string "2020-01-15") .date = .ok (.int 20200115) ∧
      decode (.int 20200115) .date = .string "2020-01-15" := by
  have hencode : encode (.string "2020-01-15") .date = .ok (.int 20200115) := by cbv
  exact ⟨hencode, (decode_encode_iff .date hencode).2.1.mpr (by decide)⟩

/-- A date of the year 999 is read back as a number, and one of the year 20 as a month of the
    year 2001. -/
theorem decode_encode_of_early_year :
    encode (.string "0999-04-05") .date = .ok (.int 9990405) ∧
    decode (.int 9990405) .date = .int 9990405 ∧
    encode (.string "0020-01-15") .date = .ok (.int 200115) ∧
    decode (.int 200115) .date = .string "2001-15" := by
  have hnumber := decode_natCast .date (n := 9990405) (by decide)
  have hmonth := decode_natCast .date (n := 200115) (by decide)
  exact ⟨by cbv, hnumber.trans (by cbv), by cbv, hmonth.trans (by cbv)⟩

end Stored

end QuerySheet

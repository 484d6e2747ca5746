import QuerySheet.Decimal.Shortest

/-!
# JSON values

Queries, conditions, cell values and stored rows are JSON. The order of an object's fields
matters, because conditions compile and columns are listed in that order, so an object is a list
of fields.

* `Number` keeps integers and floating-point numbers apart; the two are never equal;
* `Fields` is the field list of an object: a repeated name keeps its place and takes the last
  value (`Fields.insert`);
* `Json.same` is equality as documents: field order does not count;
* `Json.weight` is the size that recursion on expressions descends on.
-/

namespace QuerySheet

/-! ## 1. Values -/

/-- A number is an integer of 64 bits, with or without sign, or a finite floating-point number. -/
inductive Number where
  | int (n : Int)
  | float (x : Binary64)
  deriving DecidableEq, Repr, Inhabited

inductive Json where
  | null
  | bool (b : Bool)
  | number (n : Number)
  | string (s : String)
  | array (items : List Json)
  | object (fields : List (String × Json))
  deriving Repr, Inhabited

/-- The fields of an object, in order. -/
abbrev Fields := List (String × Json)

/-- An integer as a value. -/
abbrev Json.int (n : Int) : Json := .number (.int n)

mutual

/-- Identity of values, field order included. -/
def Json.decEq : (a b : Json) → Decidable (a = b)
  | .null, .null => isTrue rfl
  | .bool a, .bool b => decidable_of_iff (a = b) (by simp)
  | .number a, .number b => decidable_of_iff (a = b) (by simp)
  | .string a, .string b => decidable_of_iff (a = b) (by simp)
  | .array as, .array bs =>
    have := Json.decEqItems as bs
    decidable_of_iff (as = bs) (by simp)
  | .object as, .object bs =>
    have := Json.decEqFields as bs
    decidable_of_iff (as = bs) (by simp)
  | .null, .bool _ | .null, .number _ | .null, .string _ | .null, .array _ | .null, .object _
  | .bool _, .null | .bool _, .number _ | .bool _, .string _ | .bool _, .array _
  | .bool _, .object _ | .number _, .null | .number _, .bool _ | .number _, .string _
  | .number _, .array _ | .number _, .object _ | .string _, .null | .string _, .bool _
  | .string _, .number _ | .string _, .array _ | .string _, .object _ | .array _, .null
  | .array _, .bool _ | .array _, .number _ | .array _, .string _ | .array _, .object _
  | .object _, .null | .object _, .bool _ | .object _, .number _ | .object _, .string _
  | .object _, .array _ => isFalse (by simp)

def Json.decEqItems : (as bs : List Json) → Decidable (as = bs)
  | [], [] => isTrue rfl
  | [], _ :: _ => isFalse (by simp)
  | _ :: _, [] => isFalse (by simp)
  | a :: as, b :: bs =>
    have := Json.decEq a b
    have := Json.decEqItems as bs
    decidable_of_iff (a = b ∧ as = bs) (by simp)

def Json.decEqFields : (as bs : List (String × Json)) → Decidable (as = bs)
  | [], [] => isTrue rfl
  | [], _ :: _ => isFalse (by simp)
  | _ :: _, [] => isFalse (by simp)
  | (k, v) :: as, (l, w) :: bs =>
    have := Json.decEq v w
    have := Json.decEqFields as bs
    decidable_of_iff ((k = l ∧ v = w) ∧ as = bs) (by simp)

end

instance : DecidableEq Json := Json.decEq

/-! ## 2. Fields -/

namespace Fields

/-- The value of the first field of a name. -/
def get? (fields : Fields) (name : String) : Option Json := fields.lookup name

def contains (fields : Fields) (name : String) : Bool := fields.any (·.1 == name)

/-- Sets a field: in its place if the name is there, else at the end. -/
def insert : Fields → String → Json → Fields
  | [], name, value => [(name, value)]
  | (k, v) :: rest, name, value =>
    if k = name then (k, value) :: rest else (k, v) :: insert rest name value

/-- The fields written one after the other into an empty object. -/
def ofList (fields : List (String × Json)) : Fields :=
  fields.foldl (fun acc field => insert acc field.1 field.2) []

@[simp] theorem insert_nil (name : String) (value : Json) :
    insert [] name value = [(name, value)] := rfl

/-- A new name goes to the end and a known one keeps its place. -/
theorem insert_names (fields : Fields) (name : String) (value : Json) :
    (insert fields name value).map (·.1) =
      if name ∈ fields.map (·.1) then fields.map (·.1) else fields.map (·.1) ++ [name] := by
  induction fields with
  | nil => simp
  | cons field rest ih =>
    obtain ⟨k, v⟩ := field
    by_cases h : k = name
    · simp [insert, h]
    · have hne : ¬ name = k := fun e => h e.symm
      simp only [insert, h, ↓reduceIte, List.map_cons, ih, List.mem_cons, hne, false_or]
      split <;> simp

end Fields

/-! ## 3. Equality as documents -/

def Number.same : Number → Number → Bool
  | .int a, .int b => a == b
  | .float x, .float y => x.sameValue y
  | _, _ => false

mutual

/-- Equality that ignores the order of fields; an integer never equals a floating-point number. -/
def Json.same : Json → Json → Bool
  | .null, .null => true
  | .bool a, .bool b => a == b
  | .number a, .number b => a.same b
  | .string a, .string b => a == b
  | .array as, .array bs => Json.sameItems as bs
  | .object as, .object bs => as.length == bs.length && Json.sameFields as bs
  | _, _ => false

def Json.sameItems : List Json → List Json → Bool
  | [], [] => true
  | a :: as, b :: bs => a.same b && Json.sameItems as bs
  | _, _ => false

/-- Every field on the left has an equal one on the right. -/
def Json.sameFields : List (String × Json) → List (String × Json) → Bool
  | [], _ => true
  | (k, v) :: rest, bs =>
    (match bs.lookup k with
      | some w => v.same w
      | none => false) && Json.sameFields rest bs

end

/-! ## 4. Size -/

mutual

/-- The size of a value: one for itself and the sizes of its members. -/
def Json.weight : Json → Nat
  | .array items => 1 + Json.itemsWeight items
  | .object fields => 1 + Json.fieldsWeight fields
  | _ => 1

def Json.itemsWeight : List Json → Nat
  | [] => 0
  | v :: rest => v.weight + Json.itemsWeight rest

def Json.fieldsWeight : List (String × Json) → Nat
  | [] => 0
  | (_, v) :: rest => v.weight + Json.fieldsWeight rest

end

namespace Json

theorem weight_pos (v : Json) : 0 < v.weight := by
  cases v <;> simp only [weight] <;> omega

theorem fieldsWeight_append (fs gs : Fields) :
    fieldsWeight (fs ++ gs) = fieldsWeight fs + fieldsWeight gs := by
  induction fs with
  | nil => simp [fieldsWeight]
  | cons f fs ih => simp only [List.cons_append, fieldsWeight, ih]; omega

/-- A part of a list weighs no more than the list. -/
theorem itemsWeight_le_of_sublist {vs ws : List Json} (h : List.Sublist vs ws) :
    itemsWeight vs ≤ itemsWeight ws := by
  induction h with
  | slnil => exact Nat.le_refl _
  | cons v _ ih => simp only [itemsWeight]; omega
  | cons_cons v _ ih => simp only [itemsWeight]; omega

theorem weight_le_of_lookup {name : String} {v : Json} {fields : Fields}
    (h : fields.lookup name = some v) : v.weight ≤ fieldsWeight fields := by
  induction fields with
  | nil => cases h
  | cons f rest ih =>
    obtain ⟨k, w⟩ := f
    simp only [List.lookup_cons] at h
    simp only [fieldsWeight]
    split at h
    · cases h; omega
    · have := ih h; omega

/-- Two fields of different names together weigh no more than the object's fields. -/
theorem weight_add_le {name key : String} {v t : Json} {fields : Fields}
    (hv : fields.find? (·.1 ≠ key) = some (name, v)) (ht : fields.lookup key = some t) :
    v.weight + t.weight ≤ fieldsWeight fields := by
  induction fields with
  | nil => cases ht
  | cons f rest ih =>
    obtain ⟨k, w⟩ := f
    simp only [List.lookup_cons] at ht
    simp only [List.find?_cons] at hv
    simp only [fieldsWeight]
    by_cases hk : k = key
    · subst hk
      simp only [beq_self_eq_true, Option.some.injEq] at ht
      subst ht
      simp only [ne_eq, not_true_eq_false, decide_false] at hv
      have hle : v.weight ≤ fieldsWeight rest := by
        clear ih
        induction rest with
        | nil => cases hv
        | cons g rest ih =>
          obtain ⟨l, u⟩ := g
          simp only [List.find?_cons] at hv
          simp only [fieldsWeight]
          split at hv
          · cases hv; omega
          · have := ih hv; omega
      omega
    · have hne : (key == k) = false := by simpa using fun e => hk e.symm
      simp only [hne] at ht
      simp only [ne_eq, hk, not_false_eq_true, decide_true, Option.some.injEq,
        Prod.mk.injEq] at hv
      obtain ⟨_, rfl⟩ := hv
      have := weight_le_of_lookup ht
      omega

/-- A field that passes a test weighs no more than the object's fields. -/
theorem weight_le_of_find? {p : String × Json → Bool} {name : String} {v : Json} {fields : Fields}
    (h : fields.find? p = some (name, v)) : v.weight ≤ fieldsWeight fields := by
  induction fields with
  | nil => cases h
  | cons f rest ih =>
    obtain ⟨k, w⟩ := f
    simp only [List.find?_cons] at h
    simp only [fieldsWeight]
    split at h
    · cases h; omega
    · have := ih h; omega

/-! ## 5. Readings of a value -/

/-- Null, false, zero and the empty string. -/
def isFalsy : Json → Bool
  | .null => true
  | .bool b => !b
  | .number (.int n) => n == 0
  | .number (.float x) => x.isZero
  | .string s => s.isEmpty
  | _ => false

/-- The value as an integer of 64 bits with a sign. -/
def int64? : Json → Option Int
  | .number (.int n) => if fitsSigned 64 n then some n else none
  | _ => none

def string? : Json → Option String
  | .string s => some s
  | _ => none

end Json

end QuerySheet

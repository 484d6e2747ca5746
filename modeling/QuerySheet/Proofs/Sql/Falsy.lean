import QuerySheet.Proofs.Sql.Criteria
import QuerySheet.Proofs.Sql.Kept

/-!
# Falsy entries of conditions

A falsy entry of a list of conditions is no condition, so it makes no difference whether it is
there. Only for a disjunction it makes one if all of its entries are falsy: a disjunction without
entries is left out of a condition, and one without conditions never holds.

* `Condition.pruned`: a condition without the falsy entries of its lists;
* `Condition.blankChoices`: the disjunctions that have entries, but only falsy ones. In the pruned
  condition they are missing (`prunedTo_criteria`);
* `Compile.EndsAlike`: two compilations fail with the same error, or succeed with related results
  and the same ledger;
* `rewords_pruned`: without its falsy entries a condition compiles in the same way, and to the same
  text exactly if there are no such disjunctions.
-/

namespace QuerySheet.Sql

open Condition (itemsTests)

namespace Condition

/-! ## 1. Conditions without falsy entries -/

mutual

/-- A condition without the falsy entries of its lists, nested conditions included. -/
def pruned : Json → Json
  | .object fields => .object (prunedFields fields)
  | .array items => .array (prunedItems items)
  | v => v

def prunedItems : List Json → List Json
  | [] => []
  | .object fields :: rest => .object (prunedFields fields) :: prunedItems rest
  | v :: rest => if v.isFalsy then prunedItems rest else v :: prunedItems rest

def prunedFields : List (String × Json) → List (String × Json)
  | [] => []
  | (name, v) :: rest =>
    (name, if name = "$and" ∨ name = "$or" then pruned v else v) :: prunedFields rest

end

/-- A list of nothing but falsy entries, of which there are some. -/
def isBlank : Json → Bool
  | .array items => !items.isEmpty && items.all Json.isFalsy
  | _ => false

mutual

/-- How many disjunctions in a condition have only falsy entries. -/
def blankChoices : Json → Nat
  | .object fields => fieldsBlankChoices fields
  | .array items => itemsBlankChoices items
  | _ => 0

def itemsBlankChoices : List Json → Nat
  | [] => 0
  | .object fields :: rest => fieldsBlankChoices fields + itemsBlankChoices rest
  | _ :: rest => itemsBlankChoices rest

def fieldsBlankChoices : List (String × Json) → Nat
  | [] => 0
  | (name, v) :: rest =>
    (if name = "$and" then blankChoices v
      else if name = "$or" then if isBlank v then 1 else blankChoices v
      else 0) + fieldsBlankChoices rest

end

theorem isFalsy_pruned (v : Json) : (pruned v).isFalsy = v.isFalsy := by
  cases v <;> rfl

theorem prunedFields_append (fs gs : Fields) :
    prunedFields (fs ++ gs) = prunedFields fs ++ prunedFields gs := by
  induction fs with
  | nil => rfl
  | cons field fs ih => rw [List.cons_append, prunedFields, prunedFields, ih, List.cons_append]

section Entries

variable {v : Json} {rest : List Json}

theorem prunedItems_falsy (hv : v.isFalsy = true) : prunedItems (v :: rest) = prunedItems rest := by
  cases v with
  | object fields => cases hv
  | null | bool | number | string | array => exact if_pos hv

theorem prunedItems_other (hv : ¬ v.isFalsy = true) (hobject : ∀ fields, v ≠ .object fields) :
    prunedItems (v :: rest) = v :: prunedItems rest := by
  cases v with
  | object fields => exact absurd rfl (hobject fields)
  | null | bool | number | string | array => exact if_neg hv

theorem itemsCriteria_pruned (hobject : ∀ fields, v ≠ .object fields) :
    itemsCriteria (prunedItems (v :: rest)) = itemsCriteria (prunedItems rest) := by
  by_cases hv : v.isFalsy = true
  · rw [prunedItems_falsy hv]
  · rw [prunedItems_other hv hobject, itemsCriteria_cons_of_not_object hobject]

end Entries

/-- A list is refused for an entry that is no condition, whether it is pruned or not. -/
theorem itemsTests_pruned (items : List Json) :
    itemsTests (prunedItems items) = (itemsTests items).map prunedFields := by
  induction items with
  | nil => rfl
  | cons v rest ih =>
    rcases entry_cases v with hv | ⟨fields, rfl⟩ | ⟨hv, hobject⟩
    · rw [prunedItems_falsy hv, itemsTests_falsy hv, ih]
    · rw [prunedItems, itemsTests_object, itemsTests_object, ih]
      cases itemsTests rest with
      | ok gs => exact congrArg Except.ok (prunedFields_append fields gs).symm
      | error => rfl
    · rw [prunedItems_other hv hobject, itemsTests_other hv hobject, itemsTests_other hv hobject]
      rfl

/-- Nothing is left of a list exactly if all of its entries are falsy. -/
theorem prunedItems_eq_nil_iff (items : List Json) :
    prunedItems items = [] ↔ items.all Json.isFalsy = true := by
  induction items with
  | nil => exact ⟨fun _ => rfl, fun _ => rfl⟩
  | cons v rest ih =>
    rw [List.all_cons, Bool.and_eq_true]
    rcases entry_cases v with hv | ⟨fields, rfl⟩ | ⟨hv, hobject⟩
    · rw [prunedItems_falsy hv, ih]
      exact ⟨fun h => ⟨hv, h⟩, fun h => h.2⟩
    · exact ⟨fun h => (nomatch h), fun h => (nomatch h.1)⟩
    · rw [prunedItems_other hv hobject]
      exact ⟨fun h => (nomatch h), fun h => absurd h.1 hv⟩

end Condition

/-! ## 2. Disjunctions that are missing -/

section Missing

variable {α β : Type}

/-- The second trees are the first ones without `n` empty disjunctions. -/
inductive Criteria.Missing : Nat → Criteria α → Criteria α → Prop
  | nil : Missing 0 [] []
  | test {n : Nat} {cs ds : Criteria α} (a : α) (rest : Missing n cs ds) :
      Missing n (.test a :: cs) (.test a :: ds)
  | join {m n : Nat} {ps qs cs ds : Criteria α} (connective : Connective) (parts : Missing m ps qs)
      (rest : Missing n cs ds) :
      Missing (m + n) (.join connective ps :: cs) (.join connective qs :: ds)
  | empty {n : Nat} {cs ds : Criteria α} (rest : Missing n cs ds) :
      Missing (n + 1) (.join .any [] :: cs) ds

namespace Criteria.Missing

variable {m n : Nat} {cs ds cs' ds' : Criteria α}

theorem append (h : Missing m cs ds) (h' : Missing n cs' ds') :
    Missing (m + n) (cs ++ cs') (ds ++ ds') := by
  induction h with
  | nil =>
    rw [Nat.zero_add]
    exact h'
  | test a _ ih => exact .test a ih
  | join connective parts _ _ ih =>
    rw [Nat.add_assoc]
    exact .join connective parts ih
  | empty _ ih =>
    rw [Nat.add_right_comm]
    exact .empty ih

theorem eq_of_none (h : Missing n cs ds) (hn : n = 0) : ds = cs := by
  induction h with
  | nil => rfl
  | test a _ ih => rw [ih hn]
  | join _ _ _ ihp ih => rw [ihp (by omega), ih (by omega)]
  | empty => cases hn

end Criteria.Missing

mutual

theorem Criterion.missing_none (c : Criterion α) {n : Nat} {cs ds : Criteria α}
    (h : Criteria.Missing n cs ds) : Criteria.Missing n (c :: cs) (c :: ds) := by
  cases c with
  | test a => exact .test a h
  | join connective parts =>
    have := Criteria.Missing.join connective (Criteria.missing_none parts) h
    rwa [Nat.zero_add] at this

/-- Nothing is missing in the same trees. -/
theorem Criteria.missing_none (cs : Criteria α) : Criteria.Missing 0 cs cs := by
  cases cs with
  | nil => exact .nil
  | cons c cs => exact Criterion.missing_none c (Criteria.missing_none cs)

end

end Missing

/-- There is something among the entries that is no condition. -/
def Criteria.Refuses (cs : Criteria Entry) : Prop := ∃ cause, Entry.refused cause ∈ cs.leaves

/-- In the second trees as many disjunctions are missing as said, unless the first are refused. -/
def Criteria.PrunedTo (count : Nat) (cs ds : Criteria Entry) : Prop :=
  ∃ n, Missing n cs ds ∧ (n = count ∨ cs.Refuses)

namespace Criteria

variable {m n : Nat} {cs ds cs' ds' : Criteria Entry}

theorem PrunedTo.of_missing (h : Missing n cs ds) : PrunedTo n cs ds := ⟨n, h, .inl rfl⟩

theorem prunedTo_self (cs : Criteria Entry) : PrunedTo 0 cs cs := .of_missing (missing_none cs)

theorem PrunedTo.append (h : PrunedTo m cs ds) (h' : PrunedTo n cs' ds') :
    PrunedTo (m + n) (cs ++ cs') (ds ++ ds') := by
  obtain ⟨m', hmissing, hcount⟩ := h
  obtain ⟨n', hmissing', hcount'⟩ := h'
  refine ⟨m' + n', hmissing.append hmissing', ?_⟩
  unfold Refuses
  rw [leaves_append]
  rcases hcount with rfl | ⟨cause, hcause⟩
  · rcases hcount' with rfl | ⟨cause, hcause⟩
    · exact .inl rfl
    · exact .inr ⟨cause, List.mem_append_right _ hcause⟩
  · exact .inr ⟨cause, List.mem_append_left _ hcause⟩

theorem PrunedTo.join (connective : Connective) (h : PrunedTo n cs ds) :
    PrunedTo n [.join connective cs] [.join connective ds] := by
  obtain ⟨n', hmissing, hcount⟩ := h
  refine ⟨n', .join connective hmissing .nil, hcount.imp_right fun ⟨cause, hcause⟩ => ⟨cause, ?_⟩⟩
  exact List.mem_append_left _ hcause

end Criteria

/-- What is pruned in the value of a field. -/
def Condition.prunedValue (name : String) (v : Json) : Json :=
  if name = "$and" ∨ name = "$or" then Condition.pruned v else v

open Condition Criteria

theorem itemsTests_of_all {items : List Json} (h : items.all Json.isFalsy = true) :
    itemsTests items = .ok [] := by
  induction items with
  | nil => rfl
  | cons v rest ih =>
    rw [List.all_cons, Bool.and_eq_true] at h
    rw [itemsTests_falsy h.1, ih h.2]

/-- A list of falsy entries has no tests, but it is not the empty list. -/
theorem criteria_of_isBlank {v : Json} (h : isBlank v = true) :
    criteria v = [] ∧ ¬ (v.isFalsy = true ∨ v = .array []) := by
  cases v with
  | array items =>
    rw [isBlank, Bool.and_eq_true] at h
    refine ⟨?_, fun hout => hout.elim (fun hfalsy => nomatch hfalsy) fun hnil => ?_⟩
    · rw [criteria, itemsTests_of_all h.2]
      exact itemsCriteria_eq (itemsTests_of_all h.2)
    · cases hnil
      cases h.1
  | null | bool | number | string | object => cases h

/-- A disjunction that is left out has no entries. -/
theorem blankChoices_of_out {v : Json} (h : v.isFalsy = true ∨ v = .array []) :
    blankChoices v = 0 ∧ isBlank v = false := by
  rcases h with h | rfl
  · cases v with
    | object | array => cases h
    | null | bool | number | string => exact ⟨rfl, rfl⟩
  · exact ⟨rfl, rfl⟩

theorem pruned_eq_nil_iff (v : Json) : pruned v = .array [] ↔ v = .array [] ∨ isBlank v = true := by
  cases v with
  | array items =>
    rw [pruned, Json.array.injEq, Json.array.injEq, prunedItems_eq_nil_iff]
    cases items with
    | nil => exact ⟨fun _ => .inl rfl, fun _ => rfl⟩
    | cons w rest => exact ⟨.inr, fun h => h.resolve_left (fun h => nomatch h)⟩
  | null | bool | number | string | object =>
    exact ⟨fun h => (nomatch h), fun h => h.elim (fun h => (nomatch h)) fun h => (nomatch h)⟩

/-- A disjunction of falsy entries never holds, and without them it is left out. -/
theorem prunedTo_or {v : Json}
    (ih : PrunedTo (blankChoices v) (criteria v) (criteria (pruned v))) :
    PrunedTo (if isBlank v then 1 else blankChoices v) (fieldCriteria "$or" v)
      (fieldCriteria "$or" (pruned v)) := by
  have hor (v : Json) : fieldCriteria "$or" v =
      if v.isFalsy ∨ v = .array [] then [] else [.join .any (criteria v)] := rfl
  have hnil := pruned_eq_nil_iff v
  rw [hor, hor, isFalsy_pruned]
  by_cases hout : v.isFalsy = true ∨ v = .array []
  · obtain ⟨hnone, hblank⟩ := blankChoices_of_out hout
    rw [if_pos hout, if_pos (hout.imp_right fun h => hnil.mpr (.inl h)), hblank, hnone]
    exact prunedTo_self []
  · rw [if_neg hout]
    by_cases hblank : isBlank v = true
    · have hgone : v.isFalsy = true ∨ pruned v = .array [] := .inr (hnil.mpr (.inr hblank))
      rw [(criteria_of_isBlank hblank).1, if_pos hblank, if_pos hgone]
      exact .of_missing (.empty .nil)
    · have hin : ¬ (v.isFalsy = true ∨ pruned v = .array []) := fun h =>
        hout (h.imp_right fun h => (hnil.mp h).resolve_right hblank)
      rw [if_neg hblank, if_neg hin]
      exact ih.join .any

theorem prunedTo_field {name : String} {v : Json}
    (ih : PrunedTo (blankChoices v) (criteria v) (criteria (pruned v))) :
    PrunedTo (if name = "$and" then blankChoices v
        else if name = "$or" then if isBlank v then 1 else blankChoices v else 0)
      (fieldCriteria name v) (fieldCriteria name (prunedValue name v)) := by
  by_cases hand : name = "$and"
  · subst hand
    show PrunedTo _ (if v.isFalsy then [] else [.join .all (criteria v)])
      (if (pruned v).isFalsy then [] else [.join .all (criteria (pruned v))])
    rw [isFalsy_pruned, if_pos rfl]
    split
    · rename_i hfalsy
      rw [(blankChoices_of_out (.inl hfalsy)).1]
      exact prunedTo_self _
    · exact ih.join .all
  · by_cases hor : name = "$or"
    · subst hor
      exact prunedTo_or ih
    · rw [if_neg hand, if_neg hor, prunedValue, if_neg (fun h => h.elim hand hor)]
      exact prunedTo_self _

mutual

/-- A disjunction is missing in a pruned condition where one has only falsy entries. -/
theorem prunedTo_criteria (v : Json) :
    PrunedTo (blankChoices v) (criteria v) (criteria (pruned v)) := by
  cases v with
  | object fields => exact prunedTo_fieldsCriteria fields
  | array items =>
    have ih := prunedTo_itemsCriteria items
    rw [pruned, criteria, criteria, itemsTests_pruned]
    cases itemsTests items with
    | ok fields => exact ih
    | error cause =>
      -- a list that is refused is refused as a whole, and so is the pruned one
      exact ⟨0, missing_none _, .inr ⟨cause, List.mem_singleton_self _⟩⟩
  | null | bool | number | string => exact prunedTo_self _

theorem prunedTo_itemsCriteria (items : List Json) :
    PrunedTo (itemsBlankChoices items) (itemsCriteria items)
      (itemsCriteria (prunedItems items)) := by
  cases items with
  | nil => exact prunedTo_self _
  | cons v rest =>
    have ih := prunedTo_itemsCriteria rest
    cases v with
    | object fields => exact (prunedTo_fieldsCriteria fields).append ih
    | null | bool | number | string | array =>
      rw [itemsCriteria_pruned (by simp)]
      exact ih

theorem prunedTo_fieldsCriteria (fields : List (String × Json)) :
    PrunedTo (fieldsBlankChoices fields) (fieldsCriteria fields)
      (fieldsCriteria (prunedFields fields)) := by
  match fields with
  | [] => exact prunedTo_self _
  | (name, v) :: rest =>
    rw [prunedFields, fieldsCriteria_cons, fieldsCriteria_cons, fieldsBlankChoices]
    exact (prunedTo_field (prunedTo_criteria v)).append (prunedTo_fieldsCriteria rest)

end

/-! ## 3. Compiling without them -/

namespace Compile

variable {α β α' β' : Type} {R : α → α' → Prop} {R' : β → β' → Prop} {m : Compile α}
  {m' : Compile α'}

/-- Two compilations fail with the same error, or both succeed with related results. They leave the
    same ledger. -/
def EndsAlike (R : α → α' → Prop) (m : Compile α) (m' : Compile α') : Prop :=
  ∀ s l, match m.outcome s l with
    | (.ok a, l') => ∃ a', m'.Yields s l a' l' ∧ R a a'
    | (.error e, l') => m'.outcome s l = (.error e, l')

namespace EndsAlike

theorem refl (m : Compile α) : EndsAlike Eq m m := by
  intro s l
  split
  · rename_i a l' h
    exact ⟨a, h, rfl⟩
  · rename_i h
    exact h

theorem pure {a : α} {a' : α'} (h : R a a') : EndsAlike R (Pure.pure a) (Pure.pure a') :=
  fun _ _ => ⟨a', Compile.yields_pure.mpr ⟨rfl, rfl⟩, h⟩

theorem bind {f : α → Compile β} {f' : α' → Compile β'} (hm : EndsAlike R m m')
    (hf : ∀ a a', R a a' → EndsAlike R' (f a) (f' a')) : EndsAlike R' (m >>= f) (m' >>= f') := by
  intro s l
  have hm := hm s l
  rw [outcome_bind]
  rcases h : m.outcome s l with ⟨e | a, l₁⟩
  · rw [h] at hm
    dsimp only at hm ⊢
    rw [outcome_bind, hm]
  · rw [h] at hm
    obtain ⟨a', ha', hR⟩ := hm
    have hf := hf a a' hR s l₁
    dsimp only
    split
    · rename_i hb
      rw [hb] at hf
      obtain ⟨b', hb', hR'⟩ := hf
      exact ⟨b', Compile.yields_bind.mpr ⟨a', l₁, ha', hb'⟩, hR'⟩
    · rename_i hb
      rw [hb] at hf
      rw [outcome_bind, ha']
      exact hf

/-- Nothing is asked of the results of a compilation that has none. -/
theorem of_not_yields {R' : α → α' → Prop} (h : EndsAlike R m m')
    (hno : ∀ s l a l', ¬ m.Yields s l a l') : EndsAlike R' m m' := by
  intro s l
  have h := h s l
  split
  · rename_i ha
    exact absurd ha (hno s l _ _)
  · rename_i he
    rw [he] at h
    exact h

end EndsAlike

end Compile

namespace Criteria

variable {α β : Type} {n : Nat} {cs ds : Criteria α}

/-- An empty disjunction compiles nothing. -/
theorem Missing.compile (h : Missing n cs ds) (f : α → Compile β) :
    Compile.EndsAlike (Missing n) (Criteria.compile f cs) (Criteria.compile f ds) := by
  induction h with
  | nil => exact .pure .nil
  | test a _ ih =>
    refine .bind (R := fun c d => ∃ b, c = .test b ∧ d = .test b)
      (.bind (.refl _) fun b _ hb => .pure ⟨b, rfl, congrArg _ hb.symm⟩) ?_
    rintro _ _ ⟨b, rfl, rfl⟩
    exact .bind ih fun cs ds h => .pure (.test b h)
  | join connective _ _ ihp ih =>
    refine .bind (R := fun c d => ∃ ps qs, c = .join connective ps ∧ d = .join connective qs ∧
      Missing _ ps qs) (.bind ihp fun ps qs h => .pure ⟨ps, qs, rfl, rfl, h⟩) ?_
    rintro _ _ ⟨ps, qs, rfl, rfl, hparts⟩
    exact .bind ih fun cs ds h => .pure (.join connective hparts h)
  | @empty _ cs ds _ ih =>
    have hcompile : Criteria.compile f (.join .any [] :: cs) =
        Criteria.compile f cs >>= fun cs => pure (.join .any [] :: cs) := by
      simp only [Criteria.compile, Criterion.compile, pure_bind]
    rw [hcompile, ← bind_pure (Criteria.compile f ds)]
    exact .bind ih fun cs ds h => .pure (.empty h)

end Criteria

/-! ## 4. Texts -/

/-- The length of texts with a gap behind each of them. -/
def gapped (gap : Nat) : List Template → Nat
  | [] => 0
  | t :: ts => t.signs.length + gap + gapped gap ts

theorem gapped_cons (gap : Nat) (t : Template) (ts : List Template) :
    gapped gap (t :: ts) = t.signs.length + gap + gapped gap ts := rfl

theorem length_append (t u : Template) :
    (t ++ u).signs.length = t.signs.length + u.signs.length := List.length_append

theorem length_intercalate (separator : String) (t : Template) (ts : List Template) :
    (Template.intercalate separator (t :: ts)).signs.length +
        (Template.ofString separator).signs.length =
      gapped (Template.ofString separator).signs.length (t :: ts) := by
  induction ts generalizing t with
  | nil => rfl
  | cons u ts ih =>
    have ih := ih u
    rw [gapped_cons] at ih ⊢
    rw [gapped_cons, Template.intercalate, length_append, length_append]
    omega

/-- What texts are joined to, if none at all are joined to a single character. -/
def joinedLength (gap : Nat) (ts : List Template) : Nat :=
  if ts.isEmpty then 1 else gapped gap ts - gap + 2

theorem length_parens (t : Template) : t.parens.signs.length = t.signs.length + 2 := by
  rw [Template.parens, length_append, length_append]
  exact congrArg (· + 1) (Nat.add_comm _ _)

/-- The length of what stands between two parts. -/
def Connective.gap : Connective → Nat
  | .all => 7
  | .any => 6

theorem length_text (connective : Connective) (ts : List Template) :
    (connective.text ts).signs.length = joinedLength connective.gap ts := by
  cases ts with
  | nil => cases connective <;> rfl
  | cons t ts =>
    cases connective with
    | all =>
      have h : _ + 7 = gapped 7 (t :: ts) := length_intercalate "\n  AND " t ts
      show (Template.parens _).signs.length = gapped 7 (t :: ts) - 7 + 2
      rw [length_parens]
      omega
    | any =>
      have h : _ + 6 = gapped 6 (t :: ts) := length_intercalate "\n  OR " t ts
      show (Template.parens _).signs.length = gapped 6 (t :: ts) - 6 + 2
      rw [length_parens]
      omega

theorem joinedLength_lt {gap : Nat} {ts us : List Template} (h : gapped gap us < gapped gap ts) :
    joinedLength gap us < joinedLength gap ts := by
  cases ts with
  | nil => exact absurd h (Nat.not_lt_zero _)
  | cons t ts =>
    rw [gapped_cons] at h
    cases us with
    | nil =>
      show 1 < gapped gap (t :: ts) - gap + 2
      omega
    | cons u us =>
      rw [gapped_cons] at h
      show gapped gap (u :: us) - gap + 2 < gapped gap (t :: ts) - gap + 2
      rw [gapped_cons, gapped_cons]
      omega

theorem add_lt_of_missing {m n a a' b b' gap : Nat} (hmn : m + n ≠ 0) (ha : m ≠ 0 → a' < a)
    (ha' : m = 0 → a' = a) (hb : n ≠ 0 → b' < b) (hb' : n = 0 → b' = b) :
    a' + gap + b' < a + gap + b := by
  omega

/-- Where a disjunction is missing the predicates are shorter. -/
theorem Criteria.Missing.gapped_lt {n : Nat} {cs ds : Criteria Template} (h : Missing n cs ds)
    (hn : n ≠ 0) (gap : Nat) : gapped gap ds.texts < gapped gap cs.texts := by
  induction h generalizing gap with
  | nil => exact absurd rfl hn
  | test t _ ih =>
    have := ih hn gap
    rw [Criteria.texts, Criteria.texts, gapped_cons, gapped_cons, Criterion.text]
    omega
  | @join m n ps qs cs ds connective parts rest ihp ih =>
    rw [Criteria.texts, Criteria.texts, gapped_cons, gapped_cons, Criterion.text, Criterion.text,
      length_text, length_text]
    exact add_lt_of_missing hn (fun hm => joinedLength_lt (ihp hm connective.gap))
      (fun hm => by rw [parts.eq_of_none hm]) (fun hn => ih hn gap)
      fun hn => by rw [rest.eq_of_none hn]
  | @empty n cs ds rest ih =>
    have hhead : gapped gap (Criteria.texts (.join .any [] :: cs)) =
        1 + gap + gapped gap cs.texts := rfl
    rw [hhead]
    by_cases hn : n = 0
    · rw [rest.eq_of_none hn]
      omega
    · have := ih hn gap
      omega

/-- The same text has the same length. -/
theorem length_of_text_eq {t u : Template} (h : t.text = u.text) :
    t.signs.length = u.signs.length := by
  have hchars : t.signs.map Sign.toChar = u.signs.map Sign.toChar := String.ofList_injective h
  simpa using congrArg List.length hchars

/-! ## 5. Conditions -/

/-- Where something is no condition nothing is compiled. -/
theorem Criteria.Refuses.not_yields {cs : Criteria Entry} (h : cs.Refuses) (s : Scope)
    (l l' : Ledger) (ds : Criteria Template) :
    ¬ (Criteria.compile Entry.compile cs).Yields s l ds l' := by
  obtain ⟨cause, hcause⟩ := h
  obtain ⟨before, after, hleaves⟩ := List.append_of_mem hcause
  rw [Criteria.yields_compile_iff, hleaves, yields_mapM_append, List.mapM_cons]
  rintro ⟨-, ps, l₁, qs, -, hrefused, -⟩
  obtain ⟨t, l₂, hfail, -⟩ := Compile.yields_bind.mp hrefused
  exact Compile.yields_fail hfail

/-- How the predicates of a condition and of the pruned one are related. -/
theorem alike_predicates (conds : Json) :
    (compileConditions conds).EndsAlike (fun ts us => ∃ cs ds : Criteria Template,
      ts = cs.texts ∧ us = ds.texts ∧ Missing (blankChoices conds) cs ds)
        (compileConditions (pruned conds)) := by
  obtain ⟨n, hmissing, hcount⟩ := prunedTo_criteria conds
  have hcompile : Compile.EndsAlike (Missing (blankChoices conds))
      (Criteria.compile Entry.compile (criteria conds))
      (Criteria.compile Entry.compile (criteria (pruned conds))) := by
    rcases hcount with rfl | hrefuses
    · exact hmissing.compile _
    · exact (hmissing.compile _).of_not_yields fun s l ds l' => hrefuses.not_yields s l l' ds
  rw [compileConditions_eq, compileConditions_eq]
  exact hcompile.bind fun cs ds h => .pure ⟨cs, ds, rfl, rfl, h⟩

/-- The texts are the same exactly if no disjunction of falsy entries is among the conditions. -/
def Rewords (conds : Json) (t u : Template) : Prop :=
  (u.text = t.text ↔ blankChoices conds = 0) ∧ (blankChoices conds = 0 → u = t)

theorem rewords_self {conds : Json} (h : blankChoices conds = 0) (t : Template) :
    Rewords conds t t := ⟨⟨fun _ => h, fun _ => rfl⟩, fun _ => rfl⟩

/-- What is missing makes the text shorter. -/
theorem rewords_text {conds : Json} {cs ds : Criteria Template} (connective : Connective)
    (h : Missing (blankChoices conds) cs ds) :
    Rewords conds (connective.text cs.texts) (connective.text ds.texts) := by
  refine ⟨⟨fun htext => ?_, fun hnone => ?_⟩, fun hnone => by rw [h.eq_of_none hnone]⟩
  · by_contra hsome
    have hshorter := joinedLength_lt (h.gapped_lt hsome connective.gap)
    have hsame := length_of_text_eq htext
    rw [length_text, length_text] at hsame
    omega
  · rw [h.eq_of_none hnone]

theorem alike_text (connective : Connective) (conds : Json) :
    Compile.EndsAlike (Rewords conds)
      (if conds.isFalsy then return connective.text []
        else return connective.text (← compileConditions conds))
      (if (pruned conds).isFalsy then return connective.text []
        else return connective.text (← compileConditions (pruned conds))) := by
  rw [isFalsy_pruned]
  split
  · rename_i hfalsy
    exact .pure (rewords_self (blankChoices_of_out (.inl hfalsy)).1 _)
  · refine (alike_predicates conds).bind ?_
    rintro _ _ ⟨cs, ds, rfl, rfl, h⟩
    exact .pure (rewords_text connective h)

/-- Without the falsy entries of its lists a condition compiles with the same error, or with the
    same ledger and the same text, but for the disjunctions that have only falsy entries. -/
theorem rewords_pruned (conds : Json) :
    (compileAnd conds).EndsAlike (Rewords conds) (compileAnd (pruned conds)) ∧
      (compileOr conds).EndsAlike (Rewords conds) (compileOr (pruned conds)) :=
  ⟨alike_text .all conds, alike_text .any conds⟩

/-- A disjunction that has only a null entry. -/
def nullChoice : Json := .object [("$or", .array [.null])]

/-- With the null entry it never holds, and without it always. -/
theorem reworded_nullChoice : (Ledger.root "transactions").Reachable ∧
    ∃ t u, (compileAnd nullChoice).Yields amountsScope (.root "transactions") t
        (.root "transactions") ∧
      (compileAnd (pruned nullChoice)).Yields amountsScope (.root "transactions") u
        (.root "transactions") ∧
      t.text = "(0)" ∧ u.text = "1" := by
  refine ⟨.root _, Condition.all [Condition.any []], Condition.all [], ?_, ?_, rfl, rfl⟩
  · unfold compileAnd
    rw [compileConditions_eq]
    rfl
  · unfold compileAnd
    rw [compileConditions_eq]
    rfl

end QuerySheet.Sql

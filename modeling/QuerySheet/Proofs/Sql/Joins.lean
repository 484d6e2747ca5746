import QuerySheet.Proofs.Sql.Steps

/-!
# Joins along paths

* `Joins.WellFormed`: every join of a statement follows one reference from the root table or from
  an earlier join, under the key that spells out the path to it;
* `resolve_spec`, `resolveRef_spec`, `compileField_spec`: resolving a path and reading a field keep
  the joins well formed, also if they fail half way;
* `wellFormed_joins`: so do expressions, conditions, orders and paths, in any sequence.
-/

namespace QuerySheet.Sql

open Compile (Moves Follows After)
open Std (ExtTreeMap)

/-! ## 1. Well-formed joins -/

/-- A part of a dotted name. -/
def IsSegment (f : String) : Prop := f ≠ "" ∧ '.' ∉ f.toList

/-- In a table of the schema a field refers to the rows of `target`. -/
def Refers (schema : Schema) (table field target : String) : Prop :=
  ∃ t desc, schema.table? table = some t ∧ Schema.field? t field = some desc ∧
    desc.references = some target

namespace Joins

/-- The key of a path below a table. -/
def pathKey (table : String) (path : List String) : String := Path.join (table :: path)

/-- The table and the alias that the field at the end of a path is read from: those of the root,
    or of a join that stands before `place`. -/
inductive Parent (js : Joins) (table label : String) (place : Nat) :
    List String → String → String → Prop
  | root : Parent js table label place [] table label
  | joined {path : List String} {earlier : Nat} {j : Join} (hne : path ≠ [])
      (hlt : earlier < place) (h : js.entries[earlier]? = some (pathKey table path, j)) :
      Parent js table label place path j.table j.label

/-- A join at a place among the others follows the last field of the path that its key spells. -/
structure Follows (js : Joins) (schema : Schema) (table label : String) (place : Nat) (key : String)
    (j : Join) (path : List String) (parentTable : String) : Prop where
  key_eq : key = pathKey table (path ++ [j.field])
  segment : ∀ f ∈ path ++ [j.field], IsSegment f
  parent : js.Parent table label place path parentTable j.parent
  refers : Refers schema parentTable j.field j.table
  /-- The alias is the name of the table and a number. -/
  named : ∃ n : Nat, j.label = j.table ++ toString n

structure WellFormed (js : Joins) (schema : Schema) (table label : String) : Prop where
  nodup : (js.entries.map Prod.fst).Nodup
  index : ∀ (key : String) (place : Nat),
    js.index[key]? = some place ↔ ∃ j, js.entries[place]? = some (key, j)
  follows : ∀ place key j, js.entries[place]? = some (key, j) →
    ∃ path parentTable, js.Follows schema table label place key j path parentTable

variable {js : Joins} {schema : Schema} {table label key : String} {j : Join}

theorem wellFormed_empty : Joins.empty.WellFormed schema table label where
  nodup := List.nodup_nil
  index key place := by simp [Joins.empty]
  follows place key j h := by simp [Joins.empty] at h

namespace WellFormed

theorem get?_eq_some (h : js.WellFormed schema table label) :
    js.get? key = some j ↔ ∃ place : Nat, js.entries[place]? = some (key, j) := by
  constructor
  · intro hget
    obtain ⟨place, hplace, hentry⟩ := Option.bind_eq_some_iff.mp hget
    obtain ⟨j', hj'⟩ := (h.index key place).mp hplace
    obtain ⟨entry, he, hj⟩ := Option.bind_eq_some_iff.mp hentry
    rw [hj'] at he
    cases he
    cases hj
    exact ⟨place, hj'⟩
  · rintro ⟨place, hplace⟩
    have hindex : js.index[key]? = some place := (h.index key place).mpr ⟨j, hplace⟩
    simp [get?, hindex, hplace]

theorem contains_iff (h : js.WellFormed schema table label) :
    js.contains key = true ↔ ∃ (place : Nat) (j : Join), js.entries[place]? = some (key, j) := by
  rw [contains, ← ExtTreeMap.isSome_getElem?_eq_contains, Option.isSome_iff_exists]
  exact exists_congr fun place => h.index key place

/-- Two entries with one key are the same. -/
theorem eq_of_key (h : js.WellFormed schema table label) {place place' : Nat} {j' : Join}
    (hj : js.entries[place]? = some (key, j)) (hj' : js.entries[place']? = some (key, j')) :
    j = j' := by
  have hp : place = place' := Option.some.inj <|
    ((h.index key place).mpr ⟨j, hj⟩).symm.trans ((h.index key place').mpr ⟨j', hj'⟩)
  rw [hp, hj'] at hj
  cases hj
  rfl

end WellFormed

/-- More entries behind a join do not change what it follows. -/
theorem Parent.append {more : List (String × Join)} {index : ExtTreeMap String Nat} {place : Nat}
    {path : List String} {parentTable parentLabel : String}
    (h : js.Parent table label place path parentTable parentLabel) :
    Parent ⟨js.entries ++ more, index⟩ table label place path parentTable parentLabel := by
  cases h with
  | root => exact .root
  | joined hne hlt hj =>
    refine .joined hne hlt ?_
    rw [List.getElem?_append_left (List.getElem?_eq_some_iff.mp hj).1]
    exact hj

/-- A new key may be put behind the others. -/
theorem WellFormed.insert (h : js.WellFormed schema table label) (hnew : js.contains key = false)
    {path : List String} {parentTable : String}
    (hj : js.Follows schema table label js.entries.length key j path parentTable) :
    (js.insert key j).WellFormed schema table label := by
  have hentry {place : Nat} {k : String} {i : Join}
      (hi : (js.entries ++ [(key, j)])[place]? = some (k, i)) :
      js.entries[place]? = some (k, i) ∨ place = js.entries.length ∧ k = key ∧ i = j := by
    rcases Nat.lt_or_ge place js.entries.length with hlt | hge
    · rw [List.getElem?_append_left hlt] at hi
      exact .inl hi
    · rw [List.getElem?_append_right hge] at hi
      obtain ⟨hlen, hval⟩ := List.getElem?_eq_some_iff.mp hi
      have hzero : place - js.entries.length = 0 := by simpa using hlen
      simp only [hzero, List.getElem_cons_zero, Prod.mk.injEq] at hval
      exact .inr ⟨by omega, hval.1.symm, hval.2.symm⟩
  have hfresh (place : Nat) (i : Join) : js.entries[place]? ≠ some (key, i) := by
    intro hi
    have : js.contains key = true := h.contains_iff.mpr ⟨place, i, hi⟩
    rw [hnew] at this
    cases this
  rw [insert_of_not_contains hnew]
  refine ⟨?_, fun k place => ?_, fun place k i hi => ?_⟩
  · rw [List.map_append, List.nodup_append]
    refine ⟨h.nodup, List.pairwise_singleton _ _, fun k hk k' hk' e => ?_⟩
    obtain ⟨⟨k'', i⟩, hi, rfl⟩ := List.mem_map.mp hk
    obtain ⟨place, hplace⟩ := List.mem_iff_getElem?.mp hi
    rw [List.mem_singleton.mp hk'] at e
    cases e
    exact hfresh place i hplace
  · by_cases hk : key = k
    · subst hk
      simp only [ExtTreeMap.getElem?_insert_self, Option.some.injEq]
      constructor
      · rintro rfl
        exact ⟨j, by simp⟩
      · rintro ⟨i, hi⟩
        rcases hentry hi with hi | ⟨hplace, -⟩
        · exact absurd hi (hfresh place i)
        · exact hplace.symm
    · rw [ExtTreeMap.getElem?_insert, if_neg (by simpa using hk), h.index]
      refine exists_congr fun i => ⟨fun hi => ?_, fun hi => ?_⟩
      · rw [List.getElem?_append_left (List.getElem?_eq_some_iff.mp hi).1]
        exact hi
      · rcases hentry hi with hi | ⟨-, hk', -⟩
        · exact hi
        · exact absurd hk'.symm hk
  · rcases hentry hi with hi | ⟨rfl, rfl, rfl⟩
    · obtain ⟨p, t, hf⟩ := h.follows place k i hi
      exact ⟨p, t, hf.key_eq, hf.segment, hf.parent.append, hf.refers, hf.named⟩
    · exact ⟨path, parentTable, hj.key_eq, hj.segment, hj.parent.append, hj.refers, hj.named⟩

end Joins

/-! ## 2. Joins along a path -/

open Joins (pathKey)

variable {s : Scope} {l l' : Ledger}

/-- The joins of a ledger are well formed in a scope. -/
def JoinsOk (s : Scope) (l : Ledger) : Prop := l.joins.WellFormed s.schema s.table s.label

/-- Joins were put behind those that were there, each under an alias with the next number. -/
def Gains (l l' : Ledger) : Prop :=
  ∃ more, l'.joins.entries = l.joins.entries ++ more ∧
    l'.aliasCount = l.aliasCount + more.length ∧
    ∀ (k : Nat) entry, more[k]? = some entry →
      entry.2.label = entry.2.table ++ toString (l.aliasCount + k + 1)

namespace Gains

theorem of_eq (hjoins : l'.joins = l.joins) (hcount : l'.aliasCount = l.aliasCount) : Gains l l' :=
  ⟨[], by rw [hjoins, List.append_nil], by rw [hcount, List.length_nil, Nat.add_zero],
    fun k entry h => by simp at h⟩

theorem trans {l₁ l₂ l₃ : Ledger} (h : Gains l₁ l₂) (h' : Gains l₂ l₃) : Gains l₁ l₃ := by
  obtain ⟨more, hentries, hcount, hlabel⟩ := h
  obtain ⟨more', hentries', hcount', hlabel'⟩ := h'
  refine ⟨more ++ more', by rw [hentries', hentries, List.append_assoc],
    by rw [hcount', hcount, List.length_append, Nat.add_assoc], fun k entry hk => ?_⟩
  rcases Nat.lt_or_ge k more.length with hlt | hge
  · rw [List.getElem?_append_left hlt] at hk
    exact hlabel k entry hk
  · rw [List.getElem?_append_right hge] at hk
    have hplace : l₂.aliasCount + (k - more.length) = l₁.aliasCount + k := by omega
    rw [hlabel' _ entry hk, hplace]

/-- One join more, under a new key. -/
theorem insert {key : String} {j : Join} (hnew : l.joins.contains key = false)
    (hjoins : l'.joins = l.joins.insert key j) (hcount : l'.aliasCount = l.aliasCount + 1)
    (hlabel : j.label = j.table ++ toString (l.aliasCount + 1)) : Gains l l' := by
  refine ⟨[(key, j)], by rw [hjoins, Joins.insert_of_not_contains hnew], hcount,
    fun k entry hk => ?_⟩
  obtain ⟨hlt, rfl⟩ := List.getElem?_eq_some_iff.mp hk
  have hk : k = 0 := by simpa using hlt
  subst hk
  exact hlabel

theorem isPrefix (h : Gains l l') : l.joins.entries <+: l'.joins.entries := by
  obtain ⟨more, hentries, -⟩ := h
  exact ⟨more, hentries.symm⟩

end Gains

/-- The joins stay well formed, and none of those that were there is lost. -/
def Extends (s : Scope) (l l' : Ledger) : Prop := JoinsOk s l → JoinsOk s l' ∧ Gains l l'

theorem Extends.of_eq (hjoins : l'.joins = l.joins) (hcount : l'.aliasCount = l.aliasCount) :
    Extends s l l' := by
  intro hl
  unfold JoinsOk at hl ⊢
  rw [hjoins]
  exact ⟨hl, .of_eq hjoins hcount⟩

theorem Extends.refl (s : Scope) (l : Ledger) : Extends s l l := .of_eq rfl rfl

theorem Extends.trans {l₁ l₂ l₃ : Ledger} (h : Extends s l₁ l₂) (h' : Extends s l₂ l₃) :
    Extends s l₁ l₃ := by
  intro hl
  obtain ⟨h₂, hg⟩ := h hl
  obtain ⟨h₃, hg'⟩ := h' h₂
  exact ⟨h₃, hg.trans hg'⟩

theorem pathKey_nil {table : String} : pathKey table [] = table := rfl

theorem pathKey_concat {table field : String} {path : List String} :
    pathKey table (path ++ [field]) = Path.key (pathKey table path) field := by
  unfold pathKey Path.join Path.key
  rw [← List.cons_append, String.intercalate_append_of_ne_nil (by simp) (by simp),
    String.intercalate_singleton]

theorem join_segments {path : String} : Path.join (Path.segments path) = path := by
  unfold Path.join Path.segments Separated.split
  apply String.toList_injective
  rw [String.toList_intercalate, List.map_map]
  have hmap : (String.toList ∘ String.ofList) = id := funext fun cs => String.toList_ofList
  rw [hmap, List.map_id]
  exact Separated.intercalate_parts '.' path.toList

theorem key_eq_pathKey {table path : String} :
    Path.key table path = pathKey table (Path.segments path) := by
  have hne : Path.segments path ≠ [] := Separated.split_ne_nil _ _
  unfold pathKey Path.join Path.key
  rw [String.intercalate_cons_of_ne_nil hne]
  exact congrArg (table ++ "." ++ ·) join_segments.symm

/-- All joins along a path are there. -/
def Known (js : Joins) (table : String) (path : List String) : Prop :=
  ∀ pre, pre ≠ [] → pre <+: path → js.contains (pathKey table pre) = true

theorem known_nil {js : Joins} {table : String} : Known js table [] :=
  fun _ hne hpre => absurd (List.prefix_nil.mp hpre) hne

theorem Known.concat {js : Joins} {table field : String} {path : List String}
    (h : Known js table path) (hlast : js.contains (pathKey table (path ++ [field])) = true) :
    Known js table (path ++ [field]) := by
  intro pre hne hpre
  rcases List.prefix_concat_iff.mp hpre with rfl | hpre
  · exact hlast
  · exact h pre hne hpre

theorem Joins.WellFormed.contains_of_prefix {js js' : Joins} {schema : Schema}
    {table label key : String} (h : js.WellFormed schema table label)
    (h' : js'.WellFormed schema table label) (hpre : js.entries <+: js'.entries)
    (hc : js.contains key = true) : js'.contains key = true := by
  obtain ⟨place, j, hj⟩ := h.contains_iff.mp hc
  refine h'.contains_iff.mpr ⟨place, j, ?_⟩
  obtain ⟨more, hmore⟩ := hpre
  rw [← hmore, List.getElem?_append_left (List.getElem?_eq_some_iff.mp hj).1]
  exact hj

/-- The parent of a path, as it is handed on while the path is resolved. -/
def parentKey (table : String) (path : List String) : Option String :=
  if path = [] then none else some (pathKey table path)

theorem makeJoin_spec (h : JoinsOk s l) {path : List String} {field : String} :
    (Path.makeJoin (parentKey s.table path) field).After s l
      (fun j l' => l'.joins = l.joins ∧ l'.aliasCount = l.aliasCount + 1 ∧ j.field = field ∧
        j.label = j.table ++ toString (l.aliasCount + 1) ∧
        ∃ parentTable, l.joins.Parent s.table s.label l.joins.entries.length path parentTable
          j.parent ∧ Refers s.schema parentTable field j.table)
      (fun l' => l' = l) := by
  unfold Path.makeJoin Compile.nextAlias parentKey
  by_cases hpath : path = []
  · subst hpath
    simp only [↓reduceIte, Compile.after_bind, Compile.after_read, Compile.after_pure,
      Compile.after_require, Compile.after_modify, Compile.after_get, implies_true, and_true,
      true_and]
    intro t ht desc hdesc target htarget
    exact ⟨s.table, .root, t, desc, ht, hdesc, htarget⟩
  · simp only [if_neg hpath, Compile.after_bind, Compile.after_read, Compile.after_pure,
      Compile.after_require, Compile.after_modify, Compile.after_get, implies_true, and_true,
      true_and]
    intro j hj t ht desc hdesc target htarget
    obtain ⟨place, hplace⟩ := h.get?_eq_some.mp hj
    exact ⟨j.table,
      .joined hpath (List.getElem?_eq_some_iff.mp hplace).1 hplace, t, desc, ht, hdesc, htarget⟩

theorem ensureJoin_spec (h : JoinsOk s l) {path : List String} {field : String}
    (hseg : ∀ f ∈ path ++ [field], IsSegment f) :
    (Path.ensureJoin (parentKey s.table path) field (pathKey s.table (path ++ [field]))).After s l
      (fun _ l' => Extends s l l' ∧ l'.joins.contains (pathKey s.table (path ++ [field])) = true)
      (Extends s l) := by
  unfold Path.ensureJoin
  simp only [Compile.after_bind, Compile.after_get]
  by_cases hc : l.joins.contains (pathKey s.table (path ++ [field])) = true
  · rw [if_pos hc]
    exact ⟨.refl s l, hc⟩
  · rw [if_neg hc]
    rw [Compile.after_bind]
    refine (makeJoin_spec h).mono (fun j l₁ hj => ?_) fun l₁ hl₁ => hl₁ ▸ .refl s l
    obtain ⟨hjoins, hcount, rfl, hlabel, parentTable, hparent, hrefers⟩ := hj
    have hnew : l.joins.contains (pathKey s.table (path ++ [j.field])) = false :=
      Bool.not_eq_true _ ▸ hc
    rw [Compile.after_modify, hjoins]
    have hinsert : (l.joins.insert (pathKey s.table (path ++ [j.field])) j).WellFormed s.schema
        s.table s.label :=
      h.insert hnew ⟨rfl, hseg, hparent, hrefers, _, hlabel⟩
    refine ⟨fun _ => ⟨hinsert, .insert hnew rfl hcount hlabel⟩, ?_⟩
    refine hinsert.contains_iff.mpr ⟨l.joins.entries.length, j, ?_⟩
    rw [Joins.insert_of_not_contains hnew]
    simp

theorem Known.extend {path : List String} (h : Known l.joins s.table path)
    (hl : JoinsOk s l) (hl' : Extends s l l') : Known l'.joins s.table path := by
  intro pre hne hpre
  obtain ⟨hok, hgains⟩ := hl' hl
  exact hl.contains_of_prefix hok hgains.isPrefix (h pre hne hpre)

theorem ensureJoins_spec (hl : JoinsOk s l) {path : List String} (fields : List String)
    (hknown : Known l.joins s.table path) (hseg : ∀ f ∈ path ++ fields, IsSegment f) :
    (Path.ensureJoins (parentKey s.table path) (pathKey s.table path) fields).After s l
      (fun _ l' => Extends s l l' ∧ Known l'.joins s.table (path ++ fields)) (Extends s l) := by
  -- The part of the path that is known grows by one field at each step.
  induction fields generalizing path l with
  | nil =>
    rw [List.append_nil]
    exact ⟨.refl s l, hknown⟩
  | cons field rest ih =>
    have hsplit : path ++ field :: rest = (path ++ [field]) ++ rest := by simp
    rw [hsplit] at hseg ⊢
    unfold Path.ensureJoins
    rw [Compile.after_bind, ← pathKey_concat]
    refine (ensureJoin_spec hl fun f hf => hseg f (List.mem_append_left _ hf)).mono
      (fun _ l₁ h₁ => ?_) fun _ h₁ => h₁
    obtain ⟨hext, hlast⟩ := h₁
    have hnext : parentKey s.table (path ++ [field]) = some (pathKey s.table (path ++ [field])) :=
      if_neg (by simp)
    rw [← hnext]
    refine (ih (hext hl).1 ((hknown.extend hl hext).concat hlast) hseg).mono (fun _ l₂ h₂ => ?_)
      fun l₂ h₂ => hext.trans h₂
    exact ⟨hext.trans h₂.1, h₂.2⟩

/-- Along a path that is known nothing is added. -/
theorem ensureJoins_known {path : List String} (fields : List String)
    (hknown : Known l.joins s.table (path ++ fields)) :
    (Path.ensureJoins (parentKey s.table path) (pathKey s.table path) fields).After s l
      (fun _ l' => l' = l) (fun l' => l' = l) := by
  induction fields generalizing path with
  | nil => rfl
  | cons field rest ih =>
    have hsplit : path ++ field :: rest = (path ++ [field]) ++ rest := by simp
    rw [hsplit] at hknown
    have hhere : l.joins.contains (pathKey s.table (path ++ [field])) = true :=
      hknown _ (by simp) (List.prefix_append _ _)
    unfold Path.ensureJoins Path.ensureJoin
    rw [← pathKey_concat]
    simp only [Compile.after_bind, Compile.after_get, if_pos hhere, Compile.after_pure]
    have hnext : parentKey s.table (path ++ [field]) = some (pathKey s.table (path ++ [field])) :=
      if_neg (by simp)
    rw [← hnext]
    exact ih hknown

theorem isSegment_of_mem {path f : String} (hf : f ∈ Path.segments path)
    (hne : ¬ (Path.segments path).any String.isEmpty = true) : IsSegment f := by
  refine ⟨fun e => hne (List.any_eq_true.mpr ⟨f, hf, ?_⟩), Separated.not_mem_of_mem_split hf⟩
  rw [e]
  rfl

/-- What is known of a path once it is resolved, and the join that it lands on. -/
structure Resolved (s : Scope) (l : Ledger) (path : String) (j : Join) : Prop where
  known : Known l.joins s.table (Path.segments path)
  segment : ∀ f ∈ Path.segments path, IsSegment f
  entry : ∃ place : Nat, l.joins.entries[place]? = some (pathKey s.table (Path.segments path), j)

theorem resolve_spec (hl : JoinsOk s l) (path : String) :
    (Path.resolve path).After s l (fun j l' => Extends s l l' ∧ Resolved s l' path j)
      (Extends s l) := by
  unfold Path.resolve
  by_cases hempty : (Path.segments path).any String.isEmpty = true
  · simp only [hempty, ↓reduceIte, Compile.after_bind, Compile.after_fail]
    exact .refl s l
  · simp only [hempty, Bool.false_eq_true, ↓reduceIte, Compile.after_bind, Compile.after_read,
      Compile.after_get, Compile.after_require]
    have hseg : ∀ f ∈ [] ++ Path.segments path, IsSegment f :=
      fun f hf => isSegment_of_mem hf hempty
    refine (ensureJoins_spec hl (Path.segments path) known_nil hseg).mono (fun _ l₁ h₁ => ?_)
      fun _ h₁ => h₁
    obtain ⟨hext, hknown⟩ := h₁
    refine ⟨fun j hj => ⟨hext, hknown, hseg, ?_⟩, fun _ => hext⟩
    rw [key_eq_pathKey] at hj
    exact (hext hl).1.get?_eq_some.mp hj

theorem resolve_known (hl : JoinsOk s l) {path : String} {j : Join} (hj : Resolved s l path j) :
    (Path.resolve path).After s l (fun j' l' => j' = j ∧ l' = l) (fun l' => l' = l) := by
  have hne : ¬ (Path.segments path).any String.isEmpty = true := by
    intro h
    obtain ⟨f, hf, hempty⟩ := List.any_eq_true.mp h
    exact (hj.segment f hf).1 (String.isEmpty_iff.mp hempty)
  unfold Path.resolve
  simp only [hne, Bool.false_eq_true, ↓reduceIte, Compile.after_bind, Compile.after_read,
    Compile.after_get, Compile.after_require]
  have hknown : Known l.joins s.table ([] ++ Path.segments path) := hj.known
  refine (ensureJoins_known (Path.segments path) hknown).mono (fun _ l₁ h₁ => ?_) fun _ h₁ => h₁
  subst h₁
  refine ⟨fun j' hj' => ⟨?_, rfl⟩, fun _ => rfl⟩
  rw [key_eq_pathKey] at hj'
  obtain ⟨place, hplace⟩ := hl.get?_eq_some.mp hj'
  obtain ⟨place', hplace'⟩ := hj.entry
  exact hl.eq_of_key hplace hplace'

/-! ## 3. Fields -/

/-- What is known before the join of a reference is looked for: the path to it is resolved, and
    the field at its end refers to the target. -/
inductive RefKnown (s : Scope) (l : Ledger) (field target : String) : Option String → Prop
  | root (h : Refers s.schema s.table field target) : RefKnown s l field target none
  | below {path : String} {j : Join} (hj : Resolved s l path j)
      (h : Refers s.schema j.table field target) : RefKnown s l field target (some path)

/-- A join is among those of a ledger. -/
def Joined (l : Ledger) (j : Join) : Prop :=
  ∃ (place : Nat) (key : String), l.joins.entries[place]? = some (key, j)

/-- The join of a reference that was not there before is put behind the others. -/
theorem insert_ref_spec (hl : JoinsOk s l) {path : List String} {parentTable parentLabel : String}
    {field target label : String}
    (hseg : ∀ f ∈ path ++ [field], IsSegment f)
    (hnew : l.joins.get? (pathKey s.table (path ++ [field])) = none)
    (hparent : l.joins.Parent s.table s.label l.joins.entries.length path parentTable parentLabel)
    (hrefers : Refers s.schema parentTable field target)
    (hlabel : label = target ++ toString (l.aliasCount + 1))
    (hl' : l'.joins = l.joins.insert (pathKey s.table (path ++ [field]))
      ⟨target, label, field, parentLabel, true⟩) (hcount : l'.aliasCount = l.aliasCount + 1) :
    Extends s l l' ∧ Joined l' ⟨target, label, field, parentLabel, true⟩ := by
  have hcontains : l.joins.contains (pathKey s.table (path ++ [field])) = false := by
    refine Bool.eq_false_iff.mpr fun hc => ?_
    obtain ⟨place, j, hj⟩ := hl.contains_iff.mp hc
    rw [hl.get?_eq_some.mpr ⟨place, hj⟩] at hnew
    cases hnew
  constructor
  · intro _
    unfold JoinsOk
    rw [hl']
    exact ⟨hl.insert hcontains ⟨rfl, hseg, hparent, hrefers, _, hlabel⟩,
      .insert hcontains hl' hcount hlabel⟩
  · refine ⟨l.joins.entries.length, pathKey s.table (path ++ [field]), ?_⟩
    rw [hl', Joins.insert_of_not_contains hcontains]
    simp

theorem resolveRef_spec (hl : JoinsOk s l) {parent : Option String} {field target : String}
    (hfield : IsSegment field) (hknown : RefKnown s l field target parent) :
    (Path.resolveRef parent field target).After s l (fun j l' => Extends s l l' ∧ Joined l' j)
      (Extends s l) := by
  unfold Path.resolveRef Compile.nextAlias
  rw [Compile.after_bind, Compile.after_read]
  cases hknown with
  | root hrefers =>
    have hkey : Path.key s.table field = pathKey s.table ([] ++ [field]) := by
      rw [pathKey_concat, pathKey_nil]
    simp only [Compile.after_bind, Compile.after_get, hkey]
    split
    · rename_i j hj
      obtain ⟨place, hplace⟩ := hl.get?_eq_some.mp hj
      exact ⟨.refl s l, place, _, hplace⟩
    · rename_i hnone
      simp only [Compile.after_bind, Compile.after_pure, Compile.after_modify, Compile.after_get]
      have hseg : ∀ f ∈ [] ++ [field], IsSegment f := fun f hf => List.mem_singleton.mp hf ▸ hfield
      exact insert_ref_spec hl hseg hnone .root hrefers rfl rfl rfl
  | @below path j hj hrefers =>
    have hkey : Path.key s.table (Path.key path field) =
        pathKey s.table (Path.segments path ++ [field]) := by
      rw [pathKey_concat, ← key_eq_pathKey]
      simp only [Path.key, String.append_assoc]
    simp only [Compile.after_bind, Compile.after_get, hkey]
    split
    · rename_i j hj
      obtain ⟨place, hplace⟩ := hl.get?_eq_some.mp hj
      exact ⟨.refl s l, place, _, hplace⟩
    · rename_i hnone
      -- The path is resolved already, so the label comes from the join that is known.
      rw [Compile.after_bind]
      refine (resolve_known hl hj).mono (fun j' l₁ h₁ => ?_) fun l₁ h₁ => h₁ ▸ .refl s l
      obtain ⟨rfl, rfl⟩ := h₁
      simp only [Compile.after_bind, Compile.after_pure, Compile.after_modify, Compile.after_get]
      obtain ⟨place, hplace⟩ := hj.entry
      have hseg : ∀ f ∈ Path.segments path ++ [field], IsSegment f := by
        intro f hf
        rcases List.mem_append.mp hf with hf | hf
        · exact hj.segment f hf
        · exact List.mem_singleton.mp hf ▸ hfield
      exact insert_ref_spec hl hseg hnone
        (.joined (Separated.split_ne_nil _ _) (List.getElem?_eq_some_iff.mp hplace).1 hplace)
        hrefers rfl rfl rfl

theorem isSegment_split {name : String} (h : ¬ (Path.split name).2.isEmpty = true) :
    IsSegment (Path.split name).2 := by
  refine ⟨fun e => h (by rw [e]; rfl), ?_⟩
  have hne : Path.segments name ≠ [] := Separated.split_ne_nil _ _
  have hlast : (Path.segments name).getLastD "" = (Path.segments name).getLast hne := by
    rw [List.getLastD_eq_getLast?, List.getLast?_eq_some_getLast hne, Option.getD_some]
  show '.' ∉ ((Path.segments name).getLastD "").toList
  rw [hlast]
  exact Separated.not_mem_of_mem_split (List.getLast_mem hne)

/-- A name that columns are read from: that of the root, or the alias of a join. -/
inductive HasAlias (s : Scope) (l : Ledger) : String → Prop
  | root : HasAlias s l s.label
  | joined {j : Join} (h : Joined l j) : HasAlias s l j.label

/-- A name of a column: the id, or a field of a table of the schema; there is no dot in it. -/
def IsColumnName (schema : Schema) (name : String) : Prop :=
  IsSegment name ∧
    (name = "id" ∨ ∃ table t desc, schema.table? table = some t ∧ Schema.field? t name = some desc)

/-- An operand that reads a column. -/
def IsColumn (s : Scope) (l : Ledger) (o : Operand) : Prop :=
  ∃ label name type, o = .fragment (.ofString (label ++ "." ++ name)) type ∧ HasAlias s l label ∧
    IsColumnName s.schema name

theorem isColumn_of {label name : String} {type : ValueType} (hlabel : HasAlias s l label)
    (hname : IsColumnName s.schema name) :
    IsColumn s l (.fragment (Template.ofString label ++ "." ++ name) type) := by
  refine ⟨label, name, type, ?_, hlabel, hname⟩
  rw [Template.ofString_append, Template.ofString_append]

theorem isColumn_id {j : Join} {type : ValueType} (hj : Joined l j) :
    IsColumn s l (.fragment (Template.ofString j.label ++ ".id") type) := by
  refine ⟨j.label, "id", type, ?_, .joined hj, ⟨by decide, by decide⟩, .inl rfl⟩
  rw [String.append_assoc, Template.ofString_append]
  rfl

/-- Reading a field keeps the joins well formed, and gives a column. -/
theorem compileField_spec (hl : JoinsOk s l) (reference : String) :
    (Path.compileField reference).After s l (fun o l' => Extends s l l' ∧ IsColumn s l' o)
      (Extends s l) := by
  have hname : (Path.fieldName reference).After s l (fun _ l' => l' = l) (fun l' => l' = l) := by
    unfold Path.fieldName
    split
    · simp only [Compile.after_bind, Compile.after_read, Compile.after_require, implies_true,
        and_self]
    · rfl
  unfold Path.compileField
  rw [Compile.after_bind]
  refine hname.mono (fun name l₁ h₁ => ?_) fun l₁ h₁ => h₁ ▸ .refl s l
  subst h₁
  dsimp only
  split
  · exact .refl s l₁
  · rename_i hempty
    have hfield := isSegment_split hempty
    generalize (Path.split name).2 = field at hfield ⊢
    simp only [Compile.after_bind, Compile.after_read]
    cases (Path.split name).1 with
    | none =>
      simp only [Compile.after_bind, Compile.after_pure, Compile.after_require]
      refine ⟨fun t ht => ⟨fun desc hdesc => ?_, fun _ => .refl s l₁⟩, fun _ => .refl s l₁⟩
      have hcolumn : IsColumnName s.schema field := ⟨hfield, .inr ⟨s.table, t, desc, ht, hdesc⟩⟩
      split
      · rename_i target htarget
        split
        · rw [Compile.after_bind]
          exact (resolveRef_spec hl hfield (.root ⟨t, desc, ht, hdesc, htarget⟩)).mono
            (fun _ _ h => ⟨h.1, isColumn_id h.2⟩) fun _ h => h
        · exact ⟨.refl s l₁, isColumn_of .root hcolumn⟩
      · exact ⟨.refl s l₁, isColumn_of .root hcolumn⟩
    | some path =>
      simp only [Compile.after_bind, Compile.after_pure, Compile.after_require]
      refine (resolve_spec hl path).mono (fun j l₂ h₂ => ?_) fun _ h₂ => h₂
      obtain ⟨hext, hj⟩ := h₂
      obtain ⟨place, hplace⟩ := hj.entry
      have halias : HasAlias s l₂ j.label := .joined ⟨place, _, hplace⟩
      refine ⟨fun t ht => ⟨fun desc hdesc => ?_, fun _ => hext⟩, fun _ => hext⟩
      have hcolumn : IsColumnName s.schema field := ⟨hfield, .inr ⟨j.table, t, desc, ht, hdesc⟩⟩
      split
      · rename_i target htarget
        split
        · rw [Compile.after_bind]
          exact (resolveRef_spec (hext hl).1 hfield (.below hj ⟨t, desc, ht, hdesc, htarget⟩)).mono
            (fun _ _ h => ⟨hext.trans h.1, isColumn_id h.2⟩) fun _ h => hext.trans h
        · exact ⟨hext, isColumn_of halias hcolumn⟩
      · exact ⟨hext, isColumn_of halias hcolumn⟩

/-! ## 4. Expressions, conditions and orders -/

/-- The joins and the number of aliases are the same. -/
def SameJoins (l l' : Ledger) : Prop := l'.joins = l.joins ∧ l'.aliasCount = l.aliasCount

theorem sameJoins_pushSite (name : String) :
    Moves (fun _ => SameJoins) (Compile.pushSite name) := fun _ _ => ⟨rfl, rfl⟩

theorem sameJoins_inferParam (ref : ParamRef) (type : ValueType) :
    Moves (fun _ => SameJoins) (Compile.inferParam ref type) :=
  moves_inferParam (fun _ _ _ _ => ⟨rfl, rfl⟩) ref type

theorem sameJoins_repeatSitesFrom (mark : Nat) :
    Moves (fun _ => SameJoins) (Compile.repeatSitesFrom mark) := fun _ _ => ⟨rfl, rfl⟩

/-- A step that leaves the joins alone. -/
theorem extends_of_joins {α : Type} {m : Compile α} (h : Moves (fun _ => SameJoins) m) :
    Moves Extends m := by
  intro s l
  obtain ⟨hjoins, hcount⟩ := h s l
  exact .of_eq hjoins hcount

theorem trace_extends : Compile.Trace Extends where
  refl := .refl
  trans _ _ _ _ := Extends.trans
  frames _ _ _ _ h := h

theorem steps_extends : Steps Part.AnyName (Follows Extends) where
  toClosed := trace_extends.closed
  withField _ h s l := h { s with field := some _ } l
  compileField name _ _ _ hl :=
    ((compileField_spec hl name).mono (fun _ _ h => h.1) fun _ h => h).ledger hl
  pushSite name := extends_of_joins (sameJoins_pushSite name)
  inferParam ref type := extends_of_joins (sameJoins_inferParam ref type)
  repeatSitesFrom mark := extends_of_joins (sameJoins_repeatSitesFrom mark)

theorem extends_window : Moves Extends window :=
  holds_windowOf steps_extends (.fail trace_extends _) maxNesting

/-- What may be compiled in the scope of a statement's root. -/
inductive Fragment where
  | expr (e : Json)
  | function (fields : Fields)
  | op (field : String) (op : Json)
  | conditions (conds : Json)
  | orderBy (orders : List Json)
  | path (name : String)

/-- The ledger that is left when a fragment was compiled, whether it failed or not. -/
def Fragment.ledger (s : Scope) (l : Ledger) : Fragment → Ledger
  | .expr e => ((compileExpr e).outcome s l).2
  | .function fields => ((compileFunction fields).outcome s l).2
  | .op field v => ((compileOp field v).outcome s l).2
  | .conditions conds => ((compileConditions conds).outcome s l).2
  | .orderBy orders => ((compileOrderBy orders).outcome s l).2
  | .path name => ((Path.resolve name).outcome s l).2

theorem Fragment.extends (s : Scope) (l : Ledger) (f : Fragment) : Extends s l (f.ledger s l) := by
  cases f with
  | expr e => exact holds_compileExpr steps_extends extends_window e s l
  | function fields => exact holds_compileFunction steps_extends extends_window fields s l
  | op field op => exact holds_compileOp steps_extends extends_window field op s l
  | conditions conds => exact holds_compileConditions steps_extends extends_window conds s l
  | orderBy orders => exact holds_compileOrderBy steps_extends extends_window orders s l
  | path name =>
    intro hl
    exact ((resolve_spec hl name).mono (fun _ _ h => h.1) fun _ h => h).ledger hl

/-- The joins of a statement are well formed, whatever fragments were compiled for it and whether
    they failed or not. -/
theorem wellFormed_joins (schema : Schema) (table label : String) (validateRefs : Bool)
    (fragments : List Fragment) :
    (fragments.foldl (Fragment.ledger (.root schema table label validateRefs))
      (.root table)).joins.WellFormed schema table label := by
  have hroot : JoinsOk (.root schema table label validateRefs) (.root table) :=
    Joins.wellFormed_empty
  generalize Ledger.root table = l at hroot
  induction fragments generalizing l with
  | nil => exact hroot
  | cons f fragments ih => exact ih _ (f.extends _ l hroot).1

end QuerySheet.Sql

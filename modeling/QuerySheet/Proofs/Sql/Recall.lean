import QuerySheet.Proofs.Sql.Joins

/-!
# Paths that are remembered

The joins of a path stay in the ledger once it is resolved, and resolving it again finds them.

* `Joins.Grows`: entries were put behind those that were there, and every key leads where it led;
* `Ledger.AddsJoins`: joins were added and aliases given out, and nothing else was changed;
* `Remembers`: a compilation does no more than that, and with any ledger that has its joins it
  gives the same result and leaves the ledger as it is. So it is with paths (`remembers_resolve`,
  `remembers_resolveRef`) and with the names of fields (`remembers_compileField`).

None of this asks which reference a join follows, so it holds for any tables in scope.
-/

namespace QuerySheet.Sql

open Std (ExtTreeMap)
open Compile (Moves Trace)
open Joins (pathKey)

/-! ## 1. Growing joins -/

namespace Joins

variable {js js' js₁ : Joins} {key : String} {j : Join}

/-- Every key that is known leads to an entry. -/
def Indexed (js : Joins) : Prop :=
  ∀ (key : String) (place : Nat), js.index[key]? = some place → place < js.entries.length

structure Grows (js js' : Joins) : Prop where
  entries : js.entries <+: js'.entries
  index : ∀ (key : String) (place : Nat), js.index[key]? = some place →
    js'.index[key]? = some place

theorem indexed_empty : Joins.empty.Indexed := fun key place h => by simp [empty] at h

theorem contains_iff_index :
    js.contains key = true ↔ ∃ place : Nat, js.index[key]? = some place := by
  rw [contains, ← ExtTreeMap.isSome_getElem?_eq_contains, Option.isSome_iff_exists]

/-- A key that is known has a join. -/
theorem Indexed.get?_of_contains (h : js.Indexed) (hkey : js.contains key = true) :
    ∃ j, js.get? key = some j := by
  obtain ⟨place, hplace⟩ := contains_iff_index.mp hkey
  obtain ⟨entry, hentry⟩ : ∃ entry, js.entries[place]? = some entry :=
    ⟨_, List.getElem?_eq_getElem (h key place hplace)⟩
  exact ⟨entry.2, by simp [get?, hplace, hentry]⟩

theorem Indexed.not_contains (h : js.Indexed) (hkey : js.get? key = none) :
    js.contains key = false := by
  refine Bool.eq_false_iff.mpr fun hcontains => ?_
  obtain ⟨j, hj⟩ := h.get?_of_contains hcontains
  rw [hkey] at hj
  cases hj

namespace Grows

theorem refl (js : Joins) : js.Grows js := ⟨List.prefix_refl _, fun _ _ h => h⟩

theorem trans (h : js.Grows js₁) (h' : js₁.Grows js') : js.Grows js' :=
  ⟨h.entries.trans h'.entries,
    fun key place hplace => h'.index key place (h.index key place hplace)⟩

theorem contains (h : js.Grows js') (hkey : js.contains key = true) : js'.contains key = true := by
  obtain ⟨place, hplace⟩ := contains_iff_index.mp hkey
  exact contains_iff_index.mpr ⟨place, h.index key place hplace⟩

/-- What is found under a key is found there later. -/
theorem get? (h : js.Grows js') (hj : js.get? key = some j) : js'.get? key = some j := by
  obtain ⟨place, hplace, hentry⟩ := Option.bind_eq_some_iff.mp hj
  obtain ⟨entry, hentry, hjoin⟩ := Option.bind_eq_some_iff.mp hentry
  obtain ⟨more, hmore⟩ := h.entries
  have hentry' : js'.entries[place]? = some entry := by
    rw [← hmore, List.getElem?_append_left (List.getElem?_eq_some_iff.mp hentry).1, hentry]
  simpa [Joins.get?, h.index key place hplace, hentry'] using hjoin

end Grows

section Insert

variable (hnew : js.contains key = false)

include hnew

theorem grows_insert : js.Grows (js.insert key j) := by
  rw [insert_of_not_contains hnew]
  refine ⟨List.prefix_append _ _, fun k place hplace => ?_⟩
  have hne : key ≠ k := by
    rintro rfl
    rw [contains_iff_index.mpr ⟨place, hplace⟩] at hnew
    cases hnew
  rw [ExtTreeMap.getElem?_insert, if_neg (by simpa using hne), hplace]

theorem index_insert (k : String) (place : Nat) (h : (js.insert key j).index[k]? = some place) :
    k = key ∧ place = js.entries.length ∨ js.index[k]? = some place := by
  rw [insert_of_not_contains hnew] at h
  rw [ExtTreeMap.getElem?_insert] at h
  split at h
  · rename_i hk
    exact .inl ⟨(by simpa using hk : key = k).symm, (Option.some.inj h).symm⟩
  · exact .inr h

theorem Indexed.insert (h : js.Indexed) : (js.insert key j).Indexed := by
  intro k place hplace
  have hlength : (js.insert key j).entries.length = js.entries.length + 1 := by
    rw [insert_of_not_contains hnew, List.length_append, List.length_singleton]
  rcases index_insert hnew k place hplace with ⟨-, rfl⟩ | hplace
  · omega
  · have := h k place hplace
    omega

theorem get?_insert : (js.insert key j).get? key = some j := by
  simp [insert_of_not_contains hnew, Joins.get?]

theorem contains_insert {k : String} (h : (js.insert key j).contains k = true) :
    k = key ∨ js.contains k = true := by
  obtain ⟨place, hplace⟩ := contains_iff_index.mp h
  rcases index_insert hnew k place hplace with ⟨rfl, -⟩ | hplace
  · exact .inl rfl
  · exact .inr (contains_iff_index.mpr ⟨place, hplace⟩)

end Insert

end Joins

/-! ## 2. Remembered results -/

variable {α β : Type} {m : Compile α} {s : Scope} {l l' l₁ : Ledger} {a : α}

structure Ledger.AddsJoins (l l' : Ledger) : Prop where
  rest : l' = { l with joins := l'.joins, aliasCount := l'.aliasCount }
  joins : l.joins.Grows l'.joins
  indexed : l'.joins.Indexed
  aliasCount : l.aliasCount ≤ l'.aliasCount

namespace Ledger.AddsJoins

theorem refl (h : l.joins.Indexed) : l.AddsJoins l := ⟨rfl, .refl _, h, Nat.le_refl _⟩

theorem trans (h : l.AddsJoins l₁) (h' : l₁.AddsJoins l') : l.AddsJoins l' where
  rest := by
    obtain ⟨hrest, -, -, -⟩ := h
    obtain ⟨hrest', -, -, -⟩ := h'
    rw [hrest', hrest]
  joins := h.joins.trans h'.joins
  indexed := h'.indexed
  aliasCount := Nat.le_trans h.aliasCount h'.aliasCount

/-- An alias and a join under a new key. -/
theorem insert (h : l.joins.Indexed) {key : String} (hnew : l.joins.contains key = false)
    (j : Join) :
    l.AddsJoins { l with joins := l.joins.insert key j, aliasCount := l.aliasCount + 1 } :=
  ⟨rfl, Joins.grows_insert hnew, h.insert hnew, Nat.le_succ _⟩

end Ledger.AddsJoins

/-- With any ledger that has these joins, a compilation gives `a` and leaves the ledger. -/
def Recalls (m : Compile α) (s : Scope) (js : Joins) (a : α) : Prop :=
  ∀ c : Ledger, js.Grows c.joins → m.Yields s c a c

theorem Recalls.bind {f : α → Compile β} {js js' : Joins} {b : β} (hm : Recalls m s js a)
    (hjoins : js.Grows js') (hf : Recalls (f a) s js' b) : Recalls (m >>= f) s js' b :=
  fun c hc => Compile.yields_bind.mpr ⟨a, c, hm c (hjoins.trans hc), hf c hc⟩

/-- A compilation adds joins only, and recalls its result. -/
def Remembers (α : Type) (m _ : Compile α) : Prop :=
  ∀ s l, l.joins.Indexed →
    m.After s l (fun a l' => l.AddsJoins l' ∧ Recalls m s l'.joins a) l.AddsJoins

theorem remembers_composes : Compile.Composes Remembers where
  pure a _ _ hl := Compile.after_pure.mpr ⟨.refl hl, fun _ _ => Compile.yields_pure.mpr ⟨rfl, rfl⟩⟩
  fail _ _ _ _ hl := Compile.after_fail.mpr (.refl hl)
  bind hm hf s l hl := by
    refine Compile.after_bind.mpr ((hm s l hl).mono (fun a l₁ ⟨hadds, hrecalls⟩ => ?_) fun _ h => h)
    refine (hf a s l₁ hadds.indexed).mono (fun b l₂ ⟨hadds', hrecalls'⟩ => ?_)
      fun _ h => hadds.trans h
    exact ⟨hadds.trans hadds', hrecalls.bind hadds'.joins hrecalls'⟩

/-! ## 3. Paths -/

theorem nextAlias_after (table : String) : (Compile.nextAlias table).After s l
    (fun _ l' => l' = { l with aliasCount := l.aliasCount + 1 }) fun _ => False := rfl

/-- The join of a path takes an alias, and is not among the joins yet. -/
theorem makeJoin_after (parent : Option String) (field : String) :
    (Path.makeJoin parent field).After s l
      (fun _ l' => l' = { l with aliasCount := l.aliasCount + 1 }) (· = l) := by
  have halong (table label : String) : (Path.joinAlong s.schema table label field).After s l
      (fun _ l' => l' = { l with aliasCount := l.aliasCount + 1 }) (· = l) := by
    unfold Path.joinAlong
    simp only [Compile.after_bind, Compile.after_require, Compile.after_pure, implies_true,
      and_true]
    exact fun _ _ _ _ target _ => (nextAlias_after target).mono (fun _ _ h => h) fun _ h => h.elim
  unfold Path.makeJoin
  rw [Compile.after_bind, Compile.after_read]
  cases parent with
  | none => exact halong _ _
  | some key =>
    rw [Compile.after_bind, Compile.after_get, Compile.after_bind, Compile.after_require]
    exact ⟨fun j _ => halong _ _, fun _ => rfl⟩

theorem remembers_ensureJoin (parent : Option String) (field key : String) :
    Compile.Holds Remembers (Path.ensureJoin parent field key) := by
  intro s l hl
  have hfound (js : Joins) (hkey : js.contains key = true) :
      Recalls (Path.ensureJoin parent field key) s js () := by
    intro c hc
    unfold Path.ensureJoin
    refine Compile.yields_bind.mpr ⟨c, c, Compile.yields_get.mpr ⟨rfl, rfl⟩, ?_⟩
    rw [if_pos (hc.contains hkey)]
    exact Compile.yields_pure.mpr ⟨rfl, rfl⟩
  cases hkey : l.joins.contains key with
  | true =>
    have h := hfound l.joins hkey l (.refl _)
    rw [Compile.After, h]
    exact ⟨.refl hl, hfound l.joins hkey⟩
  | false =>
    have hafter : (Path.ensureJoin parent field key).After s l
        (fun _ l' => ∃ j, l' =
          { l with joins := l.joins.insert key j, aliasCount := l.aliasCount + 1 }) (· = l) := by
      unfold Path.ensureJoin
      rw [Compile.after_bind, Compile.after_get, if_neg (by simp [hkey]), Compile.after_bind]
      refine (makeJoin_after parent field).mono (fun j l₁ h => ?_) fun _ h => h
      rw [Compile.after_modify, h]
      exact ⟨j, rfl⟩
    refine hafter.mono (fun _ l' ⟨j, h⟩ => ?_) fun l' h => ?_
    rotate_left
    · rw [h]
      exact .refl hl
    rw [h]
    exact ⟨.insert hl hkey j, hfound _ (Joins.contains_iff_index.mpr ⟨l.joins.entries.length, by
      simp [Joins.insert_of_not_contains hkey]⟩)⟩

theorem remembers_paths : PathSteps Remembers where
  toComposes := remembers_composes
  read _ _ hl := Compile.after_read.mpr ⟨.refl hl, fun _ _ => Compile.yields_read.mpr ⟨rfl, rfl⟩⟩
  ensureJoin := remembers_ensureJoin
  find cause key _ s l hl := by
    rw [Compile.after_bind, Compile.after_get, Compile.after_require]
    refine ⟨fun j hj => ⟨.refl hl, fun c hc => ?_⟩, fun _ => .refl hl⟩
    refine Compile.yields_bind.mpr ⟨c, c, Compile.yields_get.mpr ⟨rfl, rfl⟩, ?_⟩
    exact Compile.yields_require.mpr ⟨hc.get? hj, rfl⟩

theorem remembers_resolve (path : String) : Compile.Holds Remembers (Path.resolve path) :=
  holds_resolve remembers_paths path

/-! ## 4. Keys below a path -/

/-- No key longer than `bound` was added. -/
def KeysUpTo (bound : Nat) (l l' : Ledger) : Prop :=
  ∀ key : String, l'.joins.contains key = true →
    l.joins.contains key = true ∨ key.length ≤ bound

theorem trace_keysUpTo (bound : Nat) : Trace fun _ => KeysUpTo bound where
  refl _ _ _ h := .inl h
  trans _ _ _ _ h h' key hkey := (h' key hkey).elim (h key) .inr
  frames _ _ _ _ h := h

theorem length_key (base field : String) :
    (Path.key base field).length = base.length + 1 + field.length := by
  have hdot : ".".length = 1 := rfl
  rw [Path.key, String.length_append, String.length_append, hdot]

theorem length_le_foldl_key (base : String) (path : List String) :
    base.length ≤ (path.foldl Path.key base).length := by
  induction path generalizing base with
  | nil => exact Nat.le_refl _
  | cons field rest ih =>
    have h := ih (Path.key base field)
    rw [length_key] at h
    rw [List.foldl_cons]
    omega

theorem foldl_key (table : String) (before path : List String) :
    path.foldl Path.key (pathKey table before) = pathKey table (before ++ path) := by
  induction path generalizing before with
  | nil => rw [List.append_nil, List.foldl_nil]
  | cons field rest ih =>
    rw [List.foldl_cons, ← pathKey_concat, ih, List.append_assoc, List.singleton_append]

theorem ensureJoin_keysUpTo {bound : Nat} {key : String} (hkey : key.length ≤ bound)
    (parent : Option String) (field : String) :
    Moves (fun _ => KeysUpTo bound) (Path.ensureJoin parent field key) := by
  intro s l
  refine Compile.After.ledger (E := KeysUpTo bound l) ?_
  unfold Path.ensureJoin
  rw [Compile.after_bind, Compile.after_get]
  split
  · exact (trace_keysUpTo bound).refl s l
  · rename_i hnew
    rw [Compile.after_bind]
    refine (makeJoin_after parent field).mono (fun j l₁ h => ?_) fun l₁ h => ?_
    · rw [Compile.after_modify, h]
      intro k hk
      rcases Joins.contains_insert (Bool.eq_false_iff.mpr hnew) hk with rfl | hk
      · exact .inr hkey
      · exact .inl hk
    · rw [h]
      exact (trace_keysUpTo bound).refl s l

theorem ensureJoins_keysUpTo {bound : Nat} (parent : Option String) (base : String)
    (path : List String) (hpath : (path.foldl Path.key base).length ≤ bound) :
    Moves (fun _ => KeysUpTo bound) (Path.ensureJoins parent base path) := by
  have hR := trace_keysUpTo bound
  induction path generalizing parent base with
  | nil => exact .pure hR ()
  | cons field rest ih =>
    rw [List.foldl_cons] at hpath
    have hhere := Nat.le_trans (length_le_foldl_key (Path.key base field) rest) hpath
    exact .bind hR (ensureJoin_keysUpTo hhere parent field) fun _ => ih _ _ hpath

/-- A path adds keys as long as its own at most. -/
theorem resolve_keysUpTo (path : String) (s : Scope) (l : Ledger) :
    KeysUpTo (Path.key s.table path).length l ((Path.resolve path).outcome s l).2 := by
  have hR := trace_keysUpTo (Path.key s.table path).length
  have hfind (key : String) : Moves (fun _ => KeysUpTo (Path.key s.table path).length)
      (do Compile.require (.missingParentPath key) ((← get).joins.get? key)) :=
    .bind hR (.get hR) fun _ => hR.closed.require _ _ (by simp)
  have hjoins : Moves (fun _ => KeysUpTo (Path.key s.table path).length)
      (Path.ensureJoins none s.table (Path.segments path)) := by
    refine ensureJoins_keysUpTo none s.table _ ?_
    have hfold := foldl_key s.table [] (Path.segments path)
    rw [pathKey_nil, List.nil_append, ← key_eq_pathKey] at hfold
    exact Nat.le_of_eq (congrArg String.length hfold)
  unfold Path.resolve
  dsimp only
  split
  · exact hR.refl s l
  · exact Moves.bind hR hjoins (fun _ => hfind _) s l

/-- The path to a field. -/
def fullPath (parent : Option String) (field : String) : String :=
  match parent with
  | some path => Path.key path field
  | none => field

theorem yields_resolveRef_of_known {parent : Option String} {field : String} {j : Join}
    (hj : l.joins.get? (Path.key s.table (fullPath parent field)) = some j) (target : String) :
    (Path.resolveRef parent field target).Yields s l j l := by
  refine Compile.yields_bind.mpr ⟨s, l, Compile.yields_read.mpr ⟨rfl, rfl⟩, ?_⟩
  refine Compile.yields_bind.mpr ⟨l, l, Compile.yields_get.mpr ⟨rfl, rfl⟩, ?_⟩
  cases parent <;>
  · dsimp only [fullPath] at hj ⊢
    rw [hj]
    exact Compile.yields_pure.mpr ⟨rfl, rfl⟩

/-- The join of a reference is put under a key that its path has not added. -/
theorem remembers_resolveRef (parent : Option String) (field target : String) :
    Compile.Holds Remembers (Path.resolveRef parent field target) := by
  intro s l hl
  have hfound {js : Joins} {j : Join}
      (hj : js.get? (Path.key s.table (fullPath parent field)) = some j) :
      Recalls (Path.resolveRef parent field target) s js j :=
    fun c hc => yields_resolveRef_of_known (hc.get? hj) target
  cases hget : l.joins.get? (Path.key s.table (fullPath parent field)) with
  | some j =>
    have h := hfound hget l (.refl _)
    rw [Compile.After, h]
    exact ⟨.refl hl, hfound hget⟩
  | none =>
    suffices h : (Path.resolveRef parent field target).After s l (fun j l' => l.AddsJoins l' ∧
        l'.joins.get? (Path.key s.table (fullPath parent field)) = some j) l.AddsJoins from
      h.mono (fun j l' ⟨hadds, hj⟩ => ⟨hadds, hfound hj⟩) fun _ h => h
    have hrow (l₁ : Ledger) (hadds : l.AddsJoins l₁)
        (hnew : l₁.joins.contains (Path.key s.table (fullPath parent field)) = false)
        (label : String) : (Path.joinRow target field label
          (Path.key s.table (fullPath parent field))).After s l₁ (fun j l' => l.AddsJoins l' ∧
            l'.joins.get? (Path.key s.table (fullPath parent field)) = some j) l.AddsJoins :=
      ⟨hadds.trans (.insert hadds.indexed hnew _), Joins.get?_insert hnew⟩
    have hnew := hl.not_contains hget
    unfold Path.resolveRef
    rw [Compile.after_bind, Compile.after_read, Compile.after_bind, Compile.after_get]
    cases parent with
    | none =>
      dsimp only [fullPath] at hget ⊢
      rw [hget]
      exact hrow l (.refl hl) hnew s.label
    | some path =>
      dsimp only [fullPath] at hget ⊢
      rw [hget]
      dsimp only
      rw [Compile.after_bind]
      refine ((remembers_resolve path s l hl).and_ledger (resolve_keysUpTo path s l)).mono
        (fun j l₁ ⟨⟨hadds, _⟩, hkeys⟩ => hrow l₁ hadds ?_ j.label) fun _ h => h.1
      refine Bool.eq_false_iff.mpr fun hcontains => ?_
      rcases hkeys _ hcontains with hknown | hlength
      · rw [hnew] at hknown
        cases hknown
      · simp only [fullPath, length_key] at hlength
        omega

theorem remembers_compileField (reference : String) :
    Compile.Holds Remembers (Path.compileField reference) :=
  holds_field_of_paths remembers_paths remembers_resolveRef reference

end QuerySheet.Sql

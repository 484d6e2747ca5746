import Mathlib
import QuerySheet.Proofs.Sql.Recall

/-!
# Routes

What a dotted name reads is fixed by the schema. Each of its references leads to a table, and the
field at its end belongs to the last one; the joins of a statement only follow.

* `tableAt`: the table at the end of a path of references;
* `route?`: how a name is read. Its value is read at the end of the path in front of the field, or,
  if the field is a reference that is `validated`, from the row referred to;
* `lands_compileField`: a name with a route compiles, whatever has been joined before. It adds the
  joins along its path and no others (`Opened`);
* `route_of_compileField`: no other name compiles.
-/

namespace QuerySheet

/-! ## 1. Dotted names -/

namespace Separated

variable {separator : Char}

theorem parts_append {part : List Char} (h : separator ∉ part) (rest : List Char) :
    parts separator (part ++ separator :: rest) = part :: parts separator rest := by
  induction part with
  | nil => simp [parts]
  | cons c part ih =>
    have hc : c ≠ separator := fun e => h (e ▸ List.mem_cons_self)
    rw [List.cons_append, parts, if_neg hc, ih fun hmem => h (List.mem_cons_of_mem _ hmem)]

theorem parts_intercalate {ps : List (List Char)} (hne : ps ≠ [])
    (h : ∀ part ∈ ps, separator ∉ part) :
    parts separator ([separator].intercalate ps) = ps := by
  induction ps with
  | nil => exact absurd rfl hne
  | cons part ps ih =>
    have hpart := h part List.mem_cons_self
    cases ps with
    | nil => rw [List.intercalate_singleton, parts_of_not_mem hpart]
    | cons next ps =>
      rw [List.intercalate_cons_cons, List.append_assoc, List.singleton_append, parts_append hpart,
        ih (by simp) fun p hp => h p (List.mem_cons_of_mem _ hp)]

end Separated

namespace Sql

open Compile (Moves)
open Joins (pathKey)

/-- Segments without dots are the segments of the name that they make up. -/
theorem segments_join {path : List String} (hne : path ≠ []) (h : ∀ f ∈ path, '.' ∉ f.toList) :
    Path.segments (Path.join path) = path := by
  have hdot : ".".toList = ['.'] := rfl
  unfold Path.segments Path.join Separated.split
  rw [String.toList_intercalate, hdot, Separated.parts_intercalate (by simpa using hne),
    List.map_map]
  · exact (List.map_congr_left fun f _ => String.ofList_toList).trans (List.map_id _)
  · intro part hpart
    obtain ⟨f, hf, rfl⟩ := List.mem_map.mp hpart
    exact h f hf

theorem pathKey_of_ne_nil {table : String} {path : List String} (hne : path ≠ []) :
    pathKey table path = Path.key table (Path.join path) := by
  unfold pathKey Path.join Path.key
  exact String.intercalate_cons_of_ne_nil hne

theorem key_injective {table : String} : Function.Injective (Path.key table) := by
  intro path path' h
  unfold Path.key at h
  have h := congrArg String.toList h
  simp only [String.toList_append, List.append_cancel_left_eq] at h
  exact String.toList_injective h

theorem pathKey_injective {table : String} {path path' : List String}
    (h : ∀ f ∈ path, IsSegment f) (h' : ∀ f ∈ path', IsSegment f)
    (hkey : pathKey table path = pathKey table path') : path = path' := by
  have hshorter {p : List String} (hne : p ≠ []) : pathKey table [] ≠ pathKey table p := by
    rw [pathKey_of_ne_nil hne, pathKey_nil]
    intro e
    have hlength := congrArg String.length e
    rw [length_key] at hlength
    omega
  by_cases hne : path = []
  · by_cases hne' : path' = []
    · rw [hne, hne']
    · exact absurd (hne ▸ hkey) (hshorter hne')
  · by_cases hne' : path' = []
    · exact absurd (hne' ▸ hkey).symm (hshorter hne)
    · rw [pathKey_of_ne_nil hne, pathKey_of_ne_nil hne'] at hkey
      have hjoin := key_injective hkey
      rw [← segments_join hne fun f hf => (h f hf).2, hjoin,
        segments_join hne' fun f hf => (h' f hf).2]

/-- A name is a field of the table in scope, or it has a path in front of its last segment. -/
inductive Dotted (name : String) : Option String → List String → String → Prop
  | plain {field : String} (h : Path.segments name = [field])
      (hsplit : Path.split name = (none, field)) : Dotted name none [] field
  | below {parent : String} {path : List String} {field : String} (hne : path ≠ [])
      (h : Path.segments name = path ++ [field]) (hparent : Path.segments parent = path)
      (hsplit : Path.split name = (some parent, field)) : Dotted name (some parent) path field

namespace Dotted

variable {name field : String} {parent : Option String} {path : List String}

theorem segments (h : Dotted name parent path field) : Path.segments name = path ++ [field] := by
  cases h with
  | plain h _ => exact h
  | below _ h _ _ => exact h

theorem split (h : Dotted name parent path field) : Path.split name = (parent, field) := by
  cases h with
  | plain _ h => exact h
  | below _ _ _ h => exact h

end Dotted

theorem exists_dotted (name : String) : ∃ parent path field, Dotted name parent path field := by
  have hne : Path.segments name ≠ [] := Separated.split_ne_nil _ _
  obtain ⟨path, field, hsegments⟩ := (List.eq_nil_or_concat _).resolve_left hne
  rw [List.concat_eq_append] at hsegments
  have hlast : (path ++ [field]).getLastD "" = field := by simp
  by_cases hpath : path = []
  · subst hpath
    refine ⟨none, [], field, .plain hsegments ?_⟩
    unfold Path.split
    rw [hsegments]
    rfl
  · refine ⟨some (Path.join path), path, field, .below hpath hsegments ?_ ?_⟩
    · refine segments_join hpath fun f hf => ?_
      have hmem : f ∈ Path.segments name := hsegments ▸ List.mem_append_left _ hf
      exact Separated.not_mem_of_mem_split hmem
    · have hlength : ¬ (path ++ [field]).length ≤ 1 := by
        have := List.length_pos_iff.mpr hpath
        rw [List.length_append, List.length_singleton]
        omega
      unfold Path.split
      dsimp only
      rw [hsegments, if_neg hlength, hlast, List.dropLast_concat]

/-! ## 2. Tables along a path -/

/-- The table that a field refers to. -/
def reference? (schema : Schema) (table field : String) : Option String := do
  let fields ← schema.table? table
  let desc ← Schema.field? fields field
  desc.references

theorem reference?_eq_some {schema : Schema} {table field target : String} :
    reference? schema table field = some target ↔ Refers schema table field target := by
  simp [reference?, Refers, Option.bind_eq_some_iff]

/-- The table at the end of a path of references. -/
def tableAt (schema : Schema) (table : String) (path : List String) : Option String :=
  path.foldlM (reference? schema) table

variable {schema : Schema} {table label key : String} {js : Joins} {s : Scope} {l l' l₁ : Ledger}

theorem tableAt_append (path more : List String) : tableAt schema table (path ++ more) =
    (tableAt schema table path).bind (tableAt schema · more) :=
  List.foldlM_append

theorem tableAt_concat (path : List String) (field : String) :
    tableAt schema table (path ++ [field]) =
      (tableAt schema table path).bind (reference? schema · field) := by
  rw [tableAt_append]
  refine congrArg _ (funext fun t => ?_)
  simp [tableAt]

/-- In well-formed joins a path lands on its table. -/
theorem Joins.WellFormed.tableAt_entry (h : js.WellFormed schema table label) {place : Nat}
    {path : List String} {j : Join} (hj : js.entries[place]? = some (pathKey table path, j))
    (hpath : ∀ f ∈ path, IsSegment f) : tableAt schema table path = some j.table := by
  -- The join of the parent stands before the join itself.
  induction place using Nat.strongRecOn generalizing path j with
  | ind place ih =>
    obtain ⟨before, parentTable, hfollows⟩ := h.follows place _ j hj
    obtain rfl := pathKey_injective hpath hfollows.segment hfollows.key_eq
    have hparent : tableAt schema table before = some parentTable := by
      have hparent := hfollows.parent
      generalize j.parent = parentLabel at hparent
      cases hparent with
      | root => rfl
      | joined hne hlt hearlier =>
        exact ih _ hlt hearlier fun f hf => hpath f (List.mem_append_left _ hf)
    rw [tableAt_concat, hparent]
    exact reference?_eq_some.mpr hfollows.refers

theorem Joins.WellFormed.tableAt_parent (h : js.WellFormed schema table label) {place : Nat}
    {path : List String} {parentTable parentLabel : String}
    (hparent : js.Parent table label place path parentTable parentLabel)
    (hpath : ∀ f ∈ path, IsSegment f) : tableAt schema table path = some parentTable := by
  cases hparent with
  | root => rfl
  | joined _ _ hj => exact h.tableAt_entry hj hpath

theorem Joins.WellFormed.indexed (h : js.WellFormed schema table label) : js.Indexed := by
  intro key place hplace
  obtain ⟨j, hj⟩ := (h.index key place).mp hplace
  exact (List.getElem?_eq_some_iff.mp hj).1

/-- A path that is known is the parent of the joins to come. -/
theorem Known.parent {path : List String} (hl : JoinsOk s l) (h : Known l.joins s.table path) :
    ∃ parentTable parentLabel, l.joins.Parent s.table s.label l.joins.entries.length path
      parentTable parentLabel := by
  by_cases hne : path = []
  · subst hne
    exact ⟨_, _, .root⟩
  · obtain ⟨place, j, hj⟩ := hl.contains_iff.mp (h path hne (List.prefix_refl _))
    exact ⟨_, _, .joined hne (List.getElem?_eq_some_iff.mp hj).1 hj⟩

/-! ## 3. Joins that are added -/

/-- Only joins of a kind were put behind those that were there: `New` tells under which keys, and
    whether they join the table itself. -/
def Opened (New : String → Bool → Prop) (l l' : Ledger) : Prop :=
  ∀ entry ∈ l'.joins.entries, entry ∈ l.joins.entries ∨ New entry.1 entry.2.direct

namespace Opened

variable {New New' : String → Bool → Prop}

theorem refl (l : Ledger) : Opened New l l := fun _ h => .inl h

theorem trans (h : Opened New l l₁) (h' : Opened New l₁ l') : Opened New l l' :=
  fun entry hentry => (h' entry hentry).elim (h entry) .inr

theorem mono (h : Opened New l l') (hNew : ∀ key direct, New key direct → New' key direct) :
    Opened New' l l' := fun entry hentry => (h entry hentry).imp_right (hNew _ _)

theorem insert {j : Join} (hfresh : l.joins.contains key = false) (hNew : New key j.direct)
    (hl' : l'.joins = l.joins.insert key j) : Opened New l l' := by
  intro entry hentry
  rw [hl', Joins.insert_of_not_contains hfresh] at hentry
  rcases List.mem_append.mp hentry with hentry | hentry
  · exact .inl hentry
  · rw [List.mem_singleton.mp hentry]
    exact .inr hNew

end Opened

theorem yields_nextAlias (table : String) : (Compile.nextAlias table).Yields s l
    (table ++ toString (l.aliasCount + 1)) { l with aliasCount := l.aliasCount + 1 } := rfl

/-- A path that leads to a table can be followed by one more field. -/
theorem yields_makeJoin {path : List String} {parentTable parentLabel field target : String}
    (hl : JoinsOk s l) (hparent : l.joins.Parent s.table s.label l.joins.entries.length path
      parentTable parentLabel)
    (hrefers : Refers s.schema parentTable field target) :
    (Path.makeJoin (parentKey s.table path) field).Yields s l
      ⟨target, target ++ toString (l.aliasCount + 1), field, parentLabel, false⟩
      { l with aliasCount := l.aliasCount + 1 } := by
  have halong : (Path.joinAlong s.schema parentTable parentLabel field).Yields s l
      ⟨target, target ++ toString (l.aliasCount + 1), field, parentLabel, false⟩
      { l with aliasCount := l.aliasCount + 1 } := by
    obtain ⟨t, desc, ht, hdesc, htarget⟩ := hrefers
    unfold Path.joinAlong
    simp only [Compile.yields_bind, Compile.yields_require]
    exact ⟨t, l, ⟨ht, rfl⟩, desc, l, ⟨hdesc, rfl⟩, target, l, ⟨htarget, rfl⟩, _, _,
      yields_nextAlias target, Compile.yields_pure.mpr ⟨rfl, rfl⟩⟩
  unfold Path.makeJoin parentKey
  rw [Compile.yields_bind]
  refine ⟨s, l, Compile.yields_read.mpr ⟨rfl, rfl⟩, ?_⟩
  cases hparent with
  | root => exact halong
  | joined hne _ hj =>
    rw [if_neg hne]
    have hget := hl.get?_eq_some.mpr ⟨_, hj⟩
    exact Compile.yields_bind.mpr ⟨l, l, Compile.yields_get.mpr ⟨rfl, rfl⟩,
      Compile.yields_bind.mpr ⟨_, l, Compile.yields_require.mpr ⟨hget, rfl⟩,
        Compile.yields_bind.mpr ⟨_, l, Compile.yields_pure.mpr ⟨rfl, rfl⟩, halong⟩⟩⟩

theorem opens_ensureJoin {New : String → Bool → Prop} {path : List String} {field target : String}
    (hl : JoinsOk s l) (hknown : Known l.joins s.table path)
    (hpath : ∀ f ∈ path, IsSegment f)
    (htarget : tableAt s.schema s.table (path ++ [field]) = some target)
    (hNew : New (pathKey s.table (path ++ [field])) false) :
    ∃ l', (Path.ensureJoin (parentKey s.table path) field
      (pathKey s.table (path ++ [field]))).Yields s l () l' ∧ Opened New l l' := by
  unfold Path.ensureJoin
  cases hcontains : l.joins.contains (pathKey s.table (path ++ [field])) with
  | true =>
    refine ⟨l, Compile.yields_bind.mpr ⟨l, l, Compile.yields_get.mpr ⟨rfl, rfl⟩, ?_⟩, .refl l⟩
    rw [if_pos hcontains]
    exact Compile.yields_pure.mpr ⟨rfl, rfl⟩
  | false =>
    obtain ⟨parentTable, parentLabel, hparent⟩ := hknown.parent hl
    rw [tableAt_concat, hl.tableAt_parent hparent hpath] at htarget
    have hjoin := yields_makeJoin hl hparent (reference?_eq_some.mp htarget)
    have hnew : ¬ l.joins.contains (pathKey s.table (path ++ [field])) = true := by
      simp [hcontains]
    let j : Join := ⟨target, target ++ toString (l.aliasCount + 1), field, parentLabel, false⟩
    let l₂ : Ledger :=
      { l with
        joins := l.joins.insert (pathKey s.table (path ++ [field])) j
        aliasCount := l.aliasCount + 1 }
    refine ⟨l₂, Compile.yields_bind.mpr ⟨l, l, Compile.yields_get.mpr ⟨rfl, rfl⟩, ?_⟩,
      Opened.insert hcontains (show New _ j.direct from hNew) rfl⟩
    rw [if_neg hnew]
    exact Compile.yields_bind.mpr ⟨_, _, hjoin, Compile.yields_modify.mpr rfl⟩

theorem opens_ensureJoins {New : String → Bool → Prop} {path : List String} {target : String}
    (fields : List String) (hl : JoinsOk s l) (hknown : Known l.joins s.table path)
    (hseg : ∀ f ∈ path ++ fields, IsSegment f)
    (htarget : tableAt s.schema s.table (path ++ fields) = some target)
    (hNew : ∀ pre, pre ≠ [] → pre <+: path ++ fields → New (pathKey s.table pre) false) :
    ∃ l', (Path.ensureJoins (parentKey s.table path) (pathKey s.table path) fields).Yields s l ()
      l' ∧ Opened New l l' := by
  induction fields generalizing path l with
  | nil => exact ⟨l, Compile.yields_pure.mpr ⟨rfl, rfl⟩, .refl l⟩
  | cons field rest ih =>
    have hsplit : path ++ field :: rest = (path ++ [field]) ++ rest := by simp
    rw [hsplit] at hseg htarget hNew
    have hhere : ∀ f ∈ path ++ [field], IsSegment f :=
      fun f hf => hseg f (List.mem_append_left _ hf)
    obtain ⟨next, hnext⟩ : ∃ next, tableAt s.schema s.table (path ++ [field]) = some next := by
      rw [tableAt_append] at htarget
      exact (Option.bind_eq_some_iff.mp htarget).imp fun _ h => h.1
    obtain ⟨l₁, hjoin, hopened⟩ := opens_ensureJoin hl hknown
      (fun f hf => hhere f (List.mem_append_left _ hf)) hnext
      (hNew _ (by simp) (List.prefix_append _ _))
    obtain ⟨hext, hlast⟩ := (ensureJoin_spec hl hhere).yields hjoin
    obtain ⟨l₂, hrest, hopened'⟩ := ih (hext hl).1 ((hknown.extend hl hext).concat hlast) hseg
      htarget hNew
    refine ⟨l₂, ?_, hopened.trans hopened'⟩
    have hnext : parentKey s.table (path ++ [field]) = some (pathKey s.table (path ++ [field])) :=
      if_neg (by simp)
    rw [hnext, pathKey_concat] at hrest
    rw [pathKey_concat] at hjoin
    exact Compile.yields_bind.mpr ⟨(), l₁, hjoin, hrest⟩

/-- A path that leads to a table is resolved, and adds the joins along it. -/
theorem opens_resolve (New : String → Bool → Prop) {path target : String} (hl : JoinsOk s l)
    (hseg : ∀ f ∈ Path.segments path, IsSegment f)
    (htarget : tableAt s.schema s.table (Path.segments path) = some target)
    (hNew : ∀ pre, pre ≠ [] → pre <+: Path.segments path → New (pathKey s.table pre) false) :
    ∃ j l', (Path.resolve path).Yields s l j l' ∧ Opened New l l' := by
  have hne : ¬ (Path.segments path).any String.isEmpty = true := by
    intro h
    obtain ⟨f, hf, hempty⟩ := List.any_eq_true.mp h
    exact (hseg f hf).1 (String.isEmpty_iff.mp hempty)
  have hsegments : Path.segments path ≠ [] := Separated.split_ne_nil _ _
  obtain ⟨l', hjoins, hopened⟩ :=
    opens_ensureJoins (Path.segments path) hl known_nil hseg htarget hNew
  obtain ⟨hext, hknown⟩ := (ensureJoins_spec hl (Path.segments path) known_nil hseg).yields hjoins
  obtain ⟨place, j, hj⟩ := (hext hl).1.contains_iff.mp (hknown _ hsegments (List.prefix_refl _))
  have hget := (hext hl).1.get?_eq_some.mpr ⟨place, hj⟩
  rw [← key_eq_pathKey] at hget
  refine ⟨j, l', ?_, hopened⟩
  unfold Path.resolve
  dsimp only
  rw [if_neg hne]
  exact Compile.yields_bind.mpr ⟨s, l, Compile.yields_read.mpr ⟨rfl, rfl⟩,
    Compile.yields_bind.mpr ⟨(), l', hjoins, Compile.yields_bind.mpr ⟨l', l',
      Compile.yields_get.mpr ⟨rfl, rfl⟩, Compile.yields_require.mpr ⟨hget, rfl⟩⟩⟩⟩

/-! ## 4. Fields -/

/-- How a name is read: along a path of references, and at its end from a field. A reference that is
    `validated` is followed as well, to the id of the row that it refers to. -/
structure Route where
  path : List String
  field : String
  validated : Bool
  type : ValueType

namespace Route

/-- The references that are followed. -/
def hops (r : Route) : List String := if r.validated then r.path ++ [r.field] else r.path

/-- The field of the last row. -/
def column (r : Route) : String := if r.validated then "id" else r.field

/-- The column, if the last row is read under a label. -/
def operand (r : Route) (label : String) : Operand :=
  .fragment (.ofString (label ++ "." ++ r.column)) r.type

/-- The joins that a route may add below a table: views along its path, and the table itself that a
    validated reference refers to. -/
def Opens (r : Route) (table key : String) (direct : Bool) : Prop :=
  (direct = false ∧ ∃ pre, pre ≠ [] ∧ pre <+: r.path ∧ key = pathKey table pre) ∨
    direct = true ∧ r.validated = true ∧ key = pathKey table (r.path ++ [r.field])

/-- The route to a field that is read in a scope. -/
def toField (s : Scope) (path : List String) (field : String) (desc : Field) : Route :=
  let validated := s.validateRefs && field != "id" && desc.references.isSome
  ⟨path, field, validated, if validated then .id else desc.type.valueType⟩

end Route

theorem Route.toField_of_validated {s : Scope} {path : List String} {field target : String}
    {desc : Field} (h : s.validateRefs = true ∧ field ≠ "id")
    (href : desc.references = some target) :
    Route.toField s path field desc = ⟨path, field, true, .id⟩ := by
  simp [Route.toField, h, href]

theorem Route.toField_of_stored {s : Scope} {path : List String} {field : String} {desc : Field}
    (h : ¬ (s.validateRefs = true ∧ field ≠ "id") ∨ desc.references = none) :
    Route.toField s path field desc = ⟨path, field, false, desc.type.valueType⟩ := by
  have hvalidated : (s.validateRefs && field != "id" && desc.references.isSome) = false := by
    rcases h with h | h
    · simpa using fun hvalidate hfield => absurd ⟨hvalidate, hfield⟩ h
    · simp [h]
  unfold Route.toField
  rw [hvalidated]
  rfl

/-- The route of a name, if every reference of its path leads to a table and the last table has the
    field. -/
def route? (s : Scope) (name : String) : Option Route :=
  let segments := Path.segments name
  if segments.any String.isEmpty then none
  else do
    let owner ← tableAt s.schema s.table segments.dropLast
    let fields ← s.schema.table? owner
    let desc ← Schema.field? fields (segments.getLastD "")
    return .toField s segments.dropLast (segments.getLastD "") desc

theorem yields_fieldName {reference name : String} :
    (Path.fieldName reference).Yields s l name l' ↔
      (if reference.isEmpty then s.field = some name else name = reference) ∧ l' = l := by
  unfold Path.fieldName
  split
  · rw [Compile.yields_bind]
    constructor
    · rintro ⟨s', l₁, hread, h⟩
      obtain ⟨rfl, rfl⟩ := Compile.yields_read.mp hread
      exact Compile.yields_require.mp h
    · exact fun h => ⟨s, l, Compile.yields_read.mpr ⟨rfl, rfl⟩, Compile.yields_require.mpr h⟩
  · exact Compile.yields_pure

theorem any_isEmpty_segments {name : String} :
    ¬ (Path.segments name).any String.isEmpty = true ↔ ∀ f ∈ Path.segments name, IsSegment f := by
  constructor
  · exact fun h f hf => isSegment_of_mem hf h
  · intro h hany
    obtain ⟨f, hf, hempty⟩ := List.any_eq_true.mp hany
    exact (h f hf).1 (String.isEmpty_iff.mp hempty)

variable {name field owner : String} {parent : Option String} {path : List String}
  {fields : Table} {desc : Field} {r : Route} {o : Operand}

theorem route?_eq_some (h : Dotted name parent path field) : route? s name = some r ↔
    (∀ f ∈ path ++ [field], IsSegment f) ∧ ∃ owner fields desc,
      tableAt s.schema s.table path = some owner ∧ s.schema.table? owner = some fields ∧
        Schema.field? fields field = some desc ∧ r = .toField s path field desc := by
  have hsegments := h.segments
  have hlast : (path ++ [field]).getLastD "" = field := by simp
  unfold route?
  dsimp only
  by_cases hany : (Path.segments name).any String.isEmpty = true
  · rw [if_pos hany]
    have hnot : ¬ ∀ f ∈ path ++ [field], IsSegment f := by
      rw [← hsegments, ← any_isEmpty_segments]
      exact not_not.mpr hany
    exact iff_of_false (by simp) fun h => hnot h.1
  · rw [if_neg hany]
    have hseg := any_isEmpty_segments.mp hany
    rw [hsegments] at hseg ⊢
    rw [hlast, List.dropLast_concat]
    simp only [Option.bind_eq_bind, Option.bind_eq_some_iff, Option.pure_def, Option.some.injEq]
    constructor
    · rintro ⟨owner, howner, fields, hfields, desc, hdesc, rfl⟩
      exact ⟨hseg, owner, fields, desc, howner, hfields, hdesc, rfl⟩
    · rintro ⟨-, owner, fields, desc, howner, hfields, hdesc, rfl⟩
      exact ⟨owner, howner, fields, hfields, desc, hdesc, rfl⟩

/-- The row at the end of a route is reached: its joins are there, those that were added are of its
    kinds, and the last one is read under the label. -/
structure Lands (s : Scope) (r : Route) (label : String) (l l' : Ledger) : Prop where
  grown : Extends s l l'
  known : Known l'.joins s.table r.hops
  parent : ∃ owner, l'.joins.Parent s.table s.label l'.joins.entries.length r.hops owner label
  opened : Opened (r.Opens s.table) l l'

theorem yields_resolve_of_known {j : Join} {path : String} (hl : JoinsOk s l)
    (hj : Resolved s l path j) : (Path.resolve path).Yields s l j l := by
  obtain ⟨place, hplace⟩ := hj.entry
  obtain ⟨j', l', hyields, -⟩ := opens_resolve (fun _ _ => True) hl hj.segment
    (hl.tableAt_entry hplace hj.segment) fun _ _ _ => trivial
  obtain ⟨rfl, rfl⟩ := (resolve_known hl hj).yields hyields
  exact hyields

theorem Dotted.key_fullPath (h : Dotted name parent path field) (table : String) :
    Path.key table (fullPath parent field) = pathKey table (path ++ [field]) := by
  rw [pathKey_concat]
  cases h with
  | plain => rfl
  | below _ _ hparent =>
    rw [← hparent, ← key_eq_pathKey]
    simp only [fullPath, Path.key, String.append_assoc]

/-- A reference of a row that is reached is followed to the row it refers to. -/
theorem opens_resolveRef {New : String → Bool → Prop} {target : String} (hl : JoinsOk s l)
    (hname : Dotted name parent path field) (hseg : ∀ f ∈ path ++ [field], IsSegment f)
    (hknown : Known l.joins s.table path)
    (hparent : l.joins.Parent s.table s.label l.joins.entries.length path owner label)
    (hrefers : Refers s.schema owner field target)
    (hNew : New (pathKey s.table (path ++ [field])) true) :
    ∃ j l', (Path.resolveRef parent field target).Yields s l j l' ∧ Extends s l l' ∧
      l'.joins.get? (pathKey s.table (path ++ [field])) = some j ∧ Opened New l l' := by
  have hkey := hname.key_fullPath s.table
  cases hget : l.joins.get? (pathKey s.table (path ++ [field])) with
  | some j =>
    refine ⟨j, l, yields_resolveRef_of_known ?_ target, .refl s l, hget, .refl l⟩
    rw [hkey, hget]
  | none =>
    let j : Join := ⟨target, target ++ toString (l.aliasCount + 1), field, label, true⟩
    let l₂ : Ledger :=
      { l with
        joins := l.joins.insert (pathKey s.table (path ++ [field])) j
        aliasCount := l.aliasCount + 1 }
    have hfresh : l.joins.contains (pathKey s.table (path ++ [field])) = false := by
      refine Bool.eq_false_iff.mpr fun hcontains => ?_
      obtain ⟨place, j', hj'⟩ := hl.contains_iff.mp hcontains
      rw [hl.get?_eq_some.mpr ⟨place, hj'⟩] at hget
      cases hget
    have hrow : (Path.joinRow target field label (Path.key s.table (fullPath parent field))).Yields
        s l j l₂ := by
      rw [hkey]
      exact Compile.yields_bind.mpr ⟨_, _, yields_nextAlias target, Compile.yields_bind.mpr
        ⟨(), l₂, Compile.yields_modify.mpr rfl, Compile.yields_pure.mpr ⟨rfl, rfl⟩⟩⟩
    refine ⟨j, l₂, ?_, (insert_ref_spec hl hseg hget hparent hrefers rfl rfl rfl).1,
      Joins.get?_insert hfresh, .insert hfresh (show New _ j.direct from hNew) rfl⟩
    unfold Path.resolveRef
    refine Compile.yields_bind.mpr ⟨s, l, Compile.yields_read.mpr ⟨rfl, rfl⟩,
      Compile.yields_bind.mpr ⟨l, l, Compile.yields_get.mpr ⟨rfl, rfl⟩, ?_⟩⟩
    rw [← hkey] at hget
    cases hname with
    | plain =>
      dsimp only [fullPath] at hget hrow ⊢
      rw [hget]
      cases hparent with
      | root => exact hrow
      | joined hne => exact absurd rfl hne
    | below hne _ hsegments =>
      dsimp only [fullPath] at hget hrow ⊢
      rw [hget]
      cases hparent with
      | root => exact absurd rfl hne
      | joined _ _ hj =>
        -- The path is resolved already, and lands on the join that is known.
        have hresolved : Resolved s l _ _ :=
          ⟨hsegments ▸ hknown, hsegments ▸ fun f hf => hseg f (List.mem_append_left _ hf),
            _, hsegments ▸ hj⟩
        exact Compile.yields_bind.mpr ⟨_, l, yields_resolve_of_known hl hresolved, hrow⟩

/-- A field of a row that is reached is read, or followed if it is a validated reference. -/
theorem lands_readField (hl : JoinsOk s l) (hname : Dotted name parent path field)
    (hseg : ∀ f ∈ path ++ [field], IsSegment f) (hknown : Known l.joins s.table path)
    (hparent : l.joins.Parent s.table s.label l.joins.entries.length path owner label)
    (hfields : s.schema.table? owner = some fields)
    (hdesc : Schema.field? fields field = some desc) :
    ∃ label' l', (Path.readField s parent owner label field).Yields s l
      ((Route.toField s path field desc).operand label') l' ∧
        Lands s (.toField s path field desc) label' l l' := by
  have hstored (h : ¬ (s.validateRefs = true ∧ field ≠ "id") ∨ desc.references = none) :
      ∃ label' l', (pure (.fragment (label ++ "." ++ field) desc.type.valueType) :
        Compile Operand).Yields s l ((Route.toField s path field desc).operand label') l' ∧
          Lands s (.toField s path field desc) label' l l' := by
    rw [Route.toField_of_stored h]
    refine ⟨label, l, Compile.yields_pure.mpr ⟨?_, rfl⟩, .refl s l, hknown, ⟨owner, hparent⟩,
      .refl l⟩
    unfold Route.operand Route.column
    rw [Template.ofString_append, Template.ofString_append]
    rfl
  unfold Path.readField
  rw [hfields, Compile.require, pure_bind, hdesc, Compile.require, pure_bind]
  cases href : desc.references with
  | none => exact hstored (.inr href)
  | some target =>
    dsimp only
    by_cases hvalidate : s.validateRefs = true ∧ field ≠ "id"
    · rw [if_pos hvalidate, Route.toField_of_validated hvalidate href]
      obtain ⟨j, l', hyields, hext, hget, hopened⟩ := opens_resolveRef hl hname hseg hknown hparent
        ⟨fields, desc, hfields, hdesc, href⟩
        (show Route.Opens ⟨path, field, true, .id⟩ s.table _ true from .inr ⟨rfl, rfl, rfl⟩)
      obtain ⟨hok, -⟩ := hext hl
      obtain ⟨place, hplace⟩ := hok.get?_eq_some.mp hget
      have hlast := hok.contains_iff.mpr ⟨place, j, hplace⟩
      have hlt := (List.getElem?_eq_some_iff.mp hplace).1
      have hne : path ++ [field] ≠ [] := by simp
      refine ⟨j.label, l', Compile.yields_bind.mpr ⟨j, l', hyields,
        Compile.yields_pure.mpr ⟨?_, rfl⟩⟩, hext, (hknown.extend hl hext).concat hlast,
        ⟨j.table, .joined hne hlt hplace⟩, hopened⟩
      unfold Route.operand Route.column
      rw [if_pos rfl, String.append_assoc, Template.ofString_append]
      rfl
    · rw [if_neg hvalidate]
      exact hstored (.inl hvalidate)

/-- The path in front of a field is resolved first. -/
theorem lands_readAt (hl : JoinsOk s l) (hname : Dotted name parent path field)
    (hseg : ∀ f ∈ path ++ [field], IsSegment f)
    (howner : tableAt s.schema s.table path = some owner)
    (hfields : s.schema.table? owner = some fields)
    (hdesc : Schema.field? fields field = some desc) :
    ∃ label l', (Path.readAt name).Yields s l ((Route.toField s path field desc).operand label) l' ∧
      Lands s (.toField s path field desc) label l l' := by
  have hsplit := hname.split
  unfold Path.readAt
  rw [hsplit]
  have hname' := hname
  cases hname with
  | plain =>
    cases howner
    obtain ⟨label, l', hyields, hlands⟩ :=
      lands_readField hl hname' hseg known_nil .root hfields hdesc
    exact ⟨label, l', Compile.yields_bind.mpr ⟨s, l, Compile.yields_read.mpr ⟨rfl, rfl⟩, hyields⟩,
      hlands⟩
  | @below p path field hne _ hsegments =>
    subst hsegments
    have hpath : ∀ f ∈ Path.segments p, IsSegment f :=
      fun f hf => hseg f (List.mem_append_left _ hf)
    obtain ⟨j, l₁, hj, hopened⟩ := opens_resolve
      ((Route.toField s (Path.segments p) field desc).Opens s.table) hl hpath howner
      fun pre hne hpre => .inl ⟨rfl, pre, hne, hpre, rfl⟩
    obtain ⟨hext, hresolved⟩ := (resolve_spec hl p).yields hj
    obtain ⟨hok, -⟩ := hext hl
    obtain ⟨place, hplace⟩ := hresolved.entry
    rw [hok.tableAt_entry hplace hpath] at howner
    cases howner
    have hlt := (List.getElem?_eq_some_iff.mp hplace).1
    obtain ⟨label, l', hyields, hlands⟩ := lands_readField hok hname' hseg hresolved.known
      (.joined hne hlt hplace) hfields hdesc
    refine ⟨label, l', ?_, hext.trans hlands.grown, hlands.known, hlands.parent,
      hopened.trans hlands.opened⟩
    exact Compile.yields_bind.mpr ⟨s, l, Compile.yields_read.mpr ⟨rfl, rfl⟩,
      Compile.yields_bind.mpr ⟨j, l₁, hj, hyields⟩⟩

/-- The joins that a route may add are known once its row is reached. -/
theorem Route.Opens.contains {direct : Bool} (h : r.Opens table key direct)
    (hknown : Known js table r.hops) : js.contains key = true := by
  have hpath : r.path <+: r.hops := by
    unfold Route.hops
    split
    · exact List.prefix_append _ _
    · exact List.prefix_refl _
  rcases h with ⟨-, pre, hne, hpre, rfl⟩ | ⟨-, hvalidated, rfl⟩
  · exact hknown pre hne (hpre.trans hpath)
  · refine hknown _ (by simp) ?_
    unfold Route.hops
    rw [if_pos hvalidated]

/-- The name of a field compiles if there is a route, whatever has been joined before. -/
theorem lands_compileField {reference : String} (hl : JoinsOk s l)
    (hname : (Path.fieldName reference).Yields s l name l) (hr : route? s name = some r) :
    ∃ label l', (Path.compileField reference).Yields s l (r.operand label) l' ∧
      Lands s r label l l' := by
  obtain ⟨parent, path, field, hdotted⟩ := exists_dotted name
  obtain ⟨hseg, owner, fields, desc, howner, hfields, hdesc, rfl⟩ :=
    (route?_eq_some hdotted).mp hr
  have hfield : ¬ (Path.split name).2.isEmpty = true := by
    rw [hdotted.split]
    intro h
    exact (hseg field (by simp)).1 (String.isEmpty_iff.mp h)
  obtain ⟨label, l', hyields, hlands⟩ := lands_readAt hl hdotted hseg howner hfields hdesc
  refine ⟨label, l', ?_, hlands⟩
  rw [Path.compileField_eq]
  refine Compile.yields_bind.mpr ⟨name, l, hname, ?_⟩
  rw [if_neg hfield]
  exact hyields

/-- No other name compiles. -/
theorem route_of_compileField {reference : String} (hl : JoinsOk s l)
    (h : (Path.compileField reference).Yields s l o l') :
    ∃ name r, (Path.fieldName reference).Yields s l name l ∧ route? s name = some r := by
  rw [Path.compileField_eq] at h
  obtain ⟨name, l₀, hname, hread⟩ := Compile.yields_bind.mp h
  have hl₀ : l₀ = l := (yields_fieldName.mp hname).2
  subst hl₀
  clear h
  split at hread
  · exact absurd hread Compile.yields_fail
  · rename_i hfield
    obtain ⟨parent, path, field, hdotted⟩ := exists_dotted name
    have hsegment := isSegment_split hfield
    unfold Path.readAt at hread
    obtain ⟨s', l₁, hscope, h⟩ := Compile.yields_bind.mp hread
    obtain ⟨hs, hl₁⟩ := Compile.yields_read.mp hscope
    rw [hdotted.split, hs, hl₁] at h
    rw [hdotted.split] at hsegment
    have hroute {owner : String} {label : String} {l₁ : Ledger} (hpath : ∀ f ∈ path, IsSegment f)
        (howner : tableAt s.schema s.table path = some owner)
        (h : (Path.readField s parent owner label field).Yields s l₁ o l') :
        ∃ r, route? s name = some r := by
      unfold Path.readField at h
      obtain ⟨fields, _, hfields, h⟩ := Compile.yields_bind.mp h
      obtain ⟨desc, _, hdesc, -⟩ := Compile.yields_bind.mp h
      refine ⟨_, (route?_eq_some hdotted).mpr ⟨?_, owner, fields, desc, howner,
        (Compile.yields_require.mp hfields).1, (Compile.yields_require.mp hdesc).1, rfl⟩⟩
      intro f hf
      rcases List.mem_append.mp hf with hf | hf
      · exact hpath f hf
      · exact List.mem_singleton.mp hf ▸ hsegment
    cases hdotted with
    | plain =>
      obtain ⟨r, hr⟩ := hroute (fun f hf => absurd hf List.not_mem_nil) rfl h
      exact ⟨name, r, hname, hr⟩
    | @below p _ _ _ _ hsegments =>
      obtain ⟨j, l₁, hj, h⟩ := Compile.yields_bind.mp h
      obtain ⟨hext, hresolved⟩ := (resolve_spec hl p).yields hj
      obtain ⟨place, hplace⟩ := hresolved.entry
      have howner := (hext hl).1.tableAt_entry hplace hresolved.segment
      obtain ⟨r, hr⟩ := hroute (hsegments ▸ hresolved.segment) (hsegments ▸ howner) h
      exact ⟨name, r, hname, hr⟩

/-- So what compiles has a route, and lands at its end. -/
theorem lands_of_compileField {reference : String} (hl : JoinsOk s l)
    (h : (Path.compileField reference).Yields s l o l') :
    ∃ name r label, (Path.fieldName reference).Yields s l name l ∧ route? s name = some r ∧
      o = r.operand label ∧ Lands s r label l l' := by
  obtain ⟨name, r, hname, hr⟩ := route_of_compileField hl h
  obtain ⟨label, l₁, hyields, hlands⟩ := lands_compileField hl hname hr
  rw [Compile.Yields, h] at hyields
  cases hyields
  exact ⟨name, r, label, hname, hr, rfl, hlands⟩

end Sql

end QuerySheet

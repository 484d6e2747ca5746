import Mathlib
import QuerySheet.Query

/-!
# Queries that are written and read back

* `Json.Distinct`: no object in a value has two fields of one name. So it is with every value that
  a query is built from (`Document`);
* `toJson?_ofJson`: such a value is read back from its draft, if containers may be nested as deep
  as its weight;
* `Query.Clear`: what holds of every query that is built (`clear_build`);
* `ofJson?_toJson`: a clear query is read back from what it is written as, but for options that are
  null, which are read as no options;
* `readBack_of_build`: so a query is read back just as it was built exactly if the options that it
  got last, if it got any, are not null.
-/

namespace QuerySheet

/-! ## 1. Values -/

mutual

/-- No object in the value has two fields of one name. -/
def Json.Distinct : Json → Prop
  | .array items => Json.ItemsDistinct items
  | .object fields => (fields.map (·.1)).Nodup ∧ Json.FieldsDistinct fields
  | _ => True

def Json.ItemsDistinct : List Json → Prop
  | [] => True
  | v :: rest => v.Distinct ∧ Json.ItemsDistinct rest

def Json.FieldsDistinct : List (String × Json) → Prop
  | [] => True
  | (_, v) :: rest => v.Distinct ∧ Json.FieldsDistinct rest

end

/-- A value whose objects are keyed by their names. -/
abbrev Document := { v : Json // v.Distinct }

theorem Fields.insert_of_not_mem {fields : Fields} {name : String} (value : Json)
    (h : name ∉ fields.map (·.1)) : fields.insert name value = fields ++ [(name, value)] := by
  induction fields with
  | nil => rfl
  | cons field rest ih =>
    obtain ⟨k, v⟩ := field
    obtain ⟨hk, hrest⟩ := not_or.mp (mt List.mem_cons.mpr h)
    rw [Fields.insert, if_neg (Ne.symm hk), ih hrest]
    rfl

theorem Fields.foldl_insert {seen fields : Fields} (h : ((seen ++ fields).map (·.1)).Nodup) :
    fields.foldl (fun acc field => acc.insert field.1 field.2) seen = seen ++ fields := by
  induction fields generalizing seen with
  | nil => rw [List.append_nil]; rfl
  | cons field rest ih =>
    have hsplit : seen ++ field :: rest = (seen ++ [field]) ++ rest := by simp
    have hnew : field.1 ∉ seen.map (·.1) := by
      rw [List.map_append, List.map_cons, List.nodup_middle, List.nodup_cons] at h
      exact fun hmem => h.1 (List.mem_append_left _ hmem)
    rw [hsplit] at h ⊢
    rw [List.foldl_cons, Fields.insert_of_not_mem field.2 hnew]
    exact ih h

/-- Fields of different names make up an object as they are. -/
theorem Fields.ofList_of_nodup {fields : Fields} (h : (fields.map (·.1)).Nodup) :
    Fields.ofList fields = fields := by
  have hfold : (([] ++ fields : Fields).map (·.1)).Nodup := h
  exact Fields.foldl_insert hfold

namespace Json

theorem itemsDistinct_iff {items : List Json} : ItemsDistinct items ↔ ∀ v ∈ items, v.Distinct := by
  induction items with
  | nil => simp [ItemsDistinct]
  | cons v rest ih => simp [ItemsDistinct, ih]

namespace Draft

mutual

/-- A value is read back from its draft. -/
theorem toJson?_ofJson {depth : Nat} {v : Json} (hdepth : v.weight ≤ depth) (h : v.Distinct) :
    toJson? depth (ofJson v) = some v := by
  cases v with
  | null | bool b => rfl
  | number n | string s => rfl
  | array items =>
    simp only [weight] at hdepth
    have hitems : toItems? (depth - 1) (ofItems items) = some items :=
      toItems?_ofItems (by omega) h
    simp only [ofJson, toJson?, if_neg (show ¬ depth = 0 by omega), hitems, Option.map_some]
  | object fields =>
    simp only [weight] at hdepth
    have hfields : toFields? (depth - 1) (ofFields fields) = some fields :=
      toFields?_ofFields (by omega) h.2
    simp only [ofJson, toJson?, if_neg (show ¬ depth = 0 by omega), hfields, Option.map_some,
      Fields.ofList_of_nodup h.1]

theorem toItems?_ofItems {depth : Nat} {items : List Json} (hdepth : itemsWeight items ≤ depth)
    (h : ItemsDistinct items) : toItems? depth (ofItems items) = some items := by
  cases items with
  | nil => rfl
  | cons v rest =>
    simp only [itemsWeight] at hdepth
    have hv : toJson? depth (ofJson v) = some v := toJson?_ofJson (by omega) h.1
    have hrest : toItems? depth (ofItems rest) = some rest := toItems?_ofItems (by omega) h.2
    simp [ofItems, toItems?, hv, hrest]

theorem toFields?_ofFields {depth : Nat} {fields : Fields} (hdepth : fieldsWeight fields ≤ depth)
    (h : FieldsDistinct fields) : toFields? depth (ofFields fields) = some fields := by
  cases fields with
  | nil => rfl
  | cons field rest =>
    obtain ⟨name, v⟩ := field
    simp only [fieldsWeight] at hdepth
    have hv : toJson? depth (ofJson v) = some v := toJson?_ofJson (by omega) h.1
    have hrest : toFields? depth (ofFields rest) = some rest := toFields?_ofFields (by omega) h.2
    simp [ofFields, toFields?, hv, hrest]

end

/-! ## 2. Records -/

theorem values?_ofJson {depth : Nat} {items : List Json} (hdepth : itemsWeight items < depth)
    (h : ItemsDistinct items) : values? depth (ofJson (.array items)) = some items := by
  have hmap (items : List Json) :
      (ofItems items).mapM (toJson? (depth - 1)) = toItems? (depth - 1) (ofItems items) := by
    induction items with
    | nil => rfl
    | cons v rest ih => simp only [ofItems, toItems?, List.mapM_cons, ih]
  simp only [ofJson, values?, items?, if_neg (show ¬ depth = 0 by omega), Option.bind_eq_bind,
    Option.bind_some, hmap]
  exact toItems?_ofItems (by omega) h

theorem mapM_ofFields (fields : Fields) :
    (ofFields fields).mapM (fun (name, v) => name.map (·, v)) =
      some (fields.map fun field => (field.1, ofJson field.2)) := by
  induction fields with
  | nil => rfl
  | cons field rest ih => simp [ofFields, ih]

theorem lookup_map_ofJson (fields : Fields) (name : String) :
    (fields.map fun field => (field.1, ofJson field.2)).lookup name =
      (fields.lookup name).map ofJson := by
  induction fields with
  | nil => rfl
  | cons field rest ih =>
    rw [List.map_cons, List.lookup_cons, List.lookup_cons, ih]
    cases name == field.1 <;> rfl

/-- An object whose names differ gives the fields of a record by their names. -/
theorem record?_ofJson {depth : Nat} (hdepth : depth ≠ 0) {fields : Fields}
    (h : (fields.map (·.1)).Nodup) (names : List String) :
    record? depth names (ofJson (.object fields)) =
      some (names.map fun name => (fields.lookup name).map ofJson) := by
  have hcount (name : String) :
      (fields.map fun field => (field.1, ofJson field.2)).countP (·.1 == name) ≤ 1 := by
    have hle := List.nodup_iff_count_le_one.mp h name
    rw [List.count, List.countP_map] at hle
    rw [List.countP_map]
    exact hle
  have hany : (names.any fun name =>
      1 < (fields.map fun field => (field.1, ofJson field.2)).countP (·.1 == name)) = false := by
    rw [List.any_eq_false]
    intro name _
    simpa using hcount name
  simp only [ofJson, record?, if_neg hdepth, mapM_ofFields, Option.bind_eq_bind, Option.bind_some,
    hany, Bool.false_eq_true, ↓reduceIte, lookup_map_ofJson]
  rfl

theorem natural?_ofJson {n : Nat} (h : n < 2 ^ 64) : natural? (ofJson (.int n)) = some n := by
  have hbound : Power.two 64 = 2 ^ 64 := by decide
  have hfits : fitsUnsigned 64 n = true := by
    simp only [fitsUnsigned, hbound, Bool.and_eq_true, decide_eq_true_eq]
    omega
  simp [ofJson, natural?, hfits]

end Draft

end Json

/-! ## 3. Queries -/

namespace Query

variable {q : Query}

/-- What holds of every query that is built. -/
structure Clear (q : Query) : Prop where
  filters : Json.ItemsDistinct q.filters
  selection : Json.ItemsDistinct q.selection
  groups : Json.ItemsDistinct q.groups
  orders : Json.ItemsDistinct q.orders
  limit : ∀ n ∈ q.limit, n < 2 ^ 64
  offset : ∀ n ∈ q.offset, n < 2 ^ 64
  options : ∀ v ∈ q.options, v.Distinct

/-- The fields that a query is written as. -/
def written (q : Query) : Fields :=
  [("table", Json.string q.table), ("filterExpressions", .array q.filters),
    ("selectExpressions", .array q.selection), ("groupExpressions", .array q.groups),
    ("orderExpressions", .array q.orders), ("calculation", .bool q.calculation),
    ("rawMode", .bool q.raw), ("withDead", .bool q.withDead),
    ("validateRefs", .bool q.validateRefs)] ++
  (match q.limit with | some n => [("limit", .int n)] | none => []) ++
  (match q.offset with | some n => [("offset", .int n)] | none => []) ++
  (match q.options with | some v => [("tableOptions", v)] | none => [])

theorem toJson_eq (q : Query) : q.toJson = .object q.written := rfl

theorem nodup_written (q : Query) : (q.written.map (·.1)).Nodup := by
  unfold written
  cases q.limit <;> cases q.offset <;> cases q.options <;> simp

/-- Each property is written under its name, the last three if they are set. -/
theorem lookup_written (q : Query) : (properties.map fun name => q.written.lookup name) =
    [some (.string q.table), some (.array q.filters), some (.array q.selection),
      some (.array q.groups), some (.array q.orders), some (.bool q.calculation),
      some (.bool q.raw), some (.bool q.withDead), some (.bool q.validateRefs),
      q.limit.map fun n : Nat => .int n, q.offset.map fun n : Nat => .int n, q.options] := by
  unfold written properties
  cases q.limit <;> cases q.offset <;> cases q.options <;> simp [List.lookup]

theorem optional_natural? {limit : Option Nat} (h : ∀ n ∈ limit, n < 2 ^ 64) :
    Json.Draft.optional Json.Draft.natural?
      ((limit.map fun n : Nat => Json.int n).map Json.Draft.ofJson) = some limit := by
  cases limit with
  | none => rfl
  | some n =>
    have hn := Json.Draft.natural?_ofJson (h n rfl)
    rw [Option.map_some, Option.map_some, Json.Draft.optional, hn, Option.map_some]
    intro e
    cases e

/-- A null is read as no value. -/
theorem optional_toJson? {depth : Nat} {options : Option Json}
    (h : ∀ v ∈ options, v.Distinct ∧ v.weight ≤ depth) :
    Json.Draft.optional (Json.Draft.toJson? depth) (options.map Json.Draft.ofJson) =
      some (options.filter (· ≠ .null)) := by
  cases options with
  | none => rfl
  | some v =>
    obtain ⟨hdistinct, hweight⟩ := h v rfl
    by_cases hnull : v = .null
    · subst hnull
      rfl
    · have hv := Json.Draft.toJson?_ofJson hweight hdistinct
      have hdraft : Json.Draft.ofJson v ≠ .null := by cases v <;> simp_all [Json.Draft.ofJson]
      rw [Option.map_some, Json.Draft.optional, hv, Option.map_some]
      · simp [Option.filter, hnull]
      · exact fun e => hdraft e

/-- The lists of a query are lighter than the query, and so are its options. -/
theorem weight_toJson (q : Query) :
    Json.itemsWeight q.filters < q.toJson.weight - 1 ∧
      Json.itemsWeight q.selection < q.toJson.weight - 1 ∧
      Json.itemsWeight q.groups < q.toJson.weight - 1 ∧
      Json.itemsWeight q.orders < q.toJson.weight - 1 ∧
      ∀ v ∈ q.options, v.weight ≤ q.toJson.weight - 1 := by
  have hoptions : ∀ v ∈ q.options, v.weight ≤ Json.fieldsWeight q.written := by
    intro v hv
    have hlookup : q.written.lookup "tableOptions" = some v := by
      have h := congrArg (fun l => l[11]?) q.lookup_written
      simpa [properties, Option.mem_def.mp hv] using h
    exact Json.weight_le_of_lookup hlookup
  have hwritten : 4 + Json.itemsWeight q.filters + Json.itemsWeight q.selection +
      Json.itemsWeight q.groups + Json.itemsWeight q.orders ≤ Json.fieldsWeight q.written := by
    simp only [written, Json.fieldsWeight_append, Json.fieldsWeight, Json.weight]
    omega
  rw [toJson_eq, Json.weight, Nat.add_sub_cancel_left]
  refine ⟨?_, ?_, ?_, ?_, hoptions⟩ <;> omega

/-- A clear query is read back from what it is written as, but for options that are null. -/
theorem ofJson?_toJson (h : q.Clear) :
    ofJson? q.toJson = some { q with options := q.options.filter (· ≠ .null) } := by
  obtain ⟨hfilters, hselection, hgroups, horders, hoptions⟩ := q.weight_toJson
  have hrecord := Json.Draft.record?_ofJson (Nat.pos_iff_ne_zero.mp q.toJson.weight_pos)
    q.nodup_written properties
  have hlookup : (properties.map fun name => (q.written.lookup name).map Json.Draft.ofJson) =
      (properties.map fun name => q.written.lookup name).map (Option.map Json.Draft.ofJson) := by
    rw [List.map_map]
    rfl
  rw [hlookup, lookup_written, ← toJson_eq] at hrecord
  simp only [List.map_cons, List.map_nil, Option.map_some] at hrecord
  unfold ofJson? ofDraft?
  rw [hrecord, Option.bind_eq_bind, Option.bind_some]
  simp only [Json.Draft.given]
  rw [Json.Draft.values?_ofJson hfilters h.filters,
    Json.Draft.values?_ofJson hselection h.selection, Json.Draft.values?_ofJson hgroups h.groups,
    Json.Draft.values?_ofJson horders h.orders, optional_natural? h.limit,
    optional_natural? h.offset, optional_toJson? fun v hv => ⟨h.options v hv, hoptions v hv⟩]
  rfl

/-! ## 4. Queries that are built -/

/-- A call that makes a query out of another one. -/
inductive Operation where
  | filter (condition : Document)
  | unfilter (names : List String)
  | select (expressions : Document)
  | calculate (expression : Document)
  | groupBy (expressions : Document)
  | orderBy (expressions : Document)
  | take (n : UInt64)
  | skip (n : UInt64)
  | inRawMode
  | includingDead
  | withoutValidatedRefs
  | withOptions (options : Document)

namespace Operation

def apply (q : Query) : Operation → Query
  | .filter condition => q.filter condition
  | .unfilter names => q.unfilter names
  | .select expressions => q.select expressions
  | .calculate expression => q.calculate expression
  | .groupBy expressions => q.groupBy expressions
  | .orderBy expressions => q.orderBy expressions
  | .take n => q.take n.toNat
  | .skip n => q.skip n.toNat
  | .inRawMode => q.inRawMode
  | .includingDead => q.includingDead
  | .withoutValidatedRefs => q.withoutValidatedRefs
  | .withOptions options => q.withOptions options

/-- The options that a call sets. -/
def options? : Operation → Option Json
  | .withOptions options => some options
  | _ => none

end Operation

/-- The query that calls make, one after the other, of a table. -/
def build (table : String) (ops : List Operation) : Query := ops.foldl Operation.apply { table }

/-- The options of the last call that sets any. -/
def lastOptions (ops : List Operation) : Option Json := (ops.filterMap Operation.options?).getLast?

theorem build_concat (table : String) (ops : List Operation) (op : Operation) :
    build table (ops ++ [op]) = op.apply (build table ops) := by
  rw [build, List.foldl_append]
  rfl

theorem itemsDistinct_listed (v : Document) : Json.ItemsDistinct (listed v) := by
  obtain ⟨v, hv⟩ := v
  cases v with
  | array items => exact hv
  | _ => exact ⟨hv, trivial⟩

theorem itemsDistinct_append {items more : List Json} (h : Json.ItemsDistinct items)
    (hmore : Json.ItemsDistinct more) : Json.ItemsDistinct (items ++ more) := by
  rw [Json.itemsDistinct_iff] at h hmore ⊢
  exact fun v hv => (List.mem_append.mp hv).elim (h v) (hmore v)

theorem Clear.apply (h : q.Clear) (op : Operation) : (op.apply q).Clear := by
  have hbound (n : UInt64) : ∀ m ∈ some n.toNat, m < 2 ^ 64 := by
    intro m hm
    cases hm
    exact n.toNat_lt
  cases op with
  | filter condition =>
    exact { h with filters := itemsDistinct_append h.filters ⟨condition.2, trivial⟩ }
  | unfilter names =>
    refine { h with filters := Json.itemsDistinct_iff.mpr fun v hv => ?_ }
    exact Json.itemsDistinct_iff.mp h.filters v (List.mem_filter.mp hv).1
  | select expressions => exact { h with selection := itemsDistinct_listed expressions }
  | calculate expression =>
    exact { h with selection := ⟨⟨List.nodup_singleton _, expression.2, trivial⟩, trivial⟩ }
  | groupBy expressions =>
    exact { h with groups := itemsDistinct_append h.groups (itemsDistinct_listed expressions) }
  | orderBy expressions =>
    exact { h with orders := itemsDistinct_append h.orders (itemsDistinct_listed expressions) }
  | take n => exact { h with limit := hbound n }
  | skip n => exact { h with offset := hbound n }
  | inRawMode | includingDead | withoutValidatedRefs => exact { h with }
  | withOptions options =>
    refine { h with options := fun v hv => ?_ }
    cases hv
    exact options.2

theorem options_apply (op : Operation) : (op.apply q).options = op.options?.or q.options := by
  cases op <;> rfl

theorem clear_build (table : String) (ops : List Operation) : (build table ops).Clear := by
  induction ops using List.reverseRecOn with
  | nil =>
    refine ⟨trivial, trivial, trivial, trivial, ?_, ?_, ?_⟩ <;>
    · intro _ h
      cases h
  | append_singleton ops op ih => exact build_concat table ops op ▸ ih.apply op

theorem options_build (table : String) (ops : List Operation) :
    (build table ops).options = lastOptions ops := by
  induction ops using List.reverseRecOn with
  | nil => rfl
  | append_singleton ops op ih =>
    rw [build_concat, options_apply, ih]
    unfold lastOptions
    cases hop : op.options? <;> simp [List.filterMap_append, hop]

/-- What is read back from a query that was built is that query, but for options that are null: they
    are read as no options. So the query is read back just as it was built exactly if the last
    options that it got are not null. -/
theorem readBack_of_build (table : String) (ops : List Operation) :
    let q := build table ops
    ofJson? q.toJson = some { q with options := q.options.filter (· ≠ .null) } ∧
      (ofJson? q.toJson = some q ↔ lastOptions ops ≠ some .null) := by
  intro q
  have hread : ofJson? q.toJson = some { q with options := q.options.filter (· ≠ .null) } :=
    ofJson?_toJson (clear_build table ops)
  have hoptions : q.options = lastOptions ops := options_build table ops
  refine ⟨hread, ?_⟩
  rw [hread, Option.some_inj, ← hoptions]
  constructor
  · intro h hnull
    have h := congrArg Query.options h
    rw [hnull] at h
    cases h
  · intro h
    have hkept : q.options.filter (· ≠ .null) = q.options := by
      cases hq : q.options with
      | none => rfl
      | some v =>
        have hv : v ≠ .null := fun e => h (by rw [hq, e])
        simp [Option.filter, hv]
    rw [hkept]

/-- Options that are null are lost. -/
theorem not_readBack_of_null :
    ofJson? (build "accounts" [.withOptions ⟨.null, trivial⟩]).toJson ≠
      some (build "accounts" [.withOptions ⟨.null, trivial⟩]) := by
  rw [ofJson?_toJson (clear_build _ _)]
  exact fun h => by cases h

end Query

end QuerySheet

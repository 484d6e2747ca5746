import QuerySheet.Toml.Value

/-!
# Tables that are being written

A settings file writes its tables piece by piece, and may not write one twice. A `Table` in progress
remembers how each of its tables came to be, for that decides what may still be added:

* a table with a header of its own is *stated*; no second header may state it;
* a table named in the header of another is *implied*, and may still be stated;
* a table made by a dotted key is *dotted*, and only dotted keys may add to it;
* a value is closed: an array or a table in braces takes nothing more;
* tables of one name with double brackets are a *series*; a header or key goes to the last of them.
-/

namespace QuerySheet.Toml

inductive Origin where
  | stated
  | implied
  | dotted
  deriving DecidableEq, Repr

/-- What stands under a name. -/
inductive Entry where
  | value (v : Value)
  | table (origin : Origin) (entries : List (String × Entry))
  /-- The tables of a series, the last one first. -/
  | series (last : List (String × Entry)) (before : List (List (String × Entry)))
  deriving Inhabited

abbrev Table := List (String × Entry)

namespace Table

/-! ## 1. Entries -/

def get? (t : Table) (name : String) : Option Entry := t.lookup name

/-- The table with an entry changed or added. -/
def put (t : Table) (name : String) (e : Entry) : Table :=
  match t with
  | [] => [(name, e)]
  | (k, old) :: rest => if k = name then (name, e) :: rest else (k, old) :: put rest name e

/-! ## 2. Keys -/

/-- A value under a dotted key. The tables on the way are made, or are there and were not stated;
    the table that takes the value must be dotted itself. -/
def assign? (t : Table) (name : String) (path : List String) (v : Value) : Option Table :=
  match path with
  | [] => if (t.get? name).isSome then none else some (t ++ [(name, .value v)])
  | next :: more =>
    match t.get? name with
    | none => (assign? [] next more v).map fun inner => t ++ [(name, .table .dotted inner)]
    | some (.table .stated _) | some (.value _) => none
    | some (.table origin inner) =>
      if more.isEmpty && origin != .dotted then none
      else (assign? inner next more v).map fun inner => t.put name (.table origin inner)
    | some (.series last before) =>
      if more.isEmpty then none
      else (assign? last next more v).map fun last => t.put name (.series last before)

/-! ## 3. Headers -/

/-- The header of a table. -/
def state? (t : Table) (name : String) : Option Table :=
  match t.get? name with
  | none => some (t ++ [(name, .table .stated [])])
  | some (.table .implied inner) => some (t.put name (.table .stated inner))
  | _ => none

/-- The header of one more table of a series. -/
def extend? (t : Table) (name : String) : Option Table :=
  match t.get? name with
  | none => some (t ++ [(name, .series [] [])])
  | some (.series last before) => some (t.put name (.series [] (last :: before)))
  | _ => none

/-- A change of the table that a path leads to. The tables on the way are implied where they are
    not there. -/
def change? (f : Table → Option Table) (t : Table) : List String → Option Table
  | [] => f t
  | name :: more =>
    match t.get? name with
    | none => (change? f [] more).map fun inner => t ++ [(name, .table .implied inner)]
    | some (.value _) => none
    | some (.table origin inner) =>
      (change? f inner more).map fun inner => t.put name (.table origin inner)
    | some (.series last before) =>
      (change? f last more).map fun last => t.put name (.series last before)

/-! ## 4. The finished table -/

mutual

def finishEntry : Entry → Value
  | .value v => v
  | .table _ entries => .table (Value.sortEntries (finishEntries entries))
  | .series last before =>
    .array (finishTables before [.table (Value.sortEntries (finishEntries last))])

def finishEntries : List (String × Entry) → List (String × Value)
  | [] => []
  | (name, e) :: rest => (name, finishEntry e) :: finishEntries rest

/-- The tables of a series in their order, before the ones given. -/
def finishTables : List (List (String × Entry)) → List Value → List Value
  | [], after => after
  | t :: rest, after => finishTables rest (.table (Value.sortEntries (finishEntries t)) :: after)

end

/-- The value of a table, its entries in the order of their names. -/
def finish (t : Table) : Value := .table (Value.sortEntries (finishEntries t))

end Table

end QuerySheet.Toml

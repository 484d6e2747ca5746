import QuerySheet.Query

/-!
# Policies

The host of a query decides which relation a table is read from, which rows it hides, and may
change the query first. A `Policy` holds these three decisions; `Policy.none` makes none.
-/

namespace QuerySheet

/-- What a view may depend on. -/
structure ViewContext where
  withDead : Bool
  /-- The table is joined, and not the root of the query. -/
  isJoin : Bool
  options : Option Json

structure Policy where
  /-- The relation to read a table from; the table itself where there is none. -/
  view : String → ViewContext → Option String
  /-- Conditions on plain fields of a table that hold in every query on it, unless it is raw. -/
  filters : String → List Json
  /-- Changes a query before it is compiled. -/
  customize : Query → Query

def Policy.none : Policy where
  view _ _ := Option.none
  filters _ := []
  customize q := q

instance : Inhabited Policy := ⟨.none⟩

end QuerySheet

import QuerySheet.Toml.Statement

/-!
# Reading a settings file

`Toml.parse?` is the table that the statements of a text write, in which a statement belongs to the
header above it.
-/

namespace QuerySheet.Toml

/-- The table so far, and the path of the header that is in force. -/
structure Progress where
  root : Table
  path : List String

namespace Progress

def start : Progress := ⟨[], []⟩

/-- The names before the last one of a key, and the last one. -/
def unsnoc (key : Key) : List String × String :=
  match key.more.getLast? with
  | none => ([], key.name)
  | some last => (key.name :: key.more.dropLast, last)

def step (p : Progress) : Statement → Option Progress
  | .assign key v => do
    return { p with root := ← p.root.change? (·.assign? key.name key.more v) p.path }
  | .header key => do
    let (path, name) := unsnoc key
    return ⟨← p.root.change? (·.state? name) path, key.name :: key.more⟩
  | .seriesHeader key => do
    let (path, name) := unsnoc key
    return ⟨← p.root.change? (·.extend? name) path, key.name :: key.more⟩

end Progress

/-- The table that a text writes. -/
def parse? (text : String) : Option Value := do
  let tokens ← Token.scan text.toList
  let statements ← Statement.ofTokens? tokens
  let finished ← statements.foldlM Progress.step .start
  return finished.root.finish

end QuerySheet.Toml

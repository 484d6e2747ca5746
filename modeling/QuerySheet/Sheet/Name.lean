/-!
# Names of cells

A cell on a sheet has the name `sheet!name`, a cell on no sheet just its name. `CellName.qualify`
puts a name together, `CellName.split` takes it apart at the first exclamation mark.
-/

namespace QuerySheet.CellName

def qualify (sheet name : String) : String :=
  if sheet.isEmpty then name else sheet ++ "!" ++ name

/-- The parts before and after the first exclamation mark, if there is one. -/
def splitChars? : List Char → Option (List Char × List Char)
  | [] => none
  | '!' :: rest => some ([], rest)
  | c :: rest => (splitChars? rest).map fun (sheet, name) => (c :: sheet, name)

/-- The sheet and the name on it. -/
def split (qualified : String) : String × String :=
  match splitChars? qualified.toList with
  | some (sheet, name) => (String.ofList sheet, String.ofList name)
  | none => ("", qualified)

def isQualified (name : String) : Bool := name.toList.contains '!'

/-- The cell that a dependency of a cell on `sheet` means: a plain name is on the same sheet. -/
def resolve (sheet dependency : String) : String :=
  if isQualified dependency then dependency else qualify sheet dependency

end QuerySheet.CellName

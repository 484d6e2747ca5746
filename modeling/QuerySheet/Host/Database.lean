import QuerySheet.Host.DatabaseName
import QuerySheet.Host.Files

/-!
# Opening a database

`Files.openDatabase` opens the database of a name, and makes it where there is none yet if its name
allows that. What is opened may still be no database, which only its first use shows:
`Files.isDatabase` tells whether it is an empty one. `Files.writeDatabase` is the first write.
-/

namespace QuerySheet

inductive DatabaseError where
  | name (e : DatabaseNameError)
  | unopenable (text : String)
  | unreadable
  | notDatabase
  | readOnly
  /-- There is no place beside the database for what a write needs. -/
  | noJournal
  deriving DecidableEq, Repr

def DatabaseError.message : DatabaseError → String
  | .name e => e.message
  | .unopenable text => "unable to open database file: " ++ text
  | .unreadable => "disk I/O error"
  | .notDatabase => "file is not a database"
  | .readOnly => "attempt to write a readonly database"
  | .noJournal => "unable to open database file"

namespace DatabaseName

/-- The longest path from the root that a path to a database goes through, in bytes. -/
def maxPath : Nat := 511

/-- How many bytes more the names of the files beside a database may have. -/
def room : Nat := 8

/-- The chain of the file that a database is in, by the text of its path. -/
def chain? (n : DatabaseName) : Option (List String) :=
  if n.isVirtual then none else some (Files.normal n.path)

/-- Whether a file beside the one at the end of a chain may have its name with so many bytes
    more. -/
def hasRoom (chain : List String) (more : Nat) : Bool :=
  (chain.getLastD "").utf8ByteSize + more ≤ Files.maxName

end DatabaseName

namespace Files

/-- Whether a path can be followed by its text, all the way along: it is short enough, and no file
    stands where a directory should be. What is missing does not matter. -/
def canFollow (f : Files) (path : String) : Bool :=
  (chains path).all fun chain =>
    f.pathLength chain ≤ DatabaseName.maxPath && DatabaseName.hasRoom chain 0 &&
      !f.isFile (up chain)

/-- Whether a path may be that of a database. -/
def admitsDatabase (f : Files) (path : String) : Bool :=
  let chain := normal path
  f.canFollow path && chain != ["/"] &&
    f.pathLength chain + DatabaseName.room ≤ DatabaseName.maxPath + 1

/-- Opens a database. -/
def openDatabase (f : Files) (text : String) : Except DatabaseError DatabaseName := do
  let name ← (DatabaseName.ofText text).mapError .name
  match name.chain? with
  | none => return name
  | some chain =>
    if !f.admitsDatabase name.path then .error (.unopenable text)
    if name.pattern?.any fun path => !(f.look path).isOk then .error .unreadable
    match f.entry? chain with
    | some (.file _) => return name
    | some .directory => .error (if name.access = .read then .unreadable else .unopenable text)
    | none =>
      if name.access = .create && f.isDirectory (up chain) then return name
      else .error (.unopenable text)

/-- Whether what was opened is an empty database. A single byte counts as nothing. -/
def isDatabase (f : Files) (name : DatabaseName) : Bool :=
  match name.chain?.bind f.entry? with
  | some (.file content) => content.utf8ByteSize ≤ 1
  | _ => true

/-- Makes the first tables of a database that was opened. -/
def writeDatabase (f : Files) (name : DatabaseName) : Except DatabaseError Unit := do
  if !f.isDatabase name then .error .notDatabase
  if !name.isWritable then .error .readOnly
  if !DatabaseName.hasRoom (name.chain?.getD []) "-journal".utf8ByteSize then .error .noJournal

end Files

end QuerySheet

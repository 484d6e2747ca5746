import QuerySheet.Text.Separated

/-!
# Files

A run sees the files around it as they were when it began.

* `Files` tells what stands at the end of a chain of names; `Files.ofList` makes it of named
  contents;
* `Files.look` follows a path as it is written, and every name before a slash must be a directory;
* `Files.makeDirectories` makes a directory and those above it;
* `Files.normal` is where a path leads by its text alone.
-/

namespace QuerySheet

inductive FileEntry where
  | file (content : String)
  | directory
  deriving DecidableEq, Repr

/-- Why a file cannot be read, or a directory not be made. -/
inductive FileError where
  | missing
  | occupied
  | notDirectory
  | isDirectory
  | nameTooLong
  /-- A name holds the character NUL. -/
  | nul
  deriving DecidableEq, Repr

def FileError.message : FileError → String
  | .missing => "No such file or directory (os error 2)"
  | .occupied => "File exists (os error 17)"
  | .notDirectory => "Not a directory (os error 20)"
  | .isDirectory => "Is a directory (os error 21)"
  | .nameTooLong => "File name too long (os error 36)"
  | .nul => "file name contained an unexpected NUL byte"

/-- What stands at the end of a chain of names. A chain starts in the working directory, or at the
    root of all files if its first name is a slash. -/
structure Files where
  entry? : List String → Option FileEntry
  /-- The length of the path from the root to the working directory, in bytes. -/
  base : Nat

namespace Files

/-! ## 1. Paths -/

/-- The longest name, in bytes. -/
def maxName : Nat := 255

/-- The longest path, in bytes. -/
def maxPath : Nat := 4095

/-- The texts between the slashes. -/
def split (path : String) : List String := Separated.split '/' path

/-- A name that stays where it is. -/
def isIdle (name : String) : Bool := name = "" || name = "."

def hasNul (name : String) : Bool := name.toList.contains '\x00'

/-- The chain that a path starts from. -/
def start (path : String) : List String := if path.startsWith "/" then ["/"] else []

/-- The directory that a chain ends in. Nothing is above the root; what is above the working
    directory is named by its way up. -/
def up (chain : List String) : List String :=
  match chain.getLast? with
  | some "/" => chain
  | none | some ".." => chain ++ [".."]
  | some _ => chain.dropLast

/-- The chain that a name leads to by its text: `..` takes back the name before it. -/
def follow (chain : List String) (name : String) : List String :=
  if isIdle name then chain
  else if name = ".." then up chain
  else chain ++ [name]

/-- The chain that a path stands for by its text. -/
def normal (path : String) : List String := (split path).foldl follow (start path)

/-- All chains that a path goes through by its text, the whole one first. -/
def chains (path : String) : List (List String) :=
  (split path).foldl (fun chains name => follow (chains.headD []) name :: chains) [start path]

/-- A path that stands for a chain. -/
def text : List String → String
  | [] => "."
  | "/" :: names => "/" ++ "/".intercalate names
  | names => "/".intercalate names

/-! ## 2. Looking -/

def isDirectory (f : Files) (chain : List String) : Bool := f.entry? chain = some .directory

/-- The length of the path from the root to the end of a chain, in bytes. -/
def pathLength (f : Files) (chain : List String) : Nat :=
  match chain with
  | "/" :: _ => (text chain).utf8ByteSize
  | _ => f.base + 1 + (text chain).utf8ByteSize

def isFile (f : Files) (chain : List String) : Bool :=
  match f.entry? chain with
  | some (.file _) => true
  | _ => false

/-- One name further from a directory. -/
def step (f : Files) (chain : List String) (name : String) : Except FileError (List String) :=
  if !f.isDirectory chain then .error .notDirectory
  else if maxName < name.utf8ByteSize then .error .nameTooLong
  else if (f.entry? (follow chain name)).isNone then .error .missing
  else .ok (follow chain name)

/-- What stands at a path; the empty path leads nowhere. -/
def look (f : Files) (path : String) : Except FileError FileEntry := do
  if path.isEmpty then .error .missing
  if hasNul path then .error .nul
  if maxPath < path.utf8ByteSize then .error .nameTooLong
  let chain ← (split path).foldlM f.step (start path)
  match f.entry? chain with
  | some entry => return entry
  | none => .error .missing

/-- The content of the file at a path. -/
def read (f : Files) (path : String) : Except FileError String := do
  match ← f.look path with
  | .file content => return content
  | .directory => .error .isDirectory

/-! ## 3. Making directories -/

/-- The files with one more directory. -/
def withDirectory (f : Files) (chain : List String) : Files :=
  { f with entry? := fun c => if c = chain then some .directory else f.entry? c }

theorem isDirectory_withDirectory (f : Files) (chain : List String) :
    (f.withDirectory chain).isDirectory chain = true := by
  simp [isDirectory, withDirectory]

/-- Making a directory changes nothing elsewhere. -/
theorem entry?_withDirectory_of_ne {f : Files} {chain other : List String} (h : other ≠ chain) :
    Files.entry? (f.withDirectory chain) other = f.entry? other := by
  simp [withDirectory, h]

/-- Makes the directory that names lead to from a chain. The last of the names is the new one. -/
def makeDirectory (f : Files) (chain names : List String) : Except FileError Files := do
  if names.any hasNul then .error .nul
  if maxPath < (text (chain ++ names)).utf8ByteSize then .error .nameTooLong
  let parent ← names.dropLast.foldlM f.step chain
  let name := names.getLastD ""
  match f.step parent name with
  | .ok _ => .error .occupied
  | .error .missing => return f.withDirectory (follow parent name)
  | .error e => .error e

/-- The files after a directory was made, or if it was there. -/
def orPresent (f : Files) (chain names : List String) (made : Except FileError Files) :
    Except FileError Files :=
  match names.foldlM f.step chain with
  | .ok found => if f.isDirectory found then .ok f else made
  | .error _ => made

/-- Makes the directory that names lead to from a chain, and those above it that are missing. The
    names are given backwards. -/
def makeAll (f : Files) (chain : List String) : List String → Except FileError Files
  | [] => .ok f
  | name :: above => do
    let names := (name :: above).reverse
    match f.makeDirectory chain names with
    | .ok f => return f
    | .error .missing =>
      let f ← makeAll f chain above
      f.orPresent chain names (f.makeDirectory chain names)
    | .error e => f.orPresent chain names (.error e)

/-- Makes the directories that a path goes through before its last name. -/
def makeDirectories (f : Files) (path : String) : Except FileError Files :=
  f.makeAll (start path) (((split path).filter (!isIdle ·)).dropLast.reverse)

/-! ## 4. Files by name -/

/-- Files with their contents, and the directories that they are in. The root and what is above
    the working directory are directories of which nothing more is known. -/
def ofList (base : Nat) (files : List (String × String)) : Files where
  base := base
  entry? chain :=
    match files.find? fun (path, _) => normal path == chain with
    | some (_, content) => some (.file content)
    | none =>
      if chain = ["/"] || chain.all (· = "..") ||
          files.any fun (path, _) => chain.isPrefixOf (normal path) then
        some .directory
      else none

end Files

end QuerySheet

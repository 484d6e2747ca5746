import QuerySheet.Text.Digit
import QuerySheet.Text.Separated
import QuerySheet.Text.Utf8

/-!
# Names of databases

A database is named by a path, or by a URI: `file:`, a path, and options after a question mark.
`DatabaseName.ofText` reads a name.

* What follows the sign `#` does not count. A host between two slashes and the path is this one.
* In a path, and in the name and the value of an option, a percent sign and two hexadecimal digits
  stand for a byte, and what follows a zero byte does not count.
* Options that are not known are ignored, and of several of one name the first counts, unless they
  say how a database is used or kept. Of several that say how a database is used, none may
  allow more than the one before it.
* The empty path and `:memory:` stand for databases that are in no file.
-/

namespace QuerySheet

/-- How a database is used. -/
inductive Access where
  | read
  | write
  /-- Made where there is none. -/
  | create
  | memory
  deriving DecidableEq, Repr

structure DatabaseName where
  path : String
  access : Access
  /-- Never written, whatever its use. -/
  frozen : Bool
  /-- Where databases are kept, as an option names it. -/
  store : String
  /-- The path of the file that a new one takes its permissions from. -/
  pattern? : Option String
  deriving DecidableEq, Repr

/-- What is wrong with a name. -/
inductive DatabaseNameError where
  /-- A character NUL, after so many bytes. -/
  | nul (position : Nat)
  | host (text : String)
  | noAccess (text : String)
  | moreAccess (text : String)
  | noSharing (text : String)
  | noStore (text : String)
  deriving DecidableEq, Repr

def DatabaseNameError.message : DatabaseNameError → String
  | .nul position => "nul byte found in provided data at position: " ++ toString position
  | .host text => "invalid uri authority: " ++ text
  | .noAccess text => "no such access mode: " ++ text
  | .moreAccess text => "access mode not allowed: " ++ text
  | .noSharing text => "no such cache mode: " ++ text
  | .noStore text => "no such vfs: " ++ text

/-! ## 1. Access -/

namespace Access

def ofText? : String → Option Access
  | "ro" => some .read
  | "rw" => some .write
  | "rwc" => some .create
  | "memory" => some .memory
  | _ => none

/-- How much a use allows. -/
def level : Access → Nat
  | .read => 0
  | .write => 1
  | .create => 2
  | .memory => 3

/-- Whether a use may be changed to another one. A database in memory is always allowed. -/
def admits (a b : Access) : Bool := b = .memory || b.level ≤ a.level

/-- A database that is only read is never made by a later option. -/
theorem not_admits_read_create : Access.read.admits .create = false := rfl

end Access

/-! ## 2. Escapes -/

namespace DatabaseName

/-- The bytes of a text with its escapes resolved. -/
def bytes : List Char → List UInt8
  | [] => []
  | '%' :: a :: b :: rest =>
    match Digit.hex? a, Digit.hex? b with
    | some m, some n => UInt8.ofNat (16 * m + n) :: bytes rest
    | _, _ => '%'.toUInt8 :: bytes (a :: b :: rest)
  | c :: rest => String.utf8EncodeChar c ++ bytes rest

/-- A text without a percent sign stands for its own bytes. -/
theorem bytes_of_no_percent {cs : List Char} (h : '%' ∉ cs) :
    bytes cs = cs.flatMap String.utf8EncodeChar := by
  induction cs with
  | nil => rfl
  | cons c rest ih =>
    simp only [List.mem_cons, not_or] at h
    rw [bytes.eq_def]
    split
    · contradiction
    · simp_all
    · simp_all

/-- The text that a part of a URI stands for. -/
def unescape (cs : List Char) : String := Utf8.decode ((bytes cs).takeWhile (· != 0))

/-! ## 3. Options -/

/-- An option with its value; one without a name is none. -/
def option? (cs : List Char) : Option (String × String) :=
  let name := unescape (cs.takeWhile (· != '='))
  if name.isEmpty then none else some (name, unescape ((cs.dropWhile (· != '=')).drop 1))

/-- The number at the start of a text, decimal or hexadecimal. One that needs more than 31 bits
    counts as zero. -/
def number (cs : List Char) : Nat :=
  let n := match cs with
    | '0' :: 'x' :: ds | '0' :: 'X' :: ds => Digit.numberIn 16 (ds.takeWhile (Digit.isIn 16))
    | ds => Digit.number (ds.takeWhile Char.isDigit)
  if n ≤ 0x7FFFFFFF then n else 0

/-- Whether a value switches something on. Of a number, the last eight bits count. -/
def isOn (value : String) : Bool :=
  if value.toList.head?.any Char.isDigit then number value.toList % 256 ≠ 0
  else ["on", "yes", "true"].contains (String.ofList (value.toList.map Char.toLower))

def stores : List String := ["unix", "unix-none", "unix-dotfile", "unix-excl", "memdb"]

/-- A name with one more option. -/
def withOption (n : DatabaseName) : String × String → Except DatabaseNameError DatabaseName
  | ("mode", text) =>
    match Access.ofText? text with
    | none => .error (.noAccess text)
    | some a => if n.access.admits a then .ok { n with access := a } else .error (.moreAccess text)
  | ("cache", text) =>
    if ["shared", "private"].contains text then .ok n else .error (.noSharing text)
  | ("vfs", text) => .ok { n with store := text }
  | _ => .ok n

/-! ## 4. Reading -/

def ofPath (path : String) : DatabaseName := ⟨path, .create, false, "unix", none⟩

/-- The host of a URI, and what follows it. -/
def host : List Char → List Char × List Char
  | '/' :: '/' :: rest => (rest.takeWhile (· != '/'), rest.dropWhile (· != '/'))
  | cs => ([], cs)

/-- A URI after its scheme. -/
def ofUri (cs : List Char) : Except DatabaseNameError DatabaseName := do
  let (host, rest) := host cs
  let host := String.ofList host
  if host ≠ "" ∧ host ≠ "localhost" then .error (.host host)
  let rest := rest.takeWhile (· != '#')
  let options := (Separated.parts '&' ((rest.dropWhile (· != '?')).drop 1)).filterMap option?
  let name ← options.foldlM withOption (ofPath (unescape (rest.takeWhile (· != '?'))))
  if !stores.contains name.store then .error (.noStore name.store)
  let frozen := (options.lookup "immutable").any isOn
  return { name with frozen, pattern? := options.lookup "modeof" }

/-- The database that a text names. -/
def ofText (text : String) : Except DatabaseNameError DatabaseName :=
  let before := text.toList.takeWhile (· != '\x00')
  if before.length < text.length then .error (.nul (String.ofList before).utf8ByteSize)
  else
    match text.toList with
    | 'f' :: 'i' :: 'l' :: 'e' :: ':' :: rest => ofUri rest
    | _ => .ok (ofPath text)

/-- Whether a database goes when it is closed. -/
def isPassing (n : DatabaseName) : Bool :=
  n.path.isEmpty || n.path = ":memory:" || n.access = .memory

/-- Whether a database is in no file. -/
def isVirtual (n : DatabaseName) : Bool := n.isPassing || n.store = "memdb"

/-- Whether a database that can be opened can be written. One that passes is never frozen. -/
def isWritable (n : DatabaseName) : Bool := n.access ≠ .read && (!n.frozen || n.isPassing)

end DatabaseName

end QuerySheet

import Std.Data.ExtTreeMap.Lemmas
import QuerySheet.Json.Printer
import QuerySheet.Json.Reader
import QuerySheet.Sheet.Name
import QuerySheet.Text.Digit

/-!
# The cell cache

The cell cache keeps the values of cells from one run to the next. A value is stored under its
cell's name as JSON text, and the cache as a whole carries the version of its format.

* `get` and `load` read what `set` and `save` have stored; a stored text that is no JSON is told
  apart from a value that is not there;
* `reopen` is what happens when a run finds a cache: one of another version loses its values.
-/

namespace QuerySheet

open Std (ExtTreeMap)

structure CellCache where
  /-- The stored texts by the names of their cells. -/
  entries : ExtTreeMap String String
  /-- The text of the version; none in a cache that was never opened. -/
  version : Option String

namespace CellCache

/-- A stored text is no JSON. -/
structure Unreadable where
  cell : String
  deriving DecidableEq, Repr

/-- The version of the format that is written. -/
def currentVersion : Int := 1

/-- A new cache. -/
def empty : CellCache := ⟨∅, some (toString currentVersion)⟩

instance : Inhabited CellCache := ⟨empty⟩

/-! ## 1. Writing -/

def set (c : CellCache) (name : String) (v : Json) : CellCache :=
  { c with entries := c.entries.insert name v.compact }

/-- Stores the values of a batch; of a repeated name the last counts. -/
def save (c : CellCache) (cells : List (String × Json)) : CellCache :=
  cells.foldl (fun c (name, v) => c.set name v) c

/-- Removes a cell, and tells whether it was there. -/
def delete (c : CellCache) (name : String) : CellCache × Bool :=
  ({ c with entries := c.entries.erase name }, c.entries.contains name)

/-- Removes the cells of a sheet, and tells how many they were. -/
def deleteSheet (c : CellCache) (sheet : String) : CellCache × Nat :=
  let kept := c.entries.filter fun name _ => (CellName.split name).1 != sheet
  ({ c with entries := kept }, c.entries.size - kept.size)

def clear (c : CellCache) : CellCache := { c with entries := ∅ }

/-! ## 2. Reading -/

/-- The value of a stored text. -/
def read (name text : String) : Except Unreadable Json :=
  match Json.parse? text with
  | some v => .ok v
  | none => .error ⟨name⟩

/-- The value stored for a cell, if there is one. -/
def get (c : CellCache) (name : String) : Except Unreadable (Option Json) :=
  match c.entries[name]? with
  | some text => (read name text).map some
  | none => .ok none

/-- All stored values by the names of their cells; one unreadable text spoils them all. -/
def load (c : CellCache) : Except Unreadable (List (String × Json)) :=
  c.entries.toList.mapM fun (name, text) => return (name, ← read name text)

/-! ## 3. Size -/

def entryCount (c : CellCache) : Nat := c.entries.size

/-- The number of characters of a text up to a NUL. -/
def textLength (text : String) : Nat := (text.toList.takeWhile (· != '\x00')).length

/-- The lengths of all stored texts together. -/
def totalSize (c : CellCache) : Nat :=
  c.entries.toList.foldl (fun total (_, text) => total + textLength text) 0

/-! ## 4. Versions -/

/-- The number that a version's text writes: decimal digits after an optional sign, within 32 bits.
    Any other text counts as version zero. -/
def versionNumber (text : String) : Int :=
  let (negative, ds) := Digit.sign text.toList
  let n := Digit.signed negative (Digit.number ds)
  if !ds.isEmpty && ds.all Char.isDigit && fitsSigned 32 n then n else 0

/-- A cache of another version loses its values; a cache without a version keeps them. Either way
    the cache then has the current version. -/
def reopen (c : CellCache) : CellCache :=
  match c.version with
  | none => { c with version := empty.version }
  | some text =>
    if versionNumber text = currentVersion then c
    else { c.clear with version := empty.version }

end CellCache

end QuerySheet

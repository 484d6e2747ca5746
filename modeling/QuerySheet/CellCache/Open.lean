import QuerySheet.CellCache.Basic
import QuerySheet.Host.Database
import QuerySheet.Settings.Load

/-!
# Opening the cell cache

`CellCache.ofSettings` opens the cache that settings ask for: none if it is off, one at the path in
the settings, or else the one in the user's own directory. Directories on the way are made.
-/

namespace QuerySheet

inductive CacheError where
  | settings (e : SettingsError)
  /-- The user has no directory of their own. -/
  | homeless
  /-- The directories on the way cannot be made. -/
  | directories (e : FileError)
  | database (e : DatabaseError)
  | unreadable (e : CellCache.Unreadable)
  deriving DecidableEq, Repr

def CacheError.message : CacheError → String
  | .settings e => "Cache settings error: " ++ e.message
  | .homeless => "Failed to determine cache directory"
  | .directories e => "IO error: " ++ e.message
  | .database e => "SQLite error: " ++ e.message
  | .unreadable _ => "JSON serialization error"

namespace CellCache

/-- The usual path of the cache. -/
def usualPath? (host : Host) : Option String := host.home.map fun home => home ++ "/.tally/cells.db"

/-- The cache at a path. A file that is there already must be empty. -/
def openAt (f : Files) (path : String) : Except CacheError CellCache := do
  let f ← (f.makeDirectories path).mapError .directories
  let name ← (f.openDatabase path).mapError .database
  (f.writeDatabase name).mapError .database
  return empty

/-- The cache that settings ask for. -/
def ofSettings (host : Host) (s : Settings) : Except CacheError (Option CellCache) := do
  if !s.cacheEnabled then return none
  match ← (s.cachePath host.environment).mapError .settings with
  | some path => return some (← openAt host.files path)
  | none =>
    match usualPath? host with
    | some path => return some (← openAt host.files path)
    | none => .error .homeless

end CellCache

end QuerySheet

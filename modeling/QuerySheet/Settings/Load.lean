import QuerySheet.Host.Basic
import QuerySheet.Settings.Basic
import QuerySheet.Toml.Document

/-!
# Finding and reading settings

`Settings.ofText` reads the text of a settings file, `Settings.ofFile` a file, and `Settings.load`
the first settings file there is: the one that the variable `TALLY_CONFIG` names, the one in the
working directory, or the user's own. The paths in settings may refer to environment variables.
-/

namespace QuerySheet.Settings

/-! ## 1. Reading -/

def ofText (text : String) : Except SettingsError Settings := do
  match (Toml.parse? text).bind fun v => ofDraft? .ignored v.toDraft with
  | none => .error .malformed
  | some s =>
    s.checkFilters
    return s

def ofFile (host : Host) (path : String) : Except SettingsError Settings :=
  match host.files.look path with
  | .error _ => .error (.fileNotFound path)
  | .ok .directory => .error .unreadable
  | .ok (.file text) => ofText text

/-! ## 2. Finding -/

def localPath : String := "tally.toml"

/-- The user's own settings file. -/
def userPath? (host : Host) : Option String :=
  host.configDirectory.map fun directory => directory ++ "/tally/config.toml"

/-- The settings of a run that names no file. Where no file is found, nothing is set. -/
def load (host : Host) : Except SettingsError Settings :=
  match host.environment.get? "TALLY_CONFIG" with
  | some path => ofFile host path
  | none =>
    let places := localPath :: (userPath? host).toList
    match places.find? fun path => (host.files.look path).isOk with
    | some path => ofFile host path
    | none => .ok default

/-! ## 3. Paths -/

def expandPath (env : Environment) (path : Option String) :
    Except SettingsError (Option String) :=
  match path with
  | none => .ok none
  | some path =>
    match env.expand path with
    | .ok path => .ok (some path)
    | .error e => .error (.missingVariable e.name)

/-- The path of the database. -/
def databasePath (s : Settings) (env : Environment) : Except SettingsError (Option String) :=
  expandPath env s.database

/-- The path of the cell cache, if the cache is on and not at its usual place. -/
def cachePath (s : Settings) (env : Environment) : Except SettingsError (Option String) :=
  if s.cacheEnabled then expandPath env s.cache else .ok none

end QuerySheet.Settings

import QuerySheet.CommandLine.Report

/-!
# What an invocation looks at

`Needs.ofInvocation` lists the environment variables and the paths that an invocation may look at,
as far as they follow from what is known of its host: the settings name further ones.
-/

namespace QuerySheet.CommandLine

structure Needs where
  /-- The names of environment variables. -/
  names : List String
  paths : List String

namespace Needs

/-- The variables that a text refers to. -/
def variablesIn (text : String) : List String :=
  (Piece.ofChars text.toList).filterMap fun
    | .variable name => some (String.ofList name)
    | .char _ => none

def settingsPaths (host : Host) (i : Invocation) : List String :=
  match i.settings with
  | some path => [path]
  | none =>
    (host.environment.get? "TALLY_CONFIG").toList ++ Settings.localPath ::
      (Settings.userPath? host).toList

/-- The paths of a database that is named by a text. -/
def databasePaths (text : String) : List String :=
  match DatabaseName.ofText text with
  | .ok name => text :: name.path :: name.pattern?.toList
  | .error _ => [text]

/-- The places of the database and of the cell cache. -/
def storePaths (host : Host) (settings : Settings) (c : Command) : List String :=
  match c with
  | .compile _ _ => []
  | .run _ database _ cell =>
    let ofPath (path : Except SettingsError (Option String)) : List String :=
      (path.toOption.bind id).toList
    (database.toList ++ ofPath (settings.databasePath host.environment) ++
      if cell.isSome then
        ofPath (settings.cachePath host.environment) ++ (CellCache.usualPath? host).toList
      else []).flatMap databasePaths

def ofInvocation (host : Host) (i : Invocation) : Needs :=
  let settings := (loadSettings host i).toOption.getD .default
  let inputs := i.command.inputs
  { names :=
      "TALLY_CONFIG" :: (settings.database.toList ++ settings.cache.toList).flatMap variablesIn
    paths :=
      settingsPaths host i ++ inputs.schema :: inputs.query :: storePaths host settings i.command }

end Needs

end QuerySheet.CommandLine

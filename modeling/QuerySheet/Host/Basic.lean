import QuerySheet.Host.Environment
import QuerySheet.Host.Files

/-!
# The surroundings of a run

A `Host` is what a run finds around it. `Environment.home?` and `Environment.configDirectory?` are
the user's directories as the variables name them.
-/

namespace QuerySheet

structure Host where
  files : Files
  environment : Environment
  /-- The user's own directory. -/
  home : Option String
  /-- The directory of the user's settings. -/
  configDirectory : Option String

namespace Environment

def home? (env : Environment) : Option String := (env.get? "HOME").filter (!·.isEmpty)

/-- A variable names the directory of the user's settings if it starts at the root of all files. -/
def configDirectory? (env : Environment) : Option String :=
  ((env.get? "XDG_CONFIG_HOME").filter (·.startsWith "/")).or (env.home?.map (· ++ "/.config"))

end Environment

end QuerySheet

import PathSieve.Path.Home

/-!
# The environment of a run

What a run knows of its surroundings before it touches a file: the home directory, the working
directory and the environment variables. From these follow the places of the configuration file and
of the log. A variable that is set to the empty text counts as unset.
-/

namespace PathSieve

/-- Home directory, working directory and variables. -/
structure Environment where
  home : String
  cwd : String
  vars : List (String × String)

namespace Environment

/-- The name the program keeps its files under. -/
def programName : String := "glob-select"

/-- The value of a variable that is set to something. -/
def value? (env : Environment) (name : String) : Option String :=
  (env.vars.lookup name).filter (· ≠ "")

/-- The absolute path that a user's path means. -/
def locate (env : Environment) (path : String) : String := Path.locate env.home env.cwd path

/-- The program's own directory in the directory that a variable names, or else in the given place
in the home directory. -/
def ownDirectory (env : Environment) (name : String) (homePlace : String) : String :=
  Path.join ((env.value? name).getD (Path.join env.home homePlace)) programName

/-- Where the configuration is looked for when no path is given. -/
def defaultConfig (env : Environment) : String :=
  match env.value? "GLOB_SELECT_CONFIG" with
  | some path => env.locate path
  | none =>
    Path.resolve env.cwd (Path.join (env.ownDirectory "XDG_CONFIG_HOME" ".config") "config.json")

/-- The file that a log is written to. -/
def logFile (env : Environment) : String :=
  Path.join (env.ownDirectory "XDG_STATE_HOME" ".local/state") "debug.log"

end Environment

end PathSieve

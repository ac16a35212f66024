import PathSieve.Path.Resolve
import PathSieve.Text.Template

/-!
# Paths as users write them

A leading tilde stands for the home directory, whatever follows it: `~/x` lies in the home
directory, and `~x` is the home directory's own path with an `x` put behind it. The home directory
is inserted as a replacement template, so a dollar sign in it may refer to the tilde and to the text
after it.
-/

namespace PathSieve.Path

/-- A path with its leading tilde replaced by the home directory. -/
def expandHome (home : String) (path : List Char) : List Char :=
  match path with
  | '~' :: rest => Text.expand [] ['~'] rest home.toList ++ rest
  | _ => path

/-- The absolute path that a user's path means, with the given home and working directory. -/
def locate (home cwd path : String) : String :=
  String.ofList (resolveChars cwd.toList (expandHome home path.toList))

end PathSieve.Path

import PathSieve.Path.Dots
import PathSieve.Text.Split

/-!
# Joining and resolving paths

- `normalize`: one path without needless parts; a slash at its end is kept.
- `join`: a path continued by another.
- `resolve`: the absolute path that a path means in a working directory; no slash at its end, unless
  it is the working directory itself, which is taken as it is given.
- `parent`: the directory that holds what a path names.
-/

namespace PathSieve.Path

/-- Whether a path starts at the root. -/
def isAbsolute (path : List Char) : Bool := path.head? == some '/'

/-- The absolute or relative path with the given parts. -/
def ofParts (rooted : Bool) (parts : List (List Char)) : List Char :=
  (if rooted then ['/'] else []) ++ Text.join ['/'] parts

/-- A path without empty parts and dot segments. The path that means the directory it is relative to
is written `.`. A slash at the end is kept. -/
def normalizeChars (path : List Char) : List Char :=
  let rooted := isAbsolute path
  let cleaned := clean rooted (Text.pieces '/' path)
  let closing := if path.getLast? = some '/' then ['/'] else []
  if cleaned = [] then if rooted then ['/'] else '.' :: closing
  else ofParts rooted cleaned ++ closing

/-- The path `second` seen from `first`. An empty path adds nothing. -/
def joinChars (first second : List Char) : List Char :=
  normalizeChars (Text.join ['/'] ([first, second].filter (· ≠ [])))

/-- The path `path` seen from the directory `cwd`, without a slash at its end. The empty path and `.`
mean `cwd` itself, which is left as it is if it is absolute. -/
def resolveChars (cwd path : List Char) : List Char :=
  if (path = [] ∨ path = dot) ∧ isAbsolute cwd then cwd
  else
    let whole := if isAbsolute path ∨ cwd = [] then path else cwd ++ '/' :: path
    let rooted := isAbsolute whole
    let cleaned := clean rooted (Text.pieces '/' whole)
    if cleaned = [] ∧ !rooted then dot else ofParts rooted cleaned

/-- A path without its last part. What lies at the top has itself as its parent. -/
def parentChars (path : List Char) : List Char :=
  let above := (path.reverse.dropWhile (· == '/')).dropWhile (· != '/')
  let kept := (above.dropWhile (· == '/')).reverse
  if kept = [] then if isAbsolute path then ['/'] else dot else kept

/-- A path without empty parts and dot segments. -/
def normalize (path : String) : String := String.ofList (normalizeChars path.toList)

/-- The path `second` seen from `first`. -/
def join (first second : String) : String :=
  String.ofList (joinChars first.toList second.toList)

/-- The absolute path that `path` means in the working directory `cwd`. -/
def resolve (cwd path : String) : String :=
  String.ofList (resolveChars cwd.toList path.toList)

/-- The directory that holds what a path names. -/
def parent (path : String) : String := String.ofList (parentChars path.toList)

end PathSieve.Path

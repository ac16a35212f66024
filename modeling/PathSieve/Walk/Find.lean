import PathSieve.Base
import PathSieve.Path.Resolve
import PathSieve.Sieve
import PathSieve.Walk.Basic

/-!
# Finding files

Only the bases of the readable include patterns are walked, each depth first in listing order. A
base or a directory that an exclude pattern matches is left out with everything under it, without
being listed; the base `.` stands for the root itself and is never left out. Files are selected by
their path from the root, or by their absolute path under an absolute base.

- `descend`: the selected files below one directory.
- `find`: the selection of a whole search.

A search is given the depth it may go to. A tree of directories that is no deeper is searched in
full; one that is deeper ends the search with `Cause.tooDeep`, never with a partial answer.
-/

namespace PathSieve.Walk

/-- The path of an entry of a directory, from the root; the root itself has the empty path. -/
def childPath (path name : String) : String :=
  if path = "" then name
  else if path = "/" then "/" ++ name
  else path ++ "/" ++ name

/-- The selected files below the directory `dir`, whose path is `path`. -/
def descend (sieve : Sieve) : (depth : Nat) → (dir path : String) → Walk (List String)
  | 0, dir, _ => .abandon dir
  | depth + 1, dir, path =>
    .list dir <| gather fun entry =>
      let child := childPath path entry.name
      if !entry.isDirectory then .done (if sieve.keeps child then [child] else [])
      else if sieve.excludes.accepts child then .note (.directorySkipped child) (.done [])
      else descend sieve depth (Path.join dir entry.name) child

/-- The directory in which a walk for a base starts. -/
def startOf (root base : String) : String :=
  if Path.isAbsolute base.toList then base else Path.join root base

/-- The selected files below a base. -/
def fromBase (sieve : Sieve) (depth : Nat) (root base : String) : Walk (List String) :=
  if base ≠ "." ∧ sieve.excludes.accepts base then .note (.baseExcluded base) (.done [])
  else
    let dir := startOf root base
    .note (.walkingBase base dir) (descend sieve depth dir (if base = "." then "" else base))

/-- The files under `root` that the patterns select. -/
def find (depth : Nat) (root : String) (includes excludes : List String) : Walk Selection := do
  let sieve := Sieve.ofLists includes excludes
  let paths ← gather (fromBase sieve depth root) (Base.collect [] sieve.includes.sources)
  return ⟨paths, sieve.errors⟩

end PathSieve.Walk

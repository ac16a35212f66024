import PathSieve.Walk.Find

/-!
# Listings held in memory

A table gives the entries of some directories, or the failure that listing them ends in, under their
exact names. Every other directory does not exist.

Names such as `.` lead a walk back to a directory it has listed, so only exclude patterns may end
it. How far a search can usefully go is still bounded: what the exclude patterns may match further
down depends on the directory and on which of their positions the path so far has reached, or on the
path being empty or `/`, which names are put behind in their own way. A walk that goes on for longer
than there are such states goes on for ever.
-/

namespace PathSieve.Walk

/-- Directories by name. -/
structure Table where
  directories : List (String × Except Failure (List Entry))

namespace Table

/-- The listing of a table. -/
def list (t : Table) : Listing := fun dir =>
  (t.directories.lookup dir).getD
    (.error (.caused (.system { errno := .noEntry, call := "scandir", paths := [dir] })))

/-- A depth that every search of the table that ends at all stays below. -/
def depth (t : Table) (excludes : List String) : Nat :=
  let positions := (excludes.flatMap Glob.segmentTexts).length + excludes.length
  (t.directories.length + 1) * (Nat.pow 2 positions + 2)

end Table

end PathSieve.Walk

import PathSieve.Text.Split

/-!
# Other separators

Results are written with `/`. Where a platform has another separator, of any length, paths are
rewritten on the way out and on the way in.
-/

namespace PathSieve.Path

/-- A result path written with a platform's separator. -/
def withSeparator (separator path : String) : String :=
  if separator = "/" then path
  else String.ofList (Text.join separator.toList (Text.splitOn ['/'] path.toList))

/-- A platform's path written with `/`. -/
def withSlashes (separator path : String) : String :=
  if separator = "/" then path
  else String.ofList (Text.join ['/'] (Text.splitOn separator.toList path.toList))

end PathSieve.Path

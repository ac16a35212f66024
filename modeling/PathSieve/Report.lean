import PathSieve.Glob.Pattern
import PathSieve.Path.Separator

/-!
# Reports: what is printed of a selection

Selected paths are printed one after the other, each closed by a terminator. Patterns that could not
be read are worth a warning each, and do not keep the others from selecting.
-/

namespace PathSieve.Report

/-- How paths are printed: with the platform's separator instead of `/`, and closed by NUL instead
of a line feed. -/
structure Format where
  native : Bool
  null : Bool
deriving DecidableEq, Repr

/-- What closes each path. -/
def Format.terminator (f : Format) : String := if f.null then "\x00" else "\n"

/-- Paths as they are printed, on a platform with the given separator. -/
def paths (f : Format) (separator : String) (selected : List String) : String :=
  String.join (selected.map fun path =>
    (if f.native then Path.withSeparator separator path else path) ++ f.terminator)

/-- The warning for a pattern that could not be read. -/
def warning (e : Glob.PatternError) : String :=
  "Warning: ignoring invalid pattern \"" ++ e.pattern ++ "\": " ++ e.fault.reason

end PathSieve.Report

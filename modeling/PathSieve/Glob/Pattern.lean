import PathSieve.Glob.Segment
import PathSieve.Text.Split

/-!
# Patterns

A pattern is a text cut at `/` into segments, and it matches a whole path: the path's parts are
distributed over the segments in order, any run of parts to a `**` and one part to each other
segment. Matching is case-sensitive, and a leading dot is a character like any other.

Slashes at the end of a pattern mean nothing, so `a/` is `a`; the pattern `/` alone is kept.
A pattern with a faulty segment is no pattern: the fault of its first faulty segment is reported
together with the whole pattern as it was given.
-/

namespace PathSieve.Glob

/-- A pattern that could not be read. -/
structure PatternError where
  pattern : String
  fault : Fault
deriving DecidableEq, Repr

namespace PatternError

/-- The wording of a pattern error for any reason. -/
def describe (pattern reason : String) : String :=
  "invalid pattern \"" ++ pattern ++ "\": " ++ reason

/-- The message of a pattern error. -/
def message (e : PatternError) : String := describe e.pattern e.fault.reason

end PatternError

/-- A text without the slashes at its end. A text of slashes alone is `/`. -/
def trimSlashes (cs : List Char) : List Char :=
  let kept := (cs.reverse.dropWhile (· == '/')).reverse
  if kept = [] ∧ cs ≠ [] then ['/'] else kept

/-- The texts of a pattern's segments. -/
def segmentTexts (pattern : String) : List (List Char) :=
  Text.pieces '/' (trimSlashes pattern.toList)

/-- A pattern: its text as given, and its segments. -/
structure Pattern where
  source : String
  segments : List Segment
deriving DecidableEq, Repr

namespace Pattern

/-- The segments that texts spell, or the fault of the first faulty one. -/
def readSegments : List (List Char) → Except Fault (List Segment)
  | [] => .ok []
  | text :: texts => do
    let segment ← Segment.ofText text
    let segments ← readSegments texts
    return segment :: segments

/-- Reads a pattern. -/
def ofText (source : String) : Except PatternError Pattern :=
  match readSegments (segmentTexts source) with
  | .ok segments => .ok ⟨source, segments⟩
  | .error fault => .error ⟨source, fault⟩

/-- The parts of a path. -/
def parts (path : String) : List (List Char) := Text.pieces '/' path.toList

/-- Whether a pattern matches a path in full. -/
def accepts (p : Pattern) (path : String) : Bool :=
  fits (p.segments.map Segment.step) (parts path)

end Pattern

/-- Whether a pattern, given as text, matches a path. -/
def accepts? (pattern path : String) : Except PatternError Bool :=
  (Pattern.ofText pattern).map (·.accepts path)

end PathSieve.Glob

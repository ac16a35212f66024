import PathSieve.Text.Split
import PathSieve.Text.Utf8

/-!
# Non-empty lines of a byte stream

Candidate paths are read one per line. A line ends at a line feed, with or without one carriage
return before it; other carriage returns belong to the line. Empty lines are dropped. The chunks a
stream arrives in are put together before decoding, so that where they were cut has no effect.
-/

namespace PathSieve.Text

/-- The line without the carriage return that belongs to its line feed. -/
def dropReturn (line : List Char) : List Char :=
  if line.getLast? = some '\r' then line.dropLast else line

/-- Takes the carriage return off every line that a line feed ended: all but the last. -/
def dropReturns : List (List Char) → List (List Char)
  | [] => []
  | [last] => [last]
  | line :: lines => dropReturn line :: dropReturns lines

/-- The non-empty lines of a text. -/
def linesOf (cs : List Char) : List (List Char) :=
  (dropReturns (pieces '\n' cs)).filter (· ≠ [])

/-- The non-empty lines of a stream of byte chunks. -/
def lines (chunks : List (List UInt8)) : List String :=
  (linesOf (Utf8.decode chunks.flatten)).map String.ofList

end PathSieve.Text

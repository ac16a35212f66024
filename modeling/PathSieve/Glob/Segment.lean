import PathSieve.Glob.Item

/-!
# Segments: what a pattern is made of

A segment written `**` takes any run of path parts. Any other segment takes exactly one part: as a
plain text if it holds no wildcard character, else by its items.
-/

namespace PathSieve.Glob

/-- One segment of a pattern. -/
inductive Segment where
  | literal (text : List Char)
  | glob (source : List Char) (items : List Item)
  | globstar
deriving DecidableEq, Repr

namespace Segment

/-- How the segment that spans whole parts is written. -/
def globstarText : List Char := ['*', '*']

/-- Whether a character makes the segment it stands in more than plain text. -/
def isSpecial (c : Char) : Bool := c == '*' || c == '?' || c == '[' || c == '\\'

/-- Whether a segment is more than plain text. -/
def isWild (segment : List Char) : Bool := segment == globstarText || segment.any isSpecial

/-- The segment that a text spells, or its first fault. -/
def ofText (segment : List Char) : Except Fault Segment :=
  if segment = globstarText then .ok .globstar
  else if isWild segment then (Item.ofText segment).map (.glob segment)
  else .ok (.literal segment)

/-- Whether a segment takes a single path part. -/
def accepts : Segment → List Char → Bool
  | .literal text, part => text == part
  | .glob _ items, part => Item.accepts items part
  | .globstar, _ => true

/-- A segment as a step over path parts. -/
def step : Segment → Step (List Char)
  | .globstar => .gap
  | segment => .one segment.accepts

end Segment

end PathSieve.Glob

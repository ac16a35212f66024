/-!
# Letters of a segment

A backslash makes the character after it plain text. Reading a segment as *letters* settles that
once: a letter is a character as written, a character behind a backslash, or the backslash with
nothing after it that only the end of a segment can hold.
-/

namespace PathSieve.Glob

/-- One letter of a segment. -/
inductive Letter where
  | bare (c : Char)
  | escaped (c : Char)
  | dangling
deriving DecidableEq, Repr

/-- The letters of a segment, from left to right. -/
def Letter.ofText : List Char → List Letter
  | [] => []
  | ['\\'] => [.dangling]
  | '\\' :: c :: cs => .escaped c :: ofText cs
  | c :: cs => .bare c :: ofText cs

end PathSieve.Glob

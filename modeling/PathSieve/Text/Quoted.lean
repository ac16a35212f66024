import PathSieve.Text.Units

/-!
# Texts quoted in messages

A text is shown between quotes, with control characters and backslashes escaped. Single quotes are
taken unless the text holds one; then double quotes, or else backquotes, if the text holds none of
those and nothing that has a meaning between backquotes. A text for which none of these will do has
its single quotes escaped. What is long is cut off.
-/

namespace PathSieve.Text

/-- Whether a text holds a dollar sign and an opening brace behind it. -/
def holdsInsertion : List Char → Bool
  | '$' :: '\x7b' :: _ => true
  | _ :: cs => holdsInsertion cs
  | [] => false

/-- The quote to put around a text. -/
def quoteFor (cs : List Char) : Char :=
  if '\'' ∉ cs then '\''
  else if '"' ∉ cs then '"'
  else if '\x60' ∉ cs ∧ !holdsInsertion cs then '\x60'
  else '\''

/-- An upper-case hexadecimal digit. -/
def upperHexDigit (n : Nat) : Char := (Nat.digitChar (n % 16)).toUpper

/-- A character between quotes. -/
def escapeChar (quote c : Char) : List Char :=
  if c = '\x08' then ['\\', 'b']
  else if c = '\t' then ['\\', 't']
  else if c = '\n' then ['\\', 'n']
  else if c = '\x0c' then ['\\', 'f']
  else if c = '\r' then ['\\', 'r']
  else if c = '\\' then ['\\', '\\']
  else if c = '\'' ∧ quote = '\'' then ['\\', '\'']
  else if c.toNat < 0x20 ∨ (0x7F ≤ c.toNat ∧ c.toNat < 0xA0) then
    ['\\', 'x', upperHexDigit (c.toNat / 16), upperHexDigit c.toNat]
  else [c]

/-- A text between quotes. -/
def quoted (cs : List Char) : List Char :=
  let quote := quoteFor cs
  quote :: cs.flatMap (escapeChar quote) ++ [quote]

/-- The longest start of a text that takes at most so many UTF-16 units. -/
def takeUnits : (limit : Nat) → List Char → List Char
  | _, [] => []
  | limit, c :: cs =>
    if (unitsOf c).length ≤ limit then c :: takeUnits (limit - (unitsOf c).length) cs else []

/-- A text as it is, or its start and three dots if it takes more UTF-16 units than the limit. -/
def shortened (limit : Nat) (cs : List Char) : List Char :=
  let start := takeUnits limit cs
  if start = cs then cs else start ++ ['.', '.', '.']

end PathSieve.Text

import PathSieve.Glob.Item

/-!
# Segments as regular expressions

A segment can be handed to an engine for regular expressions. The expression is anchored at both
ends and made item by item. Every character with a meaning in expressions is put behind a backslash,
and within a class the dash is one more of these.

`Proofs/Expression` shows that the expression accepts what the items accept.
-/

namespace PathSieve.Glob

/-- Whether a character has a meaning in regular expressions. -/
def isSyntax (c : Char) : Bool :=
  ['\\', '^', '$', '.', '*', '+', '?', '(', ')', '[', ']', '{', '}', '|', '/'].contains c

/-- A character as it stands in an expression, in a class or out of one. -/
def escape (inClass : Bool) (c : Char) : List Char :=
  if isSyntax c || inClass && c == '-' then ['\\', c] else [c]

/-- A member of a class in an expression. -/
def Member.expression : Member → List Char
  | .single c => escape true c
  | .range low high => escape true low ++ '-' :: escape true high

/-- A class in an expression. -/
def CharClass.expression (cls : CharClass) : List Char :=
  '[' :: (if cls.negated then ['^'] else []) ++ cls.members.flatMap Member.expression ++ [']']

/-- An item in an expression. -/
def Item.expression : Item → List Char
  | .star => ['.', '*']
  | .any => ['.']
  | .oneOf cls => cls.expression
  | .char c => escape false c

/-- The anchored expression for the items of a segment. -/
def Item.anchored (items : List Item) : List Char :=
  ['^', '(', '?', ':'] ++ items.flatMap expression ++ [')', '$']

end PathSieve.Glob

/-!
# Replacement templates

A text that stands in for a matched piece may refer to the match: `$&` is the match, `` $` `` what
came before it, `$'` what comes after it, and `$$` one dollar sign. Any other dollar sign is itself.
-/

namespace PathSieve.Text

/-- The text a template stands for, given the match and what surrounds it. -/
def expand (before matched after : List Char) : (template : List Char) → List Char
  | '$' :: '$' :: rest => '$' :: expand before matched after rest
  | '$' :: '&' :: rest => matched ++ expand before matched after rest
  | '$' :: '\x60' :: rest => before ++ expand before matched after rest
  | '$' :: '\'' :: rest => after ++ expand before matched after rest
  | c :: rest => c :: expand before matched after rest
  | [] => []

end PathSieve.Text

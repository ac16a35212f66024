/-!
# UTF-16 units

Directory listings are ordered, and the lengths of option names are counted, in UTF-16 units: a
character beyond the basic plane is two surrogate units, so it sorts below `U+E000` although its
code point is higher.
-/

namespace PathSieve.Text

/-- The one or two UTF-16 units of a character. -/
def unitsOf (c : Char) : List Nat :=
  if c.toNat < 0x10000 then [c.toNat]
  else [0xD800 + (c.toNat - 0x10000) / 0x400, 0xDC00 + (c.toNat - 0x10000) % 0x400]

/-- The UTF-16 units of a text. -/
def units (s : String) : List Nat := s.toList.flatMap unitsOf

/-- The order of texts by their UTF-16 units: at the first difference the lower unit comes first, and
a text comes before those it begins. -/
def unitsLE (a b : String) : Bool := !(units b).lex (units a) fun x y => decide (x < y)

end PathSieve.Text

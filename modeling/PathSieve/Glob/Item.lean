import PathSieve.Glob.Alignment
import PathSieve.Glob.Letter

/-!
# Items: what a single segment is made of

A segment is a sequence of items, each matched against characters of one path part.

| item | written | takes |
|---|---|---|
| `star` | `*` | any run of characters |
| `any` | `?` | one character |
| `oneOf` | `[abc]`, `[a-z]`, `[!a]`, `[^a]` | one character of the class, or one outside it |
| `char` | anything else, or a character behind a backslash | that character |

Inside a class a bare `]` closes it unless it is the first member, and a character followed by a
bare `-` and by anything but a bare `]` starts a range. Reading goes from left to right and reports
the first fault it meets; a range that runs backwards is reported even if its class never closes.
-/

namespace PathSieve.Glob

/-- Why a segment cannot be read. -/
inductive Fault where
  | openClass
  | backwardRange
  | danglingEscape
deriving DecidableEq, Repr

/-- The wording of a fault. -/
def Fault.reason : Fault → String
  | .openClass => "unterminated character class"
  | .backwardRange => "invalid character range"
  | .danglingEscape => "trailing escape character"

/-- A member of a class: one character, or all code points between two ends. -/
inductive Member where
  | single (c : Char)
  | range (low high : Char)
deriving DecidableEq, Repr

/-- Whether a member holds a character. -/
def Member.holds (c : Char) : Member → Bool
  | .single d => c == d
  | .range low high => decide (low.toNat ≤ c.toNat) && decide (c.toNat ≤ high.toNat)

/-- A character class. -/
structure CharClass where
  negated : Bool
  members : List Member
deriving DecidableEq, Repr

/-- Whether a class takes a character: one of its members holds it, or none does if it is negated. -/
def CharClass.takes (cls : CharClass) (c : Char) : Bool :=
  cls.members.any (·.holds c) != cls.negated

/-- One item of a segment. -/
inductive Item where
  | star
  | any
  | oneOf (cls : CharClass)
  | char (c : Char)
deriving DecidableEq, Repr

/-- An item as a step over characters. -/
def Item.step : Item → Step Char
  | .star => .gap
  | .any => .one fun _ => true
  | .oneOf cls => .one cls.takes
  | .char c => .one (· == c)

namespace Item

mutual

/-- The items that letters spell, or the first fault among them. -/
def ofLetters : List Letter → Except Fault (List Item)
  | [] => .ok []
  | .dangling :: _ => .error .danglingEscape
  | .escaped c :: ls => (ofLetters ls).map (.char c :: ·)
  | .bare '*' :: ls => (ofLetters ls).map (.star :: ·)
  | .bare '?' :: ls => (ofLetters ls).map (.any :: ·)
  | .bare '[' :: .bare '!' :: ls => inClass true [] ls
  | .bare '[' :: .bare '^' :: ls => inClass true [] ls
  | .bare '[' :: ls => inClass false [] ls
  | .bare c :: ls => (ofLetters ls).map (.char c :: ·)

/-- The items that letters spell from inside a class, at the start of a member. -/
def inClass (negated : Bool) (members : List Member) : List Letter → Except Fault (List Item)
  | [] => .error .openClass
  | .dangling :: _ => .error .openClass
  | .escaped c :: ls => afterLow negated members c ls
  | .bare c :: ls =>
    if c = ']' ∧ members ≠ [] then (ofLetters ls).map (.oneOf ⟨negated, members⟩ :: ·)
    else afterLow negated members c ls

/-- The items that letters spell behind `low`, which is a member unless it starts a range. -/
def afterLow (negated : Bool) (members : List Member) (low : Char) :
    List Letter → Except Fault (List Item)
  | [] => .error .openClass
  | .dangling :: _ => .error .openClass
  | .escaped c :: ls => afterLow negated (members ++ [.single low]) c ls
  | .bare c :: ls =>
    if c = ']' then (ofLetters ls).map (.oneOf ⟨negated, members ++ [.single low]⟩ :: ·)
    else if c = '-' then afterDash negated members low ls
    else afterLow negated (members ++ [.single low]) c ls

/-- The items that letters spell behind `low` and a dash: the far end of a range, or the bracket
that makes both of them members. -/
def afterDash (negated : Bool) (members : List Member) (low : Char) :
    List Letter → Except Fault (List Item)
  | [] => .error .openClass
  | .dangling :: _ => .error .openClass
  | .escaped c :: ls =>
    if low.toNat ≤ c.toNat then inClass negated (members ++ [.range low c]) ls
    else .error .backwardRange
  | .bare c :: ls =>
    if c = ']' then
      (ofLetters ls).map (.oneOf ⟨negated, members ++ [.single low, .single '-']⟩ :: ·)
    else if low.toNat ≤ c.toNat then inClass negated (members ++ [.range low c]) ls
    else .error .backwardRange

end

/-- The items a segment spells, or its first fault. -/
def ofText (segment : List Char) : Except Fault (List Item) := ofLetters (Letter.ofText segment)

/-- Whether a path part can be cut into one piece per item, in order. -/
def accepts (items : List Item) (part : List Char) : Bool :=
  fits (items.map step) part

end Item

end PathSieve.Glob

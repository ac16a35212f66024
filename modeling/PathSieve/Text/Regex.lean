/-!
# Regular expressions

Expressions as they are usually written, over code points: a dot takes any character, line ends
included, `^` and `$` hold at the two ends of the whole text only, and case matters. An expression
is looked for anywhere in a text.

- `Regex`, `Regex.Spans`, `Regex.Finds`: expressions and what they match.
- `Regex.ofText?`: the expression that a text spells. First the text is cut into `Token`s, then
  these are put together; the groups around the innermost open one wait in a list.

The reader knows the fragment without counts, captures, named classes and looking around. It refuses
a text with a reserved character in any other place, or with a backslash before a character that
needs none.
-/

namespace PathSieve.Text

/-- A regular expression. The ranges of a class have both their ends in them. -/
inductive Regex where
  | empty
  | char (c : Char)
  | any
  | oneOf (outside : Bool) (ranges : List (Char × Char))
  | atStart
  | atEnd
  | seq (first second : Regex)
  | alt (first second : Regex)
  | star (body : Regex)
deriving DecidableEq, Repr

namespace Regex

/-- Whether a character lies in one of the ranges. -/
def InRanges (ranges : List (Char × Char)) (c : Char) : Prop :=
  ∃ range ∈ ranges, range.1.toNat ≤ c.toNat ∧ c.toNat ≤ range.2.toNat

/-- `r.Spans before run after`: between the texts `before` and `after`, the expression takes
`run`. -/
inductive Spans : Regex → List Char → List Char → List Char → Prop
  | empty {before after : List Char} : Spans .empty before [] after
  | char {c : Char} {before after : List Char} : Spans (.char c) before [c] after
  | any {c : Char} {before after : List Char} : Spans .any before [c] after
  | oneOf {outside : Bool} {ranges : List (Char × Char)} {c : Char} {before after : List Char}
      (h : InRanges ranges c ↔ outside = false) : Spans (.oneOf outside ranges) before [c] after
  | atStart {after : List Char} : Spans .atStart [] [] after
  | atEnd {before : List Char} : Spans .atEnd before [] []
  | seq {r s : Regex} {before run run' after : List Char} (hr : Spans r before run (run' ++ after))
      (hs : Spans s (before ++ run) run' after) : Spans (.seq r s) before (run ++ run') after
  | altLeft {r s : Regex} {before run after : List Char} (h : Spans r before run after) :
      Spans (.alt r s) before run after
  | altRight {r s : Regex} {before run after : List Char} (h : Spans s before run after) :
      Spans (.alt r s) before run after
  | starNone {r : Regex} {before after : List Char} : Spans (.star r) before [] after
  | starMore {r : Regex} {before run run' after : List Char}
      (hr : Spans r before run (run' ++ after)) (hs : Spans (.star r) (before ++ run) run' after) :
      Spans (.star r) before (run ++ run') after

/-- Whether an expression takes some run of a text. -/
def Finds (r : Regex) (text : List Char) : Prop :=
  ∃ before run after, text = before ++ run ++ after ∧ r.Spans before run after

/-! ## Tokens -/

/-- A piece of the text of an expression. -/
inductive Token where
  | atom (r : Regex)
  | anchor (r : Regex)
  | star
  | bar
  | opening
  | closing
deriving DecidableEq, Repr

/-- Whether a character means more than itself. -/
def isReserved (c : Char) : Bool :=
  ['\\', '^', '$', '.', '*', '+', '?', '(', ')', '[', ']', '{', '}', '|'].contains c

/-- Whether a backslash may stand before a character to take its meaning away; within a class it may
stand before a dash too. -/
def isEscapable (inClass : Bool) (c : Char) : Bool :=
  isReserved c || c == '/' || inClass && c == '-'

/-- What a reserved character alone means, if it means anything alone. -/
def Token.ofReserved? : Char → Option Token
  | '.' => some (.atom .any)
  | '^' => some (.anchor .atStart)
  | '$' => some (.anchor .atEnd)
  | '*' => some .star
  | '|' => some .bar
  | ')' => some .closing
  | _ => none

namespace Token

mutual

/-- The tokens of a text. -/
def ofText? : List Char → Option (List Token)
  | [] => some []
  | '\\' :: c :: cs =>
    if isEscapable false c then (ofText? cs).map (.atom (.char c) :: ·) else none
  | '(' :: '?' :: ':' :: cs => (ofText? cs).map (.opening :: ·)
  | '[' :: '^' :: cs => inClass true [] cs
  | '[' :: cs => inClass false [] cs
  | c :: cs =>
    if isReserved c then (ofReserved? c).bind fun token => (ofText? cs).map (token :: ·)
    else (ofText? cs).map (.atom (.char c) :: ·)

/-- The tokens of a text that starts within a class, where a range may start. -/
def inClass (outside : Bool) (ranges : List (Char × Char)) : List Char → Option (List Token)
  | [] => none
  | ['\\'] => none
  | '\\' :: c :: cs => if isEscapable true c then afterLow outside ranges c cs else none
  | c :: cs =>
    if c = ']' then (ofText? cs).map (.atom (.oneOf outside ranges) :: ·)
    else afterLow outside ranges c cs

/-- The tokens of a text that starts within a class, behind a character `low` of it. -/
def afterLow (outside : Bool) (ranges : List (Char × Char)) (low : Char) :
    List Char → Option (List Token)
  | [] => none
  | ['\\'] => none
  | '\\' :: c :: cs =>
    if isEscapable true c then afterLow outside (ranges ++ [(low, low)]) c cs else none
  | c :: cs =>
    if c = ']' then (ofText? cs).map (.atom (.oneOf outside (ranges ++ [(low, low)])) :: ·)
    else if c = '-' then afterDash outside ranges low cs
    else afterLow outside (ranges ++ [(low, low)]) c cs

/-- The tokens of a text that starts within a class, behind a character `low` of it and a dash. -/
def afterDash (outside : Bool) (ranges : List (Char × Char)) (low : Char) :
    List Char → Option (List Token)
  | [] => none
  | ['\\'] => none
  | '\\' :: c :: cs =>
    if isEscapable true c ∧ low.toNat ≤ c.toNat then inClass outside (ranges ++ [(low, c)]) cs
    else none
  | c :: cs =>
    if c = ']' then
      (ofText? cs).map (.atom (.oneOf outside (ranges ++ [(low, low), ('-', '-')])) :: ·)
    else if low.toNat ≤ c.toNat then inClass outside (ranges ++ [(low, c)]) cs
    else none

end

end Token

/-! ## Putting tokens together -/

/-- What is known of a group up to some place: the alternatives before the last bar, the terms
behind it, and the last of these as long as a star may repeat it. -/
structure Group where
  earlier : Option Regex
  terms : Regex
  last : Option Regex

namespace Group

/-- A group that has just been opened. -/
def start : Group := ⟨none, .empty, none⟩

/-- The terms behind the last bar. -/
def current (g : Group) : Regex :=
  match g.last with
  | none => g.terms
  | some r => g.terms.seq r

/-- The expression of the whole group. -/
def whole (g : Group) : Regex :=
  match g.earlier with
  | none => g.current
  | some r => r.alt g.current

/-- One more term, which a star may repeat. -/
def push (g : Group) (r : Regex) : Group := { g with terms := g.current, last := some r }

/-- One more term, which no star may repeat. -/
def close (g : Group) (r : Regex) : Group := { g with terms := g.current.seq r, last := none }

/-- The group with its last term repeated, if it may be. -/
def repeat? (g : Group) : Option Group :=
  g.last.map fun r => { g with terms := g.terms.seq r.star, last := none }

end Group

/-- The expression that tokens spell, in a group that lies in others. -/
def ofTokens? : List Token → Group → (outer : List Group) → Option Regex
  | [], g, [] => some g.whole
  | [], _, _ :: _ => none
  | .atom r :: ts, g, outer => ofTokens? ts (g.push r) outer
  | .anchor r :: ts, g, outer => ofTokens? ts (g.close r) outer
  | .star :: ts, g, outer => g.repeat?.bind fun g' => ofTokens? ts g' outer
  | .bar :: ts, g, outer => ofTokens? ts ⟨some g.whole, .empty, none⟩ outer
  | .opening :: ts, g, outer => ofTokens? ts .start (g :: outer)
  | .closing :: ts, g, g' :: outer => ofTokens? ts (g'.push g.whole) outer
  | .closing :: _, _, [] => none

/-- The expression that a text spells. -/
def ofText? (text : List Char) : Option Regex :=
  (Token.ofText? text).bind (ofTokens? · .start [])

-- "^(?:a|[^b-d\\]].*)$"
example : ofText? ['^', '(', '?', ':', 'a', '|', '[', '^', 'b', '-', 'd', '\\', ']', ']', '.', '*',
    ')', '$'] =
    some (((Regex.empty.seq .atStart).seq
      ((Regex.empty.seq (.char 'a')).alt
        ((Regex.empty.seq (.oneOf true [('b', 'd'), (']', ']')])).seq (.star .any)))).seq
      .atEnd) :=
  rfl

end Regex

end PathSieve.Text

import PathSieve.Decimal.Shortest
import PathSieve.Json.Value

/-!
# Numbers, read and written

A number is read as the exact decimal it spells: an optional minus sign, a whole part without
needless zeros, and optionally a fraction and an exponent.

Written, a number is the shortest decimal of the binary64 value it rounds to: positional from 1e-6
up to 1e21, with an exponent outside of that. Zero has no sign.
-/

namespace PathSieve.Json.Number

/-- The number that decimal digits spell. -/
def ofDigits (digits : List Char) : Nat :=
  digits.foldl (fun n c => n * 10 + (c.toNat - '0'.toNat)) 0

/-- An exponent, from the text behind the `e`. -/
def exponent? (cs : List Char) : Option Int :=
  let (sign, digits) := match cs with
    | '+' :: rest => (1, rest)
    | '-' :: rest => (-1, rest)
    | _ => ((1 : Int), cs)
  if digits ≠ [] ∧ digits.all Char.isDigit then some (sign * ofDigits digits) else none

/-- The exponent part behind the digits of a number, which may be missing. -/
def exponentPart? : List Char → Option Int
  | [] => some 0
  | c :: cs => if c = 'e' ∨ c = 'E' then exponent? cs else none

/-- The digits behind a point and the exponent part behind those, which may both be missing. -/
def fractionPart? : List Char → Option (List Char × Int)
  | '.' :: cs =>
    let digits := cs.takeWhile Char.isDigit
    if digits = [] then none
    else (exponentPart? (cs.dropWhile Char.isDigit)).map (digits, ·)
  | cs => (exponentPart? cs).map ([], ·)

/-- The number that a whole text spells. -/
def ofText? (text : List Char) : Option Number :=
  let (negative, cs) := match text with
    | '-' :: rest => (true, rest)
    | _ => (false, text)
  let whole := cs.takeWhile Char.isDigit
  if whole = [] ∨ (whole.head? = some '0' ∧ whole ≠ ['0']) then none
  else (fractionPart? (cs.dropWhile Char.isDigit)).map fun (fraction, exponent) =>
    ⟨negative, ofDigits (whole ++ fraction), exponent - fraction.length⟩

/-- The binary64 value of the number without its sign: nothing for infinity. Powers of ten far
beyond the range of binary64 are not computed. -/
def magnitude (n : Number) : Option Decimal.Binary64 :=
  let top := (Decimal.digitCount n.digits : Int) + n.exponent
  if n.digits = 0 ∨ top < -400 then some ⟨0, 0⟩
  else if top > 400 then none
  else
    let (num, den) := Decimal.scale 10 n.exponent n.digits 1
    Decimal.Binary64.nearest num den

/-- So many zeros. -/
def zeros (n : Nat) : String := String.ofList (List.replicate n '0')

/-- A positive decimal as text. -/
def layout (x : Decimal.Digits) : String :=
  let digits := toString x.digits
  let count := digits.length
  let point := (count : Int) + x.exponent
  if 0 ≤ x.exponent ∧ point ≤ 21 then digits ++ zeros x.exponent.toNat
  else if 0 < point ∧ point ≤ 21 then
    String.ofList (digits.toList.take point.toNat) ++ "." ++
      String.ofList (digits.toList.drop point.toNat)
  else if -6 < point ∧ point ≤ 0 then "0." ++ zeros (-point).toNat ++ digits
  else
    let power := point - 1
    String.ofList (digits.toList.take 1) ++
      (if count = 1 then "" else "." ++ String.ofList (digits.toList.drop 1)) ++
      "e" ++ (if power < 0 then "-" else "+") ++ toString power.natAbs

/-- A number as text. -/
def render (n : Number) : String :=
  match n.magnitude with
  | none => (if n.negative then "-" else "") ++ "Infinity"
  | some b =>
    if b.significand = 0 then "0"
    else (if n.negative then "-" else "") ++ layout (Decimal.shortest b)

end PathSieve.Json.Number

import PathSieve.Decimal.Binary64

/-!
# The shortest decimal of a binary64 value

A value is written with the fewest digits that still read back as that value. Of two decimals of
that length the nearer one is taken, and of two equally near ones the even one.

For each length there are only two candidates, the neighbours of the value on the decimal grid of
that length. Seventeen digits always suffice.
-/

namespace PathSieve.Decimal

/-- A decimal: its digits as one number, times a power of ten. -/
structure Digits where
  digits : Nat
  exponent : Int
deriving DecidableEq, Repr

/-- How many decimal digits a number has. -/
def digitCount (n : Nat) : Nat := (Nat.toDigits 10 n).length

/-- The greatest power of ten that is not above the fraction. -/
def floorLog10 (num den : Nat) : Int :=
  let guess := (digitCount num : Int) - digitCount den
  let (n, d) := scale 10 (-guess) num den
  if n < d then guess - 1 else guess

/-- Whether a decimal reads back as a value. -/
def Digits.readsAs (decimal : Digits) (b : Binary64) : Bool :=
  let (n, d) := scale 10 decimal.exponent decimal.digits 1
  n ≠ 0 && Binary64.nearest n d == some b

/-- The decimal of the given grid that stands for the value, if one does. -/
def onGrid (b : Binary64) (exponent : Int) : Option Digits :=
  let (num, den) := b.toFraction
  let (n, d) := scale 10 (-exponent) num den
  let below : Digits := ⟨n / d, exponent⟩
  let above : Digits := ⟨n / d + 1, exponent⟩
  match below.readsAs b, above.readsAs b with
  | true, true =>
    let twice := 2 * (n % d)
    some (if twice < d ∨ (twice = d ∧ below.digits % 2 = 0) then below else above)
  | true, false => some below
  | false, true => some above
  | false, false => none

/-- A decimal without zeros at its end; `fuel` bounds how many there can be. -/
def dropZeros : (fuel : Nat) → Digits → Digits
  | 0, x => x
  | fuel + 1, x => if x.digits % 10 = 0 then dropZeros fuel ⟨x.digits / 10, x.exponent + 1⟩ else x

/-- The shortest decimal that reads back as a positive value. -/
def shortest (b : Binary64) : Digits :=
  let (num, den) := b.toFraction
  let top := floorLog10 num den
  let grids := (List.range 17).map fun (places : Nat) => top - Int.ofNat places
  dropZeros 17 ((grids.findSome? (onGrid b)).getD ⟨b.significand, 0⟩)

end PathSieve.Decimal

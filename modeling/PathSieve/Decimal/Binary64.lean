/-!
# Rounding to binary64

A positive binary64 value is a significand below 2^53 times a power of two, and numbers are computed
with as exactly such values. Everything here is on natural numbers: a positive rational `num / den`
is brought to the power of two that leaves 53 bits before the point, and rounded there, halves going
to the even neighbour. Very small values keep the lowest power and fewer bits; values beyond the
largest are infinite.
-/

namespace PathSieve.Decimal

/-- A positive finite binary64 value, `significand * 2 ^ exponent`. -/
structure Binary64 where
  significand : Nat
  exponent : Int
deriving DecidableEq, Repr

/-- `num * base ^ e`, as a fraction, for a power of either sign. -/
def scale (base : Nat) (e : Int) (num den : Nat) : Nat × Nat :=
  if e < 0 then (num, den * base.pow e.natAbs) else (num * base.pow e.toNat, den)

/-- The natural number nearest to a fraction, the even one of two. -/
def roundHalfEven (num den : Nat) : Nat :=
  let whole := num / den
  let twice := 2 * (num % den)
  if twice < den ∨ (twice = den ∧ whole % 2 = 0) then whole else whole + 1

/-- The greatest power of two that is not above the fraction. -/
def floorLog2 (num den : Nat) : Int :=
  let guess := (num.log2 : Int) - den.log2
  let (n, d) := scale 2 (-guess) num den
  if n < d then guess - 1 else guess

namespace Binary64

/-- The value of the fraction form. -/
def toFraction (b : Binary64) : Nat × Nat := scale 2 b.exponent b.significand 1

/-- The nearest binary64 value of a positive fraction; `none` when it is infinite. A fraction that
rounds to zero has significand zero. -/
def nearest (num den : Nat) : Option Binary64 :=
  let exponent := max (floorLog2 num den - 52) (-1074)
  let (n, d) := scale 2 (-exponent) num den
  let significand := roundHalfEven n d
  let rounded : Binary64 :=
    if significand = Nat.pow 2 53 then ⟨Nat.pow 2 52, exponent + 1⟩ else ⟨significand, exponent⟩
  if rounded.exponent > 971 then none else some rounded

end Binary64

end PathSieve.Decimal

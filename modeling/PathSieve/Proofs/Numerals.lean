import Mathlib.Data.List.TakeWhile
import PathSieve.Json.Number

/-!
# Numerals

What may be written for a number, as a grammar: an optional minus sign, a whole part without
needless zeros, and optionally a fraction and an exponent (`Numeral`). The reader takes exactly
these texts, and each for the number that it spells (`Number.ofText?_eq_some_iff`).

Each part ends where its characters end, since the next part begins with another kind of character.
So the reader never has to go back.
-/

namespace PathSieve.Json

open Number (exponent? exponentPart? fractionPart? ofDigits ofText?)

/-! ## The grammar -/

/-- One or more digits. -/
def AreDigits (cs : List Char) : Prop := cs ≠ [] ∧ cs.all Char.isDigit = true

/-- A whole part: digits that begin with a zero only if that is all. -/
inductive WholePart : List Char → Prop
  | zero : WholePart ['0']
  | other {c : Char} {cs : List Char} (hdigits : AreDigits (c :: cs)) (hzero : c ≠ '0') :
      WholePart (c :: cs)

/-- A fraction and its digits. -/
inductive FractionOf : List Char → List Char → Prop
  | none : FractionOf [] []
  | some {digits : List Char} (hdigits : AreDigits digits) : FractionOf digits ('.' :: digits)

/-- An exponent and its value. -/
inductive ExponentOf : Int → List Char → Prop
  | none : ExponentOf 0 []
  | plain {e : Char} {digits : List Char} (he : e = 'e' ∨ e = 'E') (hdigits : AreDigits digits) :
      ExponentOf (ofDigits digits) (e :: digits)
  | plus {e : Char} {digits : List Char} (he : e = 'e' ∨ e = 'E') (hdigits : AreDigits digits) :
      ExponentOf (ofDigits digits) (e :: '+' :: digits)
  | minus {e : Char} {digits : List Char} (he : e = 'e' ∨ e = 'E') (hdigits : AreDigits digits) :
      ExponentOf (-ofDigits digits) (e :: '-' :: digits)

/-- A text without a sign that spells a number, which is `negative` or not. -/
inductive Unsigned (negative : Bool) : Number → List Char → Prop
  | mk {exponent : Int} {whole digits fraction tail : List Char} (hwhole : WholePart whole)
      (hfraction : FractionOf digits fraction) (htail : ExponentOf exponent tail) :
      Unsigned negative ⟨negative, ofDigits (whole ++ digits), exponent - digits.length⟩
        (whole ++ (fraction ++ tail))

/-- A text that spells a number. -/
inductive Numeral : Number → List Char → Prop
  | plain {n : Number} {cs : List Char} (h : Unsigned false n cs) : Numeral n cs
  | minus {n : Number} {cs : List Char} (h : Unsigned true n cs) : Numeral n ('-' :: cs)

variable {cs digits rest : List Char} {n : Number} {exponent : Int}

/-! ## Exponents -/

theorem exponent?_plus :
    exponent? ('+' :: digits) = some exponent ↔ AreDigits digits ∧ ofDigits digits = exponent := by
  simp [exponent?, AreDigits]

theorem exponent?_minus :
    exponent? ('-' :: digits) = some exponent ↔ AreDigits digits ∧ -ofDigits digits = exponent := by
  simp [exponent?, AreDigits]

theorem exponent?_plain (hplus : digits.head? ≠ some '+') (hminus : digits.head? ≠ some '-') :
    exponent? digits = some exponent ↔ AreDigits digits ∧ ofDigits digits = exponent := by
  unfold exponent?
  split
  next sign taken heq =>
    split at heq
    · exact absurd rfl hplus
    · exact absurd rfl hminus
    · obtain ⟨rfl, rfl⟩ := Prod.mk.inj heq
      simp [AreDigits]

/-- Digits begin with a digit, and with no other character. -/
theorem AreDigits.head?_ne (h : AreDigits cs) {c : Char} (hc : c.isDigit = false) :
    cs.head? ≠ some c := by
  intro hhead
  obtain ⟨rest, rfl⟩ := List.head?_eq_some_iff.mp hhead
  have hdigit := List.all_eq_true.mp h.2 c List.mem_cons_self
  rw [hc] at hdigit
  cases hdigit

/-- The reader takes exactly the exponents. -/
theorem exponentPart?_eq_some_iff : exponentPart? cs = some exponent ↔ ExponentOf exponent cs := by
  constructor
  · intro h
    cases cs with
    | nil =>
      obtain rfl := Option.some.inj h
      exact .none
    | cons e cs =>
      rw [exponentPart?, Option.ite_none_right_eq_some] at h
      obtain ⟨he, h⟩ := h
      by_cases hplus : cs.head? = some '+'
      · obtain ⟨digits, rfl⟩ := List.head?_eq_some_iff.mp hplus
        obtain ⟨hdigits, rfl⟩ := exponent?_plus.mp h
        exact .plus he hdigits
      by_cases hminus : cs.head? = some '-'
      · obtain ⟨digits, rfl⟩ := List.head?_eq_some_iff.mp hminus
        obtain ⟨hdigits, rfl⟩ := exponent?_minus.mp h
        exact .minus he hdigits
      · obtain ⟨hdigits, rfl⟩ := (exponent?_plain hplus hminus).mp h
        exact .plain he hdigits
  · intro h
    cases h with
    | none => rfl
    | plain he hdigits =>
      rw [exponentPart?, if_pos he]
      exact (exponent?_plain (hdigits.head?_ne rfl) (hdigits.head?_ne rfl)).mpr ⟨hdigits, rfl⟩
    | plus he hdigits =>
      rw [exponentPart?, if_pos he]
      exact exponent?_plus.mpr ⟨hdigits, rfl⟩
    | minus he hdigits =>
      rw [exponentPart?, if_pos he]
      exact exponent?_minus.mpr ⟨hdigits, rfl⟩

/-! ## Runs of digits -/

/-- Whether no digit comes next. -/
def NoDigit (cs : List Char) : Prop := ∀ c ∈ cs.head?, c.isDigit = false

/-- Digits are taken up to where no digit comes next. -/
theorem takeWhile_digits (h : digits.all Char.isDigit = true) (hrest : NoDigit rest) :
    (digits ++ rest).takeWhile Char.isDigit = digits ∧
      (digits ++ rest).dropWhile Char.isDigit = rest := by
  induction digits with
  | nil =>
    cases rest with
    | nil => exact ⟨rfl, rfl⟩
    | cons c rest =>
      have hc : c.isDigit = false := hrest c rfl
      simp [hc]
  | cons c digits ih =>
    rw [List.all_cons, Bool.and_eq_true] at h
    simp [h.1, ih h.2]

theorem ExponentOf.head (h : ExponentOf exponent cs) : ∀ c ∈ cs.head?, c = 'e' ∨ c = 'E' := by
  intro c hc
  cases h with
  | none => cases hc
  | plain he _ => exact Option.some.inj hc ▸ he
  | plus he _ => exact Option.some.inj hc ▸ he
  | minus he _ => exact Option.some.inj hc ▸ he

theorem ExponentOf.noDigit (h : ExponentOf exponent cs) : NoDigit cs := by
  intro c hc
  rcases h.head c hc with rfl | rfl <;> rfl

/-! ## Fractions -/

/-- The reader takes exactly a fraction with the exponent behind it. -/
theorem fractionPart?_eq_some_iff :
    fractionPart? cs = some (digits, exponent) ↔
      ∃ fraction tail, cs = fraction ++ tail ∧ FractionOf digits fraction ∧
        ExponentOf exponent tail := by
  constructor
  · intro h
    unfold fractionPart? at h
    split at h
    · next cs =>
      simp only [Option.ite_none_left_eq_some, Option.map_eq_some_iff, Prod.mk.injEq] at h
      obtain ⟨hne, e, htail, rfl, rfl⟩ := h
      have hdigits : AreDigits (cs.takeWhile Char.isDigit) := ⟨hne, List.all_takeWhile⟩
      refine ⟨_, _, ?_, .some hdigits, exponentPart?_eq_some_iff.mp htail⟩
      rw [List.cons_append, List.takeWhile_append_dropWhile]
    · simp only [Option.map_eq_some_iff, Prod.mk.injEq] at h
      obtain ⟨e, htail, rfl, rfl⟩ := h
      exact ⟨[], cs, rfl, .none, exponentPart?_eq_some_iff.mp htail⟩
  · rintro ⟨fraction, tail, rfl, hfraction, htail⟩
    cases hfraction with
    | none =>
      have hpoint : tail.head? ≠ some '.' := by
        intro hhead
        rcases htail.head '.' hhead with h | h <;> cases h
      rw [List.nil_append]
      unfold fractionPart?
      split
      · exact absurd rfl hpoint
      · rw [exponentPart?_eq_some_iff.mpr htail]
        rfl
    | some hdigits =>
      obtain ⟨htaken, hleft⟩ := takeWhile_digits hdigits.2 htail.noDigit
      simp only [List.cons_append, fractionPart?]
      rw [htaken, hleft, if_neg hdigits.1, exponentPart?_eq_some_iff.mpr htail]
      rfl

theorem FractionOf.noDigit {fraction tail : List Char} (h : FractionOf digits fraction)
    (htail : ExponentOf exponent tail) : NoDigit (fraction ++ tail) := by
  cases h with
  | none => exact htail.noDigit
  | some _ =>
    intro c hc
    obtain rfl := Option.some.inj hc
    rfl

/-! ## Numbers -/

/-- Digits are a whole part unless they are none, or begin with a needless zero. -/
theorem wholePart_iff (h : cs.all Char.isDigit = true) :
    WholePart cs ↔ ¬ (cs = [] ∨ (cs.head? = some '0' ∧ cs ≠ ['0'])) := by
  constructor
  · intro hwhole
    cases hwhole with
    | zero => decide
    | other hdigits hzero => simp [hzero]
  · intro hnot
    rw [not_or, not_and_not_right] at hnot
    obtain ⟨hne, hzero⟩ := hnot
    obtain ⟨c, rest, rfl⟩ := List.exists_cons_of_ne_nil hne
    by_cases hc : c = '0'
    · subst hc
      rw [hzero rfl]
      exact .zero
    · exact .other ⟨hne, h⟩ hc

theorem WholePart.all_isDigit (h : WholePart cs) : cs.all Char.isDigit = true := by
  cases h with
  | zero => rfl
  | other hdigits _ => exact hdigits.2

/-- The number that a text without a sign spells, made negative or not. -/
def unsigned? (negative : Bool) (cs : List Char) : Option Number :=
  let whole := cs.takeWhile Char.isDigit
  if whole = [] ∨ (whole.head? = some '0' ∧ whole ≠ ['0']) then none
  else (fractionPart? (cs.dropWhile Char.isDigit)).map fun (fraction, exponent) =>
    ⟨negative, ofDigits (whole ++ fraction), exponent - fraction.length⟩

theorem unsigned?_eq_some_iff {negative : Bool} :
    unsigned? negative cs = some n ↔ Unsigned negative n cs := by
  constructor
  · intro h
    simp only [unsigned?, Option.ite_none_left_eq_some, Option.map_eq_some_iff, Prod.exists] at h
    obtain ⟨hwhole, digits, exponent, hrest, rfl⟩ := h
    obtain ⟨fraction, tail, heq, hfraction, htail⟩ := fractionPart?_eq_some_iff.mp hrest
    have hmk : Unsigned negative _ _ :=
      .mk ((wholePart_iff List.all_takeWhile).mpr hwhole) hfraction htail
    rwa [← heq, List.takeWhile_append_dropWhile] at hmk
  · intro h
    obtain @⟨exponent, whole, digits, fraction, tail, hwhole, hfraction, htail⟩ := h
    obtain ⟨htaken, hleft⟩ := takeWhile_digits hwhole.all_isDigit (hfraction.noDigit htail)
    have hrest := fractionPart?_eq_some_iff.mpr ⟨fraction, tail, rfl, hfraction, htail⟩
    simp only [unsigned?]
    rw [htaken, hleft, if_neg ((wholePart_iff hwhole.all_isDigit).mp hwhole), hrest]
    rfl

theorem ofText?_minus (cs : List Char) : ofText? ('-' :: cs) = unsigned? true cs := rfl

theorem ofText?_plain (h : cs.head? ≠ some '-') : ofText? cs = unsigned? false cs := by
  unfold ofText?
  split
  next negative taken heq =>
    split at heq
    · exact absurd rfl h
    · obtain ⟨rfl, rfl⟩ := Prod.mk.inj heq
      rfl

/-- A text without a sign begins with a digit. -/
theorem Unsigned.exists_digit {negative : Bool} (h : Unsigned negative n cs) :
    ∃ c rest, cs = c :: rest ∧ c.isDigit = true := by
  obtain ⟨hwhole, -, -⟩ := h
  cases hwhole with
  | zero => exact ⟨_, _, rfl, rfl⟩
  | other hdigits _ => exact ⟨_, _, rfl, List.all_eq_true.mp hdigits.2 _ List.mem_cons_self⟩

/-- The reader takes exactly the numerals, each for the number that it spells. -/
theorem Number.ofText?_eq_some_iff : ofText? cs = some n ↔ Numeral n cs := by
  constructor
  · intro h
    by_cases hminus : cs.head? = some '-'
    · obtain ⟨cs, rfl⟩ := List.head?_eq_some_iff.mp hminus
      rw [ofText?_minus] at h
      exact .minus (unsigned?_eq_some_iff.mp h)
    · rw [ofText?_plain hminus] at h
      exact .plain (unsigned?_eq_some_iff.mp h)
  · intro h
    cases h with
    | minus h => exact (ofText?_minus _).trans (unsigned?_eq_some_iff.mpr h)
    | plain h =>
      obtain ⟨c, rest, rfl, hdigit⟩ := h.exists_digit
      refine (ofText?_plain ?_).trans (unsigned?_eq_some_iff.mpr h)
      intro hhead
      obtain rfl := Option.some.inj hhead
      cases hdigit

end PathSieve.Json

import PathSieve.Text.Units

/-!
# Suggestions for mistyped words

Two words are as far apart as the least number of letters to insert, to drop, to replace, or of
neighbours to swap, where no letter is touched twice. A known word is suggested for a mistyped one
if it is at most `maxDistance` away and more than two fifths of the longer of the two stay as they
are; of several such words only the nearest ones are suggested, in alphabetical order.
-/

namespace PathSieve.Usage

/-- The greatest distance a suggestion may have. -/
def maxDistance : Nat := 3

/-- How far apart two words are. -/
def distance : List Nat → List Nat → Nat
  | [], b => b.length
  | a, [] => a.length
  | x :: a, y :: b =>
    let one := min (min (distance a (y :: b) + 1) (distance (x :: a) b + 1))
      (distance a b + if x = y then 0 else 1)
    match a, b with
    | x' :: a', y' :: b' => if x = y' ∧ x' = y then min one (distance a' b' + 1) else one
    | _, _ => one
termination_by a b => a.length + b.length

/-- How far a known word is from a mistyped one, if it is near enough to be suggested at all. -/
def nearness? (word candidate : String) : Option Nat :=
  let a := Text.units word
  let b := Text.units candidate
  let longer := max a.length b.length
  if longer - min a.length b.length > maxDistance then none
  else
    let d := distance a b
    if d ≤ maxDistance ∧ 2 * longer < 5 * (longer - d) then some d else none

/-- The known words to suggest for a mistyped one. -/
def similar (word : String) (candidates : List String) : List String :=
  let near := candidates.filterMap fun c => (nearness? word c).map (·, c)
  match (near.map Prod.fst).min? with
  | none => []
  | some least => ((near.filter (·.1 = least)).map Prod.snd).mergeSort Text.unitsLE

end PathSieve.Usage

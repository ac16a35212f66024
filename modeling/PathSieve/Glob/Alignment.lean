/-!
# Matching a sequence against steps with gaps

Both levels of a pattern are matched in the same way. A segment is a sequence of items over
characters in which a star is a gap; a pattern is a sequence of segments over path parts in which a
double star is a gap. A *gap* takes any run of elements, the empty run included, and every other
step takes exactly one element that passes its test. The whole sequence has to be used up.

- `fits steps xs`: whether the elements can be distributed over the steps.
- `fitsTails steps xs`: the same for every tail of `xs` at once, which is what a gap in front of the
  steps has to know. The answers are computed from those for the steps behind the first, so that
  however many gaps there are, no step meets an element twice.

`fitsTails_cons` says that the two agree. A gap is worked with by `fits_gap_nil` and `fits_gap_cons`.
-/

namespace PathSieve.Glob

variable {α : Type}

/-- One step of a pattern: a gap, or one element that passes a test. -/
inductive Step (α : Type) where
  | gap
  | one (test : α → Bool)

/-- For each place in a list, whether `true` stands there or later. -/
def trueFrom : List Bool → List Bool
  | [] => []
  | b :: bs =>
    let later := trueFrom bs
    (b || later.headD false) :: later

/-- Whether the elements can be distributed over the steps, for each tail of a list, from the list
itself down to the empty one. -/
def fitsTails : List (Step α) → List α → List Bool
  | [], xs => xs.map (fun _ => false) ++ [true]
  | .gap :: steps, xs => trueFrom (fitsTails steps xs)
  | .one test :: steps, xs =>
    xs.zipWith (fun x rest => rest && test x) (fitsTails steps xs).tail ++ [false]

/-- Whether the elements can be distributed over the steps. -/
def fits : List (Step α) → List α → Bool
  | [], xs => xs.isEmpty
  | .gap :: steps, xs => (fitsTails steps xs).any id
  | .one _ :: _, [] => false
  | .one test :: steps, x :: xs => test x && fits steps xs

/-! ## Tails -/

/-- What holds somewhere holds from the first place on. -/
theorem headD_trueFrom (bs : List Bool) : (trueFrom bs).headD false = bs.any id := by
  induction bs with
  | nil => rfl
  | cons b bs ih => rw [trueFrom, List.headD_cons, ih]; rfl

/-- The empty list has one tail. -/
theorem fitsTails_nil (steps : List (Step α)) : fitsTails steps [] = [fits steps []] := by
  induction steps with
  | nil => rfl
  | cons step steps ih =>
    cases step with
    | gap => simp [fitsTails, fits, ih, trueFrom]
    | one test => rfl

/-- The tails of a longer list are the list itself and the tails of its rest. -/
theorem fitsTails_cons (steps : List (Step α)) (x : α) (xs : List α) :
    fitsTails steps (x :: xs) = fits steps (x :: xs) :: fitsTails steps xs := by
  induction steps generalizing x xs with
  | nil => rfl
  | cons step steps ih =>
    cases step with
    | gap => rw [fitsTails, ih, trueFrom, headD_trueFrom, fits, ih]; rfl
    | one test =>
      rw [fitsTails, fitsTails, ih, List.tail_cons, fits, Bool.and_comm]
      cases xs with
      | nil => rw [fitsTails_nil]; rfl
      | cons y ys => rw [ih]; rfl

/-! ## Gaps -/

theorem fits_gap_nil (steps : List (Step α)) : fits (.gap :: steps) [] = fits steps [] := by
  simp [fits, fitsTails_nil]

/-- A gap takes nothing, or the first element and perhaps more. -/
theorem fits_gap_cons (steps : List (Step α)) (x : α) (xs : List α) :
    fits (.gap :: steps) (x :: xs) = (fits steps (x :: xs) || fits (.gap :: steps) xs) := by
  simp [fits, fitsTails_cons]

end PathSieve.Glob

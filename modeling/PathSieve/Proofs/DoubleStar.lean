import Mathlib.Data.List.Forall2
import PathSieve.Glob.Pattern

/-!
# Double stars: what a match of a whole path is

A path matches a pattern when its parts can be dealt out to the segments: each `**` gets a *run* of
parts, possibly empty, every other segment gets exactly one part, the runs stand in the order of the
segments, and together they are the whole path.

The library answers for all tails of a path at once (`Glob/Alignment`). The plain way to search for
such a distribution is to try one length after the other for every double star; `search` does that,
with the two shortcuts that are safe to take: consecutive double stars count once, and a double star
at the end takes whatever is left. Both ways give the same answer.

- `Step.Takes`, `Segment.Takes`: what a step or a segment may get.
- `Distributes`, `fits_iff_distributes`: `fits` finds a distribution exactly when there is one.
- `search`, `search_eq_fits`: the search by trying lengths.

What this says of patterns and paths comes last.
-/

namespace PathSieve.Glob

variable {α : Type}

/-- The runs a step may get: any run for a gap, and one element that passes the test otherwise. -/
def Step.Takes : Step α → List α → Prop
  | .gap, _ => True
  | .one test, run => ∃ x, run = [x] ∧ test x = true

/-- The runs of path parts a segment may get. -/
def Segment.Takes : Segment → List (List Char) → Prop
  | .globstar, _ => True
  | .literal text, run => run = [text]
  | .glob _ items, run => ∃ part, run = [part] ∧ Item.accepts items part = true

/-! ## Distributions -/

/-- Whether the elements can be dealt out to the steps in order. -/
def Distributes (steps : List (Step α)) (xs : List α) : Prop :=
  ∃ runs : List (List α), runs.flatten = xs ∧ List.Forall₂ Step.Takes steps runs

theorem distributes_nil {xs : List α} : Distributes [] xs ↔ xs = [] := by
  constructor
  · rintro ⟨runs, rfl, h⟩
    cases h
    rfl
  · rintro rfl
    exact ⟨[], rfl, .nil⟩

/-- A first step gets a run that begins the list. -/
theorem distributes_cons {step : Step α} {steps : List (Step α)} {xs : List α} :
    Distributes (step :: steps) xs ↔
      ∃ run rest, xs = run ++ rest ∧ step.Takes run ∧ Distributes steps rest := by
  constructor
  · rintro ⟨runs, rfl, h⟩
    cases h with
    | @cons _ run _ runs hrun hruns =>
      exact ⟨run, runs.flatten, List.flatten_cons, hrun, runs, rfl, hruns⟩
  · rintro ⟨run, _, rfl, hrun, runs, rfl, hruns⟩
    exact ⟨run :: runs, List.flatten_cons, .cons hrun hruns⟩

theorem distributes_one {test : α → Bool} {steps : List (Step α)} {xs : List α} :
    Distributes (.one test :: steps) xs ↔
      ∃ x rest, xs = x :: rest ∧ test x = true ∧ Distributes steps rest := by
  rw [distributes_cons]
  constructor
  · rintro ⟨_, rest, rfl, ⟨x, rfl, hx⟩, h⟩
    exact ⟨x, rest, rfl, hx, h⟩
  · rintro ⟨x, rest, rfl, hx, h⟩
    exact ⟨[x], rest, rfl, ⟨x, rfl, hx⟩, h⟩

theorem distributes_gap {steps : List (Step α)} {xs : List α} :
    Distributes (.gap :: steps) xs ↔ ∃ run rest, xs = run ++ rest ∧ Distributes steps rest := by
  simp only [distributes_cons, Step.Takes, true_and]

/-- A gap takes nothing, or the first element and perhaps more. -/
theorem distributes_gap_cons {steps : List (Step α)} {x : α} {xs : List α} :
    Distributes (.gap :: steps) (x :: xs) ↔
      Distributes steps (x :: xs) ∨ Distributes (.gap :: steps) xs := by
  simp only [distributes_gap]
  constructor
  · rintro ⟨run, rest, hxs, h⟩
    cases run with
    | nil => exact .inl (hxs ▸ h)
    | cons y run =>
      obtain ⟨rfl, rfl⟩ := List.cons.inj hxs
      exact .inr ⟨run, rest, rfl, h⟩
  · rintro (h | ⟨run, rest, rfl, h⟩)
    · exact ⟨[], x :: xs, rfl, h⟩
    · exact ⟨x :: run, rest, rfl, h⟩

/-- The elements fit the steps exactly when they can be dealt out to them. -/
theorem fits_iff_distributes (steps : List (Step α)) (xs : List α) :
    fits steps xs = true ↔ Distributes steps xs := by
  induction steps generalizing xs with
  | nil => rw [distributes_nil, fits, List.isEmpty_iff]
  | cons step steps ih =>
    cases step with
    | one test =>
      rw [distributes_one]
      cases xs with
      | nil => simp [fits]
      | cons x xs => simp [fits, ih]
    | gap =>
      -- the gap grows by one element at a time, so this is an induction on the list
      induction xs with
      | nil =>
        rw [fits_gap_nil, ih, distributes_gap]
        constructor
        · exact fun h => ⟨[], [], rfl, h⟩
        · rintro ⟨run, rest, hnil, h⟩
          obtain ⟨-, rfl⟩ := List.append_eq_nil_iff.mp hnil.symm
          exact h
      | cons x xs ihxs => rw [fits_gap_cons, Bool.or_eq_true, ih, ihxs, distributes_gap_cons]

/-! ## Trying one length after the other -/

/-- The steps behind the gaps at the front. -/
def afterGaps : List (Step α) → List (Step α)
  | .gap :: steps => afterGaps steps
  | steps => steps

theorem length_afterGaps_le (steps : List (Step α)) :
    (afterGaps steps).length ≤ steps.length := by
  induction steps with
  | nil => exact Nat.le_refl _
  | cons step steps ih =>
    cases step with
    | gap => exact Nat.le_succ_of_le ih
    | one test => exact Nat.le_refl _

/-- Searches for a distribution. Gaps in a row are passed over as one, and a gap behind which there
is nothing takes all that is left; any other gap takes no element, then one, and so on up to all. -/
def search : List (Step α) → List α → Bool
  | [], xs => xs.isEmpty
  | .one _ :: _, [] => false
  | .one test :: steps, x :: xs => test x && search steps xs
  | .gap :: steps, xs =>
    (afterGaps steps).isEmpty ||
      (List.range (xs.length + 1)).any fun k => search (afterGaps steps) (xs.drop k)
termination_by steps => steps.length
decreasing_by
  · exact Nat.lt_succ_self _
  · exact Nat.lt_succ_of_le (length_afterGaps_le steps)

/-- What holds behind some number of elements, all of them included, holds behind some run. -/
theorem exists_drop_iff (P : List α → Prop) (xs : List α) :
    (∃ k ∈ List.range (xs.length + 1), P (xs.drop k)) ↔ ∃ run rest, xs = run ++ rest ∧ P rest := by
  constructor
  · rintro ⟨k, -, h⟩
    exact ⟨xs.take k, xs.drop k, (List.take_append_drop k xs).symm, h⟩
  · rintro ⟨run, rest, rfl, h⟩
    have hk : run.length < (run ++ rest).length + 1 := by
      rw [List.length_append]
      omega
    exact ⟨run.length, List.mem_range.mpr hk, by rwa [List.drop_left]⟩

/-- A second gap behind a gap changes nothing. -/
theorem distributes_gap_gap {steps : List (Step α)} {xs : List α} :
    Distributes (.gap :: .gap :: steps) xs ↔ Distributes (.gap :: steps) xs := by
  constructor
  · intro h
    obtain ⟨run, rest, rfl, hrest⟩ := distributes_gap.mp h
    obtain ⟨more, last, rfl, hlast⟩ := distributes_gap.mp hrest
    exact distributes_gap.mpr ⟨run ++ more, last, (List.append_assoc ..).symm, hlast⟩
  · intro h
    exact distributes_gap.mpr ⟨[], xs, rfl, h⟩

theorem distributes_gap_afterGaps {steps : List (Step α)} {xs : List α} :
    Distributes (.gap :: afterGaps steps) xs ↔ Distributes (.gap :: steps) xs := by
  induction steps with
  | nil => rfl
  | cons step steps ih =>
    cases step with
    | gap => rw [afterGaps, ih, distributes_gap_gap]
    | one test => rfl

/-- A gap at the end takes whatever is left. -/
theorem distributes_last_gap (xs : List α) : Distributes [.gap] xs :=
  distributes_gap.mpr ⟨xs, [], (List.append_nil xs).symm, distributes_nil.mpr rfl⟩

/-- The search finds a distribution exactly when there is one. -/
theorem search_iff_distributes (steps : List (Step α)) (xs : List α) :
    search steps xs = true ↔ Distributes steps xs := by
  fun_induction search steps xs with
  | case1 xs => rw [distributes_nil, List.isEmpty_iff]
  | case2 test steps => simp [distributes_one]
  | case3 test steps x xs ih => simp [distributes_one, ih]
  | case4 steps xs ih =>
    have htry : ((List.range (xs.length + 1)).any fun k => search (afterGaps steps) (xs.drop k)) =
        true ↔ Distributes (.gap :: steps) xs := by
      rw [List.any_eq_true, ← distributes_gap_afterGaps, distributes_gap]
      simp only [ih]
      exact exists_drop_iff (Distributes (afterGaps steps)) xs
    rw [Bool.or_eq_true, htry, List.isEmpty_iff]
    refine ⟨?_, .inr⟩
    rintro (hlast | h)
    · rw [← distributes_gap_afterGaps, hlast]
      exact distributes_last_gap xs
    · exact h

/-- Trying lengths and answering for all tails at once give the same answer. -/
theorem search_eq_fits (steps : List (Step α)) (xs : List α) : search steps xs = fits steps xs := by
  rw [Bool.eq_iff_iff, search_iff_distributes, fits_iff_distributes]

/-! ## Patterns -/

/-- A segment gets what the step it is matched by may get. -/
theorem step_takes_iff (segment : Segment) (run : List (List Char)) :
    segment.step.Takes run ↔ segment.Takes run := by
  cases segment with
  | literal text =>
    constructor
    · rintro ⟨part, rfl, h⟩
      exact congrArg (fun p => [p]) (eq_of_beq h).symm
    · rintro rfl
      exact ⟨text, rfl, beq_self_eq_true text⟩
  | glob source items => rfl
  | globstar => rfl

/-- **Double-star semantics.** A pattern matches a path exactly when the path's parts are, in order
and in full, a run of parts for each double star and one part for each other segment that the
segment accepts; and searching for such runs one length after the other gives the same answer. -/
theorem accepts_iff_exists_runs (p : Pattern) (path : String) :
    (p.accepts path = true ↔
      ∃ runs : List (List (List Char)), runs.flatten = Pattern.parts path ∧
        List.Forall₂ Segment.Takes p.segments runs) ∧
    search (p.segments.map Segment.step) (Pattern.parts path) = p.accepts path := by
  refine ⟨?_, search_eq_fits _ _⟩
  rw [Pattern.accepts, fits_iff_distributes, Distributes]
  simp only [List.forall₂_map_left_iff, step_takes_iff]

-- a double star may get nothing, but never a slash of its own
example : accepts? "a/**/b" "a/b" = .ok true ∧ accepts? "a/**/b" "ab" = .ok false := by decide

end PathSieve.Glob

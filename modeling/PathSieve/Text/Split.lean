/-!
# Cutting text at separators, and joining it again

Paths are cut at `/`, input at line ends, and a path with a foreign separator at that separator.
One-character separators have the plain recursion `pieces`; a separator of any length has `splitOn`,
which takes occurrences from the left and lets none of them overlap.

- `pieces sep cs`: the runs of `cs` between occurrences of `sep`; never the empty list.
- `splitOn sep cs`: the same for a separator that is itself a text.
- `join sep ps`: the pieces with `sep` between each two.
- `join_pieces`, `join_splitOn`: cutting loses nothing.
-/

namespace PathSieve.Text

/-- Puts one more character in front of the first piece. -/
def growFirst (c : Char) : List (List Char) → List (List Char)
  | [] => [[c]]
  | p :: ps => (c :: p) :: ps

/-- The runs between the occurrences of one separator character. A text without the separator is a
single piece, and the empty text is one empty piece. -/
def pieces (sep : Char) : List Char → List (List Char)
  | [] => [[]]
  | c :: cs => if c = sep then [] :: pieces sep cs else growFirst c (pieces sep cs)

/-- The pieces with the separator between each two. -/
def join (sep : List Char) : List (List Char) → List Char
  | [] => []
  | [p] => p
  | p :: q :: ps => p ++ sep ++ join sep (q :: ps)

/-- Cuts at a separator of any length; `inside` counts the characters still to be passed over that
belong to the occurrence just found. -/
def cut (sep : List Char) : (inside : Nat) → List Char → List (List Char)
  | _, [] => [[]]
  | k + 1, _ :: cs => cut sep k cs
  | 0, c :: cs =>
    if sep.isPrefixOf (c :: cs) then [] :: cut sep (sep.length - 1) cs
    else growFirst c (cut sep 0 cs)

/-- The runs between the occurrences of a separator text, taken from the left. The empty separator
lies between every two characters, and cuts the empty text into nothing. -/
def splitOn (sep cs : List Char) : List (List Char) :=
  if sep = [] then cs.map ([·]) else cut sep 0 cs

/-! ## Cutting loses nothing -/

theorem growFirst_ne_nil (c : Char) (ps : List (List Char)) : growFirst c ps ≠ [] := by
  cases ps <;> simp [growFirst]

theorem pieces_ne_nil (sep : Char) (cs : List Char) : pieces sep cs ≠ [] := by
  cases cs with
  | nil => simp [pieces]
  | cons c cs =>
    simp only [pieces]
    split
    · simp
    · exact growFirst_ne_nil _ _

theorem cut_ne_nil (sep : List Char) (k : Nat) (cs : List Char) : cut sep k cs ≠ [] := by
  induction cs generalizing k with
  | nil => simp [cut]
  | cons c cs ih =>
    cases k with
    | succ k => exact ih k
    | zero =>
      simp only [cut]
      split
      · simp
      · exact growFirst_ne_nil _ _

theorem join_growFirst (sep : List Char) (c : Char) (ps : List (List Char)) :
    join sep (growFirst c ps) = c :: join sep ps := by
  match ps with
  | [] => rfl
  | [p] => rfl
  | p :: q :: ps => simp [growFirst, join]

theorem join_cons (sep p : List Char) {ps : List (List Char)} (h : ps ≠ []) :
    join sep (p :: ps) = p ++ sep ++ join sep ps := by
  cases ps with
  | nil => exact absurd rfl h
  | cons q ps => rfl

/-- Joining the pieces with the separator gives the text back. -/
theorem join_pieces (sep : Char) (cs : List Char) : join [sep] (pieces sep cs) = cs := by
  induction cs with
  | nil => rfl
  | cons c cs ih =>
    simp only [pieces]
    split
    · next h => rw [join_cons _ _ (pieces_ne_nil _ _), ih, h]; rfl
    · rw [join_growFirst, ih]

theorem join_cut (sep : List Char) (k : Nat) (cs : List Char) (hs : sep ≠ []) :
    join sep (cut sep k cs) = cs.drop k := by
  induction cs generalizing k with
  | nil => simp [cut, join]
  | cons c cs ih =>
    cases k with
    | succ k => simpa [cut] using ih k
    | zero =>
      simp only [cut]
      split
      · next h =>
        obtain ⟨rest, hrest⟩ := List.isPrefixOf_iff_prefix.1 h
        rw [join_cons _ _ (cut_ne_nil _ _ _), ih]
        obtain ⟨d, ds, rfl⟩ := List.exists_cons_of_ne_nil hs
        simp only [List.cons_append, List.cons.injEq] at hrest
        obtain ⟨rfl, rfl⟩ := hrest
        simp
      · rw [join_growFirst, ih]; rfl

/-- Joining the runs between a separator's occurrences gives the text back. -/
theorem join_splitOn {sep : List Char} (hs : sep ≠ []) (cs : List Char) :
    join sep (splitOn sep cs) = cs := by
  simp [splitOn, hs, join_cut]

/-- No piece holds the separator. -/
theorem sep_not_mem_pieces (sep : Char) (cs : List Char) : ∀ p ∈ pieces sep cs, sep ∉ p := by
  induction cs with
  | nil => simp [pieces]
  | cons c cs ih =>
    simp only [pieces]
    split
    · simpa using ih
    · next hc =>
      cases hps : pieces sep cs with
      | nil => exact absurd hps (pieces_ne_nil _ _)
      | cons p ps =>
        rw [hps] at ih
        intro q hq
        rcases List.mem_cons.1 hq with rfl | hq
        · simp [Ne.symm hc, ih p (List.mem_cons_self ..)]
        · exact ih q (List.mem_cons_of_mem _ hq)

end PathSieve.Text

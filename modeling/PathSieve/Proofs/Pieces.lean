import PathSieve.Text.Split

/-!
# Pieces of texts that are put together

How cutting at a character undoes joining with it, and what the pieces of a text say about the texts
it begins with. A text followed by the separator begins another exactly when its pieces are a proper
beginning of the other's pieces (`append_sep_prefix_iff`).
-/

namespace PathSieve.Text

variable {sep : Char}

theorem pieces_of_not_mem {cs : List Char} (h : sep ∉ cs) : pieces sep cs = [cs] := by
  induction cs with
  | nil => rfl
  | cons c cs ih =>
    obtain ⟨hc, hcs⟩ := not_or.mp (mt List.mem_cons.mpr h)
    rw [pieces, if_neg (Ne.symm hc), ih hcs]
    rfl

/-- Growing the first piece does not touch the pieces behind it. -/
theorem growFirst_append {c : Char} {ps qs : List (List Char)} (h : ps ≠ []) :
    growFirst c (ps ++ qs) = growFirst c ps ++ qs := by
  cases ps with
  | nil => exact absurd rfl h
  | cons p ps => rfl

/-- A separator between two texts puts their pieces side by side. -/
theorem pieces_append_sep (as bs : List Char) :
    pieces sep (as ++ sep :: bs) = pieces sep as ++ pieces sep bs := by
  induction as with
  | nil => simp [pieces]
  | cons a as ih =>
    rw [List.cons_append, pieces, pieces, ih]
    split
    · rfl
    · exact growFirst_append (pieces_ne_nil sep as)

/-- Cutting undoes joining, if there is anything to join and no piece holds the separator. -/
theorem pieces_join {ps : List (List Char)} (hne : ps ≠ []) (h : ∀ p ∈ ps, sep ∉ p) :
    pieces sep (join [sep] ps) = ps := by
  induction ps with
  | nil => exact absurd rfl hne
  | cons p ps ih =>
    have hp : pieces sep p = [p] := pieces_of_not_mem (h p List.mem_cons_self)
    by_cases hps : ps = []
    · subst hps
      exact hp
    · have hrest := ih hps fun q hq => h q (List.mem_cons_of_mem p hq)
      rw [join_cons _ _ hps, List.append_assoc, List.singleton_append, pieces_append_sep, hp, hrest]
      rfl

/-- Texts with the same pieces are the same. -/
theorem pieces_inj {as bs : List Char} (h : pieces sep as = pieces sep bs) : as = bs := by
  rw [← join_pieces sep as, h, join_pieces]

/-- A text and the separator begin another text exactly when the pieces of the first are followed by
more pieces in the second. -/
theorem append_sep_prefix_iff {as bs : List Char} :
    as ++ [sep] <+: bs ↔ ∃ rest, rest ≠ [] ∧ pieces sep bs = pieces sep as ++ rest := by
  constructor
  · rintro ⟨cs, rfl⟩
    exact ⟨pieces sep cs, pieces_ne_nil sep cs, by simp [pieces_append_sep]⟩
  · rintro ⟨rest, hne, h⟩
    have hrest : ∀ p ∈ rest, sep ∉ p := fun p hp =>
      sep_not_mem_pieces sep bs p (h ▸ List.mem_append_right _ hp)
    have hbs : bs = as ++ sep :: join [sep] rest :=
      pieces_inj (by rw [pieces_append_sep, pieces_join hne hrest, h])
    exact ⟨join [sep] rest, by simp [hbs]⟩

/-- The first piece of a text is empty exactly when the text is, or begins with the separator. -/
theorem head?_pieces (cs : List Char) :
    (pieces sep cs).head? = some [] ↔ cs = [] ∨ cs.head? = some sep := by
  cases cs with
  | nil => simp [pieces]
  | cons c cs =>
    rw [pieces]
    split
    · next h => simp [h]
    · next h =>
      obtain ⟨p, ps, hps⟩ := List.exists_cons_of_ne_nil (pieces_ne_nil sep cs)
      simp [hps, growFirst, h]

/-- The pieces of a text are as long as the text, if a separator is counted to each of them and to
the text. -/
theorem length_flatten_pieces (cs : List Char) :
    (pieces sep cs).flatten.length + (pieces sep cs).length = cs.length + 1 := by
  induction cs with
  | nil => rfl
  | cons c cs ih =>
    rw [pieces]
    split
    · rw [List.flatten_cons, List.nil_append, List.length_cons, List.length_cons]
      omega
    · obtain ⟨p, ps, hps⟩ := List.exists_cons_of_ne_nil (pieces_ne_nil sep cs)
      rw [hps] at ih ⊢
      simp only [growFirst, List.flatten_cons, List.length_append, List.length_cons] at ih ⊢
      omega

/-- A piece that is not empty takes two characters with its separator, so there are no more such
pieces than half of the text has room for. -/
theorem two_mul_countP_pieces_le (cs : List Char) :
    2 * (pieces sep cs).countP (· ≠ []) ≤ cs.length + 1 := by
  rw [← length_flatten_pieces cs]
  induction pieces sep cs with
  | nil => exact Nat.le_refl _
  | cons p ps ih =>
    rw [List.flatten_cons, List.length_append, List.length_cons, List.countP_cons]
    split
    · next hp =>
      have hlength := List.length_pos_iff.mpr (of_decide_eq_true hp)
      omega
    · omega

end PathSieve.Text

import PathSieve.Proofs.ReadBack

/-!
# Separators there and back

A path that is written with a platform's separator comes back with its slashes, if the separator is
a single character, exactly if the path did not hold that character before
(`Path.withSlashes_withSeparator_iff`). The other way round the separator may be of any length, and
occur so that it could be cut in more than one way: what it was cut into is put together with the
same separator again, so only slashes that were there before can do harm
(`Path.withSeparator_withSlashes`).

Both ways, the pieces that one pass joins are the pieces that the other finds. Nothing else has to
be known of how a text is cut than that joining the pieces gives it back.
-/

namespace PathSieve

namespace Text

variable {sep : List Char} {ps : List (List Char)} {p : List Char} {c : Char}

/-- A separator of a single character is cut at like that character. -/
theorem splitOn_singleton (c : Char) (cs : List Char) : splitOn [c] cs = pieces c cs := by
  rw [splitOn, if_neg (List.cons_ne_nil c [])]
  induction cs with
  | nil => rfl
  | cons d cs ih =>
    by_cases h : d = c
    · subst h
      simp [cut, pieces, ih]
    · simp [cut, pieces, ih, h, Ne.symm h]

theorem splitOn_ne_nil (h : sep ≠ []) (cs : List Char) : splitOn sep cs ≠ [] := by
  rw [splitOn, if_neg h]
  exact cut_ne_nil sep 0 cs

theorem mem_join_of_mem (hp : p ∈ ps) (hc : c ∈ p) : c ∈ join sep ps := by
  induction ps with
  | nil => exact absurd hp List.not_mem_nil
  | cons q ps ih =>
    by_cases hps : ps = []
    · subst hps
      rwa [join, ← List.mem_singleton.mp hp]
    · rw [join_cons sep q hps, List.mem_append]
      rcases List.mem_cons.mp hp with rfl | hp
      · exact .inl (List.mem_append_left sep hc)
      · exact .inr (ih hp)

theorem mem_of_mem_join (h : c ∈ join sep ps) : c ∈ sep ∨ ∃ p ∈ ps, c ∈ p := by
  induction ps with
  | nil => exact absurd h List.not_mem_nil
  | cons q ps ih =>
    by_cases hps : ps = []
    · subst hps
      exact .inr ⟨q, List.mem_cons_self, h⟩
    · rw [join_cons sep q hps, List.mem_append, List.mem_append] at h
      rcases h with (hq | hsep) | hrest
      · exact .inr ⟨q, List.mem_cons_self, hq⟩
      · exact .inl hsep
      · exact (ih hrest).imp_right fun ⟨p, hp, hc⟩ => ⟨p, List.mem_cons_of_mem q hp, hc⟩

/-- A character of a piece is one of the text. -/
theorem mem_of_mem_pieces {s : Char} {cs : List Char} (hp : p ∈ pieces s cs) (hc : c ∈ p) :
    c ∈ cs := by
  rw [← join_pieces s cs]
  exact mem_join_of_mem hp hc

end Text

namespace Path

open Text (join_pieces join_splitOn mem_join_of_mem mem_of_mem_join mem_of_mem_pieces pieces
  pieces_join pieces_ne_nil sep_not_mem_pieces splitOn splitOn_ne_nil splitOn_singleton)

variable {separator path : String} {c : Char}

/-! ## One pass -/

/-- Writing a path with a separator joins its pieces with it, also where the separator is `/`. -/
theorem toList_withSeparator (separator path : String) :
    (withSeparator separator path).toList =
      Text.join separator.toList (pieces '/' path.toList) := by
  unfold withSeparator
  split
  · next h =>
    subst h
    exact (join_pieces '/' path.toList).symm
  · rw [String.toList_ofList]
    exact congrArg _ (splitOn_singleton '/' path.toList)

theorem toList_withSlashes (hne : separator ≠ "") (path : String) :
    (withSlashes separator path).toList =
      Text.join ['/'] (splitOn separator.toList path.toList) := by
  unfold withSlashes
  split
  · next h =>
    subst h
    exact (join_splitOn (List.cons_ne_nil '/' []) path.toList).symm
  · exact String.toList_ofList

/-- A character of a path that is written with slashes is a slash or was there before. -/
theorem mem_of_mem_withSlashes {d : Char}
    (h : d ∈ (withSlashes (String.singleton c) path).toList) : d = '/' ∨ d ∈ path.toList := by
  rw [toList_withSlashes (by simp), String.toList_singleton, splitOn_singleton] at h
  rcases mem_of_mem_join h with hslash | ⟨p, hp, hd⟩
  · exact .inl (List.mem_singleton.mp hslash)
  · exact .inr (mem_of_mem_pieces hp hd)

/-! ## Two passes -/

/-- A path comes back from a separator of one character exactly if it did not hold that character
before, or that is the slash. -/
theorem withSlashes_withSeparator_iff (c : Char) (path : String) :
    withSlashes (String.singleton c) (withSeparator (String.singleton c) path) = path ↔
      c = '/' ∨ c ∉ path.toList := by
  rw [← String.toList_inj, toList_withSlashes (by simp), toList_withSeparator,
    String.toList_singleton, splitOn_singleton]
  constructor
  · intro h
    refine or_iff_not_imp_right.mpr fun hpath => ?_
    -- no piece holds the character, so it is one that was put between them
    rw [← h, not_not] at hpath
    rcases mem_of_mem_join hpath with hslash | ⟨p, hp, hc⟩
    · exact List.mem_singleton.mp hslash
    · exact absurd hc (sep_not_mem_pieces c _ p hp)
  · intro h
    rw [pieces_join (pieces_ne_nil '/' _), join_pieces]
    rcases h with rfl | h
    · exact sep_not_mem_pieces '/' path.toList
    · exact fun p hp hc => h (mem_of_mem_pieces hp hc)

/-- A platform's path without slashes of its own comes back from slashes. -/
theorem withSeparator_withSlashes (hne : separator ≠ "")
    (h : separator = "/" ∨ '/' ∉ path.toList) :
    withSeparator separator (withSlashes separator path) = path := by
  have hnil : separator.toList ≠ [] := mt String.toList_eq_nil_iff.mp hne
  have hpieces : ∀ p ∈ splitOn separator.toList path.toList, '/' ∉ p := by
    rcases h with rfl | h
    · exact splitOn_singleton '/' path.toList ▸ sep_not_mem_pieces '/' path.toList
    · intro p hp hslash
      have hjoin : '/' ∈ Text.join separator.toList (splitOn separator.toList path.toList) :=
        mem_join_of_mem hp hslash
      rw [join_splitOn hnil] at hjoin
      exact h hjoin
  rw [← String.toList_inj, toList_withSeparator, toList_withSlashes hne,
    pieces_join (splitOn_ne_nil hnil _) hpieces, join_splitOn hnil]

end Path

namespace Report

open PathSieve.Path (mem_of_mem_withSlashes toList_withSeparator toList_withSlashes withSeparator
  withSeparator_withSlashes withSlashes withSlashes_withSeparator_iff)
open Text (mem_of_mem_join mem_of_mem_pieces pieces pieces_of_not_mem sep_not_mem_pieces splitOn
  splitOn_singleton)

/-! ## Printed paths -/

/-- The character that closes each path. -/
def Format.closing (f : Format) : Char := if f.null then '\x00' else '\n'

theorem Format.toList_terminator (f : Format) : f.terminator.toList = [f.closing] := by
  unfold terminator closing
  split <;> rfl

theorem Format.closing_ne_slash (f : Format) : f.closing ≠ '/' := by
  unfold closing
  split <;> decide

/-- Cut at what closes each path, native output is the pieces of its paths, with an empty text
behind them. -/
theorem splitOn_paths {f : Format} (hnative : f.native = true) (separator : String)
    (selected : List String) :
    splitOn f.terminator.toList (paths f separator selected).toList =
      selected.flatMap (fun path => pieces f.closing (withSeparator separator path).toList) ++
        [[]] := by
  have hprinted : (paths f separator selected).toList =
      (selected.map fun path => (withSeparator separator path).toList).flatMap
        (· ++ [f.closing]) := by
    rw [paths, String.toList_join, List.flatMap_map, List.flatMap_map]
    refine List.flatMap_congr fun path _ => ?_
    rw [if_pos hnative, String.toList_append, f.toList_terminator]
  rw [f.toList_terminator, Text.splitOn_singleton, hprinted, Text.pieces_flatMap_closed,
    List.flatMap_map]

/-- Output that is cut at what closes each path, with slashes for the separator. -/
def readBack (f : Format) (separator output : String) : List String :=
  (splitOn f.terminator.toList output.toList).map fun cs =>
    withSlashes separator (String.ofList cs)

variable {f : Format} {c : Char} {selected : List String}

/-- What is read back is cut at what closes a path, so no path that is read holds it. -/
theorem closing_not_mem_of_mem_readBack {output path : String}
    (h : path ∈ readBack f (String.singleton c) output) : f.closing ∉ path.toList := by
  obtain ⟨cs, hcs, rfl⟩ := List.mem_map.mp h
  rw [f.toList_terminator, splitOn_singleton] at hcs
  intro hclosing
  rcases mem_of_mem_withSlashes hclosing with hslash | hmem
  · exact f.closing_ne_slash hslash
  · rw [String.toList_ofList] at hmem
    exact sep_not_mem_pieces f.closing _ cs hcs hmem

/-- Paths that hold nothing that closes a path are read back one by one. -/
theorem readBack_paths (hnative : f.native = true) (hc : c ≠ f.closing)
    (h : ∀ path ∈ selected, f.closing ∉ path.toList) :
    readBack f (String.singleton c) (paths f (String.singleton c) selected) =
      selected.map (fun path =>
        withSlashes (String.singleton c) (withSeparator (String.singleton c) path)) ++ [""] := by
  have hone : ∀ path ∈ selected,
      pieces f.closing (withSeparator (String.singleton c) path).toList =
        [(withSeparator (String.singleton c) path).toList] := by
    intro path hpath
    refine pieces_of_not_mem fun hmem => ?_
    rw [toList_withSeparator, String.toList_singleton] at hmem
    rcases mem_of_mem_join hmem with heq | ⟨p, hp, hmem⟩
    · exact hc (List.mem_singleton.mp heq).symm
    · exact h path hpath (mem_of_mem_pieces hp hmem)
  have hempty : withSlashes (String.singleton c) (String.ofList []) = "" := by
    rw [← String.toList_inj, toList_withSlashes (by simp), String.toList_singleton,
      splitOn_singleton]
    rfl
  rw [readBack, splitOn_paths hnative, List.flatMap_congr hone, List.map_append, List.map_flatMap]
  simp only [List.map_cons, List.map_nil, String.ofList_toList, hempty]
  rw [List.map_eq_flatMap]

/-- Paths are read back as they were printed exactly if none of them holds what closes a path, or
the separator. -/
theorem readBack_paths_iff (hnative : f.native = true) (hc : c ≠ f.closing) :
    readBack f (String.singleton c) (paths f (String.singleton c) selected) = selected ++ [""] ↔
      ∀ path ∈ selected, f.closing ∉ path.toList ∧ (c = '/' ∨ c ∉ path.toList) := by
  constructor
  · intro h path hpath
    have hclosing : ∀ path ∈ selected, f.closing ∉ path.toList := fun path hpath =>
      closing_not_mem_of_mem_readBack (h ▸ List.mem_append_left [""] hpath)
    rw [readBack_paths hnative hc hclosing, List.append_left_inj] at h
    have hsame := List.map_inj_left.mp (h.trans (List.map_id selected).symm) path hpath
    exact ⟨hclosing path hpath, (withSlashes_withSeparator_iff c path).mp hsame⟩
  · intro h
    rw [readBack_paths hnative hc fun path hpath => (h path hpath).1]
    have hsame : ∀ path ∈ selected, withSlashes (String.singleton c)
        (withSeparator (String.singleton c) path) = path :=
      fun path hpath => (withSlashes_withSeparator_iff c path).mpr (h path hpath).2
    rw [List.map_congr_left hsame, List.map_id']

/-- **Separators.** Conversion loses nothing: a path comes back from a separator of one character
exactly if it did not hold it before or that is the slash; a platform's path without slashes comes
back from slashes, whatever the separator; and so native output gives its paths back exactly if
none of them holds what closes a path, or the separator. -/
theorem conversions_inverse :
    (∀ (c : Char) (path : String),
      withSlashes (String.singleton c) (withSeparator (String.singleton c) path) = path ↔
        c = '/' ∨ c ∉ path.toList) ∧
    (∀ separator path : String, separator ≠ "" → (separator = "/" ∨ '/' ∉ path.toList) →
      withSeparator separator (withSlashes separator path) = path) ∧
    ∀ (f : Format) (c : Char) (selected : List String), f.native = true → c ≠ f.closing →
      (readBack f (String.singleton c) (paths f (String.singleton c) selected) = selected ++ [""] ↔
        ∀ path ∈ selected, f.closing ∉ path.toList ∧ (c = '/' ∨ c ∉ path.toList)) :=
  ⟨withSlashes_withSeparator_iff, fun _ _ => withSeparator_withSlashes,
    fun _ _ _ => readBack_paths_iff⟩

/-- A separator that overlaps itself, and paths with slashes at either end and side by side. -/
theorem conversions_inverse_overlapping :
    withSlashes "aba" "abababa" = "/b/" ∧ withSeparator "aba" "/b/" = "abababa" ∧
      paths ⟨true, true⟩ "\\" ["/a//b\n", "", "c/"] = "\\a\\\\b\n\x00\x00c\\\x00" ∧
      readBack ⟨true, true⟩ "\\" "\\a\\\\b\n\x00\x00c\\\x00" = ["/a//b\n", "", "c/", ""] := by
  obtain ⟨-, hback, hread⟩ := conversions_inverse
  have hslashes : withSlashes "aba" "abababa" = "/b/" := by decide
  have hprinted : paths ⟨true, true⟩ "\\" ["/a//b\n", "", "c/"] =
      "\\a\\\\b\n\x00\x00c\\\x00" := by decide
  have hall := (hread ⟨true, true⟩ '\\' ["/a//b\n", "", "c/"] rfl (by decide)).mpr (by decide)
  exact ⟨hslashes, hslashes ▸ hback "aba" "abababa" (by decide) (.inr (by decide)), hprinted,
    hprinted ▸ hall⟩

end Report

end PathSieve

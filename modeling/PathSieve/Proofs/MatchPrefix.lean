import PathSieve.Proofs.Literal
import PathSieve.Proofs.Reading

/-!
# What the base of a pattern says of its matches

The base of a pattern is spelled by literal segments, and these begin the parts of every path that
the pattern matches. So a match is the base itself, or the base with a slash and more behind it; and
if the pattern has no wildcard at all, what stands behind the slash is one file name
(`path_under_ofPattern`). Two bases say less. A match of `./x` begins with its base `.`, but a match
of `x` does not begin with the same base; and all that `/` says of a match is that it is absolute.

A pattern is cut into segments without the slashes at its end. What is left is a beginning of it, so
it is absolute if the pattern is; and it ends in a slash only if it is nothing else, so the file name
of a pattern without wildcards is not empty.
-/

namespace PathSieve

open Glob
open PathSieve.Path (isAbsolute)
open Text (head?_pieces pieces pieces_append_sep pieces_inj pieces_ne_nil pieces_of_not_mem
  sep_not_mem_pieces)

/-- A text whose last slashes were taken off ends in a slash only if it is `/`. -/
theorem Glob.trimSlashes_eq_of_getLast? {cs : List Char}
    (h : (trimSlashes cs).getLast? = some '/') : trimSlashes cs = ['/'] := by
  simp only [trimSlashes] at h ⊢
  split
  · rfl
  · next hkept =>
    rw [if_neg hkept] at h
    have hslash : (cs.rdropWhile (· == '/')).getLast? = some '/' := h
    have hne : cs.rdropWhile (· == '/') ≠ [] := by
      intro hnil
      rw [hnil] at hslash
      cases hslash
    have hnot := List.rdropWhile_last_not (· == '/') cs hne
    rw [List.getLast?_eq_some_getLast hne, Option.some.injEq] at hslash
    rw [hslash] at hnot
    exact absurd rfl hnot

namespace Base

variable {pattern path : String}

/-! ## Bases of patterns -/

/-- The literal segments start at the root exactly if the pattern does. -/
theorem head?_literalSegments_iff :
    (literalSegments pattern).head? = some [] ↔ isAbsolute pattern.toList = true := by
  refine ⟨fun h => ?_, head?_literalSegments⟩
  obtain ⟨more, hmore⟩ := literalSegments_isPrefix pattern
  have htexts : (segmentTexts pattern).head? = some [] :=
    hmore ▸ List.mem_head?_append_of_mem_head? h
  rcases (head?_pieces _).mp htexts with hempty | hslash
  · -- the empty pattern has one segment, which is no directory
    have hnil : literalSegments pattern = [] := by
      simp only [literalSegments, segmentTexts, hempty]
      rfl
    rw [hnil] at h
    cases h
  · have hfront := trimSlashes_isPrefix pattern.toList
    obtain ⟨cs, hcs⟩ := List.head?_eq_some_iff.mp hslash
    rw [hcs] at hfront
    obtain ⟨rest, hrest⟩ := hfront
    rw [← hrest]
    rfl

/-- A base is absolute exactly if its pattern is. -/
theorem isAbsolute_ofPattern (pattern : String) :
    isAbsolute (ofPattern pattern).toList = isAbsolute pattern.toList := by
  have hslash : ∀ p ∈ literalSegments pattern, '/' ∉ p := fun p hp =>
    slash_not_mem_literalSegments hp
  rw [Bool.eq_iff_iff, isAbsolute_iff (ofPattern_ne_empty pattern), ofPattern_eq_ofParts,
    (clean_append_parts_ofParts hslash []).2, head?_literalSegments_iff]

/-- A base other than `.` and `/` is cut into the literal segments of its pattern. -/
theorem pieces_ofPattern (hdot : ofPattern pattern ≠ ".") (hslash : ofPattern pattern ≠ "/") :
    pieces '/' (ofPattern pattern).toList = literalSegments pattern := by
  rw [← parts_of_ne hdot hslash, ofPattern_eq_ofParts]
  refine parts_ofParts (fun p hp => slash_not_mem_literalSegments hp) ?_ ?_
  · intro heq
    exact hdot (by rw [ofPattern_eq_ofParts, heq]; rfl)
  · intro heq
    exact hslash (by rw [ofPattern_eq_ofParts, heq]; rfl)

/-- The segments of a pattern without wildcards are the parts of all it matches. -/
theorem parts_eq_segmentTexts (h : accepts? pattern path = .ok true)
    (hliteral : ∀ text ∈ segmentTexts pattern, WildcardFree text) :
    Pattern.parts path = segmentTexts pattern ∧
      literalSegments pattern = (segmentTexts pattern).dropLast := by
  have hall : (segmentTexts pattern).all (!Segment.isWild ·) = true := by
    rw [List.all_eq_true]
    intro text htext
    rw [isWild_eq_false_iff.mpr (hliteral text htext)]
    rfl
  obtain ⟨segments, hread, hfits⟩ := exists_fits_of_accepts h
  refine ⟨((literal_of_fits hread hfits).2 hall).symm, ?_⟩
  simp only [literalSegments, hall, if_true]

/-! ## Matches -/

/-- A match is the base itself, or goes on behind it. -/
theorem eq_or_exists_of_accepts (h : accepts? pattern path = .ok true)
    (hdot : ofPattern pattern ≠ ".") (hslash : ofPattern pattern ≠ "/") :
    path = ofPattern pattern ∨ ∃ rest, path = ofPattern pattern ++ "/" ++ rest := by
  obtain ⟨more, hmore⟩ := literalSegments_isPrefix_of_accepts h
  rw [← pieces_ofPattern hdot hslash] at hmore
  by_cases hnil : more = []
  · rw [hnil, List.append_nil] at hmore
    exact .inl (String.toList_inj.mp (pieces_inj hmore.symm))
  · obtain ⟨cs, hcs⟩ := Text.append_sep_prefix_iff.mpr ⟨more, hnil, hmore.symm⟩
    refine .inr ⟨String.ofList cs, String.toList_inj.mp ?_⟩
    rw [← hcs]
    simp

/-- A match of an absolute pattern is absolute, unless it is empty. -/
theorem isAbsolute_of_accepts (h : accepts? pattern path = .ok true) (hpath : path ≠ "")
    (hpattern : isAbsolute pattern.toList = true) : isAbsolute path.toList = true := by
  obtain ⟨rest, hrest⟩ := literalSegments_isPrefix_of_accepts h
  have hfirst : (Pattern.parts path).head? = some [] :=
    hrest ▸ List.mem_head?_append_of_mem_head? (head?_literalSegments_iff.mpr hpattern)
  rcases (head?_pieces _).mp hfirst with hempty | hslash
  · exact absurd (String.toList_eq_nil_iff.mp hempty) hpath
  · exact beq_iff_eq.mpr hslash

/-- A segment that alone stands behind the base is not empty, or the pattern would still end in a
slash. -/
theorem ne_nil_of_pieces_append {last : List Char}
    (h : pieces '/' (ofPattern pattern).toList ++ [last] = segmentTexts pattern) : last ≠ [] := by
  rintro rfl
  have hpieces : pieces '/' (trimSlashes pattern.toList) =
      pieces '/' ((ofPattern pattern).toList ++ ['/']) := by
    rw [pieces_append_sep]
    exact h.symm
  have hcut := pieces_inj hpieces
  have hclosed : (trimSlashes pattern.toList).getLast? = some '/' := by
    rw [hcut, List.getLast?_concat]
  have hroot := trimSlashes_eq_of_getLast? hclosed
  rw [hcut] at hroot
  have hnil : (ofPattern pattern).toList = [] := List.append_cancel_right hroot
  exact ofPattern_ne_empty pattern (String.toList_eq_nil_iff.mp hnil)

/-- A match of a pattern without wildcards goes on by one file name. -/
theorem exists_last_of_accepts (h : accepts? pattern path = .ok true)
    (hdot : ofPattern pattern ≠ ".") (hslash : ofPattern pattern ≠ "/")
    (hliteral : ∀ text ∈ segmentTexts pattern, WildcardFree text) :
    ∃ last, last ≠ "" ∧ '/' ∉ last.toList ∧ path = ofPattern pattern ++ "/" ++ last := by
  obtain ⟨hparts, hfront⟩ := parts_eq_segmentTexts h hliteral
  have hne : segmentTexts pattern ≠ [] := pieces_ne_nil _ _
  have htexts : pieces '/' (ofPattern pattern).toList ++ [(segmentTexts pattern).getLast hne] =
      segmentTexts pattern := by
    rw [pieces_ofPattern hdot hslash, hfront]
    exact List.dropLast_concat_getLast hne
  have hmem := List.getLast_mem hne
  generalize (segmentTexts pattern).getLast hne = last at htexts hmem
  have hlast : '/' ∉ last := sep_not_mem_pieces '/' _ last hmem
  refine ⟨String.ofList last, ?_, by rwa [String.toList_ofList], ?_⟩
  · intro hempty
    refine ne_nil_of_pieces_append htexts ?_
    rw [← String.toList_ofList (l := last), hempty]
    rfl
  · have hpath : pieces '/' path.toList = pieces '/' (ofPattern pattern).toList ++ [last] :=
      hparts.trans htexts.symm
    rw [← pieces_of_not_mem hlast, ← pieces_append_sep] at hpath
    apply String.toList_inj.mp
    rw [pieces_inj hpath]
    simp

/-- **Matches lie under the base.** The base of any text is not empty, and absolute exactly if the
text is. If the text is a pattern and matches a path, the base `/` means that the path is absolute,
and any base but that and `.` means that the path is the base or goes on behind it with a slash: by
one file name, if the pattern has no wildcards. -/
theorem path_under_ofPattern (pattern : String) :
    ofPattern pattern ≠ "" ∧
      (isAbsolute (ofPattern pattern).toList = true ↔ isAbsolute pattern.toList = true) ∧
      ∀ path, path ≠ "" → accepts? pattern path = .ok true →
        (ofPattern pattern = "/" → isAbsolute path.toList = true) ∧
        (ofPattern pattern ≠ "." → ofPattern pattern ≠ "/" →
          (path = ofPattern pattern ∨ ∃ rest, path = ofPattern pattern ++ "/" ++ rest) ∧
          ((∀ text ∈ segmentTexts pattern, WildcardFree text) →
            ∃ last, last ≠ "" ∧ '/' ∉ last.toList ∧ path = ofPattern pattern ++ "/" ++ last)) := by
  have habs := isAbsolute_ofPattern pattern
  refine ⟨ofPattern_ne_empty pattern, by rw [habs], ?_⟩
  intro path hpath h
  constructor
  · intro hbase
    refine isAbsolute_of_accepts h hpath ?_
    rw [← habs, hbase]
    rfl
  · intro hdot hslash
    exact ⟨eq_or_exists_of_accepts h hdot hslash, exists_last_of_accepts h hdot hslash⟩

/-- A pattern with empty and dot segments and slashes at its end, and one with a double star that
takes no part. -/
theorem path_under_ofPattern_slashes :
    (accepts? ".//./x//" ".//./x" = .ok true ∧ ".//./x" ≠ "" ∧
      (∀ text ∈ segmentTexts ".//./x//", WildcardFree text) ∧
      ofPattern ".//./x//" = ".//." ∧
      ∃ last, last ≠ "" ∧ '/' ∉ last.toList ∧ ".//./x" = ".//." ++ "/" ++ last) ∧
    accepts? "/a/**" "/a" = .ok true ∧ ofPattern "/a/**" = "/a" ∧
      ("/a" = "/a" ∨ ∃ rest, "/a" = "/a" ++ "/" ++ rest) := by
  have hmatch : accepts? ".//./x//" ".//./x" = .ok true := by decide
  have hplain : ∀ text ∈ segmentTexts ".//./x//", Segment.isWild text = false := by decide
  have hfree : ∀ text ∈ segmentTexts ".//./x//", WildcardFree text :=
    fun text htext => isWild_eq_false_iff.mp (hplain text htext)
  have hnone : accepts? "/a/**" "/a" = .ok true := by decide
  have hliteral := (((path_under_ofPattern ".//./x//").2.2 ".//./x" (by decide) hmatch).2
    (by decide) (by decide)).2 hfree
  have hstar := (((path_under_ofPattern "/a/**").2.2 "/a" (by decide) hnone).2
    (by decide) (by decide)).1
  exact ⟨⟨hmatch, by decide, hfree, by decide, hliteral⟩, hnone, by decide, hstar⟩

end Base

end PathSieve

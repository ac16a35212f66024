import PathSieve.Proofs.Climbing
import PathSieve.Proofs.Enumeration
import PathSieve.Proofs.Escaping
import PathSieve.Proofs.NoDuplicates

/-!
# Literal patterns

A pattern without wildcards names one file. Its base is the directory part of its own text, and a
walk puts names behind that text, so it comes up with the pattern itself exactly if the base keeps
the spelling. All bases do but two: the directory parts `.` and `/` of `./x` and `//x` are spelled
like the base of `x` and of `/x`, and a walk from these never names a file `./x` or `//x`
(`find_literal`). Dot segments and empty segments anywhere else do no harm, since a walk lists the
directory that they lead to, but names its files behind the text that leads there.
-/

namespace PathSieve

open Glob
open PathSieve.Path (clean clean_append_dot clean_append_nil clean_append_plain dot isAbsolute
  isPlain_chars placeOf)
open Text (head?_pieces pieces pieces_append_sep pieces_inj sep_not_mem_pieces)

namespace Glob

/-! ## What a literal pattern matches -/

variable {pattern : String} {front : List (List Char)} {last : List Char}

/-- A pattern whose last piece is not empty is cut as it stands. -/
theorem segmentTexts_eq_pieces (hlast : last ≠ [])
    (h : pieces '/' pattern.toList = front ++ [last]) : segmentTexts pattern = front ++ [last] := by
  rw [segmentTexts, trimSlashes_eq_self, h]
  intro hslash
  obtain ⟨cs, hcs⟩ := List.getLast?_eq_some_iff.mp hslash
  rw [hcs, pieces_append_sep] at h
  exact hlast (List.singleton_inj.mp (List.append_inj' h rfl).2).symm

/-- A pattern without wildcards that does not end in a slash can be read, and matches itself
alone. -/
theorem ofText_literal (hlast : last ≠ []) (h : pieces '/' pattern.toList = front ++ [last])
    (hliteral : ∀ p ∈ front ++ [last], Segment.isWild p = false) :
    ∃ p, Pattern.ofText pattern = .ok p ∧ ∀ path, p.accepts path = decide (path = pattern) := by
  -- such a pattern is its own text, escaped where nothing needs to be
  refine exists_ofText_of_parts ?_
  rw [segmentTexts_eq_pieces hlast h, Pattern.parts, h, List.forall₂_same]
  intro p hp
  exact escaped_of_wildcardFree (isWild_eq_false_iff.mp (hliteral p hp))

end Glob

namespace Base

variable {pattern : String} {front : List (List Char)} {last : List Char}

/-! ## The base of a literal pattern -/

/-- The base of a pattern without wildcards is made of all its pieces but the last. -/
theorem ofPattern_literal (hlast : last ≠ []) (h : pieces '/' pattern.toList = front ++ [last])
    (hliteral : ∀ p ∈ front ++ [last], Segment.isWild p = false) :
    ofPattern pattern = ofParts front := by
  have hall : (front ++ [last]).all (!Segment.isWild ·) = true := by
    rw [List.all_eq_true]
    intro p hp
    rw [hliteral p hp]
    rfl
  simp only [ofPattern_eq_ofParts, literalSegments, segmentTexts_eq_pieces hlast h, hall, if_true,
    List.dropLast_concat]

/-- The base that is made of parts leads where the parts lead, and starts at the root if they do. -/
theorem clean_append_parts_ofParts (hfront : ∀ p ∈ front, '/' ∉ p) (before : List (List Char)) :
    clean true (before ++ parts (ofParts front)) = clean true (before ++ front) ∧
      ((parts (ofParts front)).head? = some [] ↔ front.head? = some []) := by
  by_cases hdot : front = [dot]
  · subst hdot
    have hbase : ofParts [dot] = "." := rfl
    rw [hbase, parts_dot, List.append_nil, clean_append_dot]
    exact ⟨rfl, by decide⟩
  · by_cases hslash : front = [[], []]
    · subst hslash
      have hbase : ofParts [[], []] = "/" := rfl
      have htwo : before ++ [[], []] = before ++ [[]] ++ [[]] := by simp
      rw [hbase, parts_slash, htwo, clean_append_nil true (before ++ [[]])]
      exact ⟨rfl, by decide⟩
    · rw [parts_ofParts hfront hdot hslash]
      exact ⟨rfl, Iff.rfl⟩

end Base

namespace Walk

variable {t : Tree} {root pattern : String} {front : List (List Char)} {last : Name}

/-! ## Where a literal pattern leads -/

theorem ne_empty_of_pieces (h : pieces '/' pattern.toList = front ++ [last.chars]) :
    pattern ≠ "" := (ne_of_pieces_concat h).1

/-- A path that ends in a name is absolute if the base of its other pieces is. -/
theorem isAbsolute_literal (h : pieces '/' pattern.toList = front ++ [last.chars])
    (hfront : ∀ p ∈ front, '/' ∉ p) :
    isAbsolute pattern.toList = isAbsolute (Base.ofParts front).toList := by
  have hnil : pattern.toList ≠ [] := mt String.toList_eq_nil_iff.mp (ne_empty_of_pieces h)
  have hhead : isAbsolute pattern.toList = true ↔ (pieces '/' pattern.toList).head? = some [] := by
    simp [head?_pieces, isAbsolute, hnil]
  rw [Bool.eq_iff_iff, Base.isAbsolute_iff (Base.ofParts_ne_empty front), hhead, h,
    (Base.clean_append_parts_ofParts hfront []).2]
  cases front with
  | nil => simp [(isPlain_chars last).1]
  | cons p ps => rfl

/-- What a path that ends in a name leads to lies right in the directory of that base. -/
theorem placeOf_startOf_literal (hroot : isAbsolute root.toList = true)
    (h : pieces '/' pattern.toList = front ++ [last.chars]) :
    placeOf (startOf root pattern) =
      placeOf (startOf root (Base.ofParts front)) ++ [last.chars] := by
  have hlast : ∀ p ∈ [last.chars], Path.IsPlain p := by
    simpa using isPlain_chars last
  have hfront : ∀ p ∈ front, '/' ∉ p := fun p hp =>
    sep_not_mem_pieces '/' pattern.toList p (h ▸ List.mem_append_left _ hp)
  have habs := isAbsolute_literal h hfront
  have hbase := Base.ofParts_ne_empty front
  rw [(placeOf_startOf hroot (ne_empty_of_pieces h)).2, placeOf_startOf_base hroot hbase, habs,
    (Base.clean_append_parts_ofParts hfront _).1, h]
  split
  · exact clean_append_plain true front hlast
  · rw [← List.append_assoc]
    exact clean_append_plain true _ hlast

/-- The base that is made of the other pieces has the path under it, unless it loses the spelling of
these pieces. -/
theorem isUnder_literal_iff (h : pieces '/' pattern.toList = front ++ [last.chars]) :
    IsUnder (Base.ofParts front) pattern ↔ front ≠ [dot] ∧ front ≠ [[], []] := by
  have hbase := Base.ofParts_ne_empty front
  rw [isUnder_iff hbase, h]
  constructor
  · rintro ⟨names, -, hnames⟩
    -- what the base has lost would have to be a name
    constructor
    · rintro rfl
      have hmem : dot ∈ names.map Name.chars := by
        have hparts : Base.parts (Base.ofParts [dot]) = [] := rfl
        rw [hparts, List.nil_append] at hnames
        exact hnames ▸ List.mem_cons_self
      exact not_mem_map_chars.2 hmem
    · rintro rfl
      have hmem : [] ∈ names.map Name.chars := by
        have hparts : Base.parts (Base.ofParts [[], []]) = [[]] := rfl
        rw [hparts] at hnames
        have hrest : [[]] ++ [last.chars] = names.map Name.chars := (List.cons.inj hnames).2
        exact hrest ▸ List.mem_cons_self
      exact not_mem_map_chars.1 hmem
  · rintro ⟨hdot, hslash⟩
    have hfront : ∀ p ∈ front, '/' ∉ p := fun p hp =>
      sep_not_mem_pieces '/' pattern.toList p (h ▸ List.mem_append_left _ hp)
    exact ⟨[last], List.cons_ne_nil _ _, by rw [Base.parts_ofParts hfront hdot hslash]; rfl⟩

/-! ## A search for a literal pattern -/

/-- A single pattern that can be read has a single base. -/
theorem basesOf_singleton {p : Pattern} (h : Pattern.ofText pattern = .ok p) :
    basesOf [pattern] = [Base.ofPattern pattern] := by
  rw [basesOf, sources_ofList, List.filter_cons_of_pos (by rw [h]; rfl)]
  rfl

theorem matched_singleton_iff {p : Pattern} (h : Pattern.ofText pattern = .ok p) (path : String) :
    Matched [pattern] path ↔ p.accepts path = true := by
  simp [Matched, accepts?, h, Except.map]

theorem not_matched_nil (path : String) : ¬ Matched [] path := by
  rintro ⟨p, hp, -⟩
  cases hp

/-- A search for a pattern over a tree that has a directory where the base leads ends well. -/
theorem exists_gives_find_singleton (hdistinct : t.Distinct) (hroot : isAbsolute root.toList = true)
    {depth : Nat} (hdepth : t.height ≤ depth) {p : Pattern} (h : Pattern.ofText pattern = .ok p)
    {d : Tree} (hd : t.directoryAt? (placeOf (startOf root (Base.ofPattern pattern))) = some d)
    (hdirectory : d.isDirectory = true) :
    ∃ paths, Gives t.listing (find depth root [pattern] []) ⟨paths, []⟩ := by
  have hbases : ∀ base ∈ walkedBases [pattern] [], base = Base.ofPattern pattern := by
    intro base hbase
    have hmem := (mem_walkedBases_iff.mp hbase).1
    rwa [basesOf_singleton h, List.mem_singleton] at hmem
  have herrors : (Sieve.ofLists [pattern] []).errors = [] := by
    rw [Sieve.errors, Sieve.ofLists, errors_ofList, errors_ofList]
    simp [h]
  have habs := (placeOf_startOf hroot (Base.ofPattern_ne_empty pattern)).1
  have hrun := find_eq_enumeration (fun _ => d)
    (fun base hbase => by
      rw [hbases base hbase]
      exact Tree.holds_listing (hdistinct.directoryAt? hd) habs hd hdirectory)
    (fun _ _ => (Tree.height_le_of_directoryAt? hd).trans hdepth)
  rw [herrors] at hrun
  exact ⟨_, hrun⟩

/-- A search for a pattern that matches nothing but itself, and names a file, finds it if it lies
under its base, and nothing else. -/
theorem mem_find_literal_iff (hroot : isAbsolute root.toList = true) {depth : Nat}
    {found : Selection} (h : Gives t.listing (find depth root [pattern] []) found) {p : Pattern}
    (hread : Pattern.ofText pattern = .ok p)
    (haccepts : ∀ path, p.accepts path = decide (path = pattern))
    (hfile : t.HasFile (placeOf (startOf root pattern))) (c : String) :
    c ∈ found.paths ↔ c = pattern ∧ IsUnder (Base.ofPattern pattern) pattern := by
  have hmatched : ∀ path, Matched [pattern] path ↔ path = pattern := by
    intro path
    rw [matched_singleton_iff hread, haccepts, decide_eq_true_iff]
  rw [mem_find_iff_ancestors (Tree.serves_listing t) hroot h, basesOf_singleton hread]
  constructor
  · rintro ⟨base, hbase, hunder, -, hselected, -⟩
    obtain rfl := List.mem_singleton.mp hbase
    obtain rfl := (hmatched c).mp hselected
    exact ⟨rfl, hunder⟩
  · rintro ⟨rfl, hunder⟩
    exact ⟨_, List.mem_singleton_self _, hunder, hfile, (hmatched c).mpr rfl, not_matched_nil c,
      fun dir hdir => absurd hdir (not_matched_nil dir)⟩

/-- **Literal patterns.** A pattern without wildcards that names a file finds that file under its
own text and nothing else, whatever dot segments and empty segments it has. Only `./name` and
`//name` find nothing. -/
theorem find_literal (hdistinct : t.Distinct) (hroot : isAbsolute root.toList = true) {depth : Nat}
    (hdepth : t.height ≤ depth) (hpieces : pieces '/' pattern.toList = front ++ [last.chars])
    (hliteral : ∀ p ∈ pieces '/' pattern.toList, Segment.isWild p = false)
    (hfile : t.HasFile (placeOf (startOf root pattern))) :
    ((find depth root [pattern] []).run t.listing).outcome =
      .ok ⟨if front = [dot] ∨ front = [[], []] then [] else [pattern], []⟩ := by
  have hlast := (isPlain_chars last).1
  rw [hpieces] at hliteral
  obtain ⟨p, hread, haccepts⟩ := ofText_literal hlast hpieces hliteral
  have hplace := placeOf_startOf_literal hroot hpieces
  have hunder := isUnder_literal_iff hpieces
  rw [← Base.ofPattern_literal hlast hpieces hliteral] at hplace hunder
  -- the directory that holds the file is the one of the base
  obtain ⟨d, hd, hdirectory⟩ := Tree.exists_directoryAt?_of_hasFile (hplace ▸ hfile)
  obtain ⟨paths, hgives⟩ := exists_gives_find_singleton hdistinct hroot hdepth hread hd hdirectory
  have hmem : ∀ c, c ∈ paths ↔ c = pattern ∧ front ≠ [dot] ∧ front ≠ [[], []] := by
    intro c
    rw [← hunder]
    exact mem_find_literal_iff hroot hgives hread haccepts hfile c
  have hpaths : paths = if front = [dot] ∨ front = [[], []] then [] else [pattern] := by
    split
    · next hlost =>
      refine List.eq_nil_iff_forall_not_mem.mpr fun c hc => ?_
      obtain ⟨-, hdot, hslash⟩ := (hmem c).mp hc
      exact hlost.elim hdot hslash
    · next hkept =>
      rw [not_or] at hkept
      have hnodup := nodup_paths (Tree.proper_listing t) (Tree.distinct_listing hdistinct) hgives
      refine List.perm_singleton.mp
        ((List.perm_ext_iff_of_nodup hnodup (List.nodup_singleton _)).mpr fun c => ?_)
      rw [hmem, List.mem_singleton]
      exact and_iff_left hkept
  rw [← hpaths]
  exact hgives

/-- A file reached through dot segments, an empty segment and the root's own name. -/
theorem find_literal_dots :
    ((find 4 "/r" [".//../r/./d/f"] []).run
        (Tree.single (Tree.namesOf ["r", "d", "f"])).listing).outcome =
      .ok ⟨[".//../r/./d/f"], []⟩ := by
  have hdistinct := Tree.distinct_single (Tree.namesOf ["r", "d", "f"])
  have hroot : isAbsolute "/r".toList = true := by decide
  have hfile : (Tree.single (Tree.namesOf ["r", "d", "f"])).HasFile
      (placeOf (startOf "/r" ".//../r/./d/f")) :=
    Tree.hasFile_single (by decide)
  have hpieces : pieces '/' ".//../r/./d/f".toList =
      [dot, [], Path.dotDot, ['r'], dot, ['d']] ++ [Name.chars ⟨"f", by decide⟩] := by decide
  exact find_literal hdistinct hroot (by decide) hpieces (by decide) hfile

/-- The file `x` of the root is not found as `./x`. -/
theorem not_find_literal :
    ¬ ∀ (t : Tree) (root pattern : String) (front : List (List Char)) (last : Name) (depth : Nat),
      t.Distinct → isAbsolute root.toList = true → Path.normalize root = root → t.height ≤ depth →
      pieces '/' pattern.toList = front ++ [last.chars] →
      (∀ p ∈ pieces '/' pattern.toList, Segment.isWild p = false) →
      t.HasFile (placeOf (startOf root pattern)) →
      ((find depth root [pattern] []).run t.listing).outcome = .ok ⟨[pattern], []⟩ := by
  intro h
  have hrun : ((find 3 "/r" ["./x"] []).run
      (Tree.single (Tree.namesOf ["r", "x"])).listing).outcome = .ok ⟨[], []⟩ := by rfl
  have hwanted := h (Tree.single (Tree.namesOf ["r", "x"])) "/r" "./x" [dot] ⟨"x", by decide⟩ 3
    (Tree.distinct_single _) (by decide) (by decide) (by decide) (by decide) (by decide)
    (Tree.hasFile_single (by decide))
  rw [hrun] at hwanted
  cases hwanted

end Walk

end PathSieve

import Mathlib.Data.List.DropRight
import Mathlib.Data.List.Infix
import PathSieve.Proofs.Found

/-!
# Nothing selected is left behind

A walk is pruned twice: it starts at the bases of the include patterns only, and it leaves out what
is excluded. Neither loses a file that is included by its path, with nothing on the way excluded.

The literal parts of a pattern begin the path of every file that it matches, so some base begins
that path too, whichever patterns the base was collected for (`exists_base_relative`,
`exists_base_absolute`). The base may even be the whole path: then it would be the place of a file,
and no search that ends well has listed one (`mem_find_of_base`).
-/

namespace PathSieve

open Glob
open PathSieve.Path (isAbsolute)
open Text (pieces pieces_inj pieces_join pieces_ne_nil)

namespace Base

/-! ## Bases of patterns that match files -/

/-- A pattern that matches a path without dot segments has a base that is spelled by its literal
parts. -/
theorem parts_ofPattern_of_accepts {pattern path : String} (h : accepts? pattern path = .ok true)
    (hdot : Path.dot ∉ Pattern.parts path) (hempty : [] ∉ (Pattern.parts path).tail) :
    parts (ofPattern pattern) = literalSegments pattern := by
  obtain ⟨rest, hparts⟩ := literalSegments_isPrefix_of_accepts h
  rw [ofPattern_eq_ofParts]
  refine parts_ofParts (fun p hp => slash_not_mem_literalSegments hp) ?_ ?_
  · intro heq
    rw [← hparts, heq] at hdot
    exact hdot List.mem_cons_self
  · intro heq
    rw [← hparts, heq] at hempty
    exact hempty List.mem_cons_self

/-- Taking slashes off the end of a text leaves a beginning of it. -/
theorem trimSlashes_isPrefix (cs : List Char) : trimSlashes cs <+: cs := by
  have hkept : (cs.reverse.dropWhile (· == '/')).reverse <+: cs := List.rdropWhile_prefix _ cs
  simp only [trimSlashes]
  split
  · next hempty =>
    -- the text has nothing but slashes, and the first of them is kept
    obtain ⟨hnil, hne⟩ := hempty
    have hall := List.rdropWhile_eq_nil_iff.mp (show cs.rdropWhile (· == '/') = [] from hnil)
    obtain ⟨c, cs, rfl⟩ := List.exists_cons_of_ne_nil hne
    have hc : c = '/' := by simpa using hall c List.mem_cons_self
    exact ⟨cs, by rw [hc]; rfl⟩
  · exact hkept

/-- It leaves an absolute text absolute. -/
theorem exists_trimSlashes (cs : List Char) : ∃ ds, trimSlashes ('/' :: cs) = '/' :: ds := by
  have hfront := trimSlashes_isPrefix ('/' :: cs)
  have hne : trimSlashes ('/' :: cs) ≠ [] := by
    simp only [trimSlashes]
    split
    · exact List.cons_ne_nil _ _
    · next hkept => exact fun hnil => hkept ⟨hnil, List.cons_ne_nil _ _⟩
  obtain ⟨d, ds, hds⟩ := List.exists_cons_of_ne_nil hne
  rw [hds] at hfront ⊢
  exact ⟨ds, by rw [(List.cons_prefix_cons.mp hfront).1]⟩

/-- The literal parts of an absolute pattern start at the root. -/
theorem head?_literalSegments {pattern : String} (h : isAbsolute pattern.toList = true) :
    (literalSegments pattern).head? = some [] := by
  obtain ⟨cs, hcs⟩ : ∃ cs, pattern.toList = '/' :: cs := by
    cases hp : pattern.toList with
    | nil => simp [hp, isAbsolute] at h
    | cons c cs =>
      rw [hp, isAbsolute, List.head?_cons, beq_iff_eq, Option.some.injEq] at h
      exact ⟨cs, by rw [h]⟩
  obtain ⟨ds, hds⟩ := exists_trimSlashes cs
  have htexts : segmentTexts pattern = [] :: pieces '/' ds := by
    rw [segmentTexts, hcs, hds, pieces, if_pos rfl]
  simp only [literalSegments, htexts]
  split
  · rw [List.dropLast_cons_of_ne_nil (pieces_ne_nil '/' ds), List.head?_cons]
  · rfl

end Base

namespace Walk

open PathSieve.Path (clean_append_dot isPlain_of_mem_map_chars placeOf slash_not_mem_map_chars)

variable {t : Tree} {listing : Listing} {depth : Nat} {root : String}
variable {includes excludes : List String} {found : Selection}

/-! ## Paths of files -/

/-- The path from the root to what the given names lead to. -/
def relativePath (names : List Name) : String :=
  String.ofList (Text.join ['/'] (names.map Name.chars))

/-- The absolute path to what the given names lead to. -/
def absolutePath (names : List Name) : String :=
  String.ofList ('/' :: Text.join ['/'] (names.map Name.chars))

theorem pieces_relativePath {names : List Name} (hne : names ≠ []) :
    pieces '/' (relativePath names).toList = names.map Name.chars := by
  rw [relativePath, String.toList_ofList,
    pieces_join (by simpa using hne) fun p hp => slash_not_mem_map_chars hp]

theorem pieces_absolutePath {names : List Name} (hne : names ≠ []) :
    pieces '/' (absolutePath names).toList = [] :: names.map Name.chars := by
  have hpieces := pieces_relativePath hne
  rw [relativePath, String.toList_ofList] at hpieces
  rw [absolutePath, String.toList_ofList, pieces, if_pos rfl, hpieces]

theorem relativePath_eq_under {names : List Name} (hne : names ≠ []) :
    relativePath names = under "." names :=
  eq_under_of_pieces (by decide) hne (pieces_relativePath hne)

theorem absolutePath_eq_under {names : List Name} (hne : names ≠ []) :
    absolutePath names = under "/" names :=
  eq_under_of_pieces (by decide) hne (pieces_absolutePath hne)

theorem placeOf_startOf_relativePath (hroot : isAbsolute root.toList = true) {names : List Name}
    (hne : names ≠ []) :
    placeOf (startOf root (relativePath names)) = placeOf root ++ names.map Name.chars := by
  have hdot : placeOf (startOf root ".") = placeOf root :=
    (placeOf_startOf hroot (by decide)).2.trans (clean_append_dot true _)
  rw [relativePath_eq_under hne, placeOf_startOf_under hroot (by decide) hne, hdot]

theorem placeOf_startOf_absolutePath (hroot : isAbsolute root.toList = true) {names : List Name}
    (hne : names ≠ []) :
    placeOf (startOf root (absolutePath names)) = names.map Name.chars := by
  have hslash : placeOf (startOf root "/") = [] := (placeOf_startOf hroot (by decide)).2
  rw [absolutePath_eq_under hne, placeOf_startOf_under hroot (by decide) hne, hslash,
    List.nil_append]

/-- The directories on a path from the root are those that some of its first names lead to. -/
theorem isAncestor_relativePath_iff {dir : String} {names : List Name} (hne : names ≠ []) :
    IsAncestor dir (relativePath names) ↔
      ∃ ms, ms ≠ [] ∧ ms ≠ names ∧ ms <+: names ∧ dir = relativePath ms := by
  have hnone : ¬ IsAncestor dir "." := by
    rintro ⟨hdir, -, h | ⟨-, habs⟩⟩
    · exact (ne_of_ancestor hdir h).1 rfl
    · exact absurd habs (by decide)
  rw [relativePath_eq_under hne, isAncestor_under_iff (by decide) hne]
  constructor
  · rintro (h | ⟨-, hdot⟩ | ⟨ms, hms, hmne, hfront, rfl⟩)
    · exact absurd h hnone
    · exact absurd rfl hdot
    · exact ⟨ms, hms, hmne, hfront, (relativePath_eq_under hms).symm⟩
  · rintro ⟨ms, hms, hmne, hfront, rfl⟩
    exact .inr (.inr ⟨ms, hms, hmne, hfront, relativePath_eq_under hms⟩)

/-- The directories on an absolute path are the root and those that some of its first names lead
to. -/
theorem isAncestor_absolutePath_iff {dir : String} {names : List Name} (hne : names ≠ []) :
    IsAncestor dir (absolutePath names) ↔
      dir = "/" ∨ ∃ ms, ms ≠ [] ∧ ms ≠ names ∧ ms <+: names ∧ dir = absolutePath ms := by
  have hnone : ¬ IsAncestor dir "/" := by
    rintro ⟨hdir, hslash, h | ⟨rfl, -⟩⟩
    · exact (ne_of_ancestor hdir h).2 rfl
    · exact hslash rfl
  rw [absolutePath_eq_under hne, isAncestor_under_iff (by decide) hne]
  constructor
  · rintro (h | ⟨rfl, -⟩ | ⟨ms, hms, hmne, hfront, rfl⟩)
    · exact absurd h hnone
    · exact .inl rfl
    · exact .inr ⟨ms, hms, hmne, hfront, (absolutePath_eq_under hms).symm⟩
  · rintro (rfl | ⟨ms, hms, hmne, hfront, rfl⟩)
    · exact .inr (.inl ⟨rfl, by decide⟩)
    · exact .inr (.inr ⟨ms, hms, hmne, hfront, absolutePath_eq_under hms⟩)

/-! ## A base for every file -/

theorem not_mem_map_chars {names : List Name} :
    [] ∉ names.map Name.chars ∧ Path.dot ∉ names.map Name.chars :=
  ⟨fun h => (isPlain_of_mem_map_chars h).1 rfl, fun h => (isPlain_of_mem_map_chars h).2.1 rfl⟩

/-- What begins with the parts of a base and ends in names is the base's parts and some names. -/
theorem exists_names_of_isPrefix {ps : List (List Char)} {names : List Name}
    (h : ps <+: names.map Name.chars) :
    ∃ rest : List Name, names.map Name.chars = ps ++ rest.map Name.chars := by
  obtain ⟨qs, hqs⟩ := h
  obtain ⟨-, rest, -, -, rfl⟩ := List.map_eq_append_iff.mp hqs.symm
  exact ⟨rest, hqs.symm⟩

/-- Some base begins a path that an include pattern matches, unless a segment of the path is a dot
or empty. -/
theorem exists_base_isPrefix {p path : String} (hp : p ∈ includes)
    (haccepts : accepts? p path = .ok true) (hdot : Path.dot ∉ Pattern.parts path)
    (hempty : [] ∉ (Pattern.parts path).tail) :
    ∃ base ∈ basesOf includes, Base.parts base <+: Pattern.parts path ∧
      (base = "." → Base.Stays (Base.literalSegments p)) := by
  obtain ⟨base, hbase, hcontains⟩ := exists_base_around hp haccepts
  obtain ⟨hfront, hstays⟩ := (Base.contains_iff (ne_empty_of_mem_basesOf hbase)
    (Base.ofPattern_ne_empty p)).mp hcontains
  rw [Base.parts_ofPattern_of_accepts haccepts hdot hempty] at hfront hstays
  exact ⟨base, hbase, hfront.trans (Base.literalSegments_isPrefix_of_accepts haccepts), hstays⟩

/-- Some base begins the path of every file from the root that is included. -/
theorem exists_base_relative {names : List Name} (hne : names ≠ [])
    (h : Matched includes (relativePath names)) :
    ∃ base ∈ basesOf includes, ∃ rest : List Name,
      pieces '/' (relativePath names).toList = Base.parts base ++ rest.map Name.chars := by
  obtain ⟨p, hp, haccepts⟩ := h
  have hpieces : Pattern.parts (relativePath names) = names.map Name.chars :=
    pieces_relativePath hne
  obtain ⟨base, hbase, hfront, -⟩ : ∃ base ∈ basesOf includes,
      Base.parts base <+: Pattern.parts (relativePath names) ∧ _ := by
    refine exists_base_isPrefix hp haccepts ?_ ?_
    · rw [hpieces]
      exact not_mem_map_chars.2
    · rw [hpieces]
      exact fun hmem => not_mem_map_chars.1 (List.mem_of_mem_tail hmem)
  rw [hpieces] at hfront
  obtain ⟨rest, hnames⟩ := exists_names_of_isPrefix hfront
  exact ⟨base, hbase, rest, hpieces.trans hnames⟩

/-- Some base begins the absolute path of every file that an absolute pattern includes. -/
theorem exists_base_absolute {names : List Name} (hne : names ≠ []) {p : String}
    (hp : p ∈ includes) (habs : isAbsolute p.toList = true)
    (haccepts : accepts? p (absolutePath names) = .ok true) :
    ∃ base ∈ basesOf includes, ∃ rest : List Name,
      pieces '/' (absolutePath names).toList = Base.parts base ++ rest.map Name.chars := by
  have hpieces : Pattern.parts (absolutePath names) = [] :: names.map Name.chars :=
    pieces_absolutePath hne
  obtain ⟨base, hbase, hfront, hstays⟩ : ∃ base ∈ basesOf includes,
      Base.parts base <+: Pattern.parts (absolutePath names) ∧
        (base = "." → Base.Stays (Base.literalSegments p)) := by
    refine exists_base_isPrefix hp haccepts ?_ ?_
    · rw [hpieces, List.mem_cons, not_or]
      exact ⟨by decide, not_mem_map_chars.2⟩
    · rw [hpieces]
      exact not_mem_map_chars.1
  rw [hpieces] at hfront
  cases hbaseparts : Base.parts base with
  | nil =>
    -- the base `.` does not lie around an absolute pattern
    have hdot := Base.parts_eq_nil_iff.mp hbaseparts
    exact absurd (Base.head?_literalSegments habs) (hstays hdot).1
  | cons q qs =>
    rw [hbaseparts] at hfront
    obtain ⟨rfl, hrest⟩ := List.cons_prefix_cons.mp hfront
    obtain ⟨rest, hnames⟩ := exists_names_of_isPrefix hrest
    refine ⟨base, hbase, rest, hpieces.trans ?_⟩
    rw [hnames, hbaseparts]
    rfl

/-! ## From a base to the file -/

/-- A search that ends well has listed every base that is not excluded. -/
theorem exists_directoryAt?_base (hs : t.Serves listing) (hroot : isAbsolute root.toList = true)
    (h : Gives listing (find depth root includes excludes) found) {base : String}
    (hbase : base ∈ basesOf includes) (hwalked : ¬ Matched excludes base) :
    ∃ d, t.directoryAt? (placeOf (startOf root base)) = some d := by
  obtain ⟨paths, hgather, -⟩ := gives_find.mp h
  obtain ⟨given, hgiven⟩ := (mem_of_gives_gather hgather).1 base hbase
  exact exists_directoryAt?_of_gives hs (placeOf_startOf hroot (ne_empty_of_mem_basesOf hbase)).1
    ((gives_fromBase_walked (.inr hwalked)).mp hgiven)

/-- A selected file whose path a base begins is found, if nothing on the way to it is excluded. -/
theorem mem_find_of_base (hdistinct : t.Distinct) (hs : t.Serves listing)
    (hroot : isAbsolute root.toList = true)
    (h : Gives listing (find depth root includes excludes) found) {base c : String}
    (hbase : base ∈ basesOf includes) (hc : c ≠ "") {rest : List Name}
    (hpieces : pieces '/' c.toList = Base.parts base ++ rest.map Name.chars)
    (hfile : t.HasFile (placeOf (startOf root c))) (hincluded : Matched includes c)
    (hexcluded : ¬ Matched excludes c) (hopen : ∀ dir, IsAncestor dir c → ¬ Matched excludes dir) :
    c ∈ found.paths := by
  have hempty := ne_empty_of_mem_basesOf hbase
  have hrest : rest ≠ [] := by
    rintro rfl
    -- a base with the parts of the whole path is the path itself, where there is no directory
    rw [List.map_nil, List.append_nil] at hpieces
    have hdot : base ≠ "." := fun hdot =>
      pieces_ne_nil '/' c.toList (hpieces.trans (Base.parts_eq_nil_iff.mpr hdot))
    have hslash : base ≠ "/" := by
      rintro rfl
      exact Base.pieces_ne_singleton_nil hc hpieces
    rw [Base.parts_of_ne hdot hslash] at hpieces
    obtain rfl := String.toList_inj.mp (pieces_inj hpieces)
    obtain ⟨d, hd⟩ := exists_directoryAt?_base hs hroot h hbase hexcluded
    rw [hdistinct.directoryAt?_eq_none hfile] at hd
    cases hd
  obtain rfl := eq_under_of_pieces hempty hrest hpieces
  refine (mem_find_iff_ancestors hs hroot h _).mpr
    ⟨base, hbase, ⟨rest, hrest, rfl⟩, hfile, hincluded, hexcluded, fun dir hdir => ?_⟩
  refine iff_of_false (fun habove => hopen dir habove hdir) (fun habove => ?_)
  exact hopen dir ((isAncestor_under_iff hempty hrest).mpr (.inl habove)) hdir

/-- **Completeness.** A search that ends well finds every file below the root that is included by
its path from the root, and every file that is included by its absolute path through an absolute
pattern, unless the file or a directory on that path is excluded. The other patterns cannot hide
it. -/
theorem mem_find_of_selected (hdistinct : t.Distinct) (hs : t.Serves listing)
    (hroot : isAbsolute root.toList = true)
    (h : ((find depth root includes excludes).run listing).outcome = .ok found)
    {names : List Name} (hne : names ≠ []) :
    (t.HasFile (placeOf root ++ names.map Name.chars) →
      Matched includes (relativePath names) →
      (∀ ms, ms ≠ [] → ms <+: names → ¬ Matched excludes (relativePath ms)) →
      relativePath names ∈ found.paths) ∧
    (t.HasFile (names.map Name.chars) →
      (∃ p ∈ includes, isAbsolute p.toList = true ∧
        accepts? p (absolutePath names) = .ok true) →
      ¬ Matched excludes "/" →
      (∀ ms, ms ≠ [] → ms <+: names → ¬ Matched excludes (absolutePath ms)) →
      absolutePath names ∈ found.paths) := by
  constructor
  · intro hfile hincluded hopen
    obtain ⟨base, hbase, rest, hpieces⟩ := exists_base_relative hne hincluded
    rw [← placeOf_startOf_relativePath hroot hne] at hfile
    have hempty : relativePath names ≠ "" :=
      relativePath_eq_under hne ▸ (under_ne (by decide) hne).1
    refine mem_find_of_base hdistinct hs hroot h hbase hempty hpieces hfile hincluded
      (hopen names hne (List.prefix_refl names)) fun dir hdir => ?_
    obtain ⟨ms, hms, -, hfront, rfl⟩ := (isAncestor_relativePath_iff hne).mp hdir
    exact hopen ms hms hfront
  · rintro hfile ⟨p, hp, habs, haccepts⟩ hslash hopen
    obtain ⟨base, hbase, rest, hpieces⟩ := exists_base_absolute hne hp habs haccepts
    rw [← placeOf_startOf_absolutePath hroot hne] at hfile
    have hempty : absolutePath names ≠ "" :=
      absolutePath_eq_under hne ▸ (under_ne (by decide) hne).1
    refine mem_find_of_base hdistinct hs hroot h hbase hempty hpieces hfile ⟨p, hp, haccepts⟩
      (hopen names hne (List.prefix_refl names)) fun dir hdir => ?_
    rcases (isAncestor_absolutePath_iff hne).mp hdir with rfl | ⟨ms, hms, -, hfront, rfl⟩
    · exact hslash
    · exact hopen ms hms hfront

/-- A file that is included by both of its paths, among patterns that do not match it. -/
theorem mem_find_of_selected_both :
    ∃ found, ((find 4 "/r" ["f", "**/f", "/r/*/f"] ["x"]).run
        (Tree.single (Tree.namesOf ["r", "d", "f"])).listing).outcome = .ok found ∧
      "d/f" ∈ found.paths ∧ "/r/d/f" ∈ found.paths := by
  have hrun : ((find 4 "/r" ["f", "**/f", "/r/*/f"] ["x"]).run
      (Tree.single (Tree.namesOf ["r", "d", "f"])).listing).outcome =
        .ok ⟨["d/f", "/r/d/f"], []⟩ := by rfl
  have hbelow : Tree.namesOf ["d", "f"] ≠ [] := by decide
  have hwhole : Tree.namesOf ["r", "d", "f"] ≠ [] := by decide
  have hfile := Tree.hasFile_single hwhole
  refine ⟨_, hrun, ?_, ?_⟩
  · have hopen : ∀ ms ∈ (Tree.namesOf ["d", "f"]).inits, ms ≠ [] →
        ¬ Matched ["x"] (relativePath ms) := by decide
    have hfound := mem_find_of_selected (Tree.distinct_single _) (Tree.serves_listing _) (by decide)
      hrun hbelow
    exact hfound.1 hfile (by decide) fun ms hms hfront =>
      hopen ms ((List.mem_inits _ _).mpr hfront) hms
  · have hopen : ∀ ms ∈ (Tree.namesOf ["r", "d", "f"]).inits, ms ≠ [] →
        ¬ Matched ["x"] (absolutePath ms) := by decide
    have hfound := mem_find_of_selected (Tree.distinct_single _) (Tree.serves_listing _) (by decide)
      hrun hwhole
    exact hfound.2 hfile (by decide) (by decide) fun ms hms hfront =>
      hopen ms ((List.mem_inits _ _).mpr hfront) hms

end Walk

end PathSieve

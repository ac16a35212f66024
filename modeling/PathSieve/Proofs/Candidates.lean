import Mathlib.Data.List.Basic
import PathSieve.Proofs.Bases
import PathSieve.Proofs.Place
import PathSieve.Walk.Find

/-!
# The paths a walk comes up with

A walk names what it meets by putting names behind the base it started from. Cut at the slashes,
such a path is the parts of the base followed by the names (`pieces_under`), whatever the base looks
like, so that base and names can be told from the path as far as the base is known. Seen from the
root, the path leads where the directory of the base leads, and from there down along the names
(`placeOf_startOf_under`).

- `under`, `IsUnder`: the path of what lies below a base by given names, and whether a path is one.
- `isUnder_trichotomy`: of two bases that a path lies under, one lies under the other.
- `IsAncestor`: the directories that a path passes, read off its text.
- `isAncestor_under_iff`: for such a path, those of the base, the base itself, and those below it.
-/

namespace PathSieve.Walk

open PathSieve.Path (clean clean_append_dot clean_append_plain dot isAbsolute
  isPlain_of_mem_map_chars join pieces_chars placeOf placeOf_join)
open Text (append_sep_prefix_iff head?_pieces pieces pieces_append_sep pieces_inj pieces_ne_nil)

/-! ## Putting names behind a path -/

/-- The parts with which the path of an entry begins, given the path of its directory. -/
def leading (path : String) : List (List Char) :=
  if path = "" then []
  else if path = "/" then [[]]
  else pieces '/' path.toList

theorem pieces_childPath (path : String) (name : Name) :
    pieces '/' (childPath path name.val).toList = leading path ++ [name.chars] := by
  have hname : pieces '/' name.val.toList = [name.chars] := pieces_chars name
  unfold childPath leading
  split
  · exact hname
  · split
    · rw [String.toList_append]
      show [] :: pieces '/' name.val.toList = _
      rw [hname]
      rfl
    · rw [String.toList_append, String.toList_append, List.append_assoc]
      show pieces '/' (path.toList ++ '/' :: name.val.toList) = _
      rw [pieces_append_sep, hname]

/-- A path that ends in a name is neither empty nor the root. -/
theorem ne_of_pieces_concat {path : String} {ps : List (List Char)} {name : Name}
    (h : pieces '/' path.toList = ps ++ [name.chars]) : path ≠ "" ∧ path ≠ "/" := by
  have hlast : (pieces '/' path.toList).getLast? = some name.chars := by
    rw [h, List.getLast?_concat]
  have hname : name.chars ≠ [] := (Path.isPlain_chars name).1
  constructor
  · rintro rfl
    exact hname (Option.some.inj hlast).symm
  · rintro rfl
    exact hname (Option.some.inj hlast).symm

theorem leading_childPath (path : String) (name : Name) :
    leading (childPath path name.val) = leading path ++ [name.chars] := by
  have hpieces := pieces_childPath path name
  obtain ⟨hempty, hslash⟩ := ne_of_pieces_concat hpieces
  rw [leading, if_neg hempty, if_neg hslash, hpieces]

/-- The path of what lies below a directory by the given names. -/
def pathBelow (path : String) (names : List Name) : String :=
  names.foldl (fun above name => childPath above name.val) path

theorem pathBelow_cons (path : String) (name : Name) (names : List Name) :
    pathBelow path (name :: names) = pathBelow (childPath path name.val) names := rfl

theorem pieces_pathBelow (path : String) {names : List Name} (h : names ≠ []) :
    pieces '/' (pathBelow path names).toList = leading path ++ names.map Name.chars := by
  induction names generalizing path with
  | nil => exact absurd rfl h
  | cons name names ih =>
    rw [pathBelow_cons]
    by_cases hnil : names = []
    · subst hnil
      exact pieces_childPath path name
    · rw [ih _ hnil, leading_childPath, List.append_assoc]
      rfl

/-! ## Putting names behind a base -/

/-- The path that the names below a base are put behind. -/
def pathOf (base : String) : String := if base = "." then "" else base

/-- The path of what lies below a base by the given names. -/
def under (base : String) (names : List Name) : String := pathBelow (pathOf base) names

theorem leading_pathOf {base : String} (h : base ≠ "") :
    leading (pathOf base) = Base.parts base := by
  unfold leading pathOf Base.parts
  by_cases hdot : base = "."
  · simp [hdot]
  · simp [hdot, h]

theorem pieces_under {base : String} (h : base ≠ "") {names : List Name} (hne : names ≠ []) :
    pieces '/' (under base names).toList = Base.parts base ++ names.map Name.chars := by
  rw [under, pieces_pathBelow _ hne, leading_pathOf h]

theorem under_ne {base : String} (h : base ≠ "") {names : List Name} (hne : names ≠ []) :
    under base names ≠ "" ∧ under base names ≠ "/" := by
  obtain ⟨ns, name, rfl⟩ := (List.eq_nil_or_concat' names).resolve_left hne
  have hpieces := pieces_under h hne
  rw [List.map_append, ← List.append_assoc] at hpieces
  exact ne_of_pieces_concat hpieces

/-- A path below a base is known by the parts of the base and the names. -/
theorem eq_under_of_pieces {path base : String} (h : base ≠ "") {names : List Name}
    (hne : names ≠ [])
    (hpath : pieces '/' path.toList = Base.parts base ++ names.map Name.chars) :
    path = under base names :=
  String.toList_inj.mp (pieces_inj (hpath.trans (pieces_under h hne).symm))

/-! ## Bases under bases -/

/-- Whether a path lies under a base: names are put behind it. -/
def IsUnder (base path : String) : Prop := ∃ names, names ≠ [] ∧ path = under base names

theorem isUnder_iff {base path : String} (h : base ≠ "") :
    IsUnder base path ↔ ∃ names : List Name, names ≠ [] ∧
      pieces '/' path.toList = Base.parts base ++ names.map Name.chars := by
  constructor
  · rintro ⟨names, hne, rfl⟩
    exact ⟨names, hne, pieces_under h hne⟩
  · rintro ⟨names, hne, hpieces⟩
    exact ⟨names, hne, eq_under_of_pieces h hne hpieces⟩

/-- A base whose parts end in a name is spelled by its parts. -/
theorem pieces_eq_parts {base : String} {ps : List (List Char)} {names : List Name}
    (hne : names ≠ []) (h : Base.parts base = ps ++ names.map Name.chars) :
    pieces '/' base.toList = Base.parts base := by
  have hdot : base ≠ "." := by
    rintro rfl
    exact hne (List.map_eq_nil_iff.mp (List.append_eq_nil_iff.mp h.symm).2)
  have hslash : base ≠ "/" := by
    rintro rfl
    rw [Base.parts_slash] at h
    cases ps with
    | nil =>
      have hmem : [] ∈ names.map Name.chars := by
        rw [← List.nil_append (names.map Name.chars), ← h]
        exact List.mem_cons_self
      exact (isPlain_of_mem_map_chars hmem).1 rfl
    | cons p ps =>
      obtain ⟨-, hrest⟩ := List.cons.inj h
      exact hne (List.map_eq_nil_iff.mp (List.append_eq_nil_iff.mp hrest.symm).2)
  exact (Base.parts_of_ne hdot hslash).symm

/-- What lies under a base is spelled by its parts as a base too. -/
theorem parts_under {base : String} (h : base ≠ "") {names : List Name} (hne : names ≠ []) :
    Base.parts (under base names) = Base.parts base ++ names.map Name.chars := by
  obtain ⟨ns, name, rfl⟩ := (List.eq_nil_or_concat' names).resolve_left hne
  have hpieces := pieces_under h hne
  -- the path ends in a name, which `.` is not
  have hdot : under base (ns ++ [name]) ≠ "." := by
    intro heq
    rw [heq, List.map_append, ← List.append_assoc] at hpieces
    have hlast : name.chars = dot := by
      have hone : pieces '/' ".".toList = [] ++ [dot] := rfl
      exact (List.singleton_inj.mp (List.append_inj' (hone.symm.trans hpieces) rfl).2).symm
    exact (Path.isPlain_chars name).2.1 hlast
  rw [Base.parts_of_ne hdot (under_ne h hne).2, hpieces]

theorem IsUnder.trans {a b c : String} (ha : a ≠ "") (hb : b ≠ "") (hab : IsUnder a b)
    (hbc : IsUnder b c) : IsUnder a c := by
  obtain ⟨as, has, rfl⟩ := hab
  obtain ⟨bs, hbs, hpieces⟩ := (isUnder_iff hb).mp hbc
  rw [parts_under ha has, List.append_assoc, ← List.map_append] at hpieces
  exact (isUnder_iff ha).mpr ⟨as ++ bs, by simp [has], hpieces⟩

/-- What lies under a base is contained in it: names neither climb nor start at the root. -/
theorem contains_of_isUnder {a b : String} (ha : a ≠ "") (h : IsUnder a b) :
    Base.contains a b = true := by
  obtain ⟨names, hne, rfl⟩ := h
  rw [Base.contains_iff ha (under_ne ha hne).1, parts_under ha hne]
  refine ⟨List.prefix_append _ _, ?_⟩
  rintro rfl
  obtain ⟨name, names, rfl⟩ := List.exists_cons_of_ne_nil hne
  have hplain := Path.isPlain_chars name
  simp [Base.Stays, hplain.1, hplain.2.2]

/-- Two bases that a path lies under are the same, or one of them lies under the other. -/
theorem isUnder_trichotomy {a b c : String} (ha : a ≠ "") (hb : b ≠ "") (hac : IsUnder a c)
    (hbc : IsUnder b c) : a = b ∨ IsUnder a b ∨ IsUnder b a := by
  -- if the parts of `x` begin those of `y`, what follows them are names of the path
  have hlonger : ∀ {x y : String}, x ≠ "" → y ≠ "" → IsUnder x c → IsUnder y c →
      Base.parts x <+: Base.parts y → x = y ∨ IsUnder x y := by
    intro x y hx hy hxc hyc hfront
    obtain ⟨ms, hms⟩ := hfront
    obtain ⟨xs, -, hxs⟩ := (isUnder_iff hx).mp hxc
    obtain ⟨ys, -, hys⟩ := (isUnder_iff hy).mp hyc
    rw [hys, ← hms, List.append_assoc] at hxs
    obtain ⟨names, -, -, rfl, -⟩ := List.map_eq_append_iff.mp (List.append_cancel_left hxs).symm
    by_cases hne : names = []
    · subst hne
      rw [List.map_nil, List.append_nil] at hms
      exact .inl (Base.parts_inj hx hy hms)
    · exact .inr ((isUnder_iff hx).mpr ⟨names, hne, by rw [pieces_eq_parts hne hms.symm, hms]⟩)
  obtain ⟨as, -, has⟩ := (isUnder_iff ha).mp hac
  obtain ⟨bs, -, hbs⟩ := (isUnder_iff hb).mp hbc
  have hfronta : Base.parts a <+: pieces '/' c.toList := ⟨_, has.symm⟩
  have hfrontb : Base.parts b <+: pieces '/' c.toList := ⟨_, hbs.symm⟩
  rcases List.prefix_or_prefix_of_prefix hfronta hfrontb with hab | hba
  · exact (hlonger ha hb hac hbc hab).imp_right .inl
  · exact (hlonger hb ha hbc hac hba).elim (fun h => .inl h.symm) (fun h => .inr (.inr h))

/-! ## Where such paths lead -/

/-- Seen from the root, a path leads where its own parts lead, behind those of the root if it is
relative. -/
theorem placeOf_startOf {root path : String} (hroot : isAbsolute root.toList = true)
    (hpath : path ≠ "") :
    isAbsolute (startOf root path).toList = true ∧
      placeOf (startOf root path) =
        clean true (if isAbsolute path.toList then pieces '/' path.toList
          else pieces '/' root.toList ++ pieces '/' path.toList) := by
  unfold startOf
  split
  · next habs => exact ⟨habs, by rw [placeOf]⟩
  · exact placeOf_join hroot hpath

/-- The parts of a base mean the same to a path as its pieces. -/
theorem clean_append_parts (before : List (List Char)) (base : String) :
    clean true (before ++ Base.parts base) = clean true (before ++ pieces '/' base.toList) := by
  by_cases hdot : base = "."
  · rw [hdot, Base.parts_dot, List.append_nil]
    exact (clean_append_dot true before).symm
  · by_cases hslash : base = "/"
    · rw [hslash, Base.parts_slash]
      show _ = clean true (before ++ ([[]] ++ [[]]))
      rw [← List.append_assoc, Path.clean_append_nil true (before ++ [[]])]
    · rw [Base.parts_of_ne hdot hslash]

theorem isAbsolute_under_iff {base : String} (h : base ≠ "") {names : List Name}
    (hne : names ≠ []) :
    isAbsolute (under base names).toList = isAbsolute base.toList := by
  rw [Bool.eq_iff_iff, Base.isAbsolute_iff h]
  have hnil : (under base names).toList ≠ [] := mt String.toList_eq_nil_iff.mp (under_ne h hne).1
  have hhead : isAbsolute (under base names).toList = true ↔
      (pieces '/' (under base names).toList).head? = some [] := by
    simp [head?_pieces, isAbsolute, hnil]
  rw [hhead, pieces_under h hne]
  cases hparts : Base.parts base with
  | cons p ps => simp
  | nil =>
    obtain ⟨name, names, rfl⟩ := List.exists_cons_of_ne_nil hne
    simp [(Path.isPlain_chars name).1]

/-- What lies under a base lies below the directory of the base. -/
theorem placeOf_startOf_under {root base : String} (hroot : isAbsolute root.toList = true)
    (hbase : base ≠ "") {names : List Name} (hne : names ≠ []) :
    placeOf (startOf root (under base names)) =
      placeOf (startOf root base) ++ names.map Name.chars := by
  have hplain : ∀ p ∈ names.map Name.chars, Path.IsPlain p := fun p hp =>
    isPlain_of_mem_map_chars hp
  rw [(placeOf_startOf hroot (under_ne hbase hne).1).2, (placeOf_startOf hroot hbase).2,
    isAbsolute_under_iff hbase hne, pieces_under hbase hne]
  split
  · rw [clean_append_plain true _ hplain]
    have hparts := clean_append_parts [] base
    rw [List.nil_append, List.nil_append] at hparts
    rw [hparts]
  · rw [← List.append_assoc, clean_append_plain true _ hplain, clean_append_parts]

/-! ## Ancestors -/

/-- Whether a path passes a directory: the path goes on behind the directory's path with a slash, or
the directory is the root and the path is absolute. -/
def IsAncestor (dir path : String) : Prop :=
  dir ≠ "" ∧ dir ≠ path ∧
    (dir.toList ++ ['/'] <+: path.toList ∨ dir = "/" ∧ isAbsolute path.toList = true)

instance (dir path : String) : Decidable (IsAncestor dir path) := by
  unfold IsAncestor
  infer_instance

theorem ne_of_append_slash_isPrefix {dir path : String}
    (h : dir.toList ++ ['/'] <+: path.toList) : dir ≠ path := by
  rintro rfl
  have hlength := h.length_le
  rw [List.length_append, List.length_singleton] at hlength
  omega

/-- A base with an ancestor in front of it has a text of its own. -/
theorem ne_of_ancestor {dir base : String} (hdir : dir ≠ "")
    (h : dir.toList ++ ['/'] <+: base.toList) : base ≠ "." ∧ base ≠ "/" := by
  have hpos : 0 < dir.toList.length :=
    List.length_pos_iff.mpr (mt String.toList_eq_nil_iff.mp hdir)
  have hlength := h.length_le
  rw [List.length_append, List.length_singleton] at hlength
  constructor
  · rintro rfl
    have hone : ".".toList.length = 1 := rfl
    omega
  · rintro rfl
    have hone : "/".toList.length = 1 := rfl
    omega

/-- A base with a text of its own begins all that lies under it. -/
theorem append_slash_prefix_under {base : String} (h : base ≠ "") (hdot : base ≠ ".")
    (hslash : base ≠ "/") {names : List Name} (hne : names ≠ []) :
    base.toList ++ ['/'] <+: (under base names).toList :=
  append_sep_prefix_iff.mpr ⟨names.map Name.chars, by simpa using hne, by
    rw [pieces_under h hne, Base.parts_of_ne hdot hslash]⟩

/-- The text of an ancestor of what lies under a base ends within the base, at its end, or behind
some of the names. -/
theorem ancestor_cases {dir base : String} (hdir : dir ≠ "") (hbase : base ≠ "")
    {names : List Name} (hne : names ≠ [])
    (h : dir.toList ++ ['/'] <+: (under base names).toList) :
    dir.toList ++ ['/'] <+: base.toList ∨ dir = base ∧ base ≠ "." ∨
      ∃ ms, ms ≠ [] ∧ ms ≠ names ∧ ms <+: names ∧ dir = under base ms := by
  obtain ⟨rest, hrest, hpieces⟩ := append_sep_prefix_iff.mp h
  rw [pieces_under hbase hne] at hpieces
  have hnil := pieces_ne_nil '/' dir.toList
  have hsingle := Base.pieces_ne_singleton_nil hdir
  -- where the ancestor ends exactly where the base does
  have hend : pieces '/' dir.toList = Base.parts base → dir = base ∧ base ≠ "." := by
    intro heq
    have hdot : base ≠ "." := by
      rintro rfl
      exact hnil heq
    have hslash : base ≠ "/" := by
      rintro rfl
      exact hsingle heq
    rw [Base.parts_of_ne hdot hslash] at heq
    exact ⟨String.toList_inj.mp (pieces_inj heq), hdot⟩
  rcases List.append_eq_append_iff.mp hpieces with ⟨more, hdirparts, hnames⟩ | ⟨more, hparts, -⟩
  · obtain ⟨ms, ns, rfl, rfl, rfl⟩ := List.map_eq_append_iff.mp hnames
    by_cases hms : ms = []
    · subst hms
      rw [List.map_nil, List.append_nil] at hdirparts
      exact .inr (.inl (hend hdirparts))
    · refine .inr (.inr ⟨ms, hms, ?_, List.prefix_append ms ns, ?_⟩)
      · intro heq
        have hns : ns = [] := List.append_right_eq_self.mp heq.symm
        exact hrest (by rw [hns, List.map_nil])
      · exact eq_under_of_pieces hbase hms hdirparts
  · by_cases hmore : more = []
    · rw [hmore, List.append_nil] at hparts
      exact .inr (.inl (hend hparts.symm))
    · have hdot : base ≠ "." := by
        rintro rfl
        exact hnil (List.append_eq_nil_iff.mp hparts.symm).1
      have hslash : base ≠ "/" := by
        rintro rfl
        obtain ⟨p, ps, hps⟩ := List.exists_cons_of_ne_nil hnil
        rw [hps, Base.parts_slash, List.cons_append, List.cons.injEq] at hparts
        exact hmore (List.append_eq_nil_iff.mp hparts.2.symm).2
      rw [Base.parts_of_ne hdot hslash] at hparts
      exact .inl (append_sep_prefix_iff.mpr ⟨more, hmore, hparts⟩)

/-- The ancestors of what lies under a base are those of the base, the base itself unless it is `.`,
and the directories on the way down from it. -/
theorem isAncestor_under_iff {dir base : String} (hbase : base ≠ "") {names : List Name}
    (hne : names ≠ []) :
    IsAncestor dir (under base names) ↔
      IsAncestor dir base ∨ dir = base ∧ base ≠ "." ∨
        ∃ ms, ms ≠ [] ∧ ms ≠ names ∧ ms <+: names ∧ dir = under base ms := by
  constructor
  -- the root is an ancestor by being the root, all others by the text of the path
  · rintro ⟨hdir, -, h | ⟨rfl, habs⟩⟩
    · rcases ancestor_cases hdir hbase hne h with hfront | hcases
      · exact .inl ⟨hdir, ne_of_append_slash_isPrefix hfront, .inl hfront⟩
      · exact .inr hcases
    · rw [isAbsolute_under_iff hbase hne] at habs
      by_cases hslash : base = "/"
      · exact .inr (.inl ⟨hslash.symm, by rw [hslash]; decide⟩)
      · exact .inl ⟨hdir, Ne.symm hslash, .inr ⟨rfl, habs⟩⟩
  · rintro (⟨hdir, -, h | ⟨rfl, habs⟩⟩ | ⟨rfl, hdot⟩ | ⟨ms, hms, hmne, ⟨ns, rfl⟩, rfl⟩)
    · obtain ⟨hdot, hslash⟩ := ne_of_ancestor hdir h
      have hbelow := append_slash_prefix_under hbase hdot hslash hne
      have hwhole := (h.trans (List.prefix_append _ _)).trans hbelow
      exact ⟨hdir, ne_of_append_slash_isPrefix hwhole, .inl hwhole⟩
    · exact ⟨hdir, (under_ne hbase hne).2.symm, .inr ⟨rfl, by
        rw [isAbsolute_under_iff hbase hne, habs]⟩⟩
    · by_cases hslash : dir = "/"
      · subst hslash
        exact ⟨hbase, (under_ne hbase hne).2.symm, .inr ⟨rfl, by
          rw [isAbsolute_under_iff hbase hne]; rfl⟩⟩
      · have hbelow := append_slash_prefix_under hbase hdot hslash hne
        exact ⟨hbase, ne_of_append_slash_isPrefix hbelow, .inl hbelow⟩
    · have hns : ns ≠ [] := by
        rintro rfl
        exact hmne (List.append_nil ms).symm
      have hbelow : (under base ms).toList ++ ['/'] <+: (under base (ms ++ ns)).toList := by
        refine append_sep_prefix_iff.mpr ⟨ns.map Name.chars, by simpa using hns, ?_⟩
        rw [pieces_under hbase hne, pieces_under hbase hms, List.map_append, List.append_assoc]
      exact ⟨(under_ne hbase hms).1, ne_of_append_slash_isPrefix hbelow, .inl hbelow⟩

/-- What lies under a base is no ancestor of it. -/
theorem not_isAncestor_under {base : String} (hbase : base ≠ "") {names : List Name}
    (hne : names ≠ []) : ¬ IsAncestor (under base names) base := by
  rintro ⟨hempty, -, h | ⟨hslash, -⟩⟩
  · obtain ⟨hdot, hslash⟩ := ne_of_ancestor hempty h
    have hlong := (append_slash_prefix_under hbase hdot hslash hne).length_le
    have hshort := h.length_le
    rw [List.length_append, List.length_singleton] at hlong hshort
    omega
  · exact (under_ne hbase hne).2 hslash

end PathSieve.Walk

import PathSieve.Proofs.Candidates
import PathSieve.Proofs.Runs
import PathSieve.Proofs.Tree

/-!
# What a search finds

A search that ends well over a listing that serves a tree has found a path exactly if the path leads
from one of the bases down to a file of the tree, the patterns keep it, and neither the base nor a
directory on the way down is excluded (`mem_find_iff`).

The heart is the same statement for the walk below one directory, by induction on the depth: what
lies below a directory is a file right in it, or lies below a directory right in it (`found_iff`),
and these are the two things a visit of an entry looks for.
-/

namespace PathSieve

open Glob

/-! ## Patterns as texts -/

/-- Whether some readable pattern of a list matches a path. -/
def Matched (patterns : List String) (path : String) : Prop :=
  ∃ p ∈ patterns, accepts? p path = .ok true

theorem matched_append_iff (patterns more : List String) (path : String) :
    Matched (patterns ++ more) path ↔ Matched patterns path ∨ Matched more path := by
  simp only [Matched, List.mem_append, or_and_right, exists_or]

theorem accepts_ofList_iff (patterns : List String) (path : String) :
    (PatternSet.ofList patterns).accepts path = true ↔ Matched patterns path := by
  induction patterns with
  | nil => simp [PatternSet.ofList, PatternSet.accepts, Matched]
  | cons source sources ih =>
    simp only [PatternSet.accepts, Matched, accepts?] at ih ⊢
    cases h : Pattern.ofText source with
    | ok p => simp [PatternSet.ofList, h, ih, Except.map]
    | error e => simp [PatternSet.ofList, h, ih, Except.map]

theorem accepts_ofList_eq_false_iff {patterns : List String} {path : String} :
    (PatternSet.ofList patterns).accepts path = false ↔ ¬ Matched patterns path := by
  rw [← Bool.not_eq_true, accepts_ofList_iff]

instance (patterns : List String) (path : String) : Decidable (Matched patterns path) :=
  decidable_of_iff _ (accepts_ofList_iff patterns path)

theorem source_ofText {source : String} {p : Pattern} (h : Pattern.ofText source = .ok p) :
    p.source = source := by
  unfold Pattern.ofText at h
  split at h
  · exact (congrArg Pattern.source (Except.ok.inj h)).symm
  · cases h

/-- The sources of a pattern set are the readable patterns of its list. -/
theorem sources_ofList (patterns : List String) :
    (PatternSet.ofList patterns).sources = patterns.filter fun p => (Pattern.ofText p).isOk := by
  induction patterns with
  | nil => rfl
  | cons source sources ih =>
    rw [List.filter_cons, ← ih]
    cases h : Pattern.ofText source with
    | ok p => simp [PatternSet.ofList, PatternSet.sources, h, source_ofText h, Except.isOk,
        Except.toBool]
    | error e => simp [PatternSet.ofList, PatternSet.sources, h, Except.isOk, Except.toBool]

/-- The errors of a pattern set are those of the unreadable patterns of its list. -/
theorem errors_ofList (patterns : List String) :
    (PatternSet.ofList patterns).errors = patterns.filterMap fun p =>
      match Pattern.ofText p with
      | .ok _ => none
      | .error e => some e := by
  induction patterns with
  | nil => rfl
  | cons source sources ih =>
    rw [List.filterMap_cons, ← ih]
    cases h : Pattern.ofText source with
    | ok p => simp only [PatternSet.ofList, h]
    | error e => simp only [PatternSet.ofList, h]

/-- A readable pattern of a list is among the readable ones. -/
theorem mem_sources_ofList {patterns : List String} {source : String} (hmem : source ∈ patterns)
    {p : Pattern} (h : Pattern.ofText source = .ok p) :
    source ∈ (PatternSet.ofList patterns).sources := by
  rw [sources_ofList, List.mem_filter, h]
  exact ⟨hmem, rfl⟩

namespace Walk

open PathSieve.Path (isAbsolute placeOf placeOf_join_name)

variable {t d : Tree} {listing : Listing} {sieve : Sieve}

/-! ## Below one directory -/

/-- Whether no directory on the way down from a path to what has the given names is excluded. -/
def Open (excludes : PatternSet) (path : String) (names : List Name) : Prop :=
  ∀ ms, ms ≠ [] → ms ≠ names → ms <+: names → excludes.accepts (pathBelow path ms) = false

theorem open_singleton (excludes : PatternSet) (path : String) (name : Name) :
    Open excludes path [name] := by
  intro ms hms hne hfront
  obtain ⟨m, ms, rfl⟩ := List.exists_cons_of_ne_nil hms
  obtain ⟨rfl, hrest⟩ := List.cons_prefix_cons.mp hfront
  rw [List.prefix_nil.mp hrest] at hne
  exact absurd rfl hne

theorem open_cons {excludes : PatternSet} {path : String} {name : Name} {names : List Name}
    (h : names ≠ []) :
    Open excludes path (name :: names) ↔
      excludes.accepts (childPath path name.val) = false ∧
        Open excludes (childPath path name.val) names := by
  constructor
  · intro hopen
    refine ⟨hopen [name] (by simp) (by simpa using h.symm) (by simp), fun ms hms hne hfront => ?_⟩
    exact hopen (name :: ms) (by simp) (by simpa using hne)
      (List.cons_prefix_cons.mpr ⟨rfl, hfront⟩)
  · rintro ⟨hfirst, hopen⟩ ms hms hne hfront
    obtain ⟨m, ms, rfl⟩ := List.exists_cons_of_ne_nil hms
    obtain ⟨rfl, hrest⟩ := List.cons_prefix_cons.mp hfront
    by_cases hnil : ms = []
    · subst hnil
      exact hfirst
    · exact hopen ms hnil (by simpa using hne) hrest

/-- Whether a path is to be found below the directory at a place, whose own path is given. -/
def Found (t : Tree) (sieve : Sieve) (place : List (List Char)) (path c : String) : Prop :=
  ∃ names : List Name, names ≠ [] ∧ t.HasFile (place ++ names.map Name.chars) ∧
    c = pathBelow path names ∧ sieve.keeps c = true ∧ Open sieve.excludes path names

/-- What is found below a directory is a file in it, or is found below a directory in it. -/
theorem found_iff {place : List (List Char)} {path c : String}
    (hd : t.directoryAt? place = some d) :
    Found t sieve place path c ↔
      (∃ name, (name, .file) ∈ d.entries ∧ c = childPath path name.val ∧ sieve.keeps c = true) ∨
      ∃ name sub, (name, sub) ∈ d.entries ∧ sub.isDirectory = true ∧
        sieve.excludes.accepts (childPath path name.val) = false ∧
        Found t sieve (place ++ [name.chars]) (childPath path name.val) c := by
  constructor
  · rintro ⟨names, hne, hfile, rfl, hkeeps, hopen⟩
    -- one name alone is that of a file in the directory, more go through a directory in it
    obtain ⟨name, names, rfl⟩ := List.exists_cons_of_ne_nil hne
    by_cases hnil : names = []
    · subst hnil
      exact .inl ⟨name, (Tree.hasFile_name_iff hd name).mp hfile, rfl, hkeeps⟩
    · obtain ⟨sub, hmem, hsub⟩ := Tree.exists_entry_of_hasFile hd hnil hfile
      obtain ⟨hfirst, hopen⟩ := (open_cons hnil).mp hopen
      refine .inr ⟨name, sub, hmem, hsub, hfirst, names, hnil, ?_, rfl, hkeeps, hopen⟩
      rwa [List.append_assoc]
  · rintro (⟨name, hmem, rfl, hkeeps⟩ |
      ⟨name, sub, -, -, hfirst, names, hnil, hfile, rfl, hkeeps, hopen⟩)
    · exact ⟨[name], by simp, (Tree.hasFile_name_iff hd name).mpr hmem, rfl, hkeeps,
        open_singleton _ _ _⟩
    · rw [List.append_assoc] at hfile
      exact ⟨name :: names, by simp, hfile, rfl, hkeeps, (open_cons hnil).mpr ⟨hfirst, hopen⟩⟩

/-- What a walk does with one entry of a directory. -/
def visit (sieve : Sieve) (depth : Nat) (dir path : String) (entry : Entry) :
    Walk (List String) :=
  let child := childPath path entry.name
  if !entry.isDirectory then .done (if sieve.keeps child then [child] else [])
  else if sieve.excludes.accepts child then .note (.directorySkipped child) (.done [])
  else descend sieve depth (Path.join dir entry.name) child

/-- A file is given if it is kept. -/
theorem visit_file (sieve : Sieve) (depth : Nat) (dir path name : String) :
    visit sieve depth dir path ⟨name, false⟩ =
      .done (if sieve.keeps (childPath path name) then [childPath path name] else []) := rfl

/-- An excluded directory is left out. -/
theorem visit_excluded {depth : Nat} {dir path name : String}
    (h : sieve.excludes.accepts (childPath path name) = true) :
    visit sieve depth dir path ⟨name, true⟩ =
      .note (.directorySkipped (childPath path name)) (.done []) := by
  rw [visit, h]
  rfl

/-- Any other directory is walked. -/
theorem visit_directory {depth : Nat} {dir path name : String}
    (h : sieve.excludes.accepts (childPath path name) = false) :
    visit sieve depth dir path ⟨name, true⟩ =
      descend sieve depth (Path.join dir name) (childPath path name) := by
  rw [visit, h]
  rfl

theorem gives_visit_file {depth : Nat} {dir path name : String} {given : List String} :
    Gives listing (visit sieve depth dir path ⟨name, false⟩) given ↔
      given = if sieve.keeps (childPath path name) then [childPath path name] else [] := by
  rw [visit_file, gives_done]

theorem gives_visit_excluded {depth : Nat} {dir path name : String} {given : List String}
    (h : sieve.excludes.accepts (childPath path name) = true) :
    Gives listing (visit sieve depth dir path ⟨name, true⟩) given ↔ given = [] := by
  rw [visit_excluded h, gives_note, gives_done]

theorem gives_visit_directory {depth : Nat} {dir path name : String} {given : List String}
    (h : sieve.excludes.accepts (childPath path name) = false) :
    Gives listing (visit sieve depth dir path ⟨name, true⟩) given ↔
      Gives listing (descend sieve depth (Path.join dir name) (childPath path name)) given := by
  rw [visit_directory h]

/-- What a visit gives is the entry, if it is a file that is kept, or what lies below it, if it is a
directory that is not excluded. -/
theorem mem_visit {depth : Nat} {dir path : String} {entry : Entry} {given : List String}
    {c : String} (h : Gives listing (visit sieve depth dir path entry) given) (hc : c ∈ given) :
    entry.isDirectory = false ∧ c = childPath path entry.name ∧ sieve.keeps c = true ∨
      entry.isDirectory = true ∧ sieve.excludes.accepts (childPath path entry.name) = false ∧
        Gives listing (descend sieve depth (Path.join dir entry.name)
          (childPath path entry.name)) given := by
  obtain ⟨name, isDirectory⟩ := entry
  cases isDirectory with
  | false =>
    rw [gives_visit_file.mp h] at hc
    split at hc
    · next hkeeps =>
      obtain rfl := List.mem_singleton.mp hc
      exact .inl ⟨rfl, rfl, hkeeps⟩
    · cases hc
  | true =>
    cases hexcluded : sieve.excludes.accepts (childPath path name) with
    | false => exact .inr ⟨rfl, rfl, (gives_visit_directory hexcluded).mp h⟩
    | true =>
      rw [(gives_visit_excluded hexcluded).mp h] at hc
      cases hc

theorem descend_succ (sieve : Sieve) (depth : Nat) (dir path : String) :
    descend sieve (depth + 1) dir path = .list dir (gather (visit sieve depth dir path)) := rfl

/-- A walk below a directory that ends well has listed it. -/
theorem exists_directoryAt?_of_gives (hs : t.Serves listing) {depth : Nat} {dir path : String}
    {paths : List String} (habs : isAbsolute dir.toList = true)
    (h : Gives listing (descend sieve depth dir path) paths) :
    ∃ d, t.directoryAt? (placeOf dir) = some d := by
  cases depth with
  | zero => exact absurd h not_gives_abandon
  | succ depth =>
    obtain ⟨entries, hentries, -⟩ := gives_list.mp h
    obtain ⟨d, hd, -⟩ := hs dir entries habs hentries
    exact ⟨d, hd⟩

/-- What a walk below a directory gives is what is to be found there. -/
theorem mem_descend_iff (hs : t.Serves listing) {depth : Nat} {dir path : String}
    {paths : List String} (habs : isAbsolute dir.toList = true)
    (h : Gives listing (descend sieve depth dir path) paths) (c : String) :
    c ∈ paths ↔ Found t sieve (placeOf dir) path c := by
  -- one level of the walk lists the directory, and `found_iff` says what that leaves to be found
  induction depth generalizing dir path paths with
  | zero => exact absurd h not_gives_abandon
  | succ depth ih =>
    rw [descend_succ] at h
    obtain ⟨entries, hentries, hgather⟩ := gives_list.mp h
    obtain ⟨d, hd, rfl⟩ := hs dir entries habs hentries
    obtain ⟨hall, hmem⟩ := mem_of_gives_gather hgather
    rw [hmem, found_iff hd]
    constructor
    · rintro ⟨entry, hentry, given, hgiven, hc⟩
      obtain ⟨⟨name, sub⟩, hsub, rfl⟩ := List.mem_map.mp hentry
      rcases mem_visit hgiven hc with ⟨hfile, rfl, hkeeps⟩ | ⟨hdir, hexcluded, hdescend⟩
      · cases sub with
        | file => exact .inl ⟨name, hsub, rfl, hkeeps⟩
        | directory held => cases hfile
      · obtain ⟨hjoin, hplace⟩ := placeOf_join_name habs name
        have hfound := (ih hjoin hdescend).mp hc
        rw [hplace] at hfound
        exact .inr ⟨name, sub, hsub, hdir, hexcluded, hfound⟩
    · rintro (⟨name, hfile, rfl, hkeeps⟩ | ⟨name, sub, hsub, hdir, hexcluded, hfound⟩)
      · refine ⟨_, List.mem_map.mpr ⟨_, hfile, rfl⟩, _, gives_visit_file.mpr rfl, ?_⟩
        rw [if_pos hkeeps]
        exact List.mem_singleton.mpr rfl
      · have hentry : ⟨name.val, true⟩ ∈ d.listed :=
          List.mem_map.mpr ⟨(name, sub), hsub, by rw [hdir]⟩
        obtain ⟨given, hgiven⟩ := hall _ hentry
        have hdescend := (gives_visit_directory hexcluded).mp hgiven
        obtain ⟨hjoin, hplace⟩ := placeOf_join_name habs name
        refine ⟨_, hentry, given, hgiven, (ih hjoin hdescend).mpr ?_⟩
        rw [hplace]
        exact hfound

/-! ## A whole search -/

/-- The bases a search starts from. -/
def basesOf (includes : List String) : List String :=
  Base.collect [] (PatternSet.ofList includes).sources

theorem spans_basesOf (includes : List String) :
    Base.Spans (basesOf includes) (PatternSet.ofList includes).sources := Base.spans_collect _

theorem ne_empty_of_mem_basesOf {includes : List String} {base : String}
    (h : base ∈ basesOf includes) : base ≠ "" := (spans_basesOf includes).ne_empty h

/-- Some base lies around the base of each pattern that matches anything. -/
theorem exists_base_around {includes : List String} {pattern path : String}
    (hmem : pattern ∈ includes) (h : accepts? pattern path = .ok true) :
    ∃ base ∈ basesOf includes, Base.contains base (Base.ofPattern pattern) = true := by
  cases hread : Pattern.ofText pattern with
  | ok p => exact (spans_basesOf includes).around pattern (mem_sources_ofList hmem hread)
  | error e =>
    rw [accepts?, hread] at h
    cases h

/-- A search gathers from its bases, and reports the errors of its patterns. -/
theorem run_find (listing : Listing) (depth : Nat) (root : String)
    (includes excludes : List String) :
    (find depth root includes excludes).run listing =
      ((gather (fromBase (Sieve.ofLists includes excludes) depth root)
        (basesOf includes)).run listing).andThen fun paths =>
          ⟨[], .ok ⟨paths, (Sieve.ofLists includes excludes).errors⟩⟩ :=
  run_bind listing _ _

theorem gives_find {depth : Nat} {root : String} {includes excludes : List String}
    {found : Selection} :
    Gives listing (find depth root includes excludes) found ↔
      ∃ paths, Gives listing
          (gather (fromBase (Sieve.ofLists includes excludes) depth root) (basesOf includes))
          paths ∧
        found = ⟨paths, (Sieve.ofLists includes excludes).errors⟩ := by
  show Gives listing (bind _ fun paths => .done _) found ↔ _
  simp only [gives_bind, gives_done]
  rfl

/-- An excluded base is left out, but for `.`. -/
theorem fromBase_excluded {depth : Nat} {root base : String}
    (h : base ≠ "." ∧ sieve.excludes.accepts base = true) :
    fromBase sieve depth root base = .note (.baseExcluded base) (.done []) := if_pos h

/-- Any other base is walked. -/
theorem fromBase_walked {depth : Nat} {root base : String}
    (h : ¬ (base ≠ "." ∧ sieve.excludes.accepts base = true)) :
    fromBase sieve depth root base = .note (.walkingBase base (startOf root base))
      (descend sieve depth (startOf root base) (pathOf base)) := if_neg h

theorem gives_fromBase {depth : Nat} {root base : String} {paths : List String} :
    Gives listing (fromBase sieve depth root base) paths ↔
      if base ≠ "." ∧ sieve.excludes.accepts base = true then paths = []
      else Gives listing (descend sieve depth (startOf root base) (pathOf base)) paths := by
  split
  · next h => rw [fromBase_excluded h, gives_note, gives_done]
  · next h => rw [fromBase_walked h, gives_note]

/-- A base that is not excluded gives what the walk below its directory gives. -/
theorem gives_fromBase_walked {depth : Nat} {root base : String} {includes excludes : List String}
    {paths : List String} (h : base = "." ∨ ¬ Matched excludes base) :
    Gives listing (fromBase (Sieve.ofLists includes excludes) depth root base) paths ↔
      Gives listing (descend (Sieve.ofLists includes excludes) depth (startOf root base)
        (pathOf base)) paths := by
  rw [gives_fromBase, if_neg]
  rintro ⟨hdot, hexcluded⟩
  exact h.resolve_left hdot ((accepts_ofList_iff excludes base).mp hexcluded)

/-- What a search finds is what is found below one of its bases that is not excluded. -/
theorem mem_find_iff (hs : t.Serves listing) {depth : Nat} {root : String}
    {includes excludes : List String} {found : Selection}
    (hroot : isAbsolute root.toList = true)
    (h : Gives listing (find depth root includes excludes) found) (c : String) :
    c ∈ found.paths ↔
      ∃ base ∈ basesOf includes, (base = "." ∨ ¬ Matched excludes base) ∧
        Found t (Sieve.ofLists includes excludes) (placeOf (startOf root base)) (pathOf base)
          c := by
  obtain ⟨paths, hgather, rfl⟩ := gives_find.mp h
  obtain ⟨hall, hmem⟩ := mem_of_gives_gather hgather
  have hstart : ∀ base ∈ basesOf includes, isAbsolute (startOf root base).toList = true :=
    fun base hbase => (placeOf_startOf hroot (ne_empty_of_mem_basesOf hbase)).1
  have hexcluded : ∀ base, (Sieve.ofLists includes excludes).excludes.accepts base = true ↔
      Matched excludes base := accepts_ofList_iff excludes
  show c ∈ paths ↔ _
  rw [hmem]
  constructor
  · rintro ⟨base, hbase, given, hgiven, hc⟩
    rw [gives_fromBase] at hgiven
    split at hgiven
    · rw [hgiven] at hc
      cases hc
    · next hwalked =>
      rw [not_and_or, not_not, hexcluded] at hwalked
      exact ⟨base, hbase, hwalked, (mem_descend_iff hs (hstart base hbase) hgiven c).mp hc⟩
  · rintro ⟨base, hbase, hwalked, hfound⟩
    obtain ⟨given, hgiven⟩ := hall base hbase
    have hdescend := gives_fromBase.mp hgiven
    rw [if_neg (by rwa [not_and_or, not_not, hexcluded])] at hdescend
    have hmem := (mem_descend_iff hs (hstart base hbase) hdescend c).mpr hfound
    exact ⟨base, hbase, given, hgiven, hmem⟩

/-- The base is not excluded, and no directory on the way down from it is, exactly if all that is
excluded among the ancestors is above the base. -/
theorem open_iff_ancestors {base : String} (hbase : base ≠ "") {names : List Name}
    (hne : names ≠ []) (excludes : List String) :
    (base = "." ∨ ¬ Matched excludes base) ∧
        Open (PatternSet.ofList excludes) (pathOf base) names ↔
      ∀ dir, Matched excludes dir → (IsAncestor dir (under base names) ↔ IsAncestor dir base) := by
  constructor
  · rintro ⟨hwalked, hopen⟩ dir hdir
    rw [isAncestor_under_iff hbase hne]
    refine ⟨?_, .inl⟩
    rintro (h | ⟨rfl, hdot⟩ | ⟨ms, hms, hmne, hfront, rfl⟩)
    · exact h
    · exact absurd hdir (hwalked.resolve_left hdot)
    · exact absurd hdir (accepts_ofList_eq_false_iff.mp (hopen ms hms hmne hfront))
  · intro h
    constructor
    · by_cases hdot : base = "."
      · exact .inl hdot
      · -- were the base excluded, it would be an excluded ancestor of the path, but not of itself
        refine .inr fun hmatched => ?_
        have habove := (h base hmatched).mp
          ((isAncestor_under_iff hbase hne).mpr (.inr (.inl ⟨rfl, hdot⟩)))
        exact habove.2.1 rfl
    · intro ms hms hmne hfront
      refine accepts_ofList_eq_false_iff.mpr fun hmatched => ?_
      exact not_isAncestor_under hbase hms ((h (under base ms) hmatched).mp
        ((isAncestor_under_iff hbase hne).mpr (.inr (.inr ⟨ms, hms, hmne, hfront, rfl⟩))))

theorem keeps_ofLists_iff (includes excludes : List String) (path : String) :
    (Sieve.ofLists includes excludes).keeps path = true ↔
      Matched includes path ∧ ¬ Matched excludes path := by
  rw [Sieve.keeps, Bool.and_eq_true, Bool.not_eq_true']
  exact and_congr (accepts_ofList_iff includes path) accepts_ofList_eq_false_iff

/-- A search finds a path exactly if the path lies under a base, names a file of the tree, is
selected, and has no excluded ancestor but those of the base. -/
theorem mem_find_iff_ancestors (hs : t.Serves listing) {depth : Nat} {root : String}
    {includes excludes : List String} {found : Selection}
    (hroot : isAbsolute root.toList = true)
    (h : Gives listing (find depth root includes excludes) found) (c : String) :
    c ∈ found.paths ↔
      ∃ base ∈ basesOf includes, IsUnder base c ∧ t.HasFile (placeOf (startOf root c)) ∧
        Matched includes c ∧ ¬ Matched excludes c ∧
        ∀ dir, Matched excludes dir → (IsAncestor dir c ↔ IsAncestor dir base) := by
  rw [mem_find_iff hs hroot h]
  constructor
  · rintro ⟨base, hbase, hwalked, names, hne, hfile, rfl, hkeeps, hopen⟩
    have hempty := ne_empty_of_mem_basesOf hbase
    rw [keeps_ofLists_iff] at hkeeps
    rw [← placeOf_startOf_under hroot hempty hne] at hfile
    exact ⟨base, hbase, ⟨names, hne, rfl⟩, hfile, hkeeps.1, hkeeps.2,
      (open_iff_ancestors hempty hne excludes).mp ⟨hwalked, hopen⟩⟩
  · rintro ⟨base, hbase, ⟨names, hne, rfl⟩, hfile, hincluded, hexcluded, hancestors⟩
    have hempty := ne_empty_of_mem_basesOf hbase
    rw [placeOf_startOf_under hroot hempty hne] at hfile
    obtain ⟨hwalked, hopen⟩ := (open_iff_ancestors hempty hne excludes).mpr hancestors
    exact ⟨base, hbase, hwalked, names, hne, hfile, rfl,
      (keeps_ofLists_iff ..).mpr ⟨hincluded, hexcluded⟩, hopen⟩

end Walk

end PathSieve

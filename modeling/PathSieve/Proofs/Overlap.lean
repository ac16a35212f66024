import PathSieve.Proofs.Climbing
import PathSieve.Proofs.Enumeration
import PathSieve.Proofs.Levels
import PathSieve.Proofs.NoDuplicates

/-!
# Directories that are listed twice

What the walk below one directory lists is what names lead down to from there, and the names can be
read off the path. So the walk below one base lists no directory twice, whether or not it ends well:
what is listed behind two entries lies below two names (`nodup_listed_descend`). A directory is
listed twice only from two bases, and then it lies in the directories of both.

Neither of two bases contains the other, but that compares their parts, and parts do not tell where
a base leads. It does tell for bases that differ in nothing but proper names (`Aligned`): one of
these leads into the directory of the other only if it is contained in it (`contains_of_aligned`).
What is left are bases with an empty part or a dot segment behind the parts they share
(`pairwise_listed_find`), such as an absolute base beside a relative one: these are kept apart,
since the root is not known when bases are collected.
-/

namespace PathSieve.Walk

open PathSieve.Path (IsPlain clean clean_append_plain clean_join_name isAbsolute placeOf
  placeOf_join_name)
open Text (pieces)

variable {listing : Listing} {sieve : Sieve} {depth : Nat} {root : String}
variable {includes excludes : List String}

/-! ## Below one directory -/

/-- What a visit of an entry lists is what the walk below it lists, if there is one. -/
theorem listed_visit (listing : Listing) (dir path : String) (entry : Entry) :
    ((visit sieve depth dir path entry).run listing).listed =
      if entry.isDirectory = true ∧ sieve.excludes.accepts (childPath path entry.name) = false then
        ((descend sieve depth (Path.join dir entry.name)
          (childPath path entry.name)).run listing).listed
      else [] := by
  obtain ⟨name, isDirectory⟩ := entry
  cases isDirectory with
  | false => rfl
  | true =>
    cases h : sieve.excludes.accepts (childPath path name) with
    | false => rw [visit_directory h, if_pos ⟨rfl, rfl⟩]
    | true =>
      rw [visit_excluded h, if_neg fun hopen => Bool.false_ne_true hopen.2.symm]
      rfl

/-- A walk below a directory lists the directory first, and then what the visits list. -/
theorem listed_descend_isPrefix (listing : Listing) (dir path : String) :
    ((descend sieve (depth + 1) dir path).run listing).listed <+:
      dir :: match listing dir with
        | .ok entries => entries.flatMap fun entry =>
            ((visit sieve depth dir path entry).run listing).listed
        | .error _ => [] := by
  rw [descend_succ, listed_list, List.prefix_cons_inj]
  cases listing dir with
  | ok entries => exact listed_gather_isPrefix listing _ entries
  | error failure => exact List.nil_prefix

/-- The directory that names lead to below another. -/
def dirBelow (dir : String) (names : List Name) : String :=
  names.foldl (fun above name => Path.join above name.val) dir

theorem dirBelow_cons (dir : String) (name : Name) (names : List Name) :
    dirBelow dir (name :: names) = dirBelow (Path.join dir name.val) names := rfl

/-- What is left of the path of a directory below another, once the dot segments are taken out. -/
theorem clean_dirBelow (dir : String) (names : List Name) :
    clean (isAbsolute (dirBelow dir names).toList) (pieces '/' (dirBelow dir names).toList) =
      clean (isAbsolute dir.toList) (pieces '/' dir.toList) ++ names.map Name.chars := by
  induction names generalizing dir with
  | nil => exact (List.append_nil _).symm
  | cons name names ih =>
    rw [dirBelow_cons, ih, clean_join_name, List.append_assoc]
    rfl

/-- The names that lead to a directory below another can be read off its path. -/
theorem dirBelow_inj {dir : String} {ms ns : List Name} (h : dirBelow dir ms = dirBelow dir ns) :
    ms = ns := by
  have hclean := clean_dirBelow dir ms
  rw [h, clean_dirBelow] at hclean
  exact (Name.map_chars_inj (List.append_cancel_left hclean)).symm

/-- Below an absolute directory, the names lead down from its place. -/
theorem placeOf_dirBelow {dir : String} (habs : isAbsolute dir.toList = true) (names : List Name) :
    placeOf (dirBelow dir names) = placeOf dir ++ names.map Name.chars := by
  induction names generalizing dir with
  | nil => exact (List.append_nil _).symm
  | cons name names ih =>
    obtain ⟨hjoin, hplace⟩ := placeOf_join_name habs name
    rw [dirBelow_cons, ih hjoin, hplace, List.append_assoc]
    rfl

/-- Whether names lead down from a directory: a listing has a directory of the first name there, and
the others lead down from that one. -/
def Descends (listing : Listing) : String → List Name → Prop
  | _, [] => True
  | dir, name :: names =>
    (∃ entries, listing dir = .ok entries ∧ ⟨name.val, true⟩ ∈ entries) ∧
      Descends listing (Path.join dir name.val) names

/-- What a visit of an entry lists is what names that begin with the entry's lead to, if the walk
below the entry lists what names lead to. -/
theorem exists_descends_of_mem_visit {dir path : String} {entries : List Entry}
    (here : listing dir = .ok entries)
    (hbelow : ∀ {dir path d : String},
      d ∈ ((descend sieve depth dir path).run listing).listed →
        ∃ names, d = dirBelow dir names ∧ Descends listing dir names)
    {entry : Entry} (hentry : entry ∈ entries) (hname : IsName entry.name) {d : String}
    (hd : d ∈ ((visit sieve depth dir path entry).run listing).listed) :
    ∃ names, d = dirBelow dir (⟨entry.name, hname⟩ :: names) ∧
      Descends listing dir (⟨entry.name, hname⟩ :: names) := by
  obtain ⟨name, isDirectory⟩ := entry
  rw [listed_visit] at hd
  split at hd
  · next hopen =>
    obtain rfl : isDirectory = true := hopen.1
    obtain ⟨names, rfl, hdescends⟩ := hbelow hd
    exact ⟨names, rfl, ⟨entries, here, hentry⟩, hdescends⟩
  · cases hd

/-- What a walk below a directory lists is what names lead to from there. -/
theorem exists_descends_of_mem_listed (hproper : listing.Proper) {dir path d : String}
    (hd : d ∈ ((descend sieve depth dir path).run listing).listed) :
    ∃ names, d = dirBelow dir names ∧ Descends listing dir names := by
  induction depth generalizing dir path d with
  | zero => cases hd
  | succ depth ih =>
    rcases List.mem_cons.mp ((listed_descend_isPrefix listing dir path).subset hd) with rfl | hd
    · exact ⟨[], rfl, trivial⟩
    · cases hentries : listing dir with
      | error failure =>
        rw [hentries] at hd
        cases hd
      | ok entries =>
        rw [hentries] at hd
        obtain ⟨entry, hentry, hd⟩ := List.mem_flatMap.mp hd
        obtain ⟨names, hnames, hdescends⟩ := exists_descends_of_mem_visit hentries ih hentry
          (hproper dir entries hentries entry hentry) hd
        exact ⟨_, hnames, hdescends⟩

/-- A walk below one directory lists no directory twice. -/
theorem nodup_listed_descend (hproper : listing.Proper) (hdistinct : listing.Distinct)
    (dir path : String) : ((descend sieve depth dir path).run listing).listed.Nodup := by
  induction depth generalizing dir path with
  | zero => exact .nil
  | succ depth ih =>
    refine List.Pairwise.sublist (listed_descend_isPrefix listing dir path).sublist ?_
    cases hentries : listing dir with
    | error failure => exact List.nodup_singleton dir
    | ok entries =>
      have hvisit : ∀ entry ∈ entries, ∀ d ∈
          ((visit sieve depth dir path entry).run listing).listed, ∃ hname names,
            d = dirBelow dir (⟨entry.name, hname⟩ :: names) := by
        intro entry hentry d hd
        have hname := hproper dir entries hentries entry hentry
        obtain ⟨names, hnames, -⟩ := exists_descends_of_mem_visit hentries
          (exists_descends_of_mem_listed hproper) hentry hname hd
        exact ⟨hname, names, hnames⟩
      refine List.pairwise_cons.mpr ⟨?_, List.pairwise_flatMap.mpr ⟨?_, ?_⟩⟩
      · -- what is listed behind an entry lies below the directory itself
        intro d hd heq
        obtain ⟨entry, hentry, hd⟩ := List.mem_flatMap.mp hd
        obtain ⟨hname, names, hnames⟩ := hvisit entry hentry d hd
        have hnil : dirBelow dir [] = dirBelow dir _ := heq.trans hnames
        cases dirBelow_inj hnil
      · intro entry hentry
        rw [listed_visit]
        split
        · exact ih _ _
        · exact .nil
      · -- behind two entries the next names differ
        refine (List.pairwise_map.mp (hdistinct dir entries hentries)).imp_of_mem ?_
        rintro x y hx hy hne d hd e he rfl
        obtain ⟨_, ms, hms⟩ := hvisit x hx d hd
        obtain ⟨_, ns, hns⟩ := hvisit y hy d he
        have hfirst := (List.cons.inj (dirBelow_inj (hms.symm.trans hns))).1
        exact hne (congrArg Subtype.val hfirst)

/-- A walk below one absolute directory lists no place twice. -/
theorem pairwise_listed_descend (hproper : listing.Proper) (hdistinct : listing.Distinct)
    {dir path : String} (habs : isAbsolute dir.toList = true) :
    ((descend sieve depth dir path).run listing).listed.Pairwise
      fun d e => placeOf d ≠ placeOf e := by
  refine List.Pairwise.imp_of_mem ?_ (nodup_listed_descend hproper hdistinct dir path)
  intro d e hd he hne heq
  obtain ⟨ms, rfl, -⟩ := exists_descends_of_mem_listed hproper hd
  obtain ⟨ns, rfl, -⟩ := exists_descends_of_mem_listed hproper he
  rw [placeOf_dirBelow habs, placeOf_dirBelow habs] at heq
  exact hne (congrArg (dirBelow dir) (Name.map_chars_inj (List.append_cancel_left heq)))

/-! ## Bases and their directories -/

/-- Whether two bases have nothing but proper names behind parts that they share. -/
def Aligned (a b : String) : Prop :=
  ∃ shared as bs, Base.parts a = shared ++ as ∧ Base.parts b = shared ++ bs ∧
    (∀ p ∈ as, IsPlain p) ∧ ∀ p ∈ bs, IsPlain p

theorem Aligned.symm {a b : String} (h : Aligned a b) : Aligned b a := by
  obtain ⟨shared, as, bs, ha, hb, has, hbs⟩ := h
  exact ⟨shared, bs, as, hb, ha, hbs, has⟩

/-- Proper names neither start at the root nor go up. -/
theorem stays_of_plain {ps : List (List Char)} (h : ∀ p ∈ ps, IsPlain p) : Base.Stays ps := by
  constructor
  · intro hhead
    exact (h [] (List.mem_of_mem_head? hhead)).1 rfl
  · intro hhead
    exact (h _ (List.mem_of_mem_head? hhead)).2.2 rfl

/-- Of two aligned bases both are absolute or both are relative. -/
theorem Aligned.isAbsolute_eq {a b : String} (ha : a ≠ "") (hb : b ≠ "") (h : Aligned a b) :
    isAbsolute a.toList = isAbsolute b.toList := by
  obtain ⟨shared, as, bs, hpa, hpb, has, hbs⟩ := h
  rw [Bool.eq_iff_iff, Base.isAbsolute_iff ha, Base.isAbsolute_iff hb, hpa, hpb]
  cases shared with
  | nil => exact iff_of_false (stays_of_plain has).1 (stays_of_plain hbs).1
  | cons p ps => exact Iff.rfl

/-- A base that leads into the directory of another is contained in it, if they are aligned. -/
theorem contains_of_aligned (hroot : isAbsolute root.toList = true) {a b : String} (ha : a ≠ "")
    (hb : b ≠ "") (h : Aligned a b)
    (hplace : placeOf (startOf root a) <+: placeOf (startOf root b)) :
    Base.contains a b = true := by
  rw [placeOf_startOf_base hroot ha, placeOf_startOf_base hroot hb, h.isAbsolute_eq ha hb] at hplace
  obtain ⟨shared, as, bs, hpa, hpb, has, hbs⟩ := h
  -- both go the same way as far as they share parts, and from there by their names
  rw [hpa, hpb, ← List.append_assoc, ← List.append_assoc, clean_append_plain _ _ has,
    clean_append_plain _ _ hbs, List.prefix_append_right_inj] at hplace
  rw [Base.contains_iff ha hb]
  refine ⟨?_, ?_⟩
  · rw [hpa, hpb, List.prefix_append_right_inj]
    exact hplace
  · rintro rfl
    obtain ⟨rfl, -⟩ := List.append_eq_nil_iff.mp hpa.symm
    rw [hpb]
    exact stays_of_plain hbs

/-- Two bases of a search that are aligned do not both lead to a directory or above it. -/
theorem eq_of_aligned (hroot : isAbsolute root.toList = true) {a b : String}
    (ha : a ∈ basesOf includes) (hb : b ∈ basesOf includes) (h : Aligned a b)
    {place : List (List Char)} (haplace : placeOf (startOf root a) <+: place)
    (hbplace : placeOf (startOf root b) <+: place) : a = b := by
  have hspans := spans_basesOf includes
  have hane := ne_empty_of_mem_basesOf ha
  have hbne := ne_empty_of_mem_basesOf hb
  rcases List.prefix_or_prefix_of_prefix haplace hbplace with hab | hba
  · exact hspans.antichain a ha b hb (contains_of_aligned hroot hane hbne h hab)
  · exact (hspans.antichain b hb a ha (contains_of_aligned hroot hbne hane h.symm hba)).symm

/-! ## A whole search -/

/-- What is listed from a base is what the walk below its directory lists, if it is walked. -/
theorem listed_fromBase (listing : Listing) (base : String) :
    ((fromBase (Sieve.ofLists includes excludes) depth root base).run listing).listed =
      if base = "." ∨ ¬ Matched excludes base then
        ((descend (Sieve.ofLists includes excludes) depth (startOf root base)
          (pathOf base)).run listing).listed
      else [] := by
  have hwalked : (base ≠ "." ∧ (Sieve.ofLists includes excludes).excludes.accepts base = true) ↔
      ¬ (base = "." ∨ ¬ Matched excludes base) := by
    rw [not_or, not_not, ← accepts_ofList_iff]
    exact Iff.rfl
  by_cases h : base = "." ∨ ¬ Matched excludes base
  · rw [fromBase_walked (mt hwalked.mp (not_not_intro h)), if_pos h]
    rfl
  · rw [fromBase_excluded (hwalked.mpr h), if_neg h]
    rfl

/-- What a search lists is what gathering from its bases lists. -/
theorem listed_find (listing : Listing) :
    ((find depth root includes excludes).run listing).listed =
      ((gather (fromBase (Sieve.ofLists includes excludes) depth root)
        (basesOf includes)).run listing).listed := by
  rw [run_find]
  exact Run.listed_andThen_ok _ _

/-- What a search lists are the first of the directories that are listed from its bases. -/
theorem listed_find_isPrefix (listing : Listing) :
    ((find depth root includes excludes).run listing).listed <+:
      (basesOf includes).flatMap fun base =>
        ((fromBase (Sieve.ofLists includes excludes) depth root base).run listing).listed := by
  rw [listed_find]
  exact listed_gather_isPrefix listing _ _

/-- **Overlap.** A directory is listed twice only if it lies in the directories of two bases that
have more than proper names behind the parts that they share. -/
theorem pairwise_listed_find (hproper : listing.Proper) (hdistinct : listing.Distinct)
    (hroot : isAbsolute root.toList = true) :
    ((find depth root includes excludes).run listing).listed.Pairwise fun d e =>
      placeOf d = placeOf e →
        ∃ a ∈ walkedBases includes excludes, ∃ b ∈ walkedBases includes excludes, a ≠ b ∧
          placeOf (startOf root a) <+: placeOf d ∧ placeOf (startOf root b) <+: placeOf d ∧
          ¬ Aligned a b := by
  have hstart : ∀ base ∈ basesOf includes, isAbsolute (startOf root base).toList = true :=
    fun base hbase => (placeOf_startOf hroot (ne_empty_of_mem_basesOf hbase)).1
  have hfrom : ∀ base ∈ basesOf includes, ∀ d ∈
      ((fromBase (Sieve.ofLists includes excludes) depth root base).run listing).listed,
        base ∈ walkedBases includes excludes ∧ placeOf (startOf root base) <+: placeOf d := by
    intro base hbase d hd
    rw [listed_fromBase] at hd
    split at hd
    · next hwalked =>
      obtain ⟨names, rfl, -⟩ := exists_descends_of_mem_listed hproper hd
      exact ⟨List.mem_filter.mpr ⟨hbase, by simpa using hwalked⟩, _,
        (placeOf_dirBelow (hstart base hbase) names).symm⟩
    · cases hd
  refine List.Pairwise.sublist (listed_find_isPrefix listing).sublist ?_
  refine List.pairwise_flatMap.mpr ⟨fun base hbase => ?_, ?_⟩
  · rw [listed_fromBase]
    split
    · refine (pairwise_listed_descend hproper hdistinct (hstart base hbase)).imp ?_
      intro d e hne heq
      exact absurd heq hne
    · exact .nil
  · refine List.Pairwise.imp_of_mem ?_ (nodup_basesOf includes)
    intro a b ha hb hne d hd e he heq
    obtain ⟨hawalked, haplace⟩ := hfrom a ha d hd
    obtain ⟨hbwalked, hbplace⟩ := hfrom b hb e he
    rw [← heq] at hbplace
    exact ⟨a, hawalked, b, hbwalked, hne, haplace, hbplace, fun h =>
      hne (eq_of_aligned hroot ha hb h haplace hbplace)⟩

/-- Two bases that go down to one directory, the second by way of the parent of the root. -/
theorem pairwise_listed_find_spellings :
    ((find 2 "/r" ["a/*", "../r/a/*"] []).run
        (Tree.single (Tree.namesOf ["r", "a", "x"])).listing).listed = ["/r/a", "/r/a"] ∧
      ∃ a ∈ walkedBases ["a/*", "../r/a/*"] [], ∃ b ∈ walkedBases ["a/*", "../r/a/*"] [], a ≠ b ∧
        placeOf (startOf "/r" a) <+: placeOf "/r/a" ∧
        placeOf (startOf "/r" b) <+: placeOf "/r/a" ∧ ¬ Aligned a b := by
  have hrun : ((find 2 "/r" ["a/*", "../r/a/*"] []).run
      (Tree.single (Tree.namesOf ["r", "a", "x"])).listing).listed = ["/r/a", "/r/a"] := by rfl
  have hpairs : ((find 2 "/r" ["a/*", "../r/a/*"] []).run
      (Tree.single (Tree.namesOf ["r", "a", "x"])).listing).listed.Pairwise _ :=
    pairwise_listed_find (Tree.proper_listing _) (Tree.distinct_listing (Tree.distinct_single _))
      (by decide)
  rw [hrun] at hpairs
  exact ⟨hrun, (List.pairwise_cons.mp hpairs).1 "/r/a" List.mem_cons_self rfl⟩

/-- The root is listed from the base `.` and from the base `/`. -/
theorem not_nodup_listed :
    ¬ ∀ (t : Tree) (depth : Nat) (root : String) (includes excludes : List String), t.Distinct →
      isAbsolute root.toList = true → Path.normalize root = root →
      (((find depth root includes excludes).run t.listing).listed.map placeOf).Nodup := by
  intro h
  have hnodup := h (Tree.single (Tree.namesOf ["r", "f"])) 3 "/r" ["**", "/**"] []
    (Tree.distinct_single _) (by decide) (by decide)
  have hrun : ((find 3 "/r" ["**", "/**"] []).run
      (Tree.single (Tree.namesOf ["r", "f"])).listing).listed = ["/r", "/", "/r"] := by rfl
  rw [hrun] at hnodup
  exact absurd hnodup (by decide)

end PathSieve.Walk

import PathSieve.Proofs.Completeness
import PathSieve.Walk.Table

/-!
# A search is a filtered enumeration

Where a listing holds whole trees, what a search gives can be said without a walk. Take the bases
in their order, leave out those that are excluded, and enumerate all files below each of the others,
depth first and in the order of the listing. Of these keep the files that are selected and lie in no
excluded directory below their base (`find_eq_enumeration`). A walk does better than that, since it
never looks into an excluded directory, but it gives the same files in the same order.

- `Tree.files`: the full enumeration of a tree, and `Tree.height`: how deep it goes.
- `Listing.Holds`: a listing that gives a directory and, without failing, everything below it; the
  listing of a whole tree does (`Tree.holds_listing`).
- `pathFrom`: how a file is named below a base, said of the text alone.

The induction is on the tree that the listing holds. What it needs at each entry is that the names
behind the entry are kept in the whole tree exactly if they are kept in the subtree seen from there,
and that nothing behind an excluded directory is kept (`sifted_cons_iff`).
-/

namespace PathSieve

open Glob
open Text (pieces pieces_append_sep)

namespace Tree

/-! ## Full enumerations -/

mutual

/-- The files of a tree, each by the names that lead to it, in the order of the entries. -/
def files : Tree → List (List Name)
  | .file => [[]]
  | .directory entries => filesAmong entries

/-- The files of the trees among some entries. -/
def filesAmong : List (Name × Tree) → List (List Name)
  | [] => []
  | (name, t) :: entries => t.files.map (name :: ·) ++ filesAmong entries

end

mutual

/-- How many directories lie in one another. -/
def height : Tree → Nat
  | .file => 0
  | .directory entries => heightAmong entries + 1

/-- The height of the highest tree among some entries. -/
def heightAmong : List (Name × Tree) → Nat
  | [] => 0
  | (_, t) :: entries => max t.height (heightAmong entries)

end

theorem files_directory (entries : List (Name × Tree)) :
    (directory entries).files = entries.flatMap fun e => e.2.files.map (e.1 :: ·) := by
  rw [files]
  induction entries with
  | nil => rfl
  | cons e entries ih => rw [filesAmong, ih, List.flatMap_cons]

/-- The names that lead to a file below a directory begin with an entry's. -/
theorem ne_nil_of_mem_files {entries : List (Name × Tree)} {names : List Name}
    (h : names ∈ (directory entries).files) : names ≠ [] := by
  rw [files_directory] at h
  obtain ⟨e, -, hnames⟩ := List.mem_flatMap.mp h
  obtain ⟨rest, -, rfl⟩ := List.mem_map.mp hnames
  exact List.cons_ne_nil e.1 rest

theorem height_lt_of_mem {entries : List (Name × Tree)} {e : Name × Tree} (h : e ∈ entries) :
    e.2.height < (directory entries).height := by
  rw [height]
  induction entries with
  | nil => cases h
  | cons first entries ih =>
    rw [heightAmong]
    rcases List.mem_cons.mp h with rfl | h
    · omega
    · have hrest := ih h
      omega

/-- A directory of a tree is no higher than the tree. -/
theorem height_le_of_directoryAt? {t d : Tree} {place : List (List Char)}
    (h : t.directoryAt? place = some d) : d.height ≤ t.height := by
  induction place generalizing t with
  | nil =>
    unfold directoryAt? at h
    split at h
    · exact Option.some.inj h ▸ Nat.le_refl _
    · cases h
  | cons part place ih =>
    obtain ⟨sub, hsub, hd⟩ := Option.bind_eq_some_iff.mp h
    obtain ⟨name, -, hmem⟩ := mem_entries_of_below? hsub
    cases t with
    | file => cases hmem
    | directory entries => exact (ih hd).trans (height_lt_of_mem hmem).le

end Tree

/-! ## Listings of whole trees -/

/-- Whether a listing gives a directory and everything below it, as the tree has it. -/
inductive Listing.Holds (listing : Listing) : String → Tree → Prop
  | directory {dir : String} {entries : List (Name × Tree)}
      (here : listing dir = .ok (Tree.directory entries).listed)
      (below : ∀ e ∈ entries, e.2.isDirectory = true →
        Holds listing (Path.join dir e.1.val) e.2) :
      Holds listing dir (.directory entries)

namespace Tree

open PathSieve.Path (isAbsolute placeOf placeOf_join_name)

/-- The directory of an entry is found by the entry's name, if no other entry has it. -/
theorem below?_of_mem {entries : List (Name × Tree)} (names : (entries.map Prod.fst).Nodup)
    {e : Name × Tree} (h : e ∈ entries) (hdirectory : e.2.isDirectory = true) :
    (directory entries).below? e.1.chars = some e.2 := by
  cases hfound : entries.find? fun e' => e'.1.chars == e.1.chars && e'.2.isDirectory with
  | none =>
    have hnot := List.find?_eq_none.mp hfound e h
    simp [hdirectory] at hnot
  | some e' =>
    have hmem := List.mem_of_find?_eq_some hfound
    have htest := List.find?_some hfound
    rw [Bool.and_eq_true, beq_iff_eq] at htest
    have heq : e' = e := List.inj_on_of_nodup_map names hmem h (Name.chars_inj htest.1)
    show (entries.find? _).map Prod.snd = some e.2
    rw [hfound, heq]
    rfl

/-- The listing of a whole tree holds every directory of it. -/
theorem holds_listing {t d : Tree} (hd : d.Distinct) {dir : String}
    (habs : isAbsolute dir.toList = true) (hat : t.directoryAt? (placeOf dir) = some d)
    (hdirectory : d.isDirectory = true) : t.listing.Holds dir d := by
  induction hd generalizing dir with
  | file => cases hdirectory
  | @directory entries names _ ih =>
    refine .directory ?_ fun e he hsub => ?_
    · rw [Tree.listing, hat]
    · obtain ⟨hjoin, hplace⟩ := placeOf_join_name habs e.1
      refine ih e he hjoin ?_ hsub
      rw [hplace, directoryAt?_append, hat]
      exact below?_of_mem names he hsub

end Tree

namespace Walk

variable {listing : Listing} {sieve : Sieve}

/-! ## Below one directory -/

/-- Gathering over entries gives what each of them gives, one after the other. -/
theorem gives_gather_map {α β γ : Type} {step : β → Walk (List α)} {f : γ → β} {g : γ → List α}
    {xs : List γ} (h : ∀ x ∈ xs, Gives listing (step (f x)) (g x)) :
    Gives listing (gather step (xs.map f)) (xs.flatMap g) := by
  induction xs with
  | nil => exact gives_done.mpr rfl
  | cons x xs ih =>
    have hrest := ih fun y hy => h y (List.mem_cons_of_mem x hy)
    exact gives_gather_cons.mpr ⟨_, _, h x List.mem_cons_self, hrest, List.flatMap_cons⟩

/-- What gives nothing can be left out before gathering. -/
theorem gives_gather_filter {α β : Type} {step : β → Walk (List α)} {g : β → List α} {p : β → Bool}
    {xs : List β} (hout : ∀ x ∈ xs, p x = false → Gives listing (step x) [])
    (hin : ∀ x ∈ xs, p x = true → Gives listing (step x) (g x)) :
    Gives listing (gather step xs) ((xs.filter p).flatMap g) := by
  induction xs with
  | nil => exact gives_done.mpr rfl
  | cons x xs ih =>
    have hrest := ih (fun y hy => hout y (List.mem_cons_of_mem x hy))
      fun y hy => hin y (List.mem_cons_of_mem x hy)
    cases hp : p x with
    | false =>
      rw [List.filter_cons_of_neg (by simp [hp])]
      exact gives_gather_cons.mpr ⟨[], _, hout x List.mem_cons_self hp, hrest, rfl⟩
    | true =>
      rw [List.filter_cons_of_pos hp]
      exact gives_gather_cons.mpr
        ⟨_, _, hin x List.mem_cons_self hp, hrest, List.flatMap_cons⟩

/-- What is said of all proper beginnings of a list can be decided. -/
instance decidableForallBeginnings {α : Type} [DecidableEq α] (xs : List α) (P : List α → Prop)
    [DecidablePred P] : Decidable (∀ ys, ys ≠ [] → ys ≠ xs → ys <+: xs → P ys) :=
  decidable_of_iff (∀ ys ∈ xs.inits, ys ≠ [] → ys ≠ xs → P ys) <| by
    simp only [List.mem_inits]
    exact ⟨fun h ys hys hne hfront => h ys hfront hys hne,
      fun h ys hfront hys hne => h ys hys hne hfront⟩

instance (excludes : PatternSet) (path : String) (names : List Name) :
    Decidable (Open excludes path names) := by
  unfold Open
  infer_instance

/-- Whether what has the given names below a directory is selected, and lies in no excluded
directory on the way down to it. -/
def Sifted (sieve : Sieve) (path : String) (names : List Name) : Prop :=
  sieve.keeps (pathBelow path names) = true ∧ Open sieve.excludes path names

instance (sieve : Sieve) (path : String) (names : List Name) :
    Decidable (Sifted sieve path names) := by
  unfold Sifted
  infer_instance

/-- What lies behind an entry is sifted from above the entry exactly if it is sifted from there,
unless the entry is excluded. -/
theorem sifted_cons_iff {path : String} {name : Name} {names : List Name} (hne : names ≠ []) :
    Sifted sieve path (name :: names) ↔
      sieve.excludes.accepts (childPath path name.val) = false ∧
        Sifted sieve (childPath path name.val) names := by
  unfold Sifted
  rw [open_cons hne, pathBelow_cons]
  exact and_left_comm

theorem sifted_singleton_iff {path : String} {name : Name} :
    Sifted sieve path [name] ↔ sieve.keeps (childPath path name.val) = true :=
  and_iff_left (open_singleton _ _ _)

/-- The files of a tree that are sifted from a path, by their own paths. -/
def sift (sieve : Sieve) (path : String) (files : List (List Name)) : List String :=
  (files.filter fun names => Sifted sieve path names).map (pathBelow path)

theorem sift_flatMap {γ : Type} (sieve : Sieve) (path : String) (xs : List γ)
    (g : γ → List (List Name)) :
    sift sieve path (xs.flatMap g) = xs.flatMap fun x => sift sieve path (g x) := by
  rw [sift, List.filter_flatMap, List.map_flatMap]
  rfl

/-- One name that leads to a file leaves the file or nothing. -/
theorem sift_file (sieve : Sieve) (path : String) (name : Name) :
    sift sieve path (Tree.file.files.map (name :: ·)) =
      if sieve.keeps (childPath path name.val) then [childPath path name.val] else [] := by
  show ([[name]].filter _).map _ = _
  by_cases h : sieve.keeps (childPath path name.val) = true
  · have hsifted : Sifted sieve path [name] := sifted_singleton_iff.mpr h
    rw [if_pos h, List.filter_cons_of_pos (by simpa using hsifted)]
    rfl
  · have hsifted : ¬ Sifted sieve path [name] := mt sifted_singleton_iff.mp h
    rw [if_neg h, List.filter_cons_of_neg (by simpa using hsifted)]
    rfl

/-- Names that lead on from an excluded directory leave nothing. -/
theorem sift_excluded {path : String} {name : Name} {entries : List (Name × Tree)}
    (h : sieve.excludes.accepts (childPath path name.val) = true) :
    sift sieve path ((Tree.directory entries).files.map (name :: ·)) = [] := by
  rw [sift, List.map_eq_nil_iff, List.filter_eq_nil_iff]
  intro names hnames
  obtain ⟨rest, hrest, rfl⟩ := List.mem_map.mp hnames
  rw [decide_eq_true_iff, sifted_cons_iff (Tree.ne_nil_of_mem_files hrest), h]
  rintro ⟨hfirst, -⟩
  cases hfirst

/-- Names that lead on from a directory that is not excluded leave what they do from there. -/
theorem sift_directory {path : String} {name : Name} {entries : List (Name × Tree)}
    (h : sieve.excludes.accepts (childPath path name.val) = false) :
    sift sieve path ((Tree.directory entries).files.map (name :: ·)) =
      sift sieve (childPath path name.val) (Tree.directory entries).files := by
  rw [sift, List.filter_map, List.map_map, sift]
  show List.map (fun names => pathBelow path (name :: names)) _ = _
  congr 1
  refine List.filter_congr fun names hnames => ?_
  have hcons : Sifted sieve path (name :: names) ↔ _ :=
    sifted_cons_iff (Tree.ne_nil_of_mem_files hnames)
  rw [Function.comp_apply, decide_eq_decide, hcons]
  exact and_iff_right h

/-- A walk below a directory of which the listing holds everything gives the sifted files. -/
theorem gives_descend {dir : String} {t : Tree} (h : listing.Holds dir t) {depth : Nat}
    (hdepth : t.height ≤ depth) (path : String) :
    Gives listing (descend sieve depth dir path) (sift sieve path t.files) := by
  induction h generalizing depth path with
  | @directory dir entries here _ ih =>
    obtain ⟨depth, rfl⟩ : ∃ d, depth = d + 1 := by
      cases depth with
      | zero => cases hdepth
      | succ d => exact ⟨d, rfl⟩
    rw [descend_succ, Tree.files_directory, sift_flatMap]
    refine gives_list.mpr ⟨_, here, gives_gather_map fun e he => ?_⟩
    have hlower := Tree.height_lt_of_mem he
    obtain ⟨name, sub⟩ := e
    cases sub with
    | file => exact gives_visit_file.mpr (sift_file sieve path name)
    | directory held =>
      cases hexcluded : sieve.excludes.accepts (childPath path name.val) with
      | true => exact (gives_visit_excluded hexcluded).mpr (sift_excluded hexcluded)
      | false =>
        rw [sift_directory hexcluded]
        have hheld : (Tree.directory held).height ≤ depth :=
          Nat.le_of_lt_succ (Nat.lt_of_lt_of_le hlower hdepth)
        exact (gives_visit_directory hexcluded).mpr (ih _ he rfl hheld _)

/-! ## A whole search -/

/-- The path of a file below a base: the names with slashes between, behind the base and another
slash. The base `.` is left out, and `/` is a slash already. -/
def pathFrom (base : String) (names : List Name) : String :=
  if base = "." then relativePath names
  else if base = "/" then absolutePath names
  else base ++ "/" ++ relativePath names

/-- A walk names what it comes up with just so. -/
theorem pathFrom_eq_under {base : String} (h : base ≠ "") {names : List Name} (hne : names ≠ []) :
    pathFrom base names = under base names := by
  unfold pathFrom
  split
  · next hdot =>
    rw [hdot]
    exact relativePath_eq_under hne
  · next hdot =>
    split
    · next hslash =>
      rw [hslash]
      exact absolutePath_eq_under hne
    · next hslash =>
      refine eq_under_of_pieces h hne ?_
      rw [String.toList_append, String.toList_append, List.append_assoc]
      show pieces '/' (base.toList ++ '/' :: (relativePath names).toList) = _
      rw [pieces_append_sep, pieces_relativePath hne, Base.parts_of_ne hdot hslash]

/-- Whether patterns select a file below a base and exclude no directory on the way down to it. -/
def Picked (includes excludes : List String) (base : String) (names : List Name) : Prop :=
  Matched includes (pathFrom base names) ∧ ¬ Matched excludes (pathFrom base names) ∧
    ∀ ms, ms ≠ [] → ms ≠ names → ms <+: names → ¬ Matched excludes (pathFrom base ms)

theorem sifted_iff_picked {includes excludes : List String} {base : String} (h : base ≠ "")
    {names : List Name} (hne : names ≠ []) :
    Sifted (Sieve.ofLists includes excludes) (pathOf base) names ↔
      Picked includes excludes base names := by
  unfold Sifted Picked Open
  rw [keeps_ofLists_iff, pathFrom_eq_under h hne, and_assoc]
  refine and_congr_right' (and_congr_right' (forall_congr' fun ms => forall_congr' fun hms => ?_))
  rw [pathFrom_eq_under h hms, ← accepts_ofList_iff, Bool.not_eq_true]
  exact Iff.rfl

instance (includes excludes : List String) (base : String) (names : List Name) :
    Decidable (Picked includes excludes base names) := by
  unfold Picked
  infer_instance

/-- What is sifted of a tree below a base are the files that are picked. -/
theorem sift_eq_picked {includes excludes : List String} {base : String} (h : base ≠ "")
    {dir : String} {t : Tree} (hholds : listing.Holds dir t) :
    sift (Sieve.ofLists includes excludes) (pathOf base) t.files =
      (t.files.filter fun names => Picked includes excludes base names).map (pathFrom base) := by
  obtain ⟨-, -⟩ := hholds
  rw [sift, List.filter_congr fun names hnames => decide_eq_decide.mpr
    (sifted_iff_picked h (Tree.ne_nil_of_mem_files hnames))]
  refine List.map_congr_left fun names hnames => ?_
  have hne := Tree.ne_nil_of_mem_files (List.mem_of_mem_filter hnames)
  exact (pathFrom_eq_under h hne).symm

/-- The bases that a search walks, in their order: those that are not excluded, and `.` anyway. -/
def walkedBases (includes excludes : List String) : List String :=
  (basesOf includes).filter fun base => base = "." ∨ ¬ Matched excludes base

theorem mem_walkedBases_iff {includes excludes : List String} {base : String} :
    base ∈ walkedBases includes excludes ↔
      base ∈ basesOf includes ∧ (base = "." ∨ ¬ Matched excludes base) := by
  rw [walkedBases, List.mem_filter, decide_eq_true_iff]

/-- **Filtered enumeration.** Where a listing holds a whole tree at each base that is walked, a
search that may go as deep as these trees ends well. It gives, base by base, the files of the tree
in the order of a full enumeration, without those that are not picked. -/
theorem find_eq_enumeration {depth : Nat} {root : String} {includes excludes : List String}
    (tree : String → Tree)
    (hholds : ∀ base ∈ walkedBases includes excludes,
      listing.Holds (startOf root base) (tree base))
    (hdepth : ∀ base ∈ walkedBases includes excludes, (tree base).height ≤ depth) :
    ((find depth root includes excludes).run listing).outcome = .ok
      ⟨(walkedBases includes excludes).flatMap fun base =>
          ((tree base).files.filter fun names => Picked includes excludes base names).map
            (pathFrom base),
        (Sieve.ofLists includes excludes).errors⟩ := by
  refine gives_find.mpr ⟨_, gives_gather_filter (fun base hbase hout => ?_)
    fun base hbase hwalked => ?_, rfl⟩
  · rw [gives_fromBase, if_pos]
    have hexcluded := of_decide_eq_false hout
    rw [not_or, not_not] at hexcluded
    exact ⟨hexcluded.1, (accepts_ofList_iff excludes base).mpr hexcluded.2⟩
  · have hwalk := of_decide_eq_true hwalked
    have hmem : base ∈ walkedBases includes excludes := List.mem_filter.mpr ⟨hbase, hwalked⟩
    have hempty := ne_empty_of_mem_basesOf hbase
    rw [gives_fromBase, if_neg]
    · rw [← sift_eq_picked hempty (hholds base hmem)]
      exact gives_descend (hholds base hmem) (hdepth base hmem) (pathOf base)
    · rintro ⟨hdot, hexcluded⟩
      exact hwalk.resolve_left hdot ((accepts_ofList_iff excludes base).mp hexcluded)

/-- An excluded directory between files, seen from a relative root, and a second base. -/
theorem find_eq_enumeration_two :
    ∃ (t : Table) (tree : String → Tree),
      (∀ base ∈ walkedBases ["**", "/s/*"] ["c"], t.list.Holds (startOf "r" base) (tree base)) ∧
      (∀ base ∈ walkedBases ["**", "/s/*"] ["c"], (tree base).height ≤ 2) ∧
      ((find 2 "r" ["**", "/s/*"] ["c"]).run t.list).outcome =
        .ok ⟨["b", "d/y", "a", "/s/z"], []⟩ := by
  let t : Table := ⟨[("r", .ok [⟨"b", false⟩, ⟨"c", true⟩, ⟨"d", true⟩, ⟨"a", false⟩]),
    ("r/c", .ok [⟨"x", false⟩]), ("r/d", .ok [⟨"y", false⟩]), ("/s", .ok [⟨"z", false⟩])]⟩
  let inner : Tree := .directory [(⟨"b", by decide⟩, .file),
    (⟨"c", by decide⟩, .directory [(⟨"x", by decide⟩, .file)]),
    (⟨"d", by decide⟩, .directory [(⟨"y", by decide⟩, .file)]), (⟨"a", by decide⟩, .file)]
  let other : Tree := .directory [(⟨"z", by decide⟩, .file)]
  let tree : String → Tree := fun base => if base = "." then inner else other
  have hwalked : walkedBases ["**", "/s/*"] ["c"] = [".", "/s"] := by decide
  have hinner : t.list.Holds "r" inner := by
    refine .directory (by rfl) ?_
    simp only [List.forall_mem_cons]
    refine ⟨nofun, fun _ => .directory (by rfl) (by simp [Tree.isDirectory]),
      fun _ => .directory (by rfl) (by simp [Tree.isDirectory]), nofun, by simp⟩
  have hother : t.list.Holds "/s" other := .directory (by rfl) (by simp [Tree.isDirectory])
  have hholds : ∀ base ∈ walkedBases ["**", "/s/*"] ["c"],
      t.list.Holds (startOf "r" base) (tree base) := by
    rw [hwalked]
    exact List.forall_mem_cons.mpr ⟨hinner, List.forall_mem_singleton.mpr hother⟩
  have hheight : ∀ base ∈ walkedBases ["**", "/s/*"] ["c"], (tree base).height ≤ 2 := by
    rw [hwalked]
    decide
  refine ⟨t, tree, hholds, hheight, ?_⟩
  rw [find_eq_enumeration tree hholds hheight, hwalked]
  decide

end Walk

end PathSieve

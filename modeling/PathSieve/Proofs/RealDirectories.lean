import PathSieve.FileSystem.Operations
import PathSieve.Proofs.Following
import PathSieve.Proofs.Narrowing
import PathSieve.Proofs.Observation

/-!
# Searches of file systems

A listing of a file system reports links as entries that are no directories. So what a walk lists
below its first directory are places that real directories lead down to, whatever links there are
and wherever they lead: the first directory itself may be reached through links, but no other
(`FileSystem.directories_of_descends`). These places lie ever deeper, and a file system has finitely
many, so a search ends however deep it may go (`FileSystem.not_gaveUp_find`).

That takes paths that go straight. A base with `..` behind other parts is listed where its links
lead, while the paths of its entries have these parts taken back; they go straight, but from another
place. So such a base may cost the search one level more, and that is all.
-/

namespace PathSieve

open PathSieve.Path (Direct clean_of_no_dotDot direct_join dotDot isAbsolute)
open Text (pieces)

namespace Walk

variable {listing : Listing} {sieve : Sieve} {depth : Nat}

/-! ## Walks that end well -/

/-- Where a walk ends well, the walk below each directory that it lists is part of it. -/
theorem exists_gives_of_mem_listed (hproper : listing.Proper) {dir path : String}
    {paths : List String} (h : Gives listing (descend sieve depth dir path) paths)
    {names : List Name}
    (hd : dirBelow dir names ∈ ((descend sieve depth dir path).run listing).listed) :
    ∃ below given, Gives listing (descend sieve below (dirBelow dir names) (pathBelow path names))
      given ∧ given ⊆ paths := by
  induction names generalizing depth dir path paths with
  | nil => exact ⟨depth, paths, h, List.Subset.refl _⟩
  | cons name names ih =>
    cases depth with
    | zero => exact absurd h not_gives_abandon
    | succ depth =>
      rcases List.mem_cons.mp ((listed_descend_isPrefix listing dir path).subset hd) with hdir | hd
      · have hnil : dirBelow dir (name :: names) = dirBelow dir [] := hdir
        cases dirBelow_inj hnil
      · obtain ⟨entries, hentries, hgather⟩ := gives_list.mp h
        rw [hentries] at hd
        obtain ⟨⟨entry, isDirectory⟩, hentry, hd⟩ := List.mem_flatMap.mp hd
        obtain ⟨given, hgiven⟩ := (mem_of_gives_gather hgather).1 _ hentry
        rw [listed_visit] at hd
        split at hd
        · next hopen =>
          obtain ⟨rfl, hexcluded⟩ := hopen
          -- the names are those that lead on from the entry
          have hname := hproper dir entries hentries _ hentry
          obtain ⟨rest, hrest, -⟩ := exists_descends_of_mem_listed hproper hd
          have hcons : dirBelow dir (name :: names) = dirBelow dir (⟨entry, hname⟩ :: rest) := hrest
          obtain ⟨rfl, rfl⟩ := List.cons.inj (dirBelow_inj hcons)
          obtain ⟨below, inner, hinner, hsubset⟩ :=
            ih ((gives_visit_directory hexcluded).mp hgiven) hd
          refine ⟨below, inner, hinner, fun c hc => ?_⟩
          exact ((mem_of_gives_gather hgather).2 c).mpr ⟨_, hentry, given, hgiven, hsubset hc⟩
        · cases hd

end Walk

namespace FileSystem

open Walk

variable {fs : FileSystem} {here : Location} {dir : String}

/-! ## Listings of file systems -/

/-- Those directories have a list of entries that a path leads to. -/
theorem list_eq_ok_iff {entries : List Entry} :
    fs.list dir = .ok entries ↔
      ∃ here, fs.resolve .target dir = .ok (.existing here) ∧ fs.node? here = some .directory ∧
        entries = (fs.entriesAt here).mergeSort fun a b => Text.unitsLE a.name b.name := by
  unfold list
  cases hdir : fs.resolve .target dir with
  | error errno => simp
  | ok reached =>
    cases reached with
    | vacant slot => simp
    | existing here =>
      by_cases hnode : fs.node? here = some .directory
      · simp [hnode, eq_comm]
      · simp [hnode]

theorem listing_eq_ok_iff {entries : List Entry} :
    fs.listing dir = .ok entries ↔
      ∃ here, fs.resolve .target dir = .ok (.existing here) ∧ fs.node? here = some .directory ∧
        entries = (fs.entriesAt here).mergeSort fun a b => Text.unitsLE a.name b.name := by
  rw [← list_eq_ok_iff, listing]
  cases fs.list dir with
  | error e => simp [Except.mapError]
  | ok found => simp [Except.mapError]

/-- A file system never fails for want of depth. -/
theorem listing_ne_tooDeep (fs : FileSystem) (dir : String) :
    fs.listing dir ≠ .error (.caused .tooDeep) := by
  unfold listing
  cases fs.list dir with
  | error e => exact nofun
  | ok entries => exact nofun

/-- A file system holds one node at a place. -/
theorem mem_nodes_iff {slot : Slot} {node : Node} :
    (slot, node) ∈ fs.nodes ↔ fs.nodes.lookup slot = some node := by
  rw [List.lookup_eq_some_iff]
  constructor
  · intro h
    obtain ⟨before, after, hnodes⟩ := List.append_of_mem h
    refine ⟨before, after, hnodes, fun held hheld => ?_⟩
    have hdistinct := fs.distinct
    rw [hnodes, List.map_append, List.nodup_append] at hdistinct
    have hne := hdistinct.2.2 held.1 (List.mem_map_of_mem hheld) slot List.mem_cons_self
    simpa using hne.symm
  · rintro ⟨before, after, hnodes, -⟩
    rw [hnodes]
    exact List.mem_append_right before List.mem_cons_self

/-- The entries of a directory are what stands right below it. -/
theorem mem_entriesAt_iff {entry : Entry} :
    entry ∈ fs.entriesAt here ↔ ∃ name node, fs.node? (name :: here) = some node ∧
      entry = ⟨name.val, node = .directory⟩ := by
  rw [entriesAt, List.mem_map]
  constructor
  · rintro ⟨⟨⟨parent, name⟩, node⟩, hheld, rfl⟩
    obtain ⟨hmem, hparent⟩ := List.mem_filter.mp hheld
    obtain rfl : parent = here := of_decide_eq_true hparent
    exact ⟨name, node, mem_nodes_iff.mp hmem, rfl⟩
  · rintro ⟨name, node, hnode, rfl⟩
    refine ⟨(⟨here, name⟩, node), List.mem_filter.mpr ⟨mem_nodes_iff.mpr hnode, ?_⟩, rfl⟩
    exact decide_eq_true rfl

theorem mem_listing_iff {entries : List Entry} (h : fs.listing dir = .ok entries)
    (hdir : fs.resolve .target dir = .ok (.existing here)) {entry : Entry} :
    entry ∈ entries ↔ ∃ name node, fs.node? (name :: here) = some node ∧
      entry = ⟨name.val, node = .directory⟩ := by
  obtain ⟨place, hplace, -, rfl⟩ := listing_eq_ok_iff.mp h
  obtain rfl : place = here := by simpa [hdir, eq_comm] using hplace
  rw [List.mem_mergeSort, mem_entriesAt_iff]

theorem proper_listing (fs : FileSystem) : fs.listing.Proper := by
  intro dir entries h entry hentry
  obtain ⟨here, hdir, -, -⟩ := listing_eq_ok_iff.mp h
  obtain ⟨name, node, -, rfl⟩ := (mem_listing_iff h hdir).mp hentry
  exact name.property

/-- A directory holds one entry of each name. -/
theorem nodup_entriesAt (fs : FileSystem) (here : Location) :
    ((fs.entriesAt here).map Entry.name).Nodup := by
  rw [entriesAt, List.map_map]
  refine List.pairwise_map.mpr (List.Pairwise.imp_of_mem ?_
    ((List.pairwise_map.mp fs.distinct).filter _))
  rintro ⟨⟨parent, name⟩, node⟩ ⟨⟨parent', name'⟩, node'⟩ hheld hheld' hne heq
  obtain rfl : parent = here := of_decide_eq_true (List.mem_filter.mp hheld).2
  obtain rfl : parent' = parent := of_decide_eq_true (List.mem_filter.mp hheld').2
  obtain rfl : name = name' := Subtype.ext heq
  exact hne rfl

theorem distinct_listing (fs : FileSystem) : fs.listing.Distinct := by
  intro dir entries h
  obtain ⟨here, -, -, rfl⟩ := listing_eq_ok_iff.mp h
  have hperm := List.mergeSort_perm (fs.entriesAt here) fun a b => Text.unitsLE a.name b.name
  rw [(hperm.map Entry.name).nodup_iff]
  exact fs.nodup_entriesAt here

/-! ## Down by real directories -/

/-- Whether the given names lead down from a place by directories, so that no link is followed. -/
def Directories (fs : FileSystem) (here : Location) (names : List Name) : Prop :=
  ∀ ms, ms ≠ [] → ms <+: names → fs.node? (ms.reverse ++ here) = some .directory

theorem directories_nil (fs : FileSystem) (here : Location) : fs.Directories here [] :=
  fun _ hms hfront => absurd (List.prefix_nil.mp hfront) hms

theorem Directories.cons {name : Name} {names : List Name}
    (hname : fs.node? (name :: here) = some .directory)
    (h : fs.Directories (name :: here) names) : fs.Directories here (name :: names) := by
  intro ms hms hfront
  obtain ⟨m, ms, rfl⟩ := List.exists_cons_of_ne_nil hms
  obtain ⟨rfl, hrest⟩ := List.cons_prefix_cons.mp hfront
  rw [List.reverse_cons, List.append_assoc]
  by_cases hnil : ms = []
  · subst hnil
    exact hname
  · exact h ms hnil hrest

/-- Where names lead down from a directory by its listing, they lead down by directories, and what
they lead to is right there, if the path that they make leads anywhere. -/
theorem directories_of_descends (hdirect : Direct dir) {names : List Name}
    (hdir : ∀ reached, fs.resolve .target dir = .ok reached → reached = .existing here)
    (h : Descends fs.listing dir names) :
    fs.Directories here names ∧ ∀ reached,
      fs.resolve .target (dirBelow dir names) = .ok reached →
        reached = .existing (names.reverse ++ here) := by
  induction names generalizing dir here with
  | nil => exact ⟨directories_nil fs here, hdir⟩
  | cons name names ih =>
    obtain ⟨⟨entries, hentries, hmem⟩, hrest⟩ := h
    obtain ⟨place, hplace, -, -⟩ := listing_eq_ok_iff.mp hentries
    obtain rfl := Target.existing.inj (hdir _ hplace)
    have hname : fs.node? (name :: place) = some .directory := by
      obtain ⟨held, node, hnode, heq⟩ := (mem_listing_iff hentries hplace).mp hmem
      obtain ⟨hval, hdirectory⟩ := Entry.mk.inj heq
      obtain rfl : name = held := Subtype.ext hval
      rw [hnode, of_decide_eq_true hdirectory.symm]
    obtain ⟨hbelow, hreached⟩ := ih (direct_join dir name.val)
      (fun reached hjoin => resolve_join_name hdirect hplace hname hjoin) hrest
    refine ⟨hbelow.cons hname, fun reached hjoin => ?_⟩
    rw [List.reverse_cons, List.append_assoc]
    exact hreached reached hjoin

/-! ## Every search ends -/

/-- How many nodes stand in directories at a depth or further down. -/
def countBelow (fs : FileSystem) (depth : Nat) : Nat :=
  fs.nodes.countP fun held => depth ≤ held.1.parent.length

/-- Whether so many levels are enough for a walk from a directory: the directory has fewer nodes
below it, or there is none. -/
def Near (fs : FileSystem) (depth : Nat) (dir : String) : Prop :=
  Direct dir ∧ 0 < depth ∧ ∀ here, fs.resolve .target dir = .ok (.existing here) →
    fs.countBelow here.length < depth

theorem near_of_length_lt (hdirect : Direct dir) {depth : Nat} (h : fs.nodes.length < depth) :
    fs.Near depth dir :=
  ⟨hdirect, by omega, fun _ _ => Nat.lt_of_le_of_lt List.countP_le_length h⟩

/-- The directories in a directory are nearer to the end. -/
theorem near_join {depth : Nat} {entries : List Entry} (h : fs.Near (depth + 1) dir)
    (hentries : fs.listing dir = .ok entries) {name : String} (hmem : ⟨name, true⟩ ∈ entries) :
    fs.Near depth (Path.join dir name) := by
  obtain ⟨hdirect, -, hcount⟩ := h
  obtain ⟨here, hplace, -, -⟩ := listing_eq_ok_iff.mp hentries
  obtain ⟨held, node, hnode, heq⟩ := (mem_listing_iff hentries hplace).mp hmem
  obtain ⟨rfl, hdirectory⟩ := Entry.mk.inj heq
  obtain rfl : node = .directory := of_decide_eq_true hdirectory.symm
  have hslot : (⟨here, held⟩, .directory) ∈ fs.nodes := mem_nodes_iff.mpr hnode
  have hfewer : fs.countBelow (here.length + 1) < fs.countBelow here.length :=
    countP_succ_lt (f := fun held : Slot × Node => held.1.parent.length) hslot
  have hhere := hcount here hplace
  refine ⟨direct_join dir held.val, by omega, fun place hjoin => ?_⟩
  obtain rfl := Target.existing.inj (resolve_join_name hdirect hplace hnode hjoin)
  rw [List.length_cons]
  omega

/-- A search of a file system does not give up if it may go two levels deeper than the file system
has nodes. -/
theorem not_gaveUp_find (fs : FileSystem) {depth : Nat} (hdepth : fs.nodes.length + 2 ≤ depth)
    (root : String) (includes excludes : List String) :
    ¬ ((find depth root includes excludes).run fs.listing).GaveUp := by
  refine Walk.not_gaveUp_find fun base path => ?_
  -- only the first directory may be one that does not go straight
  refine not_gaveUp_descend (fun depth dir =>
    fs.nodes.length + 1 < depth ∨ fs.Near depth dir) fs.listing_ne_tooDeep ?_ ?_ (.inl hdepth)
  · rintro dir (hzero | ⟨-, hzero, -⟩) <;> omega
  · rintro depth dir entries (hlong | hnear) hentries name hmem
    · exact .inr (near_of_length_lt (direct_join dir name) (by omega))
    · exact .inr (near_join hnear hentries hmem)

/-! ## Below a directory, no link is followed -/

variable {sieve : Sieve} {depth : Nat} {path : String}

/-- Names lead down only from a directory. -/
theorem exists_place_of_descends {name : Name} {names : List Name}
    (h : Descends fs.listing dir (name :: names)) :
    ∃ here, fs.resolve .target dir = .ok (.existing here) := by
  obtain ⟨⟨entries, hentries, -⟩, -⟩ := h
  obtain ⟨here, hplace, -, -⟩ := listing_eq_ok_iff.mp hentries
  exact ⟨here, hplace⟩

/-- What a walk below a directory lists is that directory, or directories lead down to it. -/
theorem directories_of_mem_listed (hdirect : Direct dir) {d : String}
    (hd : d ∈ ((descend sieve depth dir path).run fs.listing).listed) :
    d = dir ∨ ∃ here names, names ≠ [] ∧ fs.resolve .target dir = .ok (.existing here) ∧
      d = dirBelow dir names ∧ fs.Directories here names ∧ ∀ reached,
        fs.resolve .target d = .ok reached → reached = .existing (names.reverse ++ here) := by
  obtain ⟨names, rfl, hdescends⟩ := exists_descends_of_mem_listed fs.proper_listing hd
  cases names with
  | nil => exact .inl rfl
  | cons name names =>
    obtain ⟨here, hplace⟩ := exists_place_of_descends hdescends
    have hdir : ∀ reached, fs.resolve .target dir = .ok reached → reached = .existing here :=
      fun reached h => Except.ok.inj (h.symm.trans hplace)
    obtain ⟨hbelow, hreached⟩ := directories_of_descends hdirect hdir hdescends
    exact .inr ⟨here, _, List.cons_ne_nil _ _, hplace, rfl, hbelow, hreached⟩

/-- A walk below a directory lists no place twice. -/
theorem pairwise_places_listed (hdirect : Direct dir) :
    ((descend sieve depth dir path).run fs.listing).listed.Pairwise fun d e =>
      ∀ here, fs.resolve .target d = .ok (.existing here) →
        fs.resolve .target e ≠ .ok (.existing here) := by
  refine List.Pairwise.imp_of_mem ?_
    (nodup_listed_descend fs.proper_listing fs.distinct_listing dir path)
  intro d e hd he hne place hdplace heplace
  obtain ⟨ms, rfl, hms⟩ := exists_descends_of_mem_listed fs.proper_listing hd
  obtain ⟨ns, rfl, hns⟩ := exists_descends_of_mem_listed fs.proper_listing he
  -- unless both are the directory itself, that one is somewhere
  obtain ⟨here, hplace⟩ : ∃ here, fs.resolve .target dir = .ok (.existing here) := by
    cases ms with
    | cons name ms => exact exists_place_of_descends hms
    | nil => exact ⟨place, hdplace⟩
  have hdir : ∀ reached, fs.resolve .target dir = .ok reached → reached = .existing here :=
    fun reached h => Except.ok.inj (h.symm.trans hplace)
  have hleft := (directories_of_descends hdirect hdir hms).2 _ hdplace
  have hright := (directories_of_descends hdirect hdir hns).2 _ heplace
  rw [hleft, Target.existing.injEq, List.append_left_inj, List.reverse_inj] at hright
  exact hne (congrArg (dirBelow dir) hright)

/-- Names that lead through something that is no directory lead to nothing that is listed. -/
theorem not_mem_listed_of_node (hdirect : Direct dir)
    (hdir : fs.resolve .target dir = .ok (.existing here)) {names : List Name} {name : Name}
    (hnode : fs.node? (name :: (names.reverse ++ here)) ≠ some .directory) (more : List Name) :
    dirBelow dir (names ++ name :: more) ∉
      ((descend sieve depth dir path).run fs.listing).listed := by
  intro hd
  obtain ⟨ns, hns, hdescends⟩ := exists_descends_of_mem_listed fs.proper_listing hd
  obtain rfl := dirBelow_inj hns
  have hbelow := (directories_of_descends hdirect
    (fun reached h => Except.ok.inj (h.symm.trans hdir)) hdescends).1
  have hname := hbelow (names ++ [name]) (by simp) (by simp)
  rw [List.reverse_append] at hname
  exact hnode hname

/-- A walk that ends well gives what is no directory, in a directory that it lists, exactly if it is
selected. -/
theorem mem_descend_iff_keeps (hdirect : Direct dir)
    (hdir : fs.resolve .target dir = .ok (.existing here)) {paths : List String}
    (h : Gives fs.listing (descend sieve depth dir path) paths) {names : List Name}
    (hd : dirBelow dir names ∈ ((descend sieve depth dir path).run fs.listing).listed)
    {name : Name} {node : Node} (hnode : fs.node? (name :: (names.reverse ++ here)) = some node)
    (hdirectory : node ≠ .directory) :
    pathBelow path (names ++ [name]) ∈ paths ↔
      sieve.keeps (pathBelow path (names ++ [name])) = true := by
  refine ⟨fun hmem => keeps_of_mem_descend h hmem, fun hkeeps => ?_⟩
  obtain ⟨below, given, hgives, hsubset⟩ := exists_gives_of_mem_listed fs.proper_listing h hd
  obtain ⟨ns, hns, hdescends⟩ := exists_descends_of_mem_listed fs.proper_listing hd
  obtain rfl := dirBelow_inj hns
  cases below with
  | zero => exact absurd hgives not_gives_abandon
  | succ below =>
    rw [descend_succ] at hgives
    obtain ⟨entries, hentries, hgather⟩ := gives_list.mp hgives
    obtain ⟨place, hplace, -, -⟩ := listing_eq_ok_iff.mp hentries
    obtain rfl := Target.existing.inj ((directories_of_descends hdirect
      (fun reached h => Except.ok.inj (h.symm.trans hdir)) hdescends).2 _ hplace)
    have hentry : ⟨name.val, false⟩ ∈ entries :=
      (mem_listing_iff hentries hplace).mpr ⟨name, node, hnode, by simp [hdirectory]⟩
    have hchild : pathBelow path (names ++ [name]) = childPath (pathBelow path names) name.val :=
      List.foldl_append
    refine hsubset (((mem_of_gives_gather hgather).2 _).mpr
      ⟨_, hentry, _, gives_visit_file.mpr rfl, ?_⟩)
    rw [hchild] at hkeeps ⊢
    rw [if_pos hkeeps]
    exact List.mem_singleton_self _

/-! ## Searches -/

variable {includes excludes : List String}

/-- The directory of a base without `..` has a path that goes straight. -/
theorem direct_startOf (root : String) {base : String} (h : dotDot ∉ pieces '/' base.toList) :
    Direct (startOf root base) := by
  unfold startOf
  split
  · exact clean_of_no_dotDot _ h
  · exact direct_join root base

/-- **Links.** A search of a file system ends, whatever links there are: it does not give up if it
may go two levels deeper than there are nodes, and going deeper makes no difference. And the walk
from a base without `..` follows no link but those on the way to its own directory. What else it
lists are places that directories lead down to from there, none of them twice. A link in a directory
that it lists is given exactly if it is selected, and nothing is listed through it. -/
theorem find_follows_no_link (fs : FileSystem) (root : String) (includes excludes : List String) :
    (∀ depth, fs.nodes.length + 2 ≤ depth →
      ¬ ((find depth root includes excludes).run fs.listing).GaveUp ∧
      (find depth root includes excludes).run fs.listing =
        (find (fs.nodes.length + 2) root includes excludes).run fs.listing) ∧
    ∀ base, dotDot ∉ pieces '/' base.toList → ∀ depth run,
      run = (fromBase (Sieve.ofLists includes excludes) depth root base).run fs.listing →
      (∀ d ∈ run.listed, d = startOf root base ∨
        ∃ here names, names ≠ [] ∧
          fs.resolve .target (startOf root base) = .ok (.existing here) ∧
          d = dirBelow (startOf root base) names ∧ fs.Directories here names ∧
          ∀ reached, fs.resolve .target d = .ok reached →
            reached = .existing (names.reverse ++ here)) ∧
      (run.listed.Pairwise fun d e => ∀ here, fs.resolve .target d = .ok (.existing here) →
        fs.resolve .target e ≠ .ok (.existing here)) ∧
      ∀ here names name target,
        fs.resolve .target (startOf root base) = .ok (.existing here) →
        dirBelow (startOf root base) names ∈ run.listed →
        fs.node? (name :: (names.reverse ++ here)) = some (.link target) →
        (∀ more, dirBelow (startOf root base) (names ++ name :: more) ∉ run.listed) ∧
        ∀ paths, run.outcome = .ok paths →
          (under base (names ++ [name]) ∈ paths ↔
            (Sieve.ofLists includes excludes).keeps (under base (names ++ [name])) = true) := by
  constructor
  · intro depth hdepth
    have hup := not_gaveUp_find fs (Nat.le_refl _) root includes excludes
    exact ⟨not_gaveUp_find fs hdepth root includes excludes, run_find_eq_of_le hdepth hup⟩
  · rintro base hup depth run rfl
    have hdirect := direct_startOf root hup
    rw [listed_fromBase]
    split
    · next hwalked =>
      refine ⟨fun d hd => directories_of_mem_listed hdirect hd, pairwise_places_listed hdirect, ?_⟩
      intro here names name target hdir hd hlink
      refine ⟨not_mem_listed_of_node hdirect hdir (by simp [hlink]), fun paths hpaths => ?_⟩
      exact mem_descend_iff_keeps hdirect hdir ((gives_fromBase_walked hwalked).mp hpaths) hd hlink
        nofun
    · refine ⟨fun d hd => absurd hd List.not_mem_nil, .nil, ?_⟩
      exact fun here names name target _ hd => absurd hd List.not_mem_nil

/-- A link that leads back to the directory above its own, below a root that is a link itself. -/
theorem find_follows_no_link_cycle :
    ∃ (fs : FileSystem) (r d up : Name), fs.nodes.length = 5 ∧
      ¬ ((find 7 "/s" ["**"] []).run fs.listing).GaveUp ∧
      ∃ run, run = (fromBase (Sieve.ofLists ["**"] []) 3 "/s" ".").run fs.listing ∧
        dotDot ∉ pieces '/' ".".toList ∧
        fs.resolve .target (startOf "/s" ".") = .ok (.existing [r]) ∧
        run.listed = ["/s", "/s/d"] ∧ dirBelow (startOf "/s" ".") [d] = "/s/d" ∧
        fs.node? [up, d, r] = some (.link "..") ∧
        (∀ more, dirBelow (startOf "/s" ".") (d :: up :: more) ∉ run.listed) ∧
        run.outcome = .ok ["d/f", "d/up"] ∧
        ("d/up" ∈ ["d/f", "d/up"] ↔ (Sieve.ofLists ["**"] []).keeps "d/up" = true) := by
  let r : Name := ⟨"r", by decide⟩
  let d : Name := ⟨"d", by decide⟩
  let up : Name := ⟨"up", by decide⟩
  let fs : FileSystem := {
    nodes := [(⟨[], r⟩, .directory), (⟨[r], d⟩, .directory),
      (⟨[d, r], ⟨"f", by decide⟩⟩, .file []), (⟨[d, r], up⟩, .link ".."),
      (⟨[], ⟨"s", by decide⟩⟩, .link "r")]
    cwd := []
    distinct := by decide }
  obtain ⟨hends, hwalk⟩ := find_follows_no_link fs "/s" ["**"] []
  have hbase : dotDot ∉ pieces '/' ".".toList := by decide
  have hdir : fs.resolve .target (startOf "/s" ".") = .ok (.existing [r]) := by decide +kernel
  have hroot : fs.listing "/s" = .ok [⟨"d", true⟩] :=
    listing_eq_ok_iff.mpr ⟨[r], hdir, rfl, (List.mergeSort_singleton _).symm⟩
  have hinner : fs.listing "/s/d" = .ok [⟨"f", false⟩, ⟨"up", false⟩] :=
    listing_eq_ok_iff.mpr ⟨[d, r], by decide +kernel, rfl,
      (List.mergeSort_of_pairwise (by decide)).symm⟩
  have hrun : (fromBase (Sieve.ofLists ["**"] []) 3 "/s" ".").run fs.listing =
      ⟨[.walkingBase "." "/s", .listed "/s", .listed "/s/d"], .ok ["d/f", "d/up"]⟩ := by
    let table : Listing := fun dir =>
      if dir = "/s" then .ok [⟨"d", true⟩] else .ok [⟨"f", false⟩, ⟨"up", false⟩]
    have htable : (fromBase (Sieve.ofLists ["**"] []) 3 "/s" ".").run table =
        ⟨[.walkingBase "." "/s", .listed "/s", .listed "/s/d"], .ok ["d/f", "d/up"]⟩ := by rfl
    rw [← htable]
    refine run_congr fun dir hdir => ?_
    rw [htable] at hdir
    rcases List.mem_pair.mp hdir with rfl | rfl
    · exact hroot
    · exact hinner
  have hbelow : dirBelow (startOf "/s" ".") [d] = "/s/d" := by decide
  have hlink : fs.node? [up, d, r] = some (.link "..") := by decide
  obtain ⟨-, -, hlinks⟩ := hwalk "." hbase 3 _ hrun.symm
  obtain ⟨hnone, hiff⟩ := hlinks [r] [d] up ".." hdir
    (by rw [hbelow]; exact List.mem_cons_of_mem _ List.mem_cons_self) hlink
  exact ⟨fs, r, d, up, rfl, (hends 7 (by decide)).1, _, hrun.symm, hbase, hdir, rfl, hbelow, hlink,
    hnone, rfl, hiff _ rfl⟩

end FileSystem

end PathSieve

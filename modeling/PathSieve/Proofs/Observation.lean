import PathSieve.Proofs.Overlap

/-!
# What a search can observe

A search knows a listing only by what it lists, and it lists only what it can come to: the
directories in which the walks from its bases start, and from there the directories of entries that
are not excluded (`Reached`). Two listings that agree on all of these are the same to the search,
event by event, whatever they hold and however they fail anywhere else (`run_find_congr`).

This is put together from two facts. A run depends on its listing at the directories that it lists
and nowhere else (`run_congr`), by induction on the walk. And what is listed can be come to, by the
very path that the exclude patterns are tried on (`exists_reached_of_mem_listed_find`), by induction
on the depth. The converse of the second holds where the search ends well, so that nothing smaller
would do for `Reached` (`mem_listed_find_iff`).
-/

namespace PathSieve.Walk

open Glob

variable {α : Type} {listing other : Listing} {depth : Nat} {root : String}
variable {includes excludes : List String} {found : Selection}

/-! ## Runs over two listings -/

/-- A listing that agrees with another wherever a run lists something gives the same run. -/
theorem run_congr {w : Walk α} (h : ∀ dir ∈ (w.run listing).listed, other dir = listing dir) :
    w.run other = w.run listing := by
  induction w with
  | done value => rfl
  | note event rest ih =>
    have hrest : rest.run other = rest.run listing := by
      refine ih fun dir hdir => h dir ?_
      rw [run, Run.after, Run.listed, List.filterMap_cons]
      split
      · exact hdir
      · exact List.mem_cons_of_mem _ hdir
    rw [run, run, hrest]
  | list dir next ih =>
    rw [listed_list] at h
    have hdir := h dir List.mem_cons_self
    cases hlisting : listing dir with
    | error failure =>
      rw [run_list_error next hlisting, run_list_error next (hdir.trans hlisting)]
    | ok entries =>
      rw [hlisting] at h
      rw [run_list_ok next hlisting, run_list_ok next (hdir.trans hlisting)]
      rw [ih entries fun d hd => h d (List.mem_cons_of_mem dir hd)]
  | abandon dir => rfl

/-! ## Directories that can be come to -/

/-- Whether a search can come to a directory by a path: a walk from a base starts there, or it is
the directory of an entry, not excluded, of a directory that the search can come to. -/
inductive Reached (listing : Listing) (root : String) (includes excludes : List String) :
    (dir path : String) → Prop
  | start {base : String} (walked : base ∈ walkedBases includes excludes) :
      Reached listing root includes excludes (startOf root base) (pathOf base)
  | entry {dir path name : String} {entries : List Entry}
      (above : Reached listing root includes excludes dir path)
      (here : listing dir = .ok entries) (mem : ⟨name, true⟩ ∈ entries)
      (opens : ¬ Matched excludes (childPath path name)) :
      Reached listing root includes excludes (Path.join dir name) (childPath path name)

/-- What is listed from a directory that can be come to can be come to. -/
theorem Reached.exists_of_mem_listed {dir path : String}
    (h : Reached listing root includes excludes dir path) {d : String}
    (hd : d ∈ ((descend (Sieve.ofLists includes excludes) depth dir path).run listing).listed) :
    ∃ p, Reached listing root includes excludes d p := by
  induction depth generalizing dir path with
  | zero => cases hd
  | succ depth ih =>
    rcases List.mem_cons.mp ((listed_descend_isPrefix listing dir path).subset hd) with rfl | hd
    · exact ⟨path, h⟩
    · cases hentries : listing dir with
      | error failure =>
        rw [hentries] at hd
        cases hd
      | ok entries =>
        rw [hentries] at hd
        obtain ⟨⟨name, isDirectory⟩, hentry, hd⟩ := List.mem_flatMap.mp hd
        rw [listed_visit] at hd
        split at hd
        · next hopen =>
          obtain ⟨rfl, hexcluded⟩ := hopen
          refine ih (.entry h hentries hentry ?_) hd
          exact accepts_ofList_eq_false_iff.mp hexcluded
        · cases hd

/-- What a search lists is listed from a base that is walked. -/
theorem exists_base_of_mem_listed_find {d : String}
    (hd : d ∈ ((find depth root includes excludes).run listing).listed) :
    ∃ base ∈ walkedBases includes excludes,
      d ∈ ((descend (Sieve.ofLists includes excludes) depth (startOf root base)
        (pathOf base)).run listing).listed := by
  obtain ⟨base, hbase, hd⟩ := List.mem_flatMap.mp ((listed_find_isPrefix listing).subset hd)
  rw [listed_fromBase] at hd
  split at hd
  · next hwalked => exact ⟨base, mem_walkedBases_iff.mpr ⟨hbase, hwalked⟩, hd⟩
  · cases hd

/-- What a search lists can be come to. -/
theorem exists_reached_of_mem_listed_find {d : String}
    (hd : d ∈ ((find depth root includes excludes).run listing).listed) :
    ∃ path, Reached listing root includes excludes d path := by
  obtain ⟨base, hbase, hd⟩ := exists_base_of_mem_listed_find hd
  exact (Reached.start hbase).exists_of_mem_listed hd

/-! ## Searches that end well -/

/-- A search that ends well lists all that is listed from a base that is walked. -/
theorem listed_subset_listed_find
    (h : Gives listing (find depth root includes excludes) found) {base : String}
    (hwalked : base ∈ walkedBases includes excludes) :
    ((descend (Sieve.ofLists includes excludes) depth (startOf root base)
        (pathOf base)).run listing).listed ⊆
      ((find depth root includes excludes).run listing).listed := by
  obtain ⟨paths, hgather, -⟩ := gives_find.mp h
  obtain ⟨hbase, hopen⟩ := mem_walkedBases_iff.mp hwalked
  intro d hd
  rw [listed_find, listed_gather hgather]
  refine List.mem_flatMap.mpr ⟨base, hbase, ?_⟩
  rwa [listed_fromBase, if_pos hopen]

/-- A walk below a directory that ends well gathers from the entries that the directory has. -/
theorem gives_gather_of_gives_descend {sieve : Sieve} {dir path : String} {paths : List String}
    {entries : List Entry} (h : Gives listing (descend sieve (depth + 1) dir path) paths)
    (here : listing dir = .ok entries) :
    Gives listing (gather (visit sieve depth dir path) entries) paths := by
  rw [descend_succ] at h
  obtain ⟨_, hentries, hgather⟩ := gives_list.mp h
  obtain rfl := Except.ok.inj (here.symm.trans hentries)
  exact hgather

/-- A walk below a directory that ends well lists all that is listed behind an entry that is not
excluded. -/
theorem listed_subset_listed_descend {sieve : Sieve} {dir path name : String} {paths : List String}
    {entries : List Entry} (h : Gives listing (descend sieve (depth + 1) dir path) paths)
    (here : listing dir = .ok entries) (mem : ⟨name, true⟩ ∈ entries)
    (hopen : sieve.excludes.accepts (childPath path name) = false) :
    ((descend sieve depth (Path.join dir name) (childPath path name)).run listing).listed ⊆
      ((descend sieve (depth + 1) dir path).run listing).listed := by
  intro d hd
  rw [descend_succ, listed_list, here]
  refine List.mem_cons_of_mem dir ?_
  show d ∈ ((gather (visit sieve depth dir path) entries).run listing).listed
  rw [listed_gather (gives_gather_of_gives_descend h here)]
  refine List.mem_flatMap.mpr ⟨⟨name, true⟩, mem, ?_⟩
  rwa [listed_visit, if_pos ⟨rfl, hopen⟩]

/-- Where a search ends well, the walk below each directory that it can come to is part of it. -/
theorem Reached.exists_gives {dir path : String}
    (h : Gives listing (find depth root includes excludes) found)
    (hreached : Reached listing root includes excludes dir path) :
    ∃ below paths, Gives listing
        (descend (Sieve.ofLists includes excludes) below dir path) paths ∧
      ((descend (Sieve.ofLists includes excludes) below dir path).run listing).listed ⊆
        ((find depth root includes excludes).run listing).listed := by
  induction hreached with
  | @start base walked =>
    obtain ⟨paths, hgather, -⟩ := gives_find.mp h
    obtain ⟨hbase, hopen⟩ := mem_walkedBases_iff.mp walked
    obtain ⟨given, hgiven⟩ := (mem_of_gives_gather hgather).1 base hbase
    have hdescend := (gives_fromBase_walked hopen).mp hgiven
    exact ⟨depth, given, hdescend, listed_subset_listed_find h walked⟩
  | @entry dir path name entries _ here mem opens ih =>
    obtain ⟨below, paths, hgives, hsubset⟩ := ih
    cases below with
    | zero => exact absurd hgives not_gives_abandon
    | succ below =>
      have hopen := accepts_ofList_eq_false_iff.mpr opens
      have hlisted := listed_subset_listed_descend hgives here mem hopen
      have hgather := gives_gather_of_gives_descend hgives here
      obtain ⟨given, hgiven⟩ := (mem_of_gives_gather hgather).1 ⟨name, true⟩ mem
      have hdescend := (gives_visit_directory hopen).mp hgiven
      exact ⟨below, given, hdescend, List.Subset.trans hlisted hsubset⟩

/-- A search that ends well lists just the directories that it can come to. -/
theorem mem_listed_find_iff (h : Gives listing (find depth root includes excludes) found)
    {d : String} :
    d ∈ ((find depth root includes excludes).run listing).listed ↔
      ∃ path, Reached listing root includes excludes d path := by
  constructor
  · exact exists_reached_of_mem_listed_find
  · rintro ⟨path, hreached⟩
    obtain ⟨below, paths, hgives, hsubset⟩ := hreached.exists_gives h
    cases below with
    | zero => exact absurd hgives not_gives_abandon
    | succ below =>
      refine hsubset ?_
      rw [descend_succ, listed_list]
      exact List.mem_cons_self

/-! ## What cannot be come to is not observed -/

/-- Without a readable pattern there is no base. -/
theorem basesOf_eq_nil (h : ∀ p ∈ includes, ∃ e, Pattern.ofText p = .error e) :
    basesOf includes = [] := by
  have hsources : (PatternSet.ofList includes).sources = [] := by
    rw [sources_ofList, List.filter_eq_nil_iff]
    intro p hp
    obtain ⟨e, he⟩ := h p hp
    rw [he]
    exact Bool.false_ne_true
  rw [basesOf, hsources]
  rfl

/-- **Observation.** Listings that agree on all the directories that a search can come to give the
same run: the same events in the same order, and the same result or error. A search without a
readable include pattern lists nothing at all. -/
theorem run_find_congr (depth : Nat) (root : String) (includes excludes : List String) :
    (∀ listing other : Listing,
      (∀ dir path, Reached listing root includes excludes dir path → other dir = listing dir) →
      (find depth root includes excludes).run other =
        (find depth root includes excludes).run listing) ∧
    ((∀ p ∈ includes, ∃ e, Pattern.ofText p = .error e) → ∀ listing : Listing,
      (find depth root includes excludes).run listing =
        ⟨[], .ok ⟨[], (Sieve.ofLists includes excludes).errors⟩⟩) := by
  constructor
  · intro listing other h
    refine run_congr fun dir hdir => ?_
    obtain ⟨path, hreached⟩ := exists_reached_of_mem_listed_find hdir
    exact h dir path hreached
  · intro h listing
    rw [run_find, basesOf_eq_nil h]
    rfl

/-- Two listings that differ in an excluded directory and beside the root, and in how they do: the
directory that one of them holds cannot be listed by the other. -/
theorem run_find_congr_excluded :
    ∃ listing other : Listing,
      (∀ dir path, Reached listing "/r" ["*/*"] ["x"] dir path → other dir = listing dir) ∧
      listing "/r/x" ≠ other "/r/x" ∧ listing "/q" ≠ other "/q" ∧
      (find 3 "/r" ["*/*"] ["x"]).run other = (find 3 "/r" ["*/*"] ["x"]).run listing ∧
      (find 3 "/r" ["["] ["x"]).run listing =
        ⟨[], .ok ⟨[], (Sieve.ofLists ["["] ["x"]).errors⟩⟩ := by
  let shared : List (String × Except Failure (List Entry)) :=
    [("/r", .ok [⟨"a", true⟩, ⟨"x", true⟩]), ("/r/a", .ok [⟨"f", false⟩])]
  let listing := Table.list ⟨("/r/x", .ok [⟨"g", false⟩]) :: shared⟩
  let other := Table.list ⟨("/q", .ok []) :: shared⟩
  have hreached : ∀ dir path, Reached listing "/r" ["*/*"] ["x"] dir path →
      dir = "/r" ∧ path = "" ∨ dir = "/r/a" ∧ path = "a" := by
    intro dir path h
    induction h with
    | @start base walked =>
      have hbases : walkedBases ["*/*"] ["x"] = ["."] := by decide
      rw [hbases, List.mem_singleton] at walked
      subst walked
      exact .inl ⟨by decide, by decide⟩
    | @entry dir path name entries _ here mem opens ih =>
      rcases ih with ⟨rfl, rfl⟩ | ⟨rfl, rfl⟩
      · have hlisted : listing "/r" = .ok [⟨"a", true⟩, ⟨"x", true⟩] := by rfl
        obtain rfl := Except.ok.inj (hlisted.symm.trans here)
        obtain rfl | rfl : name = "a" ∨ name = "x" := by simpa using mem
        · exact .inr ⟨by decide, by decide⟩
        · exact absurd (by decide) opens
      · have hlisted : listing "/r/a" = .ok [⟨"f", false⟩] := by rfl
        obtain rfl := Except.ok.inj (hlisted.symm.trans here)
        simp at mem
  have hagree : ∀ dir path, Reached listing "/r" ["*/*"] ["x"] dir path →
      other dir = listing dir := by
    intro dir path h
    rcases hreached dir path h with ⟨rfl, -⟩ | ⟨rfl, -⟩ <;> rfl
  have hunreadable : ∀ p ∈ ["["], ∃ e, Pattern.ofText p = .error e :=
    List.forall_mem_singleton.mpr ⟨⟨"[", .openClass⟩, by decide⟩
  refine ⟨listing, other, hagree, ?_, ?_, (run_find_congr 3 "/r" ["*/*"] ["x"]).1 _ _ hagree,
    (run_find_congr 3 "/r" ["["] ["x"]).2 hunreadable listing⟩
  · exact nofun
  · exact nofun

end PathSieve.Walk

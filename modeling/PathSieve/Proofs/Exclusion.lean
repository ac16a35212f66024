import PathSieve.Proofs.Found

/-!
# What lies in an excluded directory

An excluded directory is left out with everything under it, as far as the walk comes past it. A walk
meets its base and the directories below, never those above: an excluded directory on the path of
something that was found lies above the base, where nothing looks for it.

None of this takes a tree, or a root of any kind, only that the entries listed have proper names. So
the walk below one directory is followed once more, by its own recursion.
-/

namespace PathSieve

/-- Whether a listing gives entries with proper names only. -/
def Listing.Proper (listing : Listing) : Prop :=
  ∀ dir entries, listing dir = .ok entries → ∀ e ∈ entries, IsName e.name

theorem Tree.proper_listing (t : Tree) : t.listing.Proper := by
  intro dir entries h e he
  unfold Tree.listing at h
  split at h
  · next d hd =>
    rw [← Except.ok.inj h] at he
    obtain ⟨⟨name, sub⟩, -, rfl⟩ := List.mem_map.mp he
    exact name.property
  · cases h

namespace Walk

variable {listing : Listing} {sieve : Sieve} {depth : Nat} {root : String}
variable {includes excludes : List String} {found : Selection}

/-! ## Below one directory -/

/-- To what a walk below a directory gives, names lead past no directory that is excluded. -/
theorem exists_names_of_mem_descend (hproper : listing.Proper) {dir path : String}
    {paths : List String} (h : Gives listing (descend sieve depth dir path) paths) {c : String}
    (hc : c ∈ paths) :
    ∃ names, names ≠ [] ∧ c = pathBelow path names ∧ Open sieve.excludes path names := by
  induction depth generalizing dir path paths with
  | zero => exact absurd h not_gives_abandon
  | succ depth ih =>
    rw [descend_succ] at h
    obtain ⟨entries, hentries, hgather⟩ := gives_list.mp h
    obtain ⟨entry, hentry, given, hgiven, hc⟩ := ((mem_of_gives_gather hgather).2 c).mp hc
    have hname := hproper dir entries hentries entry hentry
    rcases mem_visit hgiven hc with ⟨-, rfl, -⟩ | ⟨-, hfirst, hbelow⟩
    · exact ⟨[⟨entry.name, hname⟩], by simp, rfl, open_singleton _ _ _⟩
    · obtain ⟨names, hne, rfl, hopen⟩ := ih hbelow hc
      exact ⟨⟨entry.name, hname⟩ :: names, by simp, rfl, (open_cons hne).mpr ⟨hfirst, hopen⟩⟩

/-! ## A whole search -/

/-- What a search finds lies under a base, and its excluded ancestors are those of the base. -/
theorem exists_base_of_mem_find (hproper : listing.Proper)
    (h : Gives listing (find depth root includes excludes) found) {c : String}
    (hc : c ∈ found.paths) :
    ∃ base ∈ basesOf includes, IsUnder base c ∧
      ∀ dir, Matched excludes dir → (IsAncestor dir c ↔ IsAncestor dir base) := by
  obtain ⟨paths, hgather, rfl⟩ := gives_find.mp h
  obtain ⟨base, hbase, given, hgiven, hc⟩ := ((mem_of_gives_gather hgather).2 c).mp hc
  have hempty := ne_empty_of_mem_basesOf hbase
  rw [gives_fromBase] at hgiven
  split at hgiven
  · rw [hgiven] at hc
    cases hc
  · next hwalked =>
    rw [not_and_or, not_not] at hwalked
    obtain ⟨names, hne, rfl, hopen⟩ := exists_names_of_mem_descend hproper hgiven hc
    have hbaseopen : base = "." ∨ ¬ Matched excludes base :=
      hwalked.imp_right (mt (accepts_ofList_iff excludes base).mpr)
    exact ⟨base, hbase, ⟨names, hne, rfl⟩,
      (open_iff_ancestors hempty hne excludes).mp ⟨hbaseopen, hopen⟩⟩

/-- **Excluded ancestors.** A directory that an exclude pattern matches is an ancestor of a path
that was found exactly if it is an ancestor of a base that the path lies under. So nothing is found
in an excluded directory unless the directory is above a base. -/
theorem isAncestor_iff_of_mem_find (hproper : listing.Proper)
    (h : ((find depth root includes excludes).run listing).outcome = .ok found) {c : String}
    (hc : c ∈ found.paths) {dir : String} (hdir : Matched excludes dir) :
    IsAncestor dir c ↔ ∃ base ∈ basesOf includes, IsUnder base c ∧ IsAncestor dir base := by
  constructor
  · intro habove
    obtain ⟨base, hbase, hunder, hancestors⟩ := exists_base_of_mem_find hproper h hc
    exact ⟨base, hbase, hunder, (hancestors dir hdir).mp habove⟩
  · rintro ⟨base, hbase, ⟨names, hne, rfl⟩, habove⟩
    exact (isAncestor_under_iff (ne_empty_of_mem_basesOf hbase) hne).mpr (.inl habove)

/-- The two sides for a file three directories down, found from a base that starts one up. -/
theorem isAncestor_iff_of_mem_find_deep :
    IsAncestor "a" "a/b/c/x" ↔
      ∃ base ∈ basesOf ["a/b/**"], IsUnder base "a/b/c/x" ∧ IsAncestor "a" base := by
  have hrun : ((find 4 "/r" ["a/b/**"] ["a"]).run
      (Tree.single (Tree.namesOf ["r", "a", "b", "c", "x"])).listing).outcome =
        .ok ⟨["a/b/c/x"], []⟩ := by rfl
  exact isAncestor_iff_of_mem_find (Tree.proper_listing _) hrun (by decide) (by decide)

/-- The directory `a` is excluded, and a file in it is found from the base `a/b`. -/
theorem mem_find_below_excluded :
    ∃ found, ((find 4 "/r" ["a/b/*"] ["a"]).run
        (Tree.single (Tree.namesOf ["r", "a", "b", "x"])).listing).outcome = .ok found ∧
      "a/b/x" ∈ found.paths ∧ Matched ["a"] "a" ∧ IsAncestor "a" "a/b/x" :=
  ⟨⟨["a/b/x"], []⟩, by rfl, by decide, by decide, by decide⟩

end Walk

end PathSieve

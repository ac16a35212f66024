import PathSieve.Proofs.Overlap

/-!
# Searches with more exclude patterns

More exclude patterns only take away. A search that ends well still does with more of them; it finds
a part of what it found and lists a part of what it listed, both in the order they were in
(`find_append_excludes`). The other way round nothing holds: what is newly excluded may be what a
search failed at.

Two walks over the same listing are compared at once, one of which leaves out more (`Narrows`).
Gathering keeps this, and so do the three things a walk does with an entry: a file is kept or not, a
directory is left out or gone into. So it holds of the walks below one directory by induction on the
depth (`narrows_descend`), for any two sieves of which one is stricter (`Sieve.Stricter`).

What a search finds is kept by its sieve, so that selecting from it takes nothing more away. That is
why a search finds a part of what is selected from a search that excludes nothing (`select_find`).
-/

namespace PathSieve

open Glob

/-- Whether a sieve keeps no more than another and excludes no less. -/
structure Sieve.Stricter (strict sieve : Sieve) : Prop where
  keeps : ∀ path, strict.keeps path = true → sieve.keeps path = true
  excludes : ∀ path, sieve.excludes.accepts path = true → strict.excludes.accepts path = true

/-- Excluding more makes a sieve stricter. -/
theorem Sieve.stricter_ofLists {includes excludes excludes' : List String}
    (h : ∀ path, Matched excludes path → Matched excludes' path) :
    (Sieve.ofLists includes excludes').Stricter (Sieve.ofLists includes excludes) where
  keeps path hkeeps := by
    obtain ⟨hincluded, hexcluded⟩ := (Walk.keeps_ofLists_iff _ _ _).mp hkeeps
    exact (Walk.keeps_ofLists_iff _ _ _).mpr ⟨hincluded, mt (h path) hexcluded⟩
  excludes path haccepts := by
    have hmatched := (accepts_ofList_iff excludes path).mp haccepts
    exact (accepts_ofList_iff excludes' path).mpr (h path hmatched)

namespace Walk

variable {α β : Type} {listing : Listing} {sieve strict : Sieve} {depth : Nat} {root : String}
variable {includes excludes excludes' : List String} {found : Selection}

/-! ## Walks that leave out more -/

/-- Whether a walk ends well wherever another does, gives a part of what that one gives and lists a
part of what it lists. -/
def Narrows (listing : Listing) (narrow wide : Walk (List α)) : Prop :=
  ∀ values, Gives listing wide values →
    ∃ fewer, Gives listing narrow fewer ∧ fewer.Sublist values ∧
      (narrow.run listing).listed.Sublist (wide.run listing).listed

/-- A walk that gives nothing and lists nothing leaves out more than any. -/
theorem narrows_of_nothing {narrow wide : Walk (List α)} (hgives : Gives listing narrow [])
    (hlisted : (narrow.run listing).listed = []) : Narrows listing narrow wide := by
  intro values _
  rw [hlisted]
  exact ⟨[], hgives, List.nil_sublist _, List.nil_sublist _⟩

/-- Listing the same directory first changes nothing. -/
theorem Narrows.list {narrow wide : List Entry → Walk (List α)} (dir : String)
    (h : ∀ entries, Narrows listing (narrow entries) (wide entries)) :
    Narrows listing (.list dir narrow) (.list dir wide) := by
  intro values hvalues
  obtain ⟨entries, hentries, hwide⟩ := gives_list.mp hvalues
  obtain ⟨fewer, hnarrow, hsub, hlisted⟩ := h entries values hwide
  refine ⟨fewer, gives_list.mpr ⟨entries, hentries, hnarrow⟩, hsub, ?_⟩
  rw [listed_list, listed_list, hentries]
  exact hlisted.cons_cons dir

/-- Gathering steps that leave out more leaves out more. -/
theorem narrows_gather {narrow wide : β → Walk (List α)} {xs : List β}
    (h : ∀ x ∈ xs, Narrows listing (narrow x) (wide x)) :
    Narrows listing (gather narrow xs) (gather wide xs) := by
  induction xs with
  | nil => exact fun values hvalues => ⟨values, hvalues, List.Sublist.refl _, List.Sublist.refl _⟩
  | cons x xs ih =>
    intro values hvalues
    obtain ⟨first, others, hfirst, hothers, rfl⟩ := gives_gather_cons.mp hvalues
    obtain ⟨first', hfirst', hsub, hlisted⟩ := h x List.mem_cons_self first hfirst
    obtain ⟨others', hothers', hsubs, hlisteds⟩ :=
      ih (fun y hy => h y (List.mem_cons_of_mem x hy)) others hothers
    refine ⟨first' ++ others', gives_gather_cons.mpr ⟨_, _, hfirst', hothers', rfl⟩,
      hsub.append hsubs, ?_⟩
    rw [listed_gather_cons hfirst, listed_gather_cons hfirst']
    exact hlisted.append hlisteds

/-! ## Below one directory -/

/-- A visit with a stricter sieve leaves out more, if the walk below the entry does. -/
theorem narrows_visit (h : strict.Stricter sieve) {dir path : String}
    (hbelow : ∀ dir path, Narrows listing (descend strict depth dir path)
      (descend sieve depth dir path)) (entry : Entry) :
    Narrows listing (visit strict depth dir path entry) (visit sieve depth dir path entry) := by
  obtain ⟨name, isDirectory⟩ := entry
  cases isDirectory with
  | false =>
    intro values hvalues
    refine ⟨_, gives_visit_file.mpr rfl, ?_, List.Sublist.refl _⟩
    rw [gives_visit_file.mp hvalues]
    by_cases hkeeps : strict.keeps (childPath path name) = true
    · rw [if_pos hkeeps, if_pos (h.keeps _ hkeeps)]
    · rw [if_neg hkeeps]
      exact List.nil_sublist _
  | true =>
    cases hexcluded : strict.excludes.accepts (childPath path name) with
    | true =>
      refine narrows_of_nothing ((gives_visit_excluded hexcluded).mpr rfl) ?_
      rw [listed_visit, hexcluded]
      rfl
    | false =>
      -- what the stricter sieve does not exclude, the other does not either
      have hopen : sieve.excludes.accepts (childPath path name) = false :=
        Bool.eq_false_iff.mpr fun haccepts =>
          Bool.false_ne_true (hexcluded.symm.trans (h.excludes _ haccepts))
      rw [visit_directory hexcluded, visit_directory hopen]
      exact hbelow _ _

/-- A walk below a directory leaves out more with a stricter sieve. -/
theorem narrows_descend (h : strict.Stricter sieve) (dir path : String) :
    Narrows listing (descend strict depth dir path) (descend sieve depth dir path) := by
  induction depth generalizing dir path with
  | zero => exact fun values hvalues => absurd hvalues not_gives_abandon
  | succ depth ih =>
    rw [descend_succ, descend_succ]
    refine Narrows.list dir fun entries => narrows_gather fun entry _ => ?_
    exact narrows_visit h ih entry

/-! ## A whole search -/

/-- A walk from a base leaves out more with a stricter sieve. -/
theorem narrows_fromBase (h : strict.Stricter sieve) (base : String) :
    Narrows listing (fromBase strict depth root base) (fromBase sieve depth root base) := by
  by_cases hexcluded : base ≠ "." ∧ strict.excludes.accepts base = true
  · rw [fromBase_excluded hexcluded]
    exact narrows_of_nothing rfl rfl
  · have hopen : ¬ (base ≠ "." ∧ sieve.excludes.accepts base = true) := by
      rintro ⟨hdot, haccepts⟩
      exact hexcluded ⟨hdot, h.excludes base haccepts⟩
    rw [fromBase_walked hexcluded, fromBase_walked hopen]
    exact narrows_descend h _ _

/-- A search that ends well does so with more excluded too. It finds a part of what it found then,
and lists a part of what it listed. -/
theorem exists_narrower_find (hmore : ∀ path, Matched excludes path → Matched excludes' path)
    (h : Gives listing (find depth root includes excludes) found) :
    ∃ fewer, Gives listing (find depth root includes excludes') fewer ∧
      fewer.paths.Sublist found.paths ∧
      ((find depth root includes excludes').run listing).listed.Sublist
        ((find depth root includes excludes).run listing).listed := by
  obtain ⟨paths, hgather, rfl⟩ := gives_find.mp h
  have hstricter : (Sieve.ofLists includes excludes').Stricter (Sieve.ofLists includes excludes) :=
    Sieve.stricter_ofLists hmore
  obtain ⟨fewer, hfewer, hsub, hlisted⟩ :=
    narrows_gather (fun base _ => narrows_fromBase hstricter base) paths hgather
  refine ⟨_, gives_find.mpr ⟨fewer, hfewer, rfl⟩, hsub, ?_⟩
  rwa [listed_find, listed_find]

/-- **Narrowing.** A search that ends well ends well with more exclude patterns too. What it finds
then is found without them in the same order, and what it lists then is listed without them in the
same order. -/
theorem find_append_excludes
    (h : ((find depth root includes excludes).run listing).outcome = .ok found)
    (more : List String) :
    ∃ fewer, ((find depth root includes (excludes ++ more)).run listing).outcome = .ok fewer ∧
      fewer.paths.Sublist found.paths ∧
      ((find depth root includes (excludes ++ more)).run listing).listed.Sublist
        ((find depth root includes excludes).run listing).listed :=
  exists_narrower_find (fun _ hmatched => hmatched.append more) h

/-- A directory that cannot be listed is excluded before, and one further down afterwards too. -/
theorem find_append_excludes_inner :
    ∃ (listing : Listing) (fewer : Selection),
      ((find 4 "/r" ["**"] ["b"]).run listing).outcome = .ok ⟨["a/y", "a/c/z", "f"], []⟩ ∧
      ((find 4 "/r" ["**"] (["b"] ++ ["a/c"])).run listing).outcome = .ok fewer ∧
      fewer.paths.Sublist ["a/y", "a/c/z", "f"] ∧
      ((find 4 "/r" ["**"] (["b"] ++ ["a/c"])).run listing).listed.Sublist
        ((find 4 "/r" ["**"] ["b"]).run listing).listed := by
  let listing := Table.list ⟨[("/r", .ok [⟨"b", true⟩, ⟨"a", true⟩, ⟨"f", false⟩]),
    ("/r/a", .ok [⟨"y", false⟩, ⟨"c", true⟩]), ("/r/a/c", .ok [⟨"z", false⟩])]⟩
  have hrun : ((find 4 "/r" ["**"] ["b"]).run listing).outcome =
      .ok ⟨["a/y", "a/c/z", "f"], []⟩ := by rfl
  obtain ⟨fewer, hfewer, hsub, hlisted⟩ := find_append_excludes hrun ["a/c"]
  exact ⟨listing, fewer, hrun, hfewer, hsub, hlisted⟩

-- what is newly excluded may be what the search failed at
example :
    let listing := Table.list ⟨[("/r", .ok [⟨"a", true⟩])]⟩
    ((find 3 "/r" ["**"] []).run listing).outcome = .error (.unlisted "/r/a"
        (.system { errno := .noEntry, call := "scandir", paths := ["/r/a"] })) ∧
      ((find 3 "/r" ["**"] ["a"]).run listing).outcome = .ok ⟨[], []⟩ :=
  ⟨by rfl, by rfl⟩

/-! ## Selecting from what was found -/

/-- What a walk below a directory gives is kept. -/
theorem keeps_of_mem_descend {dir path : String} {paths : List String}
    (h : Gives listing (descend sieve depth dir path) paths) {c : String} (hc : c ∈ paths) :
    sieve.keeps c = true := by
  induction depth generalizing dir path paths with
  | zero => exact absurd h not_gives_abandon
  | succ depth ih =>
    rw [descend_succ] at h
    obtain ⟨entries, -, hgather⟩ := gives_list.mp h
    obtain ⟨entry, -, given, hgiven, hc⟩ := ((mem_of_gives_gather hgather).2 c).mp hc
    rcases mem_visit hgiven hc with ⟨-, rfl, hkeeps⟩ | ⟨-, -, hbelow⟩
    · exact hkeeps
    · exact ih hbelow hc

/-- What a search finds is kept by its own sieve. -/
theorem keeps_of_mem_find (h : Gives listing (find depth root includes excludes) found)
    {c : String} (hc : c ∈ found.paths) : (Sieve.ofLists includes excludes).keeps c = true := by
  obtain ⟨paths, hgather, rfl⟩ := gives_find.mp h
  obtain ⟨base, -, given, hgiven, hc⟩ := ((mem_of_gives_gather hgather).2 c).mp hc
  rw [gives_fromBase] at hgiven
  split at hgiven
  · rw [hgiven] at hc
    cases hc
  · exact keeps_of_mem_descend hgiven hc

/-- The errors of a search are those of its sieve. -/
theorem errors_of_gives_find (h : Gives listing (find depth root includes excludes) found) :
    found.errors = (Sieve.ofLists includes excludes).errors := by
  obtain ⟨paths, -, rfl⟩ := gives_find.mp h
  rfl

/-- **Selecting again.** Selecting from what a search has found, with the same patterns, gives just
what the search gave. If the search ends well without exclude patterns, it does with them, and gives
a part of what they select from what it found without. -/
theorem select_find (listing : Listing) (depth : Nat) (root : String)
    (includes excludes : List String) :
    (∀ found, ((find depth root includes excludes).run listing).outcome = .ok found →
      (Sieve.ofLists includes excludes).select found.paths = found) ∧
    ∀ whole, ((find depth root includes []).run listing).outcome = .ok whole →
      ∃ found, ((find depth root includes excludes).run listing).outcome = .ok found ∧
        found.paths.Sublist ((Sieve.ofLists includes excludes).select whole.paths).paths := by
  have hfilter : ∀ found, Gives listing (find depth root includes excludes) found →
      found.paths.filter (Sieve.ofLists includes excludes).keeps = found.paths := by
    intro found h
    exact List.filter_eq_self.mpr fun c hc => keeps_of_mem_find h hc
  constructor
  · intro found h
    rw [Sieve.select, hfilter found h, ← errors_of_gives_find h]
  · intro whole h
    have hnone : ∀ path, Matched [] path → Matched excludes path := by
      rintro path ⟨p, hp, -⟩
      cases hp
    obtain ⟨found, hfound, hsub, -⟩ := exists_narrower_find hnone h
    refine ⟨found, hfound, ?_⟩
    rw [← hfilter found hfound]
    exact hsub.filter _

/-- A directory is excluded, and a file right in the root with it. -/
theorem select_find_beside :
    ∃ listing : Listing,
      ((find 3 "/r" ["**"] ["b", "f"]).run listing).outcome = .ok ⟨["a/x"], []⟩ ∧
      (Sieve.ofLists ["**"] ["b", "f"]).select ["a/x"] = ⟨["a/x"], []⟩ ∧
      ((find 3 "/r" ["**"] []).run listing).outcome = .ok ⟨["a/x", "b/y", "f"], []⟩ ∧
      ∃ found, ((find 3 "/r" ["**"] ["b", "f"]).run listing).outcome = .ok found ∧
        found.paths.Sublist
          ((Sieve.ofLists ["**"] ["b", "f"]).select ["a/x", "b/y", "f"]).paths := by
  let listing := Table.list ⟨[("/r", .ok [⟨"a", true⟩, ⟨"b", true⟩, ⟨"f", false⟩]),
    ("/r/a", .ok [⟨"x", false⟩]), ("/r/b", .ok [⟨"y", false⟩])]⟩
  have hrun : ((find 3 "/r" ["**"] ["b", "f"]).run listing).outcome = .ok ⟨["a/x"], []⟩ := by rfl
  have hwhole : ((find 3 "/r" ["**"] []).run listing).outcome =
      .ok ⟨["a/x", "b/y", "f"], []⟩ := by rfl
  have hselect := select_find listing 3 "/r" ["**"] ["b", "f"]
  exact ⟨listing, hrun, hselect.1 _ hrun, hwhole, hselect.2 _ hwhole⟩

end Walk

end PathSieve

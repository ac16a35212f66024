import PathSieve.Proofs.Exclusion
import PathSieve.Proofs.Growth
import PathSieve.Proofs.Outermost

/-!
# Nothing is found twice

A search that ends well gives no path twice, whatever the bases look like, if no directory holds a
name twice (`nodup_paths`). Two bases may well lead to one directory, and then its files are found
twice, but not under the same path.

The reason is that a path can be cut back into what it was put together from. Below one directory
that is the names behind the path of the directory (`pathBelow_inj`), so what is found behind one
entry differs in a name from what is found behind another. Below two bases it is the base, since
no path lies under two of them.
-/

namespace PathSieve

/-- Whether a listing gives no name twice for a directory. -/
def Listing.Distinct (listing : Listing) : Prop :=
  ∀ dir entries, listing dir = .ok entries → (entries.map Entry.name).Nodup

theorem Tree.distinct_listing {t : Tree} (h : t.Distinct) : t.listing.Distinct := by
  intro dir entries hentries
  unfold Tree.listing at hentries
  split at hentries
  · next d hd =>
    obtain rfl := Except.ok.inj hentries
    have hd := h.directoryAt? hd
    cases hd with
    | file => exact List.nodup_nil
    | @directory es names below =>
      show ((es.map fun e => (⟨e.1.val, e.2.isDirectory⟩ : Entry)).map Entry.name).Nodup
      have hvals : ((es.map Prod.fst).map Subtype.val).Nodup :=
        names.map Subtype.val_injective
      rwa [List.map_map] at hvals ⊢
  · cases hentries

namespace Walk

variable {α β : Type} {listing : Listing} {sieve : Sieve} {depth : Nat} {root : String}
variable {includes excludes : List String} {found : Selection}

/-! ## Gathering -/

/-- What holds between any two values that one step gives, and between the values of an earlier and
a later step, holds between any two that are gathered. -/
theorem pairwise_of_gives_gather {R : α → α → Prop} {step : β → Walk (List α)} {xs : List β}
    {values : List α} (h : Gives listing (gather step xs) values)
    (hstep : ∀ x ∈ xs, ∀ given, Gives listing (step x) given → given.Pairwise R)
    (hsteps : xs.Pairwise fun x y => ∀ earlier later, Gives listing (step x) earlier →
      Gives listing (step y) later → ∀ a ∈ earlier, ∀ b ∈ later, R a b) :
    values.Pairwise R := by
  induction xs generalizing values with
  | nil =>
    obtain rfl : values = [] := gives_done.mp h
    exact .nil
  | cons x xs ih =>
    obtain ⟨first, others, hfirst, hothers, rfl⟩ := gives_gather_cons.mp h
    obtain ⟨hx, hxs⟩ := List.pairwise_cons.mp hsteps
    refine List.pairwise_append.mpr ⟨hstep x List.mem_cons_self first hfirst,
      ih hothers (fun y hy => hstep y (List.mem_cons_of_mem x hy)) hxs, ?_⟩
    intro a ha b hb
    obtain ⟨y, hy, later, hlater, hb⟩ := ((mem_of_gives_gather hothers).2 b).mp hb
    exact hx y hy first later hfirst hlater a ha b hb

/-! ## Below one directory -/

/-- The names behind a path can be read off the path they make. -/
theorem pathBelow_inj {path : String} {ms ns : List Name} (hms : ms ≠ []) (hns : ns ≠ [])
    (h : pathBelow path ms = pathBelow path ns) : ms = ns := by
  have hpieces : leading path ++ ms.map Name.chars = leading path ++ ns.map Name.chars := by
    rw [← pieces_pathBelow path hms, ← pieces_pathBelow path hns, h]
  exact Name.map_chars_inj (List.append_cancel_left hpieces)

/-- What a visit gives has the name of the entry first among the names behind the path. -/
theorem exists_names_of_mem_visit (hproper : listing.Proper) {dir path : String} {entry : Entry}
    (hname : IsName entry.name) {given : List String}
    (h : Gives listing (visit sieve depth dir path entry) given) {c : String} (hc : c ∈ given) :
    ∃ names, c = pathBelow path (⟨entry.name, hname⟩ :: names) := by
  rcases mem_visit h hc with ⟨-, rfl, -⟩ | ⟨-, -, hbelow⟩
  · exact ⟨[], rfl⟩
  · obtain ⟨names, -, rfl, -⟩ := exists_names_of_mem_descend hproper hbelow hc
    exact ⟨names, rfl⟩

/-- A visit gives nothing twice if the walk below the entry does not. -/
theorem nodup_visit {dir path : String} {entry : Entry} {given : List String}
    (hbelow : ∀ dir path paths, Gives listing (descend sieve depth dir path) paths → paths.Nodup)
    (h : Gives listing (visit sieve depth dir path entry) given) : given.Nodup := by
  obtain ⟨name, isDirectory⟩ := entry
  cases isDirectory with
  | false =>
    rw [gives_visit_file.mp h]
    split
    · exact List.nodup_singleton _
    · exact List.nodup_nil
  | true =>
    cases hexcluded : sieve.excludes.accepts (childPath path name) with
    | false => exact hbelow _ _ _ ((gives_visit_directory hexcluded).mp h)
    | true =>
      rw [(gives_visit_excluded hexcluded).mp h]
      exact List.nodup_nil

/-- A walk below one directory gives nothing twice. -/
theorem nodup_descend (hproper : listing.Proper) (hdistinct : listing.Distinct)
    {dir path : String} {paths : List String}
    (h : Gives listing (descend sieve depth dir path) paths) : paths.Nodup := by
  induction depth generalizing dir path paths with
  | zero => exact absurd h not_gives_abandon
  | succ depth ih =>
    rw [descend_succ] at h
    obtain ⟨entries, hentries, hgather⟩ := gives_list.mp h
    have hnames := List.pairwise_map.mp (hdistinct dir entries hentries)
    refine pairwise_of_gives_gather hgather (fun entry _ given hgiven => ?_) ?_
    · exact nodup_visit (fun _ _ _ hbelow => ih hbelow) hgiven
    · -- behind two entries the first names differ
      refine hnames.imp_of_mem ?_
      intro x y hx hy hne earlier later hearlier hlater a ha b hb heq
      obtain ⟨ms, rfl⟩ :=
        exists_names_of_mem_visit hproper (hproper dir entries hentries x hx) hearlier ha
      obtain ⟨ns, rfl⟩ :=
        exists_names_of_mem_visit hproper (hproper dir entries hentries y hy) hlater hb
      have hfirst := (List.cons.inj (pathBelow_inj (by simp) (by simp) heq)).1
      exact hne (congrArg Subtype.val hfirst)

/-! ## A whole search -/

/-- No base stands twice among those of a search. -/
theorem nodup_basesOf (includes : List String) : (basesOf includes).Nodup := by
  refine (Base.inOrder_collect (PatternSet.ofList includes).sources).imp ?_
  rintro a _ hlt rfl
  exact Nat.lt_irrefl _ hlt

/-- What is found from a base lies under it. -/
theorem isUnder_of_gives_fromBase (hproper : listing.Proper) {base : String} {given : List String}
    (h : Gives listing (fromBase sieve depth root base) given) {c : String} (hc : c ∈ given) :
    IsUnder base c := by
  rw [gives_fromBase] at h
  split at h
  · rw [h] at hc
    cases hc
  · obtain ⟨names, hne, rfl, -⟩ := exists_names_of_mem_descend hproper h hc
    exact ⟨names, hne, rfl⟩

/-- **No duplicates.** A search that ends well gives no path twice. -/
theorem nodup_paths (hproper : listing.Proper) (hdistinct : listing.Distinct)
    (h : ((find depth root includes excludes).run listing).outcome = .ok found) :
    found.paths.Nodup := by
  obtain ⟨paths, hgather, rfl⟩ := gives_find.mp h
  refine pairwise_of_gives_gather hgather (fun base _ given hgiven => ?_) ?_
  · rw [gives_fromBase] at hgiven
    split at hgiven
    · rw [hgiven]
      exact List.nodup_nil
    · exact nodup_descend hproper hdistinct hgiven
  · refine List.Pairwise.imp_of_mem ?_ (nodup_basesOf includes)
    intro a b ha hb hne earlier later hearlier hlater c hc d hd heq
    subst heq
    exact hne (eq_of_isUnder ha hb (isUnder_of_gives_fromBase hproper hearlier hc)
      (isUnder_of_gives_fromBase hproper hlater hd))

/-- Three bases that lead to one directory: its file is found three times, under three paths. -/
theorem nodup_paths_three :
    ((find 2 "/r" ["a/**", "../r/a/**", "/r/a/**"] []).run
        (Tree.single (Tree.namesOf ["r", "a", "x"])).listing).outcome =
      .ok ⟨["a/x", "../r/a/x", "/r/a/x"], []⟩ ∧ ["a/x", "../r/a/x", "/r/a/x"].Nodup := by
  have hrun : ((find 2 "/r" ["a/**", "../r/a/**", "/r/a/**"] []).run
      (Tree.single (Tree.namesOf ["r", "a", "x"])).listing).outcome =
        .ok ⟨["a/x", "../r/a/x", "/r/a/x"], []⟩ := by rfl
  exact ⟨hrun, nodup_paths (Tree.proper_listing _)
    (Tree.distinct_listing (Tree.distinct_single _)) hrun⟩

end Walk

end PathSieve

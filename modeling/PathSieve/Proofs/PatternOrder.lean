import PathSieve.Proofs.Overlap

/-!
# Searches with the patterns in another order

In which order the patterns come does not matter for what is found. A search with the same patterns
in another order ends well exactly if the first one does, and then it finds the same paths, lists
the same directories and reports the same errors, each as often, if not in the same order
(`find_perm`).

A sieve asks no more of its patterns than whether one of them matches, so the walk from each base is
the same for both orders, event by event (`fromBase_congr`). The bases are the same too, since those
that are left are the outermost ones, whichever came first (`basesOf_perm`). So the two searches do
the same walks one after the other, in another order (`exists_gives_gather_perm`). Where a search
fails, another order may fail elsewhere.
-/

namespace PathSieve

open Glob

/-! ## Patterns in another order -/

theorem matched_perm {patterns patterns' : List String} (h : patterns'.Perm patterns)
    (path : String) : Matched patterns' path ↔ Matched patterns path := by
  simp only [Matched, h.mem_iff]

theorem PatternSet.accepts_ofList_perm {patterns patterns' : List String}
    (h : patterns'.Perm patterns) (path : String) :
    (ofList patterns').accepts path = (ofList patterns).accepts path := by
  rw [Bool.eq_iff_iff, accepts_ofList_iff, accepts_ofList_iff, matched_perm h]

theorem PatternSet.errors_ofList_perm {patterns patterns' : List String}
    (h : patterns'.Perm patterns) : (ofList patterns').errors.Perm (ofList patterns).errors := by
  rw [errors_ofList, errors_ofList]
  exact h.filterMap _

theorem Base.outermost_perm {patterns patterns' : List String} (h : patterns'.Perm patterns)
    (base : String) : Outermost patterns' base ↔ Outermost patterns base := by
  simp only [Outermost, List.mem_map, h.mem_iff]

namespace Walk

variable {α β : Type} {listing : Listing} {depth : Nat} {root : String}
variable {includes includes' excludes excludes' : List String} {found : Selection}

/-- The bases of a search do not depend on the order of its patterns. -/
theorem basesOf_perm (h : includes'.Perm includes) :
    (basesOf includes').Perm (basesOf includes) := by
  have hsources : (PatternSet.ofList includes').sources.Perm
      (PatternSet.ofList includes).sources := by
    rw [sources_ofList, sources_ofList]
    exact h.filter _
  refine (List.perm_ext_iff_of_nodup (nodup_basesOf _) (nodup_basesOf _)).mpr fun base => ?_
  rw [(spans_basesOf includes').mem_iff, (spans_basesOf includes).mem_iff,
    Base.outermost_perm hsources]

/-! ## The same walks -/

/-- Sieves that keep and exclude the same walk the same way below a directory. -/
theorem descend_congr {sieve sieve' : Sieve} (hkeeps : ∀ path, sieve'.keeps path = sieve.keeps path)
    (hexcludes : ∀ path, sieve'.excludes.accepts path = sieve.excludes.accepts path)
    (dir path : String) : descend sieve' depth dir path = descend sieve depth dir path := by
  induction depth generalizing dir path with
  | zero => rfl
  | succ depth ih =>
    have hvisit : visit sieve' depth dir path = visit sieve depth dir path := by
      funext entry
      simp only [visit, hkeeps, hexcludes, ih]
    rw [descend_succ, descend_succ, hvisit]

/-- Patterns in another order walk the same way from a base. -/
theorem fromBase_congr (hi : includes'.Perm includes) (he : excludes'.Perm excludes)
    (base : String) :
    fromBase (Sieve.ofLists includes' excludes') depth root base =
      fromBase (Sieve.ofLists includes excludes) depth root base := by
  have hincludes := PatternSet.accepts_ofList_perm hi
  have hexcludes : ∀ path, (Sieve.ofLists includes' excludes').excludes.accepts path =
      (Sieve.ofLists includes excludes).excludes.accepts path := PatternSet.accepts_ofList_perm he
  have hkeeps : ∀ path, (Sieve.ofLists includes' excludes').keeps path =
      (Sieve.ofLists includes excludes).keeps path := by
    intro path
    show ((PatternSet.ofList includes').accepts path && _) = _
    rw [hincludes, hexcludes]
    rfl
  unfold fromBase
  simp only [hexcludes, descend_congr hkeeps hexcludes]

/-- Gathering over the same in another order gives the same in another order. -/
theorem exists_gives_gather_perm {step : β → Walk (List α)} {xs ys : List β} (h : xs.Perm ys)
    {values : List α} (hxs : Gives listing (gather step xs) values) :
    ∃ values', Gives listing (gather step ys) values' ∧ values'.Perm values := by
  induction h generalizing values with
  | nil => exact ⟨values, hxs, .refl _⟩
  | cons x _ ih =>
    obtain ⟨first, others, hfirst, hothers, rfl⟩ := gives_gather_cons.mp hxs
    obtain ⟨others', hothers', hperm⟩ := ih hothers
    exact ⟨_, gives_gather_cons.mpr ⟨first, others', hfirst, hothers', rfl⟩,
      hperm.append_left first⟩
  | swap x y xs =>
    obtain ⟨second, _, hsecond, hrest, rfl⟩ := gives_gather_cons.mp hxs
    obtain ⟨first, others, hfirst, hothers, rfl⟩ := gives_gather_cons.mp hrest
    refine ⟨first ++ (second ++ others), gives_gather_cons.mpr ⟨first, _, hfirst,
      gives_gather_cons.mpr ⟨second, others, hsecond, hothers, rfl⟩, rfl⟩, ?_⟩
    rw [← List.append_assoc, ← List.append_assoc]
    exact List.perm_append_comm.append_right others
  | trans _ _ ih₁ ih₂ =>
    obtain ⟨values₁, h₁, hperm₁⟩ := ih₁ hxs
    obtain ⟨values₂, h₂, hperm₂⟩ := ih₂ h₁
    exact ⟨values₂, h₂, hperm₂.trans hperm₁⟩

/-! ## A whole search -/

/-- A search that ends well does so with its patterns in another order. -/
theorem exists_gives_find_perm (hi : includes'.Perm includes) (he : excludes'.Perm excludes)
    (h : Gives listing (find depth root includes excludes) found) :
    ∃ found', Gives listing (find depth root includes' excludes') found' ∧
      found'.paths.Perm found.paths ∧ found'.errors.Perm found.errors ∧
      ((find depth root includes' excludes').run listing).listed.Perm
        ((find depth root includes excludes).run listing).listed := by
  obtain ⟨paths, hgather, rfl⟩ := gives_find.mp h
  have hbases := basesOf_perm hi
  have hsteps : fromBase (Sieve.ofLists includes' excludes') depth root =
      fromBase (Sieve.ofLists includes excludes) depth root := funext (fromBase_congr hi he)
  obtain ⟨paths', hgather', hpaths⟩ := exists_gives_gather_perm hbases.symm hgather
  rw [← hsteps] at hgather'
  refine ⟨_, gives_find.mpr ⟨paths', hgather', rfl⟩, hpaths, ?_, ?_⟩
  · exact (PatternSet.errors_ofList_perm hi).append (PatternSet.errors_ofList_perm he)
  · rw [listed_find, listed_find, listed_gather hgather', listed_gather hgather, hsteps]
    exact hbases.flatMap_right _

/-- **Order.** With its patterns in another order a search ends well exactly if it does as they are,
and then it finds the same paths, lists the same directories and reports the same errors, in some
order. -/
theorem find_perm (hi : includes'.Perm includes) (he : excludes'.Perm excludes) :
    ((∃ found', ((find depth root includes' excludes').run listing).outcome = .ok found') ↔
      ∃ found, ((find depth root includes excludes).run listing).outcome = .ok found) ∧
    ∀ found' found, ((find depth root includes' excludes').run listing).outcome = .ok found' →
      ((find depth root includes excludes).run listing).outcome = .ok found →
      found'.paths.Perm found.paths ∧ found'.errors.Perm found.errors ∧
        ((find depth root includes' excludes').run listing).listed.Perm
          ((find depth root includes excludes).run listing).listed := by
  refine ⟨⟨?_, ?_⟩, fun found' found h' h => ?_⟩
  · rintro ⟨found', h'⟩
    obtain ⟨found, h, -⟩ := exists_gives_find_perm hi.symm he.symm h'
    exact ⟨found, h⟩
  · rintro ⟨found, h⟩
    obtain ⟨found', h', -⟩ := exists_gives_find_perm hi he h
    exact ⟨found', h'⟩
  · obtain ⟨again, hagain, hsame⟩ := exists_gives_find_perm hi he h
    obtain rfl : found' = again := Except.ok.inj (h'.symm.trans hagain)
    exact hsame

/-- A base that takes in another, before or behind one beside it, and an unreadable pattern. -/
theorem find_perm_bases :
    ∃ (listing : Listing) (found' found : Selection),
      ["[", "lib/*", "src/a/*", "src/*"].Perm ["src/a/*", "lib/*", "[", "src/*"] ∧
      ["src/b", "lib/x"].Perm ["lib/x", "src/b"] ∧
      ((find 3 "/r" ["[", "lib/*", "src/a/*", "src/*"] ["src/b", "lib/x"]).run listing).outcome =
        .ok found' ∧
      ((find 3 "/r" ["src/a/*", "lib/*", "[", "src/*"] ["lib/x", "src/b"]).run listing).outcome =
        .ok found ∧
      found'.paths = ["lib/h", "src/a/g", "src/f"] ∧ found.paths = ["src/a/g", "src/f", "lib/h"] ∧
      found'.paths.Perm found.paths ∧ found'.errors.Perm found.errors := by
  let listing := Table.list ⟨[("/r/src", .ok [⟨"a", true⟩, ⟨"b", true⟩, ⟨"f", false⟩]),
    ("/r/src/a", .ok [⟨"g", false⟩]), ("/r/lib", .ok [⟨"h", false⟩, ⟨"x", true⟩])]⟩
  have hi : ["[", "lib/*", "src/a/*", "src/*"].Perm ["src/a/*", "lib/*", "[", "src/*"] := by decide
  have he : ["src/b", "lib/x"].Perm ["lib/x", "src/b"] := by decide
  have hrun' : ((find 3 "/r" ["[", "lib/*", "src/a/*", "src/*"]
      ["src/b", "lib/x"]).run listing).outcome =
        .ok ⟨["lib/h", "src/a/g", "src/f"], [⟨"[", .openClass⟩]⟩ := by rfl
  have hrun : ((find 3 "/r" ["src/a/*", "lib/*", "[", "src/*"]
      ["lib/x", "src/b"]).run listing).outcome =
        .ok ⟨["src/a/g", "src/f", "lib/h"], [⟨"[", .openClass⟩]⟩ := by rfl
  obtain ⟨hpaths, herrors, -⟩ := (find_perm hi he).2 _ _ hrun' hrun
  exact ⟨listing, _, _, hi, he, hrun', hrun, rfl, rfl, hpaths, herrors⟩

end Walk

end PathSieve

import PathSieve.Proofs.Found

/-!
# Searches with more include patterns

More include patterns match no less, but they can move the bases: the base of a new pattern takes
the place of those it contains. What was found below a base that is gone is found again exactly if
the base lies, by names, under one of the new list, and no directory between the two is excluded.

Both can fail. The base `.` contains `./a`, but nothing below `.` has a path that begins with `./`.
And a base is walked whatever is excluded above it, while what is excluded between the two is left
out of a walk from further up.
-/

namespace PathSieve

open Glob

/-- The readable patterns of two lists are those of the one and those of the other. -/
theorem sources_ofList_append (as bs : List String) :
    (PatternSet.ofList (as ++ bs)).sources =
      (PatternSet.ofList as).sources ++ (PatternSet.ofList bs).sources := by
  simp only [sources_ofList, List.filter_append]

theorem Matched.append {as : List String} {path : String} (h : Matched as path)
    (bs : List String) : Matched (as ++ bs) path :=
  (matched_append_iff as bs path).mpr (.inl h)

namespace Walk

open PathSieve.Path (isAbsolute)

variable {t : Tree} {listing : Listing} {depth depth' : Nat} {root : String}
variable {includes more excludes : List String} {found grown : Selection}

/-! ## Bases of two lists -/

/-- A path lies under one base of a list at most. -/
theorem eq_of_isUnder {a b c : String} (ha : a ∈ basesOf includes) (hb : b ∈ basesOf includes)
    (hac : IsUnder a c) (hbc : IsUnder b c) : a = b := by
  have hspans := spans_basesOf includes
  have hane := ne_empty_of_mem_basesOf ha
  have hbne := ne_empty_of_mem_basesOf hb
  rcases isUnder_trichotomy hane hbne hac hbc with h | h | h
  · exact h
  · exact hspans.antichain a ha b hb (contains_of_isUnder hane h)
  · exact (hspans.antichain b hb a ha (contains_of_isUnder hbne h)).symm

/-- Around every base there is one of the longer list. -/
theorem exists_base_around_base {base : String} (h : base ∈ basesOf includes)
    (more : List String) :
    ∃ outer ∈ basesOf (includes ++ more), Base.contains outer base = true := by
  obtain ⟨p, hp, rfl⟩ := (spans_basesOf includes).origin base h
  refine (spans_basesOf (includes ++ more)).around p ?_
  rw [sources_ofList_append]
  exact List.mem_append_left _ hp

/-- No base of a longer list lies under a base of a list. -/
theorem not_isUnder_of_append {base outer : String} (hbase : base ∈ basesOf includes)
    (houter : outer ∈ basesOf (includes ++ more)) : ¬ IsUnder base outer := by
  intro hunder
  have hbasene := ne_empty_of_mem_basesOf hbase
  have houterne := ne_empty_of_mem_basesOf houter
  have hinner := contains_of_isUnder hbasene hunder
  obtain ⟨b, hb, hcontains⟩ := exists_base_around_base hbase more
  -- what lies around the base lies around the other one too, and so is the other one
  have hwhole := Base.contains_trans (ne_empty_of_mem_basesOf hb) hbasene houterne hcontains hinner
  obtain rfl := (spans_basesOf _).antichain b hb outer houter hwhole
  obtain rfl := Base.contains_antisymm hbasene houterne hinner hcontains
  obtain ⟨names, hne, heq⟩ := hunder
  have hparts := congrArg Base.parts heq
  rw [parts_under hbasene hne] at hparts
  exact hne (List.map_eq_nil_iff.mp (List.append_right_eq_self.mp hparts.symm))

/-! ## What is found again -/

/-- **Growth.** What a search finds is found with more include patterns too exactly if the base that
it lies under is still a base, or lies under one, and no directory on the way from that one to the
base is excluded. -/
theorem mem_find_append_iff (hs : t.Serves listing) (hroot : isAbsolute root.toList = true)
    (h : ((find depth root includes excludes).run listing).outcome = .ok found)
    (hgrown : ((find depth' root (includes ++ more) excludes).run listing).outcome = .ok grown)
    {c : String} (hc : c ∈ found.paths) :
    c ∈ grown.paths ↔
      ∃ base ∈ basesOf includes, IsUnder base c ∧
        ∃ outer ∈ basesOf (includes ++ more), (outer = base ∨ IsUnder outer base) ∧
          ∀ dir, Matched excludes dir → IsAncestor dir base → IsAncestor dir outer := by
  obtain ⟨base, hbase, hunder, hfile, hincluded, hexcluded, hancestors⟩ :=
    (mem_find_iff_ancestors hs hroot h c).mp hc
  have hbasene := ne_empty_of_mem_basesOf hbase
  rw [mem_find_iff_ancestors hs hroot hgrown]
  constructor
  · rintro ⟨outer, houter, houterc, -, -, -, hagain⟩
    have houterne := ne_empty_of_mem_basesOf houter
    refine ⟨base, hbase, hunder, outer, houter, ?_, fun dir hdir habove => ?_⟩
    -- of the two bases around the path, the one of the longer list is the outer one
    · rcases isUnder_trichotomy houterne hbasene houterc hunder with h | h | h
      · exact .inl h
      · exact .inr h
      · exact absurd h (not_isUnder_of_append hbase houter)
    · exact (hagain dir hdir).mp ((hancestors dir hdir).mpr habove)
  · rintro ⟨base', hbase', hunder', outer, houter, houterbase, hbetween⟩
    obtain rfl := eq_of_isUnder hbase hbase' hunder hunder'
    have houterne := ne_empty_of_mem_basesOf houter
    have houterc : IsUnder outer c := by
      rcases houterbase with rfl | h
      · exact hunder
      · exact h.trans houterne hbasene hunder
    -- what is excluded among the ancestors is above the inner base, so above the outer one
    refine ⟨outer, houter, houterc, hfile, hincluded.append more, hexcluded, fun dir hdir => ?_⟩
    constructor
    · exact fun habove => hbetween dir hdir ((hancestors dir hdir).mp habove)
    · intro habove
      obtain ⟨names, hne, rfl⟩ := houterc
      exact (isAncestor_under_iff houterne hne).mpr (.inl habove)

/-- The two sides where the base `.` takes the place of `a`. -/
theorem mem_find_append_iff_dot :
    ∃ grown, ((find 4 "/r" ["a/*", "**"] ["b"]).run
        (Tree.single (Tree.namesOf ["r", "a", "x"])).listing).outcome = .ok grown ∧
      ("a/x" ∈ grown.paths ↔
        ∃ base ∈ basesOf ["a/*"], IsUnder base "a/x" ∧
          ∃ outer ∈ basesOf ["a/*", "**"], (outer = base ∨ IsUnder outer base) ∧
            ∀ dir, Matched ["b"] dir → IsAncestor dir base → IsAncestor dir outer) := by
  have hrun : ((find 4 "/r" ["a/*"] ["b"]).run
      (Tree.single (Tree.namesOf ["r", "a", "x"])).listing).outcome = .ok ⟨["a/x"], []⟩ := by rfl
  have hgrown : ((find 4 "/r" (["a/*"] ++ ["**"]) ["b"]).run
      (Tree.single (Tree.namesOf ["r", "a", "x"])).listing).outcome = .ok ⟨["a/x"], []⟩ := by rfl
  exact ⟨_, hgrown, mem_find_append_iff (Tree.serves_listing _) (by decide) hrun hgrown (by decide)⟩

/-- The base `.` takes the place of `./a`, and no path that is then tried begins with `./a`. -/
theorem not_mem_find_append :
    ∃ found grown, ((find 4 "/r" ["./a/*"] []).run
        (Tree.single (Tree.namesOf ["r", "a", "x"])).listing).outcome = .ok found ∧
      ((find 4 "/r" (["./a/*"] ++ ["*"]) []).run
        (Tree.single (Tree.namesOf ["r", "a", "x"])).listing).outcome = .ok grown ∧
      "./a/x" ∈ found.paths ∧ "./a/x" ∉ grown.paths :=
  ⟨⟨["./a/x"], []⟩, ⟨[], []⟩, by rfl, by rfl, by decide, by decide⟩

-- the base `a` takes the place of `a/b`, which was walked though `a` is excluded
example : ((find 4 "/r" ["a/b/*"] ["a"]).run
      (Tree.single (Tree.namesOf ["r", "a", "b", "x"])).listing).outcome = .ok ⟨["a/b/x"], []⟩ ∧
    ((find 4 "/r" (["a/b/*"] ++ ["a/*"]) ["a"]).run
      (Tree.single (Tree.namesOf ["r", "a", "b", "x"])).listing).outcome = .ok ⟨[], []⟩ :=
  ⟨by rfl, by rfl⟩

end Walk

end PathSieve

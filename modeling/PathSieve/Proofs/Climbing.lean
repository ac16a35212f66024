import PathSieve.Proofs.Candidates

/-!
# Directories of bases, and bases that climb

Containment of bases compares their parts, but a base denotes a directory, and dot segments behind
the parts that two bases share can lead out of the directory that these denote. So a base that is
left out because another one contains it need not lie in that one's directory: `a/../b` is contained
in `a`, and `../..` in `..`.

What matters is how far the parts behind the shared ones go up (`climb`) and which names they then
go down (`descent`). They cut that many names off the place reached so far and put the descent there
(`clean_append`), so they lead into the place they start from exactly if the descent begins with the
names that were cut off (`isPrefix_clean_append_iff`).
-/

namespace PathSieve

namespace Path

/-- How many levels parts lead up. -/
def climb (parts : List (List Char)) : Nat := (clean false parts).count dotDot

/-- The names that parts lead down from there. -/
def descent (parts : List (List Char)) : List (List Char) :=
  (clean false parts).filter (· ≠ dotDot)

/-- One more part of a path, on a stack that has gone `ups` levels up and then down again: it does
the same to that stack whatever was there before. -/
theorem step_climbed (part : List Char) (downs : List (List Char)) (ups : Nat)
    (hdowns : ∀ p ∈ downs, IsPlain p) :
    ∃ downs' ups', (∀ p ∈ downs', IsPlain p) ∧
      step false (downs ++ List.replicate ups dotDot) part =
        downs' ++ List.replicate ups' dotDot ∧
      ∀ done : List (List Char), (∀ p ∈ done, IsPlain p) →
        step true (downs ++ done.drop ups) part = downs' ++ done.drop ups' := by
  by_cases hempty : part = [] ∨ part = dot
  · exact ⟨downs, ups, hdowns, if_pos hempty, fun done _ => if_pos hempty⟩
  by_cases hup : part = dotDot
  · subst hup
    cases downs with
    | cons last downs =>
      -- the last step down is taken back
      obtain ⟨hlast, hdowns⟩ := List.forall_mem_cons.mp hdowns
      exact ⟨downs, ups, hdowns, by simp [step, hempty, hlast.2.2],
        fun done _ => by simp [step, hempty, hlast.2.2]⟩
    | nil =>
      refine ⟨[], ups + 1, hdowns, ?_, fun done hdone => ?_⟩
      · cases ups <;> simp [step, hempty, List.replicate_succ]
      · rw [List.nil_append, List.nil_append, ← List.drop_drop]
        have hplain : ∀ p ∈ done.drop ups, IsPlain p := by
          intro p hp
          exact hdone p (List.mem_of_mem_drop hp)
        cases hrest : done.drop ups with
        | nil => simp [step, hempty]
        | cons last rest =>
          have hlast := hplain last (hrest ▸ List.mem_cons_self)
          simp [step, hempty, hlast.2.2]
  · have hplain : IsPlain part := ⟨fun h => hempty (.inl h), fun h => hempty (.inr h), hup⟩
    exact ⟨part :: downs, ups, List.forall_mem_cons.mpr ⟨hplain, hdowns⟩, step_plain hplain _ _,
      fun done _ => step_plain hplain _ _⟩

/-- Many more parts do the same to such a stack whatever was there before. -/
theorem foldl_step_climbed (parts downs : List (List Char)) (ups : Nat)
    (hdowns : ∀ p ∈ downs, IsPlain p) :
    ∃ downs' ups', (∀ p ∈ downs', IsPlain p) ∧
      parts.foldl (step false) (downs ++ List.replicate ups dotDot) =
        downs' ++ List.replicate ups' dotDot ∧
      ∀ done : List (List Char), (∀ p ∈ done, IsPlain p) →
        parts.foldl (step true) (downs ++ done.drop ups) = downs' ++ done.drop ups' := by
  induction parts generalizing downs ups with
  | nil => exact ⟨downs, ups, hdowns, rfl, fun done _ => rfl⟩
  | cons part parts ih =>
    obtain ⟨downs', ups', hdowns', hrelative, habsolute⟩ := step_climbed part downs ups hdowns
    obtain ⟨downs'', ups'', hdowns'', hrelative', habsolute'⟩ := ih downs' ups' hdowns'
    refine ⟨downs'', ups'', hdowns'', ?_, fun done hdone => ?_⟩
    · rw [List.foldl_cons, hrelative, hrelative']
    · rw [List.foldl_cons, habsolute done hdone, habsolute' done hdone]

/-- Parts behind others cut names off the place reached so far, and go down from there. -/
theorem clean_append (before parts : List (List Char)) :
    clean true (before ++ parts) =
      (clean true before).take ((clean true before).length - climb parts) ++ descent parts := by
  obtain ⟨downs, ups, hdowns, hrelative, habsolute⟩ := foldl_step_climbed parts [] 0 (by simp)
  have hparts : clean false parts = List.replicate ups dotDot ++ downs.reverse := by
    have hfold : parts.foldl (step false) [] = downs ++ List.replicate ups dotDot := hrelative
    rw [clean, hfold, List.reverse_append, List.reverse_replicate]
  have hnames : ∀ p ∈ downs.reverse, p ≠ dotDot := fun p hp =>
    (hdowns p (List.mem_reverse.mp hp)).2.2
  have hclimb : climb parts = ups := by
    rw [climb, hparts, List.count_append, List.count_replicate_self,
      List.count_eq_zero.mpr fun h => hnames dotDot h rfl]
    rfl
  have hdescent : descent parts = downs.reverse := by
    have hkept : downs.reverse.filter (· ≠ dotDot) = downs.reverse :=
      List.filter_eq_self.mpr (by simpa using hnames)
    rw [descent, hparts, List.filter_append, hkept]
    simp
  have hplain : ∀ p ∈ before.foldl (step true) [], IsPlain p := fun p hp =>
    (mem_clean_rooted (List.mem_reverse.mpr hp)).1
  have hwhole : (before ++ parts).foldl (step true) [] =
      downs ++ (before.foldl (step true) []).drop ups := by
    rw [List.foldl_append]
    exact habsolute _ hplain
  rw [hclimb, hdescent, clean, clean, hwhole, List.reverse_append, List.reverse_drop,
    List.length_reverse]

/-- Parts lead into the place they start from exactly if they go down all that they went up. -/
theorem isPrefix_clean_append_iff (before parts : List (List Char)) :
    clean true before <+: clean true (before ++ parts) ↔
      (clean true before).drop ((clean true before).length - climb parts) <+: descent parts := by
  rw [clean_append]
  generalize clean true before = place
  generalize place.length - climb parts = kept
  calc place <+: place.take kept ++ descent parts
    _ ↔ place.take kept ++ place.drop kept <+: place.take kept ++ descent parts := by
        rw [List.take_append_drop]
    _ ↔ place.drop kept <+: descent parts := List.prefix_append_right_inj _

theorem mem_step {rooted : Bool} {done : List (List Char)} {part p : List Char}
    (h : p ∈ step rooted done part) : p = part ∨ p ∈ done := by
  unfold step at h
  split at h
  · exact .inr h
  · split at h
    · next hup =>
      subst hup
      cases done with
      | nil =>
        cases rooted with
        | false => exact .inl (List.mem_singleton.mp h)
        | true => exact absurd h List.not_mem_nil
      | cons last before =>
        simp only at h
        split at h
        · exact List.mem_cons.mp h
        · exact .inr (List.mem_cons_of_mem last h)
    · exact List.mem_cons.mp h

/-- What is left of parts was there before. -/
theorem mem_of_mem_clean {rooted : Bool} {parts : List (List Char)} {p : List Char}
    (h : p ∈ clean rooted parts) : p ∈ parts := by
  have hfold : ∀ (parts done : List (List Char)), p ∈ parts.foldl (step rooted) done →
      p ∈ parts ∨ p ∈ done := by
    intro parts
    induction parts with
    | nil => exact fun done h => .inr h
    | cons part parts ih =>
      intro done h
      rcases ih _ h with hmem | hmem
      · exact .inl (List.mem_cons_of_mem part hmem)
      · rcases mem_step hmem with rfl | hmem
        · exact .inl List.mem_cons_self
        · exact .inr hmem
  exact (hfold parts [] (List.mem_reverse.mp h)).resolve_right List.not_mem_nil

/-- Parts without `..` lead nowhere up. -/
theorem climb_eq_zero {parts : List (List Char)} (h : dotDot ∉ parts) : climb parts = 0 :=
  List.count_eq_zero.mpr fun hup => h (mem_of_mem_clean hup)

end Path

namespace Walk

open PathSieve.Path (clean climb climb_eq_zero descent dotDot isAbsolute isPrefix_clean_append_iff
  placeOf)

/-! ## Directories of bases -/

/-- Where the directory of a base lies: behind the root if the base is relative. -/
theorem placeOf_startOf_base {root base : String} (hroot : isAbsolute root.toList = true)
    (hbase : base ≠ "") :
    placeOf (startOf root base) =
      clean true ((if isAbsolute base.toList then [] else Text.pieces '/' root.toList) ++
        Base.parts base) := by
  rw [(placeOf_startOf hroot hbase).2, clean_append_parts]
  split <;> rfl

/-- A base that is contained in another is absolute if that one is. -/
theorem isAbsolute_eq_of_contains {outer inner : String} (ho : outer ≠ "") (hi : inner ≠ "")
    (h : Base.contains outer inner = true) : isAbsolute inner.toList = isAbsolute outer.toList := by
  obtain ⟨hfront, hstays⟩ := (Base.contains_iff ho hi).mp h
  rw [Bool.eq_iff_iff, Base.isAbsolute_iff hi, Base.isAbsolute_iff ho]
  by_cases hdot : outer = "."
  · have hrelative := (hstays hdot).1
    subst hdot
    exact iff_of_false hrelative (by simp)
  · rw [Base.head?_of_isPrefix (mt Base.parts_eq_nil_iff.mp hdot) hfront]

/-- **Directories under covers.** The base of every pattern is contained in a collected one. Its
directory lies in that one's exactly if its further parts come down again by the names that they
went up from; so it does at least if none of them is `..`. -/
theorem isPrefix_placeOf_iff {root : String} (hroot : isAbsolute root.toList = true)
    {patterns : List String} {p : String} (hp : p ∈ patterns) :
    ∃ outer ∈ Base.collect [] patterns, ∃ rest,
      Base.contains outer (Base.ofPattern p) = true ∧
      Base.parts (Base.ofPattern p) = Base.parts outer ++ rest ∧
      (placeOf (startOf root outer) <+: placeOf (startOf root (Base.ofPattern p)) ↔
        (placeOf (startOf root outer)).drop ((placeOf (startOf root outer)).length - climb rest) <+:
          descent rest) ∧
      (dotDot ∉ rest →
        placeOf (startOf root outer) <+: placeOf (startOf root (Base.ofPattern p))) := by
  have hspans := Base.spans_collect patterns
  obtain ⟨outer, houter, hcontains⟩ := hspans.around p hp
  have hne := hspans.ne_empty houter
  have hne' := Base.ofPattern_ne_empty p
  obtain ⟨rest, hrest⟩ := ((Base.contains_iff hne hne').mp hcontains).1
  have hiff : placeOf (startOf root outer) <+: placeOf (startOf root (Base.ofPattern p)) ↔
      (placeOf (startOf root outer)).drop ((placeOf (startOf root outer)).length - climb rest) <+:
        descent rest := by
    rw [placeOf_startOf_base hroot hne, placeOf_startOf_base hroot hne',
      isAbsolute_eq_of_contains hne hne' hcontains, ← hrest, ← List.append_assoc]
    exact isPrefix_clean_append_iff _ _
  refine ⟨outer, houter, rest, hcontains, hrest.symm, hiff, fun hno => hiff.mpr ?_⟩
  rw [climb_eq_zero hno, Nat.sub_zero, List.drop_length]
  exact List.nil_prefix

/-- A base that goes up from the one around it and comes back by the same name. -/
theorem isPrefix_placeOf_iff_back :
    isAbsolute "/r".toList = true ∧ "a/b/../b/c/*" ∈ ["a/b/*", "a/b/../b/c/*"] ∧
      ∃ rest, rest = [['.', '.'], ['b'], ['c']] ∧
        "a/b" ∈ Base.collect [] ["a/b/*", "a/b/../b/c/*"] ∧
        Base.contains "a/b" (Base.ofPattern "a/b/../b/c/*") = true ∧
        Base.parts (Base.ofPattern "a/b/../b/c/*") = Base.parts "a/b" ++ rest ∧
        (placeOf (startOf "/r" "a/b")).drop
            ((placeOf (startOf "/r" "a/b")).length - climb rest) <+: descent rest ∧
        placeOf (startOf "/r" "a/b") <+:
          placeOf (startOf "/r" (Base.ofPattern "a/b/../b/c/*")) := by
  have hroot : isAbsolute "/r".toList = true := by decide
  have hp : "a/b/../b/c/*" ∈ ["a/b/*", "a/b/../b/c/*"] := by decide
  obtain ⟨outer, houter, rest, hcontains, hparts, hiff, -⟩ := isPrefix_placeOf_iff hroot hp
  have hcollect : Base.collect [] ["a/b/*", "a/b/../b/c/*"] = ["a/b"] := by decide
  obtain rfl : outer = "a/b" := by rwa [hcollect, List.mem_singleton] at houter
  have hrest : rest = [['.', '.'], ['b'], ['c']] := by
    have hbase : Base.parts (Base.ofPattern "a/b/../b/c/*") =
        Base.parts "a/b" ++ [['.', '.'], ['b'], ['c']] := by decide
    exact List.append_cancel_left (hparts.symm.trans hbase)
  have hback : (placeOf (startOf "/r" "a/b")).drop
      ((placeOf (startOf "/r" "a/b")).length - climb rest) <+: descent rest := by
    subst hrest
    decide
  exact ⟨hroot, hp, rest, hrest, houter, hcontains, hparts, hback, hiff.mpr hback⟩

/-- Two bases with the directories `/r/a` and `/r/b`, and the second is contained in the first. -/
theorem not_isPrefix_placeOf :
    ¬ ∀ (patterns : List String) (p root : String), p ∈ patterns → isAbsolute root.toList = true →
      ∃ outer ∈ Base.collect [] patterns,
        placeOf (startOf root outer) <+: placeOf (startOf root (Base.ofPattern p)) := by
  intro h
  obtain ⟨outer, houter, hprefix⟩ :=
    h ["a/*", "a/../b/*"] "a/../b/*" "/r" (by decide) (by decide)
  have hcollect : Base.collect [] ["a/*", "a/../b/*"] = ["a"] := by decide
  rw [hcollect, List.mem_singleton] at houter
  subst houter
  exact absurd hprefix (by decide)

end Walk

end PathSieve

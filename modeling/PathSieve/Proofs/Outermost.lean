import Mathlib.Logic.ExistsUnique
import PathSieve.Proofs.Bases

/-!
# The collected bases are the outermost ones

Containment makes a forest of the bases of patterns: it is a partial order, and two bases around the
same path are comparable (`Forest`). What a collection leaves of the bases of its patterns are the
*outermost*, those that lie in no other, each of them once; so it does not matter in which order the
patterns come, except for the order of the result. There a base stands before another if the first
pattern whose base it contains comes before the first of the other's (`firstIn`).

The order is kept by every insertion (`InOrder.insert`): a base that is put where the first of those
it contains stood has the first pattern of that one as its own.
-/

namespace PathSieve.Base

variable {bases patterns : List String} {base : String}

/-! ## The forest of bases -/

/-- Nothing but `.` contains the empty text. -/
theorem eq_dot_of_contains_empty {a : String} (ha : a ≠ "") (h : contains a "" = true) :
    a = "." := by
  unfold contains at h
  rw [if_neg ha] at h
  split at h
  · next hdot => exact hdot
  · split at h
    · cases h
    · have hnil := List.isPrefixOf_iff_prefix.mp h
      rw [show "".toList = [] from rfl, List.prefix_nil, List.append_eq_nil_iff] at hnil
      cases hnil.2

/-- What contains a path contains all that starts as it does and is longer. -/
theorem contains_of_isPrefix {a b c : String} (ha : a ≠ "") (hb : b ≠ "") (hc : c ≠ "")
    (hac : contains a c = true) (hbc : contains b c = true) (h : parts a <+: parts b) :
    contains a b = true := by
  rw [contains_iff ha hb]
  refine ⟨h, fun hdot => ?_⟩
  by_cases hbdot : b = "."
  · simp [hbdot, Stays]
  · -- the longer base starts as the path does, which does not lead out of `.`
    have hstays := ((contains_iff ha hc).mp hac).2 hdot
    have hfront := ((contains_iff hb hc).mp hbc).1
    rwa [Stays, head?_of_isPrefix (mt parts_eq_nil_iff.mp hbdot) hfront] at hstays

/-- Of two bases around the same path, one is around the other. -/
theorem contains_comparable {a b c : String} (ha : a ≠ "") (hb : b ≠ "") (hac : contains a c = true)
    (hbc : contains b c = true) : contains a b = true ∨ contains b a = true := by
  by_cases hc : c = ""
  · subst hc
    rw [eq_dot_of_contains_empty ha hac, eq_dot_of_contains_empty hb hbc]
    exact .inl (contains_refl _)
  · have hfronta := ((contains_iff ha hc).mp hac).1
    have hfrontb := ((contains_iff hb hc).mp hbc).1
    exact (List.prefix_or_prefix_of_prefix hfronta hfrontb).imp
      (contains_of_isPrefix ha hb hc hac hbc) (contains_of_isPrefix hb ha hc hbc hac)

/-- What containment is among the bases of patterns. -/
structure Forest : Prop where
  refl : ∀ p, contains (ofPattern p) (ofPattern p) = true
  trans : ∀ p q r, contains (ofPattern p) (ofPattern q) = true →
    contains (ofPattern q) (ofPattern r) = true → contains (ofPattern p) (ofPattern r) = true
  antisymm : ∀ p q, contains (ofPattern p) (ofPattern q) = true →
    contains (ofPattern q) (ofPattern p) = true → ofPattern p = ofPattern q
  comparable : ∀ p q path, contains (ofPattern p) path = true → contains (ofPattern q) path = true →
    contains (ofPattern p) (ofPattern q) = true ∨ contains (ofPattern q) (ofPattern p) = true

theorem forest : Forest where
  refl _ := contains_refl _
  trans p q r := contains_trans (ofPattern_ne_empty p) (ofPattern_ne_empty q) (ofPattern_ne_empty r)
  antisymm p q := contains_antisymm (ofPattern_ne_empty p) (ofPattern_ne_empty q)
  comparable p q _ := contains_comparable (ofPattern_ne_empty p) (ofPattern_ne_empty q)

/-! ## What is collected -/

/-- Whether a base is one of the patterns' and lies in no other of them. -/
def Outermost (patterns : List String) (base : String) : Prop :=
  base ∈ patterns.map ofPattern ∧
    ∀ other ∈ patterns.map ofPattern, contains other base = true → other = base

/-- A list that spans patterns consists of their outermost bases. -/
theorem Spans.mem_iff (h : Spans bases patterns) : base ∈ bases ↔ Outermost patterns base := by
  constructor
  · intro hbase
    obtain ⟨p, hp, rfl⟩ := h.origin base hbase
    refine ⟨List.mem_map_of_mem hp, fun other hother hcontains => ?_⟩
    obtain ⟨q, hq, rfl⟩ := List.mem_map.mp hother
    obtain ⟨around, haround, hcontains'⟩ := h.around q hq
    -- the base around the other one is around this one too, so it is this one
    obtain ⟨r, -, rfl⟩ := h.origin around haround
    have hwhole := forest.trans r q p hcontains' hcontains
    rw [h.antichain _ haround _ hbase hwhole] at hcontains'
    exact forest.antisymm q p hcontains hcontains'
  · rintro ⟨hbase, hlone⟩
    obtain ⟨p, hp, rfl⟩ := List.mem_map.mp hbase
    obtain ⟨around, haround, hcontains⟩ := h.around p hp
    obtain ⟨r, hr, rfl⟩ := h.origin around haround
    rwa [← hlone _ (List.mem_map_of_mem hr) hcontains]

/-- Around the base of a pattern there is one base of the list only. -/
theorem Spans.eq_of_contains (h : Spans bases patterns) {a b path : String} (ha : a ∈ bases)
    (hb : b ∈ bases) (hapath : contains a path = true) (hbpath : contains b path = true) :
    a = b := by
  rcases contains_comparable (h.ne_empty ha) (h.ne_empty hb) hapath hbpath with hab | hba
  · exact h.antichain a ha b hb hab
  · exact (h.antichain b hb a ha hba).symm

/-! ## Order -/

/-- The place of the first pattern whose base a base contains. -/
def firstIn (patterns : List String) (base : String) : Nat :=
  patterns.findIdx fun p => contains base (ofPattern p)

/-- Whether bases stand in the order of their first patterns. -/
def InOrder (patterns bases : List String) : Prop :=
  bases.Pairwise fun a b => firstIn patterns a < firstIn patterns b

/-- A base that contains another has its first pattern no later. -/
theorem firstIn_le_of_contains {a b : String} (ha : a ≠ "") (hb : b ≠ "")
    (h : contains a b = true) : firstIn patterns a ≤ firstIn patterns b :=
  List.findIdx_le_findIdx fun p _ hbp => contains_trans ha hb (ofPattern_ne_empty p) h hbp

/-- A base that contains one of the patterns' has a first pattern, and what contains that one's base
has its own first pattern no later. -/
theorem exists_first (h : firstIn patterns base < patterns.length) :
    ∃ p ∈ patterns, contains base (ofPattern p) = true ∧
      ∀ other, contains other (ofPattern p) = true →
        firstIn patterns other ≤ firstIn patterns base := by
  refine ⟨patterns[firstIn patterns base], List.getElem_mem h, ?_, fun other hother => ?_⟩
  · exact @List.findIdx_getElem _ _ _ h
  · refine Nat.le_of_not_lt fun hlt => ?_
    have hnot := List.not_of_lt_findIdx hlt
    exact Bool.false_ne_true (hnot.symm.trans hother)

theorem Spans.firstIn_lt (h : Spans bases patterns) (hbase : base ∈ bases) :
    firstIn patterns base < patterns.length := by
  obtain ⟨p, hp, rfl⟩ := h.origin base hbase
  exact List.findIdx_lt_length.mpr ⟨p, hp, contains_refl _⟩

/-- One more pattern changes nothing for a base that has a first one. -/
theorem firstIn_append (h : firstIn patterns base < patterns.length) (more : List String) :
    firstIn (patterns ++ more) base = firstIn patterns base := by
  rw [firstIn, List.findIdx_append]
  exact if_pos h

theorem length_le_firstIn_append (h : ¬ firstIn patterns base < patterns.length)
    (more : List String) : patterns.length ≤ firstIn (patterns ++ more) base := by
  rw [firstIn, List.findIdx_append]
  exact (if_neg h).symm ▸ Nat.le_add_left _ _

/-- A base put into an ordered list is in order if it comes behind those that are in front of all it
contains, and before those that are behind one that it contains. -/
theorem pairwise_put {R : String → String → Prop} (h : bases.Pairwise R)
    (hbehind : ∀ b ∈ bases, contains base b = false →
      (∀ c ∈ bases, contains base c = true → R b c) → R b base)
    (hbefore : ∀ b ∈ bases, contains base b = false →
      (∃ c ∈ bases, contains base c = true ∧ R c b) → R base b) :
    (put base bases).Pairwise R := by
  induction bases with
  | nil => exact List.pairwise_singleton R base
  | cons a bases ih =>
    obtain ⟨ha, hbases⟩ := List.pairwise_cons.mp h
    cases hcontains : contains base a with
    | true =>
      rw [put, if_pos hcontains]
      refine List.pairwise_cons.mpr ⟨fun b hb => ?_, hbases.filter _⟩
      obtain ⟨hb, hnot⟩ := List.mem_filter.mp hb
      exact hbefore b (List.mem_cons_of_mem a hb) (by simpa using hnot)
        ⟨a, List.mem_cons_self, hcontains, ha b hb⟩
    | false =>
      rw [put, if_neg (by simp [hcontains])]
      refine List.pairwise_cons.mpr ⟨fun b hb => ?_, ih hbases ?_ ?_⟩
      · rcases mem_put.mp hb with rfl | ⟨hb, -⟩
        · refine hbehind a List.mem_cons_self hcontains fun c hc hbc => ?_
          rcases List.mem_cons.mp hc with rfl | hc
          · rw [hcontains] at hbc
            cases hbc
          · exact ha c hc
        · exact ha b hb
      · intro b hb hnot hall
        refine hbehind b (List.mem_cons_of_mem a hb) hnot fun c hc hbc => ?_
        rcases List.mem_cons.mp hc with rfl | hc
        · rw [hcontains] at hbc
          cases hbc
        · exact hall c hc hbc
      · rintro b hb hnot ⟨c, hc, hbc⟩
        exact hbefore b (List.mem_cons_of_mem a hb) hnot ⟨c, List.mem_cons_of_mem a hc, hbc⟩

/-- An insertion keeps the order. -/
theorem InOrder.insert (h : InOrder patterns bases) (hspans : Spans bases patterns)
    (pattern : String) :
    InOrder (patterns ++ [pattern]) (insert bases (ofPattern pattern)) := by
  have hne := ofPattern_ne_empty pattern
  -- the bases of the list have their first patterns already
  have hsame : ∀ b ∈ bases, firstIn (patterns ++ [pattern]) b = firstIn patterns b :=
    fun b hb => firstIn_append (hspans.firstIn_lt hb) _
  have hold : InOrder (patterns ++ [pattern]) bases :=
    List.Pairwise.imp_of_mem (fun ha hb hlt => by rwa [hsame _ ha, hsame _ hb]) h
  unfold Base.insert
  split
  · exact hold
  · next hany =>
    have hout : ∀ b ∈ bases, contains b (ofPattern pattern) ≠ true := fun b hb hcontains =>
      hany (List.any_eq_true.mpr ⟨b, hb, hcontains⟩)
    refine pairwise_put hold (fun b hb hnot hall => ?_) fun b hb hnot hexists => ?_
    · by_cases hfirst : firstIn patterns (ofPattern pattern) < patterns.length
      · -- the first pattern of the new base is that of a base it contains
        obtain ⟨q, hq, hcontains, hleast⟩ := exists_first hfirst
        obtain ⟨c, hc, hcq⟩ := hspans.around q hq
        rcases contains_comparable hne (hspans.ne_empty hc) hcontains hcq with hpc | hcp
        · have hlt := hall c hc hpc
          rw [hsame c hc] at hlt
          rw [firstIn_append hfirst]
          exact Nat.lt_of_lt_of_le hlt (hleast c hcq)
        · exact absurd hcp (hout c hc)
      · rw [hsame b hb]
        exact Nat.lt_of_lt_of_le (hspans.firstIn_lt hb) (length_le_firstIn_append hfirst _)
    · obtain ⟨c, hc, hcontains, hlt⟩ := hexists
      exact Nat.lt_of_le_of_lt (firstIn_le_of_contains hne (hspans.ne_empty hc) hcontains) hlt

/-- A whole collection is in order. -/
theorem inOrder_collect (patterns : List String) : InOrder patterns (collect [] patterns) := by
  -- on the way, the list so far spans the patterns seen so far, and is in their order
  have hrun : ∀ (patterns bases seen : List String), Spans bases seen → InOrder seen bases →
      InOrder (seen ++ patterns) (collect bases patterns) := by
    intro patterns
    induction patterns with
    | nil =>
      intro bases seen _ h
      rwa [List.append_nil]
    | cons p ps ih =>
      intro bases seen hspans h
      have hstep := ih _ _ (hspans.insert p) (h.insert hspans p)
      rwa [List.append_assoc, List.singleton_append] at hstep
  exact hrun patterns [] [] ⟨by simp, by simp, by simp⟩ .nil

/-! ## The closed form -/

/-- **Closed form of a collection.** It has no duplicates, consists of the outermost bases of the
patterns, and stands in the order of their first patterns; containment is a forest on these bases.
So none of them contains another, every pattern's base is in one of them only, and the order of the
patterns does not matter for which bases there are. -/
theorem collect_closed_form (patterns : List String) :
    Forest ∧ (collect [] patterns).Nodup ∧
    (∀ base, base ∈ collect [] patterns ↔ Outermost patterns base) ∧
    InOrder patterns (collect [] patterns) ∧
    (∀ a ∈ collect [] patterns, ∀ b ∈ collect [] patterns, a ≠ b → contains a b = false) ∧
    (∀ p ∈ patterns, ∃! base, base ∈ collect [] patterns ∧ contains base (ofPattern p) = true) ∧
    ∀ patterns', patterns'.Perm patterns →
      ∀ base, base ∈ collect [] patterns' ↔ base ∈ collect [] patterns := by
  have hspans := spans_collect patterns
  have horder := inOrder_collect patterns
  refine ⟨forest, horder.imp ?_, fun base => hspans.mem_iff, horder, fun a ha b hb hne => ?_,
    fun p hp => ?_, fun patterns' hperm base => ?_⟩
  · rintro a _ hlt rfl
    exact Nat.lt_irrefl _ hlt
  · exact Bool.eq_false_iff.mpr fun hab => hne (hspans.antichain a ha b hb hab)
  · obtain ⟨base, hbase, hcontains⟩ := hspans.around p hp
    exact ⟨base, ⟨hbase, hcontains⟩, fun b hb => hspans.eq_of_contains hb.1 hbase hb.2 hcontains⟩
  · simp only [(spans_collect patterns').mem_iff, hspans.mem_iff, Outermost, List.mem_map,
      hperm.mem_iff]

-- a base stands where the first one that it takes in stood
example : collect [] ["src/a/*", "lib/*", "src/*"] = ["src", "lib"] := by decide

end PathSieve.Base

import PathSieve.Base
import PathSieve.Proofs.Pieces

/-!
# The order of bases, and what a list of bases spans

Containment of bases is a matter of their parts: a base lies in another when the other's parts begin
its own, except that `.` contains only relative bases that do not climb (`contains_iff`). Read so,
containment is a partial order on the bases of patterns.

The list that is collected for some patterns is an antichain of that order that lies around every
pattern's base, and each of its members is itself the base of one of the patterns (`Spans`). One
insertion keeps this (`Spans.insert`), so a whole collection does (`spans_collect`).
-/

namespace PathSieve.Base

open Glob PathSieve.Path
open Text (pieces append_sep_prefix_iff head?_pieces join_pieces pieces_inj pieces_join
  pieces_ne_nil sep_not_mem_pieces)

/-! ## Parts of a base -/

/-- The parts with which the path of everything under a base begins. -/
def parts (base : String) : List (List Char) :=
  if base = "." then []
  else if base = "/" then [[]]
  else pieces '/' base.toList

@[simp] theorem parts_dot : parts "." = [] := rfl

@[simp] theorem parts_slash : parts "/" = [[]] := rfl

theorem parts_of_ne {base : String} (hdot : base ≠ ".") (hslash : base ≠ "/") :
    parts base = pieces '/' base.toList := by
  rw [parts, if_neg hdot, if_neg hslash]

theorem pieces_ne_singleton_nil {base : String} (h : base ≠ "") :
    pieces '/' base.toList ≠ [[]] := by
  intro hparts
  exact h (String.toList_eq_nil_iff.mp (pieces_inj hparts))

theorem parts_eq_nil_iff {base : String} : parts base = [] ↔ base = "." := by
  by_cases hdot : base = "."
  · simp [hdot]
  · by_cases hslash : base = "/"
    · simp [hslash]
    · simp [parts_of_ne hdot hslash, pieces_ne_nil, hdot]

theorem parts_inj {a b : String} (ha : a ≠ "") (hb : b ≠ "") (h : parts a = parts b) : a = b := by
  by_cases hdot : b = "."
  · rw [hdot]
    exact parts_eq_nil_iff.mp (by rw [h, hdot, parts_dot])
  · have hadot : a ≠ "." := fun ha => hdot (parts_eq_nil_iff.mp (by rw [← h, ha, parts_dot]))
    -- only `/` has other parts than pieces, and these are no pieces of a text
    by_cases hslash : b = "/" <;> by_cases haslash : a = "/"
    · rw [hslash, haslash]
    · rw [hslash, parts_slash, parts_of_ne hadot haslash] at h
      exact absurd h (pieces_ne_singleton_nil ha)
    · rw [haslash, parts_slash, parts_of_ne hdot hslash] at h
      exact absurd h.symm (pieces_ne_singleton_nil hb)
    · rw [parts_of_ne hadot haslash, parts_of_ne hdot hslash] at h
      exact String.toList_inj.mp (pieces_inj h)

/-- An absolute base is one whose first part is empty. -/
theorem isAbsolute_iff {base : String} (h : base ≠ "") :
    isAbsolute base.toList = true ↔ (parts base).head? = some [] := by
  by_cases hdot : base = "."
  · subst hdot
    decide
  · by_cases hslash : base = "/"
    · subst hslash
      decide
    · have hnil : base.toList ≠ [] := mt String.toList_eq_nil_iff.mp h
      simp [parts_of_ne hdot hslash, head?_pieces, isAbsolute, hnil]

/-- A base climbs when its first part goes up. -/
theorem climbs_iff {base : String} : climbs base = true ↔ (parts base).head? = some dotDot := by
  by_cases hdot : base = "."
  · subst hdot
    decide
  · by_cases hslash : base = "/"
    · subst hslash
      decide
    · have hup : pieces '/' dotDot = [dotDot] := rfl
      rw [parts_of_ne hdot hslash, climbs, Bool.or_eq_true, beq_iff_eq, List.isPrefixOf_iff_prefix,
        show "../".toList = dotDot ++ ['/'] from rfl, append_sep_prefix_iff, hup]
      constructor
      · rintro (rfl | ⟨rest, -, h⟩)
        · rfl
        · rw [h]
          rfl
      · intro h
        obtain ⟨rest, hrest⟩ : ∃ rest, pieces '/' base.toList = dotDot :: rest := by
          cases hp : pieces '/' base.toList with
          | nil => exact absurd hp (pieces_ne_nil _ _)
          | cons p ps =>
            rw [hp, List.head?_cons, Option.some.injEq] at h
            exact ⟨ps, by rw [h]⟩
        by_cases hnil : rest = []
        · subst hnil
          exact .inl (String.toList_inj.mp (pieces_inj (hrest.trans hup.symm)))
        · exact .inr ⟨rest, hnil, hrest⟩

/-! ## Containment -/

/-- Whether something that begins with the given parts can lie under `.`. -/
def Stays (parts : List (List Char)) : Prop :=
  parts.head? ≠ some [] ∧ parts.head? ≠ some dotDot

/-- For a base with a text of its own, beginning another text means beginning its parts. -/
theorem append_slash_prefix_iff {outer inner : String} (hempty : outer ≠ "") (hdot : outer ≠ ".")
    (hslash : outer ≠ "/") (hne : outer ≠ inner) :
    outer.toList ++ ['/'] <+: inner.toList ↔ parts outer <+: parts inner := by
  rw [parts_of_ne hdot hslash, append_sep_prefix_iff]
  have hnil := pieces_ne_nil '/' outer.toList
  have hsingle := pieces_ne_singleton_nil hempty
  -- neither `.` nor `/` has pieces enough to continue those of `outer`
  by_cases hidot : inner = "."
  · subst hidot
    rw [parts_dot, List.prefix_nil]
    refine iff_of_false ?_ hnil
    rintro ⟨rest, hrest, h⟩
    have hlength := congrArg List.length h
    have hone : (pieces '/' ".".toList).length = 1 := rfl
    rw [hone, List.length_append] at hlength
    have := List.length_pos_iff.mpr hnil
    have := List.length_pos_iff.mpr hrest
    omega
  · by_cases hislash : inner = "/"
    · subst hislash
      obtain ⟨p, ps, hps⟩ := List.exists_cons_of_ne_nil hnil
      have htwo : pieces '/' "/".toList = [[], []] := rfl
      rw [parts_slash, htwo, hps]
      rw [hps] at hsingle
      constructor
      · rintro ⟨rest, hrest, h⟩
        rw [List.cons_append, List.cons.injEq] at h
        obtain ⟨rfl, h⟩ := h
        cases ps with
        | nil => exact absurd rfl hsingle
        | cons q qs => simp [hrest] at h
      · rintro ⟨rest, h⟩
        rw [List.cons_append, List.cons.injEq, List.append_eq_nil_iff] at h
        obtain ⟨rfl, rfl, -⟩ := h
        exact absurd rfl hsingle
    · rw [parts_of_ne hidot hislash]
      constructor
      · rintro ⟨rest, -, h⟩
        exact ⟨rest, h.symm⟩
      · rintro ⟨rest, h⟩
        refine ⟨rest, ?_, h.symm⟩
        rintro rfl
        exact hne (String.toList_inj.mp (pieces_inj ((List.append_nil _).symm.trans h)))

/-- A base lies in another when its parts continue the other's; what lies in `.` has to stay
there. -/
theorem contains_iff {outer inner : String} (ho : outer ≠ "") (hi : inner ≠ "") :
    contains outer inner = true ↔
      parts outer <+: parts inner ∧ (outer = "." → Stays (parts inner)) := by
  unfold contains
  split
  · next heq =>
    subst heq
    refine ⟨fun _ => ⟨List.prefix_refl _, ?_⟩, fun _ => rfl⟩
    rintro rfl
    simp [Stays]
  · next hne =>
    split
    · next hdot =>
      subst hdot
      rw [Bool.and_eq_true, Bool.not_eq_true', Bool.not_eq_true', ← Bool.not_eq_true,
        ← Bool.not_eq_true, isAbsolute_iff hi, climbs_iff]
      simp [Stays]
    · next hdot =>
      split
      · next hslash =>
        subst hslash
        rw [isAbsolute_iff hi, parts_slash, List.singleton_prefix_iff_head?_eq_some]
        simp
      · next hslash =>
        rw [List.isPrefixOf_iff_prefix, append_slash_prefix_iff ho hdot hslash hne]
        simp [hdot]

theorem contains_refl (base : String) : contains base base = true := if_pos rfl

/-- What has parts at all begins as all that continues it does. -/
theorem head?_of_isPrefix {ps qs : List (List Char)} (hne : ps ≠ []) (h : ps <+: qs) :
    qs.head? = ps.head? := by
  obtain ⟨rest, rfl⟩ := h
  cases ps with
  | nil => exact absurd rfl hne
  | cons p ps => rfl

theorem contains_trans {a b c : String} (ha : a ≠ "") (hb : b ≠ "") (hc : c ≠ "")
    (hab : contains a b = true) (hbc : contains b c = true) : contains a c = true := by
  rw [contains_iff ha hb] at hab
  rw [contains_iff hb hc] at hbc
  rw [contains_iff ha hc]
  refine ⟨hab.1.trans hbc.1, fun hdot => ?_⟩
  by_cases hbdot : b = "."
  · exact hbc.2 hbdot
  · have hne : parts b ≠ [] := mt parts_eq_nil_iff.mp hbdot
    have hstays := hab.2 hdot
    rw [Stays, head?_of_isPrefix hne hbc.1]
    exact hstays

theorem contains_antisymm {a b : String} (ha : a ≠ "") (hb : b ≠ "")
    (hab : contains a b = true) (hba : contains b a = true) : a = b := by
  have hab := ((contains_iff ha hb).mp hab).1
  have hba := ((contains_iff hb ha).mp hba).1
  exact parts_inj ha hb (hab.eq_of_length_le hba.length_le)

/-! ## Bases of patterns -/

/-- The base with the given literal parts. -/
def ofParts : List (List Char) → String
  | [] => "."
  | [[]] => "/"
  | texts => String.ofList (Text.join ['/'] texts)

theorem ofPattern_eq_ofParts (pattern : String) :
    ofPattern pattern = ofParts (literalSegments pattern) := rfl

theorem ofParts_ne_empty (texts : List (List Char)) : ofParts texts ≠ "" := by
  intro h
  have hchars := congrArg String.toList h
  match texts with
  | [] => exact absurd h (by decide)
  | [[]] => exact absurd h (by decide)
  | [c :: cs] => simp [ofParts, Text.join] at hchars
  | [] :: q :: ps => simp [ofParts, Text.join] at hchars
  | (c :: cs) :: q :: ps => simp [ofParts, Text.join] at hchars

theorem ofPattern_ne_empty (pattern : String) : ofPattern pattern ≠ "" :=
  ofParts_ne_empty _

/-- The parts of a base are the literal parts it was made of, unless these spell `.` or `/` in full,
which mean more as bases than as texts. -/
theorem parts_ofParts {texts : List (List Char)} (h : ∀ p ∈ texts, '/' ∉ p)
    (hdot : texts ≠ [dot]) (hslash : texts ≠ [[], []]) : parts (ofParts texts) = texts := by
  have hgeneral : ∀ texts : List (List Char), texts ≠ [] → (∀ p ∈ texts, '/' ∉ p) →
      texts ≠ [dot] → texts ≠ [[], []] →
      parts (String.ofList (Text.join ['/'] texts)) = texts := by
    intro texts hnil h hdot hslash
    have hpieces := pieces_join hnil h
    rw [parts_of_ne, String.toList_ofList, hpieces]
    · intro heq
      have hchars : Text.join ['/'] texts = dot := String.ofList_inj.mp heq
      rw [hchars] at hpieces
      exact hdot hpieces.symm
    · intro heq
      have hchars : Text.join ['/'] texts = ['/'] := String.ofList_inj.mp heq
      rw [hchars] at hpieces
      exact hslash hpieces.symm
  match texts with
  | [] => rfl
  | [[]] => rfl
  | [] :: q :: ps => exact hgeneral _ (by simp) h hdot hslash
  | (c :: cs) :: ps => exact hgeneral _ (by simp) h hdot hslash

/-- The literal parts of a pattern are a beginning of its segments. -/
theorem literalSegments_isPrefix (pattern : String) :
    literalSegments pattern <+: segmentTexts pattern := by
  simp only [literalSegments]
  split
  · exact List.dropLast_prefix _
  · exact List.takeWhile_prefix _

theorem slash_not_mem_literalSegments {pattern : String} {p : List Char}
    (hp : p ∈ literalSegments pattern) : '/' ∉ p :=
  sep_not_mem_pieces _ _ p ((literalSegments_isPrefix pattern).subset hp)

/-- The parts that steps take begin with the literal segments in front, and are these alone if the
pattern has no other. -/
theorem literal_of_fits {texts : List (List Char)} {segments : List Segment}
    {xs : List (List Char)} (hread : Pattern.readSegments texts = .ok segments)
    (hfits : fits (segments.map Segment.step) xs = true) :
    texts.takeWhile (!Segment.isWild ·) <+: xs ∧
      (texts.all (!Segment.isWild ·) = true → texts = xs) := by
  -- a literal segment takes the part of its own text, and the first wild one ends the front
  induction texts generalizing segments xs with
  | nil =>
    cases hread
    rw [List.map_nil, fits, List.isEmpty_iff] at hfits
    exact ⟨List.nil_prefix, fun _ => hfits.symm⟩
  | cons text texts ih =>
    by_cases hwild : Segment.isWild text = true
    · simp [hwild]
    · have hstar : text ≠ Segment.globstarText := by
        rintro rfl
        exact hwild rfl
      cases hrest : Pattern.readSegments texts with
      | error fault =>
        simp [Pattern.readSegments, Segment.ofText, hstar, hwild, hrest, bind, Except.bind] at hread
      | ok rest =>
        have hsegments : segments = .literal text :: rest := by
          simpa [Pattern.readSegments, Segment.ofText, hstar, hwild, hrest, bind, Except.bind, pure,
            Except.pure, eq_comm] using hread
        subst hsegments
        cases xs with
        | nil => exact absurd hfits Bool.false_ne_true
        | cons x xs =>
          have hone : (text == x && fits (rest.map Segment.step) xs) = true := hfits
          rw [Bool.and_eq_true, beq_iff_eq] at hone
          obtain ⟨rfl, hxs⟩ := hone
          obtain ⟨hfront, hall⟩ := ih hrest hxs
          refine ⟨?_, fun h => ?_⟩
          · rw [List.takeWhile_cons_of_pos (by simpa using hwild)]
            exact List.cons_prefix_cons.mpr ⟨rfl, hfront⟩
          · rw [List.all_cons, Bool.and_eq_true] at h
            rw [hall h.2]

/-- A pattern that matches a path is read, and its segments take the parts of the path. -/
theorem exists_fits_of_accepts {pattern path : String} (h : accepts? pattern path = .ok true) :
    ∃ segments, Pattern.readSegments (segmentTexts pattern) = .ok segments ∧
      fits (segments.map Segment.step) (Pattern.parts path) = true := by
  unfold accepts? Pattern.ofText at h
  cases hread : Pattern.readSegments (segmentTexts pattern) with
  | error fault => simp [hread, Except.map] at h
  | ok segments =>
    rw [hread] at h
    exact ⟨segments, rfl, Except.ok.inj h⟩

/-- What a pattern matches begins with its literal parts. -/
theorem literalSegments_isPrefix_of_accepts {pattern path : String}
    (h : accepts? pattern path = .ok true) :
    literalSegments pattern <+: Pattern.parts path := by
  obtain ⟨segments, hread, hfits⟩ := exists_fits_of_accepts h
  obtain ⟨hfront, hall⟩ := literal_of_fits hread hfits
  simp only [literalSegments]
  split
  · next hliteral =>
    rw [← hall hliteral]
    exact List.dropLast_prefix _
  · exact hfront

/-! ## What a list of bases spans -/

/-- A base that is put into a list takes the place of all that it contains. -/
theorem mem_put {base b : String} {bases : List String} :
    b ∈ put base bases ↔ b = base ∨ b ∈ bases ∧ contains base b = false := by
  induction bases with
  | nil => simp [put]
  | cons a bases ih =>
    by_cases ha : contains base a = true
    · rw [put, if_pos ha, List.mem_cons, List.mem_filter]
      constructor
      · rintro (rfl | ⟨hb, hnot⟩)
        · exact .inl rfl
        · exact .inr ⟨List.mem_cons_of_mem a hb, by simpa using hnot⟩
      · rintro (rfl | ⟨hb, hnot⟩)
        · exact .inl rfl
        · rcases List.mem_cons.mp hb with rfl | hb
          · rw [ha] at hnot
            cases hnot
          · exact .inr ⟨hb, by simpa using hnot⟩
    · rw [put, if_neg ha, List.mem_cons, ih]
      constructor
      · rintro (rfl | rfl | ⟨hb, hnot⟩)
        · exact .inr ⟨List.mem_cons_self, by simpa using ha⟩
        · exact .inl rfl
        · exact .inr ⟨List.mem_cons_of_mem a hb, hnot⟩
      · rintro (rfl | ⟨hb, hnot⟩)
        · exact .inr (.inl rfl)
        · rcases List.mem_cons.mp hb with rfl | hb
          · exact .inl rfl
          · exact .inr (.inr ⟨hb, hnot⟩)

/-- What a list of bases is to a list of patterns: made of bases of theirs, around all of them, and
without a base that lies in another. -/
structure Spans (bases patterns : List String) : Prop where
  origin : ∀ b ∈ bases, ∃ p ∈ patterns, b = ofPattern p
  around : ∀ p ∈ patterns, ∃ b ∈ bases, contains b (ofPattern p) = true
  antichain : ∀ a ∈ bases, ∀ b ∈ bases, contains a b = true → a = b

theorem Spans.ne_empty {bases patterns : List String} (h : Spans bases patterns) {base : String}
    (hb : base ∈ bases) : base ≠ "" := by
  obtain ⟨p, -, rfl⟩ := h.origin base hb
  exact ofPattern_ne_empty p

/-- Inserting the base of one more pattern spans that pattern too. -/
theorem Spans.insert {bases patterns : List String} (h : Spans bases patterns) (pattern : String) :
    Spans (insert bases (ofPattern pattern)) (patterns ++ [pattern]) := by
  unfold Base.insert
  split
  · next hany =>
    -- the base lies in one of the list, which stays as it is
    obtain ⟨b, hb, hcontains⟩ := List.any_eq_true.mp hany
    refine ⟨fun c hc => ?_, fun p hp => ?_, h.antichain⟩
    · obtain ⟨p, hp, hcp⟩ := h.origin c hc
      exact ⟨p, List.mem_append_left _ hp, hcp⟩
    · rcases List.mem_append.mp hp with hp | hp
      · exact h.around p hp
      · rw [List.mem_singleton.mp hp]
        exact ⟨b, hb, hcontains⟩
  · next hany =>
    have hout : ∀ b ∈ bases, contains b (ofPattern pattern) ≠ true := fun b hb hcontains =>
      hany (List.any_eq_true.mpr ⟨b, hb, hcontains⟩)
    have hne := ofPattern_ne_empty pattern
    refine ⟨fun c hc => ?_, fun p hp => ?_, fun a ha b hb hab => ?_⟩
    · rcases mem_put.mp hc with rfl | ⟨hc, -⟩
      · exact ⟨pattern, List.mem_append_right _ List.mem_cons_self, rfl⟩
      · obtain ⟨p, hp, hcp⟩ := h.origin c hc
        exact ⟨p, List.mem_append_left _ hp, hcp⟩
    · rcases List.mem_append.mp hp with hp | hp
      · obtain ⟨b, hb, hbp⟩ := h.around p hp
        cases hcontains : contains (ofPattern pattern) b with
        | false => exact ⟨b, mem_put.mpr (.inr ⟨hb, hcontains⟩), hbp⟩
        | true =>
          -- the base around `p` is dropped, but only for one around itself
          exact ⟨_, mem_put.mpr (.inl rfl),
            contains_trans hne (h.ne_empty hb) (ofPattern_ne_empty p) hcontains hbp⟩
      · rw [List.mem_singleton.mp hp]
        exact ⟨_, mem_put.mpr (.inl rfl), contains_refl _⟩
    · rcases mem_put.mp ha with rfl | ⟨ha, hanot⟩
      · rcases mem_put.mp hb with rfl | ⟨-, hbnot⟩
        · rfl
        · rw [hab] at hbnot
          cases hbnot
      · rcases mem_put.mp hb with rfl | ⟨hb, -⟩
        · exact absurd hab (hout a ha)
        · exact h.antichain a ha b hb hab

/-- A whole collection spans its patterns. -/
theorem spans_collect (patterns : List String) : Spans (collect [] patterns) patterns := by
  -- on the way, the list so far spans the patterns seen so far
  have hrun : ∀ (patterns bases seen : List String), Spans bases seen →
      Spans (collect bases patterns) (seen ++ patterns) := by
    intro patterns
    induction patterns with
    | nil =>
      intro bases seen h
      rwa [List.append_nil]
    | cons p ps ih =>
      intro bases seen h
      have hstep := ih _ _ (h.insert p)
      rwa [List.append_assoc, List.singleton_append] at hstep
  exact hrun patterns [] [] ⟨by simp, by simp, by simp⟩

end PathSieve.Base

import Mathlib.Data.List.DropRight
import PathSieve.Proofs.Pieces
import PathSieve.Proofs.SingleSegment

/-!
# Escaped texts

A text is made a pattern for itself by putting a backslash before each character with a meaning of
its own. More characters may be escaped as well, but no slash, for a slash separates segments even
behind a backslash. Then the pattern can be read and matches that text and no other
(`accepts?_escaped`).

Escaping does not move the slashes, so the segments of the pattern are the parts of the text, each
escaped (`forall₂_pieces`). An escaped segment spells the characters of the part it was made from,
one item each (`spells_of_escaped`), and is no double star, so it takes that part alone
(`Segment.Exact`). Segments of which each takes one part alone take one path alone
(`fits_exact`).
-/

namespace PathSieve.Glob

open Text (pieces pieces_inj pieces_ne_nil)

/-- `Escaped plain word`: the word is the plain text with backslashes before its special characters,
and before any others that are no slashes. -/
inductive Escaped : List Char → List Char → Prop
  | nil : Escaped [] []
  | bare {c : Char} {plain word : List Char} (hc : c ≠ '*' ∧ c ≠ '?' ∧ c ≠ '\\' ∧ c ≠ '[')
      (h : Escaped plain word) : Escaped (c :: plain) (c :: word)
  | behind {c : Char} {plain word : List Char} (hc : c ≠ '/') (h : Escaped plain word) :
      Escaped (c :: plain) ('\\' :: c :: word)

variable {plain word : List Char}

/-! ## Where the slashes are -/

/-- Escaping does not change the last character. -/
theorem getLast?_of_escaped (h : Escaped plain word) : word.getLast? = plain.getLast? := by
  induction h with
  | nil => rfl
  | bare _ _ ih => rw [List.getLast?_cons, List.getLast?_cons, ih]
  | behind _ _ ih => rw [List.getLast?_cons_cons, List.getLast?_cons, List.getLast?_cons, ih]

/-- The pieces of an escaped text are the pieces of the text, each escaped. -/
theorem forall₂_pieces (h : Escaped plain word) :
    List.Forall₂ Escaped (pieces '/' plain) (pieces '/' word) := by
  induction h with
  | nil => exact .cons .nil .nil
  | @bare c plain word hc h ih =>
    rw [pieces, pieces]
    split
    · exact .cons .nil ih
    · obtain ⟨p, ps, hps⟩ := List.exists_cons_of_ne_nil (pieces_ne_nil '/' plain)
      rw [hps] at ih ⊢
      obtain ⟨q, qs, hp, hrest, hqs⟩ := List.forall₂_cons_left_iff.mp ih
      rw [hqs]
      exact .cons (.bare hc hp) hrest
  | @behind c plain word hc h ih =>
    rw [pieces, if_neg hc, pieces, if_neg (by decide), pieces, if_neg hc]
    obtain ⟨p, ps, hps⟩ := List.exists_cons_of_ne_nil (pieces_ne_nil '/' plain)
    rw [hps] at ih ⊢
    obtain ⟨q, qs, hp, hrest, hqs⟩ := List.forall₂_cons_left_iff.mp ih
    rw [hqs]
    exact .cons (.behind hc hp) hrest

/-- Nothing is taken off a text that does not end in a slash. -/
theorem trimSlashes_eq_self {cs : List Char} (h : cs.getLast? ≠ some '/') :
    trimSlashes cs = cs := by
  have hkept : (cs.reverse.dropWhile (· == '/')).reverse = cs := by
    show cs.rdropWhile (· == '/') = cs
    rw [List.rdropWhile_eq_self_iff]
    intro hne hlast
    exact h (by rw [List.getLast?_eq_some_getLast hne, beq_iff_eq.mp hlast])
  simp only [trimSlashes, hkept]
  split
  · next hempty => exact absurd hempty.1 hempty.2
  · rfl

/-! ## Segments that take one part alone -/

/-- Whether a segment takes the given part and nothing else. -/
def Segment.Exact (segment : Segment) (text : List Char) : Prop :=
  segment ≠ .globstar ∧ ∀ part, segment.accepts part = true ↔ part = text

/-- Segments that take one part each take these parts together. -/
theorem fits_exact {segments : List Segment} {texts : List (List Char)}
    (h : List.Forall₂ Segment.Exact segments texts) (xs : List (List Char)) :
    fits (segments.map Segment.step) xs = true ↔ xs = texts := by
  induction h generalizing xs with
  | nil => simp [fits]
  | @cons segment text segments texts hexact _ ih =>
    obtain ⟨hstar, haccepts⟩ := hexact
    have hstep : segment.step = .one segment.accepts := by
      cases segment with
      | literal text => rfl
      | glob source items => rfl
      | globstar => exact absurd rfl hstar
    rw [List.map_cons, hstep]
    cases xs with
    | nil => exact iff_of_false Bool.false_ne_true (List.cons_ne_nil _ _).symm
    | cons x xs => rw [fits, Bool.and_eq_true, haccepts, ih, List.cons.injEq]

/-- Without special characters there is nothing to escape. -/
theorem escaped_of_wildcardFree {text : List Char} (h : WildcardFree text) : Escaped text text := by
  induction text with
  | nil => exact .nil
  | cons c cs ih =>
    obtain ⟨⟨hstar, hany, hclass, hescape⟩, hcs⟩ := List.forall_mem_cons.mp h
    exact .bare ⟨hstar, hany, hescape, hclass⟩ (ih hcs)

theorem spells_of_escaped (h : Escaped plain word) : Spells word (plain.map .char) := by
  induction h with
  | nil => exact .nil
  | bare hc _ ih => exact .cons (.char hc) ih
  | behind _ _ ih => exact .cons .escaped ih

/-- An escaped text is read as a segment that takes that text alone. -/
theorem exists_exact_of_escaped (h : Escaped plain word) :
    ∃ segment, Segment.ofText word = .ok segment ∧ segment.Exact plain := by
  have hspells := spells_of_escaped h
  have hstar : word ≠ Segment.globstarText := by
    rintro rfl
    cases h with
    | bare hc _ => exact hc.1 rfl
  obtain ⟨segment, hread⟩ := Segment.exists_ofText_iff.mpr (.inr (.inr ⟨_, hspells⟩))
  obtain ⟨items, hitems, haccepts, -⟩ := exists_spells_of_ofText hread hstar
  rw [(spells_iff_eq hspells items).mp hitems] at haccepts
  have hexact : ∀ part, segment.accepts part = true ↔ part = plain := by
    intro part
    rw [haccepts, accepts_literal_iff, eq_comm]
  refine ⟨segment, hread, ?_, hexact⟩
  -- a double star would take a longer part too
  rintro rfl
  have hlonger : plain ++ ['x'] = plain := (hexact _).mp rfl
  simp at hlonger

theorem exists_readSegments_exact {texts words : List (List Char)}
    (h : List.Forall₂ Escaped texts words) :
    ∃ segments, Pattern.readSegments words = .ok segments ∧
      List.Forall₂ Segment.Exact segments texts := by
  induction h with
  | nil => exact ⟨[], rfl, .nil⟩
  | cons hword _ ih =>
    obtain ⟨segment, hread, hexact⟩ := exists_exact_of_escaped hword
    obtain ⟨segments, hrest, hall⟩ := ih
    refine ⟨segment :: segments, ?_, .cons hexact hall⟩
    rw [Pattern.readSegments, hread, hrest]
    rfl

/-! ## Patterns -/

/-- An escaped path is cut where the path is, if it is `/` or does not end in a slash. -/
theorem segmentTexts_of_escaped {path pattern : String} (h : Escaped path.toList pattern.toList)
    (hend : path = "/" ∨ path.toList.getLast? ≠ some '/') :
    segmentTexts pattern = pieces '/' pattern.toList := by
  rw [segmentTexts]
  congr 1
  rcases hend with rfl | hlast
  · -- a slash is not escaped
    have hslash : pattern.toList = ['/'] := by
      generalize pattern.toList = word at h
      have hcases : Escaped ['/'] word := h
      cases hcases with
      | bare _ hrest =>
        cases hrest
        rfl
      | behind hc _ => exact absurd rfl hc
    rw [hslash]
    rfl
  · exact trimSlashes_eq_self (by rwa [getLast?_of_escaped h])

/-- A pattern whose segments are the parts of a path, each escaped, is read and matches the path
alone. -/
theorem exists_ofText_of_parts {path pattern : String}
    (h : List.Forall₂ Escaped (Pattern.parts path) (segmentTexts pattern)) :
    ∃ p, Pattern.ofText pattern = .ok p ∧ ∀ x, p.accepts x = decide (x = path) := by
  obtain ⟨segments, hread, hexact⟩ := exists_readSegments_exact h
  refine ⟨⟨pattern, segments⟩, ?_, ?_⟩
  · rw [Pattern.ofText, hread]
  · intro x
    rw [Bool.eq_iff_iff, decide_eq_true_iff, Pattern.accepts, fits_exact hexact]
    constructor
    · intro heq
      exact String.toList_inj.mp (pieces_inj heq)
    · rintro rfl
      rfl

/-- **Escaping.** A path that is `/` or does not end in a slash, with a backslash before each special
character and perhaps before others that are no slashes, is a pattern that matches this path and
nothing else. -/
theorem accepts?_escaped {path pattern : String} (h : Escaped path.toList pattern.toList)
    (hend : path = "/" ∨ path.toList.getLast? ≠ some '/') (x : String) :
    accepts? pattern x = .ok (decide (x = path)) := by
  have hparts := forall₂_pieces h
  rw [← segmentTexts_of_escaped h hend] at hparts
  obtain ⟨p, hread, haccepts⟩ := exists_ofText_of_parts hparts
  rw [accepts?, hread, ← haccepts]
  rfl

/-- A double star, an empty segment, special characters and a line end, some of them escaped without
need. -/
theorem accepts?_escaped_stars :
    Escaped "/**//[é]\n$\\".toList "/\\*\\*//\\[\\é]\\\n$\\\\".toList ∧
      "/**//[é]\n$\\".toList.getLast? ≠ some '/' ∧
      accepts? "/\\*\\*//\\[\\é]\\\n$\\\\" "/**//[é]\n$\\" = .ok true ∧
      accepts? "/\\*\\*//\\[\\é]\\\n$\\\\" "/a//é\n$\\" = .ok false := by
  have h : Escaped "/**//[é]\n$\\".toList "/\\*\\*//\\[\\é]\\\n$\\\\".toList := by
    refine .bare (by decide) (.behind (by decide) (.behind (by decide) ?_))
    refine .bare (by decide) (.bare (by decide) ?_)
    refine .behind (by decide) (.behind (by decide) (.bare (by decide) ?_))
    exact .behind (by decide) (.bare (by decide) (.behind (by decide) .nil))
  have hend : "/**//[é]\n$\\".toList.getLast? ≠ some '/' := by decide
  exact ⟨h, hend, accepts?_escaped h (.inr hend) _, accepts?_escaped h (.inr hend) _⟩

end PathSieve.Glob

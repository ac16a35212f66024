import PathSieve.Proofs.Expression
import PathSieve.Proofs.Reading

/-!
# Single segments: what a match of one path part is

A path part matches a segment other than `**` when it can be cut into one piece per item of the
segment, in order: any piece for a star, one character for a question mark, one character in the
class or one outside it for a class, and the very character for everything else.

Plain texts are compared as a whole, all others item by item or by way of their regular expression.
The three do not differ: a plain text is a sequence of characters that stand for themselves
(`accepts_literal_iff`), and the ranges of what the grammar allows run forward, so that every such
expression can be read (`forward_of_spells`).
-/

namespace PathSieve.Glob

open Text (Regex)

variable {text : List Char} {items : List Item}

/-! ## Pieces -/

/-- Whether a member of a class holds a character. -/
def Member.Holds (c : Char) : Member → Prop
  | .single d => c = d
  | .range low high => low.toNat ≤ c.toNat ∧ c.toNat ≤ high.toNat

/-- The pieces of a path part that an item may get. -/
def Item.Takes : Item → List Char → Prop
  | .star, _ => True
  | .any, piece => ∃ c, piece = [c]
  | .oneOf cls, piece =>
    ∃ c, piece = [c] ∧ Xor (∃ m ∈ cls.members, m.Holds c) (cls.negated = true)
  | .char c, piece => piece = [c]

theorem Member.holds_iff_holds {m : Member} {c : Char} : m.holds c = true ↔ m.Holds c := by
  cases m <;> simp [Member.holds, Member.Holds]

theorem CharClass.takes_iff_xor {cls : CharClass} {c : Char} :
    cls.takes c = true ↔ Xor (∃ m ∈ cls.members, m.Holds c) (cls.negated = true) := by
  have hany : cls.members.any (·.holds c) = true ↔ ∃ m ∈ cls.members, m.Holds c := by
    simp only [List.any_eq_true, Member.holds_iff_holds]
  rw [takes, ← hany]
  cases cls.members.any (·.holds c) <;> cases cls.negated <;> decide

/-- An item gets what the step it is matched by may get. -/
theorem Item.step_takes_iff (item : Item) (piece : List Char) :
    item.step.Takes piece ↔ item.Takes piece := by
  cases item with
  | star => rfl
  | any => simp [Takes, step, Step.Takes]
  | oneOf cls => simp [Takes, step, Step.Takes, CharClass.takes_iff_xor]
  | char c => simp [Takes, step, Step.Takes]

/-- Items accept what can be cut into one piece per item. -/
theorem accepts_iff_forall₂ {part : List Char} :
    Item.accepts items part = true ↔
      ∃ pieces : List (List Char), pieces.flatten = part ∧
        List.Forall₂ Item.Takes items pieces := by
  rw [Item.accepts, fits_iff_distributes, Distributes]
  simp only [List.forall₂_map_left_iff, Item.step_takes_iff]

/-! ## Plain texts -/

/-- A plain text is matched as a whole, and as well character by character. -/
theorem accepts_literal_iff (text part : List Char) :
    Item.accepts (text.map .char) part = true ↔ text = part := by
  rw [accepts_iff_forall₂]
  constructor
  · rintro ⟨pieces, rfl, h⟩
    induction text generalizing pieces with
    | nil =>
      cases h
      rfl
    | cons c cs ih =>
      cases h with
      | @cons _ piece _ pieces hpiece hpieces =>
        obtain rfl : piece = [c] := hpiece
        rw [List.flatten_cons, ← ih pieces hpieces]
        rfl
  · rintro rfl
    induction text with
    | nil => exact ⟨[], rfl, .nil⟩
    | cons c cs ih =>
      obtain ⟨pieces, hpieces, h⟩ := ih
      exact ⟨[c] :: pieces, congrArg (c :: ·) hpieces, .cons rfl h⟩

/-! ## Ranges -/

theorem forward_of_memberAt {first : Bool} {m : Member} {rest : List Char}
    (h : MemberAt first text m rest) : m.Forward := by
  cases h with
  | single => trivial
  | range _ _ _ _ hle => exact hle

theorem forward_of_membersAt {first : Bool} {members : List Member} {rest : List Char}
    (h : MembersAt first text members rest) : ∀ m ∈ members, m.Forward := by
  induction h with
  | nil => exact nofun
  | cons hm _ ih => exact List.forall_mem_cons.mpr ⟨forward_of_memberAt hm, ih⟩

theorem forward_of_itemAt {item : Item} {rest : List Char} (h : ItemAt text item rest) :
    item.Forward := by
  cases h with
  | oneOf _ hmembers _ => exact forward_of_membersAt hmembers
  | _ => trivial

theorem forward_of_itemsAt {rest : List Char} (h : ItemsAt text items rest) :
    ∀ item ∈ items, item.Forward := by
  induction h with
  | nil => exact nofun
  | cons hitem _ ih => exact List.forall_mem_cons.mpr ⟨forward_of_itemAt hitem, ih⟩

/-! ## Segments -/

theorem spells_iff_eq (h : Spells text items) (items' : List Item) :
    Spells text items' ↔ items' = items := by
  rw [← Item.ofText_eq_ok_iff, Item.ofText_of_spells h, Except.ok.injEq, eq_comm]

/-- An accepted segment other than a double star accepts what the items of its text accept, and is
nothing but its text if that is plain. -/
theorem exists_spells_of_ofText {segment : Segment} (hread : Segment.ofText text = .ok segment)
    (hstar : text ≠ Segment.globstarText) :
    ∃ items, Spells text items ∧ (∀ part, segment.accepts part = Item.accepts items part) ∧
      (Segment.isWild text = false → segment = .literal text) := by
  rw [Segment.ofText, if_neg hstar] at hread
  split at hread
  · next hwild =>
    cases hitems : Item.ofText text with
    | error fault =>
      rw [hitems] at hread
      cases hread
    | ok items =>
      rw [hitems] at hread
      obtain rfl : Segment.glob text items = segment := Except.ok.inj hread
      refine ⟨items, Item.ofText_eq_ok_iff.mp hitems, fun part => rfl, fun hplain => ?_⟩
      rw [hwild] at hplain
      cases hplain
  · next hplain =>
    obtain rfl : Segment.literal text = segment := Except.ok.inj hread
    rw [Bool.not_eq_true, isWild_eq_false_iff] at hplain
    refine ⟨text.map .char, spells_of_wildcardFree hplain, fun part => ?_, fun _ => rfl⟩
    rw [Bool.eq_iff_iff, accepts_literal_iff]
    exact beq_iff_eq

/-- **Single segments.** An accepted segment other than a double star spells one list of items, and
accepts exactly what can be cut into one piece per item, in order. So does a plain text, which is
compared as a whole, and the regular expression of any other segment, whatever its characters mean
in regular expressions. -/
theorem accepts_iff_exists_pieces {segment : Segment} (hread : Segment.ofText text = .ok segment)
    (hstar : text ≠ Segment.globstarText) :
    ∃ items, (∀ items', Spells text items' ↔ items' = items) ∧
      (∀ part, segment.accepts part = true ↔
        ∃ pieces : List (List Char), pieces.flatten = part ∧
          List.Forall₂ Item.Takes items pieces) ∧
      (Segment.isWild text = false → segment = .literal text) ∧
      (Segment.isWild text = true → ∃ r, Regex.ofText? (Item.anchored items) = some r ∧
        ∀ part, r.Finds part ↔ segment.accepts part = true) := by
  obtain ⟨items, hspells, haccepts, hplain⟩ := exists_spells_of_ofText hread hstar
  refine ⟨items, spells_iff_eq hspells, fun part => ?_, hplain, fun _ => ?_⟩
  · rw [haccepts, accepts_iff_forall₂]
  · exact ⟨_, ofText?_anchored (forward_of_itemsAt hspells), fun part => by
      rw [finds_anchoredTerm_iff, haccepts]⟩

/-- A bracket that is a member, a range with an escaped end, and a character with a meaning in
regular expressions. -/
theorem accepts_iff_exists_pieces_class :
    ∃ segment items,
      Segment.ofText ['[', ']', ')', '-', '\\', ']', ']', '*', '$'] = .ok segment ∧
      ['[', ']', ')', '-', '\\', ']', ']', '*', '$'] ≠ Segment.globstarText ∧
      Spells ['[', ']', ')', '-', '\\', ']', ']', '*', '$'] items ∧
      (∀ part, segment.accepts part = true ↔
        ∃ pieces : List (List Char), pieces.flatten = part ∧
          List.Forall₂ Item.Takes items pieces) ∧
      ∃ r, Regex.ofText? (Item.anchored items) = some r ∧
        ∀ part, r.Finds part ↔ segment.accepts part = true := by
  have hread : Segment.ofText ['[', ']', ')', '-', '\\', ']', ']', '*', '$'] =
      .ok (.glob ['[', ']', ')', '-', '\\', ']', ']', '*', '$']
        [.oneOf ⟨false, [.single ']', .range ')' ']']⟩, .star, .char '$']) := rfl
  have hstar : ['[', ']', ')', '-', '\\', ']', ']', '*', '$'] ≠ Segment.globstarText := by decide
  obtain ⟨items, hspells, haccepts, -, hregex⟩ := accepts_iff_exists_pieces hread hstar
  exact ⟨_, items, hread, hstar, (hspells items).mpr rfl, haccepts, hregex rfl⟩

end PathSieve.Glob

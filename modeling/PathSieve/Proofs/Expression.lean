import PathSieve.Glob.Expression
import PathSieve.Proofs.DoubleStar
import PathSieve.Text.Regex

/-!
# Segments as regular expressions accept the same

The expression of a segment is read as what it was made from: each item gives one term
(`Item.term`), whatever characters it holds, and what stands behind an item is read as if it stood
alone. So the whole text is read as the items' terms in a row between the two anchors
(`ofText?_anchored`), and such an expression finds exactly the texts that can be dealt out to the
items (`finds_anchoredTerm_iff`).

Two things carry the reading. What `escape` leaves alone is not reserved (`escape_cases`), and what
a member or the end of a class starts with is neither a bare dash nor a caret, so it cannot be taken
for a part of what stands in front of it (`afterLow_members`, `head?_members`).
-/

namespace PathSieve.Glob

open Text (Regex)
open Text.Regex (Token Group Spans InRanges isReserved isEscapable)

variable {c low : Char} {outside : Bool} {ranges : List (Char × Char)} {rest : List Char}
variable {item : Item} {items : List Item} {members : List Member} {before run after : List Char}

/-! ## Terms -/

/-- A member as the range of an expression. -/
def Member.bounds : Member → Char × Char
  | .single c => (c, c)
  | .range low high => (low, high)

/-- The term that the text of an item is read as. -/
def Item.term : Item → Regex
  | .star => .star .any
  | .any => .any
  | .oneOf cls => .oneOf cls.negated (cls.members.map Member.bounds)
  | .char c => .char c

/-- The items' terms behind others. -/
def Item.terms (r : Regex) (items : List Item) : Regex :=
  items.foldl (fun r item => r.seq item.term) r

/-! ## Escaped characters -/

theorem isSyntax_eq (c : Char) : isSyntax c = (isReserved c || c == '/') := by
  rw [Bool.eq_iff_iff]
  simp [isSyntax, isReserved, or_assoc]

/-- A character that is escaped may be escaped, and one that is not has no other meaning. -/
theorem escape_cases (inClass : Bool) (c : Char) :
    escape inClass c = ['\\', c] ∧ isEscapable inClass c = true ∨
      escape inClass c = [c] ∧ isReserved c = false ∧ (inClass = true → c ≠ '-') := by
  rw [escape, isEscapable, isSyntax_eq]
  split
  · next h => exact .inl ⟨rfl, h⟩
  · next h =>
    rw [Bool.not_eq_true, Bool.or_eq_false_iff, Bool.or_eq_false_iff] at h
    obtain ⟨⟨hreserved, -⟩, hdash⟩ := h
    refine .inr ⟨rfl, hreserved, ?_⟩
    rintro rfl rfl
    cases hdash

theorem ne_of_not_reserved {d : Char} (h : isReserved c = false) (hd : isReserved d = true) :
    c ≠ d := by
  rintro rfl
  rw [h] at hd
  cases hd

/-- What `escape` writes is read as the character, and what follows as if it stood alone. -/
theorem ofText?_escape :
    Token.ofText? (escape false c ++ rest) = (Token.ofText? rest).map (.atom (.char c) :: ·) := by
  rcases escape_cases false c with ⟨h, hc⟩ | ⟨h, hc, -⟩
  · rw [h, List.cons_append, List.singleton_append, Token.ofText?, if_pos hc]
  · have hbackslash : c ≠ '\\' := ne_of_not_reserved hc rfl
    have hparen : c ≠ '(' := ne_of_not_reserved hc rfl
    have hbracket : c ≠ '[' := ne_of_not_reserved hc rfl
    rw [h, List.singleton_append, Token.ofText?, if_neg (by simp [hc])]
    · exact fun _ _ h _ => hbackslash h
    · exact fun _ h _ => hparen h
    · exact fun _ h _ => hbracket h
    · exact hbracket

/-! ## Classes -/

theorem inClass_escape :
    Token.inClass outside ranges (escape true c ++ rest) =
      Token.afterLow outside ranges c rest := by
  rcases escape_cases true c with ⟨h, hc⟩ | ⟨h, hc, -⟩
  · rw [h, List.cons_append, List.singleton_append, Token.inClass, if_pos hc]
  · have hbackslash : c ≠ '\\' := ne_of_not_reserved hc rfl
    have hbracket : c ≠ ']' := ne_of_not_reserved hc rfl
    rw [h, List.singleton_append, Token.inClass, if_neg hbracket]
    · exact fun h _ => hbackslash h
    · exact fun _ _ h _ => hbackslash h

/-- A member behind a character leaves it a member of its own. -/
theorem afterLow_escape :
    Token.afterLow outside ranges low (escape true c ++ rest) =
      Token.inClass outside (ranges ++ [(low, low)]) (escape true c ++ rest) := by
  rw [inClass_escape]
  rcases escape_cases true c with ⟨h, hc⟩ | ⟨h, hc, hdash⟩
  · rw [h, List.cons_append, List.singleton_append, Token.afterLow, if_pos hc]
  · have hbackslash : c ≠ '\\' := ne_of_not_reserved hc rfl
    have hbracket : c ≠ ']' := ne_of_not_reserved hc rfl
    rw [h, List.singleton_append, Token.afterLow, if_neg hbracket, if_neg (hdash rfl)]
    · exact fun h _ => hbackslash h
    · exact fun _ _ h _ => hbackslash h

theorem afterLow_dash_escape (hle : low.toNat ≤ c.toNat) :
    Token.afterLow outside ranges low ('-' :: (escape true c ++ rest)) =
      Token.inClass outside (ranges ++ [(low, c)]) rest := by
  rw [Token.afterLow, if_neg (by decide), if_pos rfl]
  · rcases escape_cases true c with ⟨h, hc⟩ | ⟨h, hc, -⟩
    · rw [h, List.cons_append, List.singleton_append, Token.afterDash, if_pos ⟨hc, hle⟩]
    · have hbackslash : c ≠ '\\' := ne_of_not_reserved hc rfl
      have hbracket : c ≠ ']' := ne_of_not_reserved hc rfl
      rw [h, List.singleton_append, Token.afterDash, if_neg hbracket, if_pos hle]
      · exact fun h _ => hbackslash h
      · exact fun _ _ h _ => hbackslash h
  · exact nofun
  · exact nofun

theorem inClass_bracket :
    Token.inClass outside ranges (']' :: rest) =
      (Token.ofText? rest).map (.atom (.oneOf outside ranges) :: ·) := by
  rw [Token.inClass, if_pos rfl]
  · exact nofun
  · exact nofun

theorem afterLow_bracket :
    Token.afterLow outside ranges low (']' :: rest) =
      Token.inClass outside (ranges ++ [(low, low)]) (']' :: rest) := by
  rw [inClass_bracket, Token.afterLow, if_pos rfl]
  · exact nofun
  · exact nofun

/-- What follows a character is another member or the end, and neither starts with a bare dash. -/
theorem afterLow_members :
    Token.afterLow outside ranges low (members.flatMap Member.expression ++ ']' :: rest) =
      Token.inClass outside (ranges ++ [(low, low)])
        (members.flatMap Member.expression ++ ']' :: rest) := by
  cases members with
  | nil => exact afterLow_bracket
  | cons m ms =>
    rw [List.flatMap_cons, List.append_assoc]
    cases m with
    | single c => exact afterLow_escape
    | range low' high =>
      rw [Member.expression, List.append_assoc]
      exact afterLow_escape

/-- Whether the range that a member may be runs forward. -/
def Member.Forward : Member → Prop
  | .single _ => True
  | .range low high => low.toNat ≤ high.toNat

/-- Members are read as their ranges, up to the bracket that closes the class. -/
theorem inClass_members (h : ∀ m ∈ members, m.Forward) :
    Token.inClass outside ranges (members.flatMap Member.expression ++ ']' :: rest) =
      (Token.ofText? rest).map
        (.atom (.oneOf outside (ranges ++ members.map Member.bounds)) :: ·) := by
  induction members generalizing ranges with
  | nil => rw [List.map_nil, List.append_nil, List.flatMap_nil, List.nil_append, inClass_bracket]
  | cons m ms ih =>
    obtain ⟨hm, hms⟩ := List.forall_mem_cons.mp h
    have hranges : ranges ++ (m :: ms).map Member.bounds =
        ranges ++ [m.bounds] ++ ms.map Member.bounds := by simp
    rw [List.flatMap_cons, List.append_assoc, hranges, ← ih hms]
    cases m with
    | single c => rw [Member.expression, inClass_escape, afterLow_members, Member.bounds]
    | range low high =>
      rw [Member.expression, List.append_assoc, inClass_escape, List.cons_append,
        afterLow_dash_escape hm, Member.bounds]

/-- A class without a caret in front does not start with one. -/
theorem head?_members :
    ∀ cs, members.flatMap Member.expression ++ ']' :: rest ≠ '^' :: cs := by
  have hescape : ∀ c tail cs, escape true c ++ tail ≠ '^' :: cs := by
    intro c tail cs h
    rcases escape_cases true c with ⟨he, -⟩ | ⟨he, hc, -⟩
    · rw [he] at h
      cases h
    · rw [he] at h
      exact ne_of_not_reserved hc rfl (List.cons.inj h).1
  cases members with
  | nil => exact nofun
  | cons m ms =>
    rw [List.flatMap_cons, List.append_assoc]
    cases m with
    | single c => exact hescape c _
    | range low high =>
      rw [Member.expression, List.append_assoc]
      exact hescape low _

/-! ## Items -/

/-- Whether the ranges of a class run forward. -/
def Item.Forward : Item → Prop
  | .oneOf cls => ∀ m ∈ cls.members, m.Forward
  | _ => True

/-- The tokens of an item's text. -/
def Item.tokens : Item → List Token
  | .star => [.atom .any, .star]
  | item => [.atom item.term]

/-- The text of an item is read as its tokens, and what follows as if it stood alone. -/
theorem ofText?_item (h : item.Forward) :
    Token.ofText? (item.expression ++ rest) = (Token.ofText? rest).map (item.tokens ++ ·) := by
  cases item with
  | star =>
    have hdot : Token.ofText? ('.' :: '*' :: rest) =
        (Token.ofText? ('*' :: rest)).map (.atom .any :: ·) := rfl
    have hstar : Token.ofText? ('*' :: rest) = (Token.ofText? rest).map (.star :: ·) := rfl
    show Token.ofText? ('.' :: '*' :: rest) = _
    rw [hdot, hstar, Option.map_map]
    rfl
  | any => rfl
  | char c => exact ofText?_escape
  | oneOf cls =>
    obtain ⟨negated, members⟩ := cls
    have hclass : ∀ outside, Token.inClass outside []
        (members.flatMap Member.expression ++ ']' :: rest) =
          (Token.ofText? rest).map (.atom (.oneOf outside (members.map Member.bounds)) :: ·) :=
      fun outside => inClass_members h
    rw [Item.expression, CharClass.expression, List.append_assoc, List.append_assoc]
    cases negated with
    | true =>
      show Token.ofText? ('[' :: '^' :: (members.flatMap Member.expression ++ ']' :: rest)) = _
      rw [Token.ofText?]
      exact hclass true
    | false =>
      show Token.ofText? ('[' :: (members.flatMap Member.expression ++ ']' :: rest)) = _
      rw [Token.ofText?]
      · exact hclass false
      · exact head?_members

theorem ofText?_items (h : ∀ item ∈ items, item.Forward) :
    Token.ofText? (items.flatMap Item.expression ++ rest) =
      (Token.ofText? rest).map (items.flatMap Item.tokens ++ ·) := by
  induction items with
  | nil => simp
  | cons item items ih =>
    obtain ⟨hitem, hitems⟩ := List.forall_mem_cons.mp h
    rw [List.flatMap_cons, List.append_assoc, ofText?_item hitem, ih hitems, Option.map_map,
      List.flatMap_cons]
    simp only [Function.comp_def, List.append_assoc]

/-- The tokens of an item are put together to its term. -/
theorem ofTokens?_item (item : Item) (g : Group) (outer : List Group) (ts : List Token) :
    ∃ g' : Group, g'.earlier = g.earlier ∧ g'.current = g.current.seq item.term ∧
      Regex.ofTokens? (item.tokens ++ ts) g outer = Regex.ofTokens? ts g' outer := by
  cases item with
  | star => exact ⟨⟨g.earlier, g.current.seq (.star .any), none⟩, rfl, rfl, rfl⟩
  | any => exact ⟨g.push .any, rfl, rfl, rfl⟩
  | oneOf cls => exact ⟨g.push _, rfl, rfl, rfl⟩
  | char c => exact ⟨g.push (.char c), rfl, rfl, rfl⟩

theorem ofTokens?_items (items : List Item) (g : Group) (outer : List Group) (ts : List Token) :
    ∃ g' : Group, g'.earlier = g.earlier ∧ g'.current = Item.terms g.current items ∧
      Regex.ofTokens? (items.flatMap Item.tokens ++ ts) g outer = Regex.ofTokens? ts g' outer := by
  induction items generalizing g with
  | nil => exact ⟨g, rfl, rfl, rfl⟩
  | cons item items ih =>
    obtain ⟨mid, hearlier, hcurrent, hitem⟩ :=
      ofTokens?_item item g outer (items.flatMap Item.tokens ++ ts)
    obtain ⟨g', hearlier', hcurrent', hitems⟩ := ih mid
    refine ⟨g', hearlier'.trans hearlier, ?_, ?_⟩
    · rw [hcurrent', hcurrent]
      rfl
    · rw [List.flatMap_cons, List.append_assoc, hitem, hitems]

/-- The expression that an anchored text is read as. -/
def Item.anchoredTerm (items : List Item) : Regex :=
  ((Regex.empty.seq .atStart).seq (Item.terms .empty items)).seq .atEnd

/-- The text of a segment's expression is read as its items' terms between the two ends. -/
theorem ofText?_anchored (h : ∀ item ∈ items, item.Forward) :
    Regex.ofText? (Item.anchored items) = some (Item.anchoredTerm items) := by
  have htokens : Token.ofText? (Item.anchored items) = some
      (.anchor .atStart :: .opening ::
        (items.flatMap Item.tokens ++ [.closing, .anchor .atEnd])) := by
    have hclosing : Token.ofText? [')', '$'] = some [.closing, .anchor .atEnd] := rfl
    have hopening : ∀ text, Token.ofText? ('^' :: '(' :: '?' :: ':' :: text) =
        (Token.ofText? text).map fun ts => .anchor .atStart :: .opening :: ts := by
      intro text
      show ((Token.ofText? text).map (.opening :: ·)).map (.anchor .atStart :: ·) = _
      rw [Option.map_map]
      rfl
    rw [Item.anchored, List.append_assoc]
    show Token.ofText?
      ('^' :: '(' :: '?' :: ':' :: (items.flatMap Item.expression ++ [')', '$'])) = _
    rw [hopening, ofText?_items h, hclosing]
    rfl
  obtain ⟨g, hearlier, hcurrent, hitems⟩ :=
    ofTokens?_items items .start [Group.start.close .atStart] [.closing, .anchor .atEnd]
  have hwhole : g.whole = Item.terms .empty items := by
    rw [Group.whole, hearlier]
    exact hcurrent
  rw [Regex.ofText?, htokens]
  show Regex.ofTokens? (items.flatMap Item.tokens ++ [.closing, .anchor .atEnd]) .start
    [Group.start.close .atStart] = _
  rw [hitems]
  show some (((Regex.empty.seq .atStart).seq g.whole).seq .atEnd) = _
  rw [hwhole, Item.anchoredTerm]

/-! ## What the terms find -/

theorem spans_seq_iff {r s : Regex} :
    (r.seq s).Spans before run after ↔
      ∃ u v, run = u ++ v ∧ r.Spans before u (v ++ after) ∧ s.Spans (before ++ u) v after := by
  constructor
  · intro h
    cases h with
    | seq hr hs => exact ⟨_, _, rfl, hr, hs⟩
  · rintro ⟨u, v, rfl, hr, hs⟩
    exact .seq hr hs

theorem spans_empty_iff : Regex.empty.Spans before run after ↔ run = [] := by
  constructor
  · intro h
    cases h
    rfl
  · rintro rfl
    exact .empty

theorem spans_atStart_iff : Regex.atStart.Spans before run after ↔ before = [] ∧ run = [] := by
  constructor
  · intro h
    cases h
    exact ⟨rfl, rfl⟩
  · rintro ⟨rfl, rfl⟩
    exact .atStart

theorem spans_atEnd_iff : Regex.atEnd.Spans before run after ↔ run = [] ∧ after = [] := by
  constructor
  · intro h
    cases h
    exact ⟨rfl, rfl⟩
  · rintro ⟨rfl, rfl⟩
    exact .atEnd

/-- Any run is one character after the other. -/
theorem spans_star_any (before run after : List Char) :
    (Regex.star .any).Spans before run after := by
  induction run generalizing before with
  | nil => exact .starNone
  | cons c cs ih =>
    have hfirst : Regex.any.Spans before [c] (cs ++ after) := .any
    exact .starMore hfirst (ih _)

theorem holds_iff {m : Member} :
    m.holds c = true ↔ m.bounds.1.toNat ≤ c.toNat ∧ c.toNat ≤ m.bounds.2.toNat := by
  cases m with
  | range low high => simp [Member.holds, Member.bounds]
  | single d =>
    rw [Member.holds, beq_iff_eq, ← Char.toNat_inj]
    show c.toNat = d.toNat ↔ d.toNat ≤ c.toNat ∧ c.toNat ≤ d.toNat
    omega

theorem takes_iff {cls : CharClass} :
    cls.takes c = true ↔ (InRanges (cls.members.map Member.bounds) c ↔ cls.negated = false) := by
  have hany : cls.members.any (·.holds c) = true ↔ InRanges (cls.members.map Member.bounds) c := by
    simp only [List.any_eq_true, holds_iff, InRanges, List.mem_map, exists_exists_and_eq_and]
  rw [CharClass.takes, ← hany]
  cases cls.members.any (·.holds c) <;> cases cls.negated <;> decide

/-- The term of an item takes the runs that the item may get. -/
theorem spans_term_iff : item.term.Spans before run after ↔ item.step.Takes run := by
  cases item with
  | star => exact ⟨fun _ => trivial, fun _ => spans_star_any _ _ _⟩
  | any =>
    constructor
    · intro h
      cases h with
      | any => exact ⟨_, rfl, rfl⟩
    · rintro ⟨c, rfl, -⟩
      exact .any
  | oneOf cls =>
    constructor
    · intro h
      cases h with
      | oneOf h => exact ⟨_, rfl, takes_iff.mpr h⟩
    · rintro ⟨c, rfl, h⟩
      exact .oneOf (takes_iff.mp h)
  | char d =>
    constructor
    · intro h
      cases h with
      | char => exact ⟨d, rfl, beq_self_eq_true d⟩
    · rintro ⟨c, rfl, h⟩
      rw [eq_of_beq h]
      exact .char

/-- Terms in a row take what can be dealt out to the items, behind what the term in front takes. -/
theorem spans_terms_iff {r : Regex} :
    (Item.terms r items).Spans before run after ↔
      ∃ u v, run = u ++ v ∧ r.Spans before u (v ++ after) ∧
        Distributes (items.map Item.step) v := by
  induction items generalizing r with
  | nil =>
    constructor
    · exact fun h => ⟨run, [], (List.append_nil run).symm, h, distributes_nil.mpr rfl⟩
    · rintro ⟨u, v, rfl, hr, hv⟩
      obtain rfl := distributes_nil.mp hv
      rw [List.append_nil]
      exact hr
  | cons item items ih =>
    show (Item.terms (r.seq item.term) items).Spans before run after ↔ _
    rw [ih]
    simp only [spans_seq_iff, spans_term_iff, List.map_cons, distributes_cons]
    constructor
    · rintro ⟨_, w, rfl, ⟨u, v, rfl, hr, hitem⟩, hw⟩
      exact ⟨u, v ++ w, List.append_assoc u v w, by rwa [List.append_assoc], v, w, rfl, hitem, hw⟩
    · rintro ⟨u, _, rfl, hr, v, w, rfl, hitem, hw⟩
      refine ⟨u ++ v, w, (List.append_assoc u v w).symm, ⟨u, v, rfl, ?_, hitem⟩, hw⟩
      rwa [List.append_assoc] at hr

/-- Between the two ends, the terms find a text if they take all of it. -/
theorem finds_anchoredTerm_iff {text : List Char} :
    (Item.anchoredTerm items).Finds text ↔ Item.accepts items text = true := by
  rw [Item.accepts, fits_iff_distributes, Regex.Finds, Item.anchoredTerm]
  simp only [spans_seq_iff, spans_terms_iff, spans_empty_iff, spans_atStart_iff, spans_atEnd_iff]
  constructor
  · rintro ⟨before, run, after, rfl, _, _, rfl,
      ⟨_, _, rfl, ⟨_, _, rfl, rfl, hbefore, rfl⟩, _, v, rfl, rfl, hv⟩, rfl, rfl⟩
    obtain ⟨rfl, -⟩ := List.append_eq_nil_iff.mp hbefore
    simpa using hv
  · intro h
    exact ⟨[], text, [], by simp, text, [], by simp, ⟨[], text, rfl, ⟨[], [], rfl, rfl, rfl, rfl⟩,
      [], text, rfl, rfl, h⟩, rfl, rfl⟩

end PathSieve.Glob

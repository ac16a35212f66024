import PathSieve.Glob.Pattern
import PathSieve.Proofs.Grammar

/-!
# Patterns are read by the grammar

Where the grammar takes a step, the reader takes the same one, whatever follows
(`Item.ofText_itemAt`), and where it finds a fault the reader reports it (`Item.ofText_faultAt`).
So a text that spells items is read as these, and one with a first fault is refused for it. The
reader gives one answer and the grammar leaves no text out, so both hold the other way round too
(`Item.ofText_eq_ok_iff`, `Item.ofText_eq_error_iff`): a text spells one list of items at most, or
has one first fault, and never both.

Segments add the double star and the plain texts, and patterns add which segment is faulty first.
-/

namespace PathSieve.Glob

/-- A fault stays what it is when the rest of the answer is changed. -/
theorem map_eq_error_iff {α β : Type} {f : α → β} {answer : Except Fault α} {fault : Fault} :
    answer.map f = .error fault ↔ answer = .error fault := by
  cases answer with
  | ok a => exact ⟨nofun, nofun⟩
  | error fault' =>
    exact ⟨fun h => congrArg _ (Except.error.inj h), fun h => congrArg _ (Except.error.inj h)⟩

/-! ## Items -/

theorem letters_bare {c : Char} (h : c ≠ '\\') (rest : List Char) :
    Letter.ofText (c :: rest) = .bare c :: Letter.ofText rest := by
  rw [Letter.ofText]
  · exact fun hc _ => h hc
  · exact fun _ _ hc _ => h hc

theorem letters_escaped (c : Char) (rest : List Char) :
    Letter.ofText ('\\' :: c :: rest) = .escaped c :: Letter.ofText rest := by
  rw [Letter.ofText]

/-- A bare letter in front is the character in front. -/
theorem head?_of_letters {text : List Char} {c : Char} {letters : List Letter}
    (h : Letter.ofText text = .bare c :: letters) : text.head? = some c := by
  rcases writes_cases text with rfl | rfl | ⟨d, word, rest, rfl, hword⟩
  · cases h
  · cases h
  · cases hword with
    | bare hd =>
      rw [List.singleton_append, letters_bare hd, List.cons.injEq, Letter.bare.injEq] at h
      exact congrArg some h.1
    | escaped =>
      rw [List.cons_append, List.singleton_append, letters_escaped] at h
      cases h

namespace Item

variable {negated first : Bool} {members ms : List Member} {m : Member} {low c : Char}
variable {word text rest body : List Char} {item : Item} {items : List Item} {fault : Fault}

/-- A character where a member starts is read as one, unless it is the bracket that closes. -/
theorem inClass_writes (h : Writes c word) (hbracket : word = [']'] → members = []) :
    inClass negated members (Letter.ofText (word ++ rest)) =
      afterLow negated members c (Letter.ofText rest) := by
  cases h with
  | bare hc =>
    have hopen : ¬ (c = ']' ∧ members ≠ []) := fun ⟨hc, hne⟩ => hne (hbracket (by rw [hc]))
    rw [List.singleton_append, letters_bare hc, inClass, if_neg hopen]
  | escaped => rw [List.cons_append, List.singleton_append, letters_escaped, inClass]

/-- Without a range ahead, the character read last is a member of its own. -/
theorem afterLow_single (h : ¬ DashAhead rest) :
    afterLow negated members low (Letter.ofText rest) =
      inClass negated (members ++ [.single low]) (Letter.ofText rest) := by
  have hne : members ++ [.single low] ≠ [] := by simp
  rcases writes_cases rest with rfl | rfl | ⟨c, word, behind, rfl, hword⟩
  · rfl
  · rfl
  · cases hword with
    | escaped => rw [List.cons_append, List.singleton_append, letters_escaped, afterLow, inClass]
    | bare hc =>
      rw [List.singleton_append, letters_bare hc, afterLow, inClass]
      by_cases hclose : c = ']'
      · rw [if_pos hclose, if_pos ⟨hclose, hne⟩]
      · have hopen : ¬ (c = ']' ∧ members ++ [.single low] ≠ []) := fun h => hclose h.1
        rw [if_neg hclose, if_neg hopen]
        by_cases hminus : c = '-'
        · subst hminus
          -- the dash ends the text or the class, so it is a member itself
          rw [if_pos rfl]
          cases behind with
          | nil => rfl
          | cons d behind =>
            obtain rfl : d = ']' := Classical.byContradiction fun hd => h ⟨d, behind, rfl, hd⟩
            rw [letters_bare (by decide), afterDash, afterLow, if_pos rfl, if_pos rfl,
              List.append_assoc]
            rfl
        · rw [if_neg hminus]

/-- A dash and a character that is no bare closing bracket end a range. -/
theorem afterLow_range (h : Writes c word) (hbracket : word ≠ [']']) :
    afterLow negated members low (Letter.ofText ('-' :: (word ++ rest))) =
      if low.toNat ≤ c.toNat then inClass negated (members ++ [.range low c]) (Letter.ofText rest)
      else .error .backwardRange := by
  rw [letters_bare (by decide), afterLow, if_neg (by decide), if_pos rfl]
  cases h with
  | bare hc =>
    have hclose : c ≠ ']' := fun h => hbracket (by rw [h])
    rw [List.singleton_append, letters_bare hc, afterDash, if_neg hclose]
  | escaped => rw [List.cons_append, List.singleton_append, letters_escaped, afterDash]

theorem inClass_memberAt (h : MemberAt first text m rest) (hfirst : first = true → members = []) :
    inClass negated members (Letter.ofText text) =
      inClass negated (members ++ [m]) (Letter.ofText rest) := by
  cases h with
  | single hword hbracket hdash =>
    rw [inClass_writes hword fun h => hfirst (hbracket h), afterLow_single hdash]
  | range hword hbracket hword' hbracket' hle =>
    rw [inClass_writes hword fun h => hfirst (hbracket h), afterLow_range hword' hbracket',
      if_pos hle]

theorem inClass_membersAt (h : MembersAt first text ms rest)
    (hfirst : first = true → members = []) :
    inClass negated members (Letter.ofText text) =
      inClass negated (members ++ ms) (Letter.ofText rest) := by
  induction h generalizing members with
  | nil => rw [List.append_nil]
  | cons hm hms ih =>
    rw [inClass_memberAt hm hfirst, ih nofun, List.append_assoc, List.singleton_append]

theorem inClass_close (h : members ≠ []) :
    inClass negated members (Letter.ofText (']' :: rest)) =
      (ofText rest).map (.oneOf ⟨negated, members⟩ :: ·) := by
  rw [letters_bare (by decide), inClass, if_pos ⟨rfl, h⟩, ofText]

theorem inClass_fault (h : ClassFaultAt first text fault) (hfirst : first = true → members = []) :
    inClass negated members (Letter.ofText text) = .error fault := by
  cases h with
  | ended => rfl
  | endedEscape => rfl
  | endedRange hword hbracket =>
    rw [inClass_writes hword fun h => hfirst (hbracket h)]
    rfl
  | backward hword hbracket hword' hbracket' hlt =>
    rw [inClass_writes hword fun h => hfirst (hbracket h), afterLow_range hword' hbracket',
      if_neg (Nat.not_le_of_lt hlt)]

theorem ofText_headAt (h : HeadAt text negated body) :
    ofText ('[' :: text) = inClass negated [] (Letter.ofText body) := by
  rw [ofText, letters_bare (by decide)]
  cases h with
  | bang => rw [letters_bare (by decide), ofLetters]
  | caret => rw [letters_bare (by decide), ofLetters]
  | plain h =>
    rw [ofLetters]
    · exact fun _ heq => h.1 (head?_of_letters heq)
    · exact fun _ heq => h.2 (head?_of_letters heq)

theorem ofText_itemAt (h : ItemAt text item rest) :
    ofText text = (ofText rest).map (item :: ·) := by
  cases h with
  | star => rw [ofText, letters_bare (by decide), ofLetters, ofText]
  | any => rw [ofText, letters_bare (by decide), ofLetters, ofText]
  | escaped => rw [ofText, letters_escaped, ofLetters, ofText]
  | oneOf hhead hmembers hne =>
    rw [ofText_headAt hhead, inClass_membersAt hmembers fun _ => rfl, List.nil_append,
      inClass_close hne]
  | char h =>
    obtain ⟨hstar, hany, hescape, hclass⟩ := h
    rw [ofText, letters_bare hescape, ofLetters, ofText]
    · exact hstar
    · exact hany
    · exact fun _ _ => hclass
    · exact fun _ _ => hclass
    · exact hclass

theorem ofText_itemsAt (h : ItemsAt text items rest) :
    ofText text = (ofText rest).map (items ++ ·) := by
  induction h with
  | @nil text =>
    cases ofText text <;> rfl
  | @cons _ _ rest _ _ hitem _ ih =>
    rw [ofText_itemAt hitem, ih]
    cases ofText rest <;> rfl

theorem ofText_faultAt (h : FaultAt text fault) : ofText text = .error fault := by
  cases h with
  | danglingEscape => rfl
  | inClass hhead hmembers hfault =>
    rw [ofText_headAt hhead, inClass_membersAt hmembers fun _ => rfl, List.nil_append]
    exact inClass_fault hfault List.isEmpty_iff.mp

theorem ofText_of_spells (h : Spells text items) : ofText text = .ok items := by
  rw [ofText_itemsAt h]
  exact congrArg Except.ok (List.append_nil items)

theorem ofText_of_firstFault (h : FirstFault text fault) : ofText text = .error fault := by
  obtain ⟨items, rest, hitems, hfault⟩ := h
  rw [ofText_itemsAt hitems, ofText_faultAt hfault]
  rfl

/-- The reader accepts the sequences of items, and says which items. -/
theorem ofText_eq_ok_iff : ofText text = .ok items ↔ Spells text items := by
  refine ⟨fun h => ?_, ofText_of_spells⟩
  rcases spells_or_firstFault text with ⟨items', h'⟩ | ⟨fault, h'⟩
  · rw [ofText_of_spells h', Except.ok.injEq] at h
    exact h ▸ h'
  · rw [ofText_of_firstFault h'] at h
    cases h

/-- The reader refuses the texts with a fault, and says which one comes first. -/
theorem ofText_eq_error_iff : ofText text = .error fault ↔ FirstFault text fault := by
  refine ⟨fun h => ?_, ofText_of_firstFault⟩
  rcases spells_or_firstFault text with ⟨items, h'⟩ | ⟨fault', h'⟩
  · rw [ofText_of_spells h'] at h
    cases h
  · rw [ofText_of_firstFault h', Except.error.injEq] at h
    exact h ▸ h'

end Item

/-- Of two faults of a text, only one is the first. -/
theorem firstFault_unique {text : List Char} {fault fault' : Fault} (h : FirstFault text fault)
    (h' : FirstFault text fault') : fault = fault' :=
  Except.error.inj ((Item.ofText_of_firstFault h).symm.trans (Item.ofText_of_firstFault h'))

/-! ## Segments -/

/-- A text without a character that means more than itself. -/
def WildcardFree (text : List Char) : Prop := ∀ c ∈ text, c ≠ '*' ∧ c ≠ '?' ∧ c ≠ '[' ∧ c ≠ '\\'

/-- What a segment may be: a double star, plain text, or a sequence of items. -/
def Readable (text : List Char) : Prop :=
  text = ['*', '*'] ∨ WildcardFree text ∨ ∃ items, Spells text items

theorem isWild_eq_false_iff {text : List Char} :
    Segment.isWild text = false ↔ WildcardFree text := by
  have hany : text.any Segment.isSpecial = false ↔ WildcardFree text := by
    simp [WildcardFree, Segment.isSpecial, and_assoc]
  rw [Segment.isWild, Bool.or_eq_false_iff, hany]
  refine ⟨And.right, fun h => ⟨beq_eq_false_iff_ne.mpr ?_, h⟩⟩
  rintro rfl
  exact (h '*' (by decide)).1 rfl

theorem spells_of_wildcardFree {text : List Char} (h : WildcardFree text) :
    Spells text (text.map .char) := by
  induction text with
  | nil => exact .nil
  | cons c cs ih =>
    obtain ⟨hc, hcs⟩ := List.forall_mem_cons.mp h
    obtain ⟨hstar, hany, hclass, hescape⟩ := hc
    exact .cons (.char ⟨hstar, hany, hescape, hclass⟩) (ih hcs)

/-- A double star could be two stars, and the characters of plain text could be items. -/
theorem exists_spells_of_readable {text : List Char} (h : Readable text) :
    ∃ items, Spells text items := by
  rcases h with rfl | hfree | hspells
  · exact ⟨_, .cons .star (.cons .star .nil)⟩
  · exact ⟨_, spells_of_wildcardFree hfree⟩
  · exact hspells

theorem readable_or_firstFault (text : List Char) :
    Readable text ∨ ∃ fault, FirstFault text fault :=
  (spells_or_firstFault text).imp_left fun h => .inr (.inr h)

theorem not_readable_of_firstFault {text : List Char} {fault : Fault} (h : FirstFault text fault) :
    ¬ Readable text := by
  intro hreadable
  obtain ⟨items, hspells⟩ := exists_spells_of_readable hreadable
  have hread := Item.ofText_of_spells hspells
  rw [Item.ofText_of_firstFault h] at hread
  cases hread

namespace Segment

variable {text : List Char} {fault : Fault}

/-- A segment is refused for the first fault of its text. -/
theorem ofText_eq_error_iff : ofText text = .error fault ↔ FirstFault text fault := by
  rw [ofText]
  split
  · next h => exact iff_of_false nofun fun hfault => not_readable_of_firstFault hfault (.inl h)
  · split
    · rw [map_eq_error_iff, Item.ofText_eq_error_iff]
    · next hwild =>
      have hfree : WildcardFree text := isWild_eq_false_iff.mp (Bool.eq_false_iff.mpr hwild)
      exact iff_of_false nofun fun hfault => not_readable_of_firstFault hfault (.inr (.inl hfree))

/-- A segment is accepted if its text is one of the three that a segment may be. -/
theorem exists_ofText_iff : (∃ segment, ofText text = .ok segment) ↔ Readable text := by
  constructor
  · rintro ⟨segment, h⟩
    refine (readable_or_firstFault text).resolve_right ?_
    rintro ⟨fault, hfault⟩
    rw [ofText_eq_error_iff.mpr hfault] at h
    cases h
  · intro h
    cases hread : ofText text with
    | ok segment => exact ⟨segment, rfl⟩
    | error fault => exact absurd h (not_readable_of_firstFault (ofText_eq_error_iff.mp hread))

end Segment

/-! ## Patterns -/

namespace Pattern

variable {text : List Char} {texts : List (List Char)} {fault : Fault}

theorem readSegments_cons_of_firstFault (h : FirstFault text fault) :
    readSegments (text :: texts) = .error fault := by
  rw [readSegments, Segment.ofText_eq_error_iff.mpr h]
  rfl

theorem readSegments_cons_of_readable (h : Readable text) :
    ∃ segment, readSegments (text :: texts) = (readSegments texts).map (segment :: ·) := by
  obtain ⟨segment, hsegment⟩ := Segment.exists_ofText_iff.mpr h
  refine ⟨segment, ?_⟩
  rw [readSegments, hsegment]
  cases readSegments texts <;> rfl

/-- Segments are refused for the first fault of the first faulty one. -/
theorem readSegments_eq_error_iff :
    readSegments texts = .error fault ↔
      ∃ before text after, texts = before ++ text :: after ∧
        (∀ t ∈ before, Readable t) ∧ FirstFault text fault := by
  induction texts with
  | nil => simp [readSegments]
  | cons text texts ih =>
    simp only [List.cons_eq_append_iff]
    rcases readable_or_firstFault text with hreadable | ⟨fault', hfault'⟩
    · obtain ⟨segment, hstep⟩ := readSegments_cons_of_readable hreadable
      rw [hstep, map_eq_error_iff, ih]
      constructor
      · rintro ⟨before, text', after, rfl, hbefore, hfault⟩
        exact ⟨text :: before, text', after, .inr ⟨before, rfl, rfl⟩,
          List.forall_mem_cons.mpr ⟨hreadable, hbefore⟩, hfault⟩
      · rintro ⟨before, text', after, ⟨rfl, heq⟩ | ⟨tail, rfl, rfl⟩, hbefore, hfault⟩
        · obtain ⟨rfl, -⟩ := List.cons.inj heq
          exact absurd hreadable (not_readable_of_firstFault hfault)
        · exact ⟨tail, text', after, rfl, fun t ht => hbefore t (List.mem_cons_of_mem _ ht), hfault⟩
    · rw [readSegments_cons_of_firstFault hfault', Except.error.injEq]
      constructor
      · rintro rfl
        exact ⟨[], text, texts, .inl ⟨rfl, rfl⟩, nofun, hfault'⟩
      · rintro ⟨before, text', after, ⟨rfl, heq⟩ | ⟨tail, rfl, -⟩, hbefore, hfault⟩
        · obtain ⟨rfl, -⟩ := List.cons.inj heq
          exact firstFault_unique hfault' hfault
        · exact absurd (hbefore text List.mem_cons_self) (not_readable_of_firstFault hfault')

/-- Segments are read if each of them can be. -/
theorem exists_readSegments_iff :
    (∃ segments, readSegments texts = .ok segments) ↔ ∀ text ∈ texts, Readable text := by
  induction texts with
  | nil => simp [readSegments]
  | cons text texts ih =>
    rw [List.forall_mem_cons, ← ih]
    rcases readable_or_firstFault text with hreadable | ⟨fault, hfault⟩
    · obtain ⟨segment, hstep⟩ := readSegments_cons_of_readable hreadable
      rw [hstep, and_iff_right hreadable]
      cases readSegments texts with
      | ok segments => exact ⟨fun _ => ⟨_, rfl⟩, fun _ => ⟨_, rfl⟩⟩
      | error fault => exact ⟨nofun, nofun⟩
    · rw [readSegments_cons_of_firstFault hfault]
      exact iff_of_false nofun fun h => not_readable_of_firstFault hfault h.1

/-- **The grammar of patterns.** A pattern is accepted exactly if each of its segments is a double
star, plain text or a sequence of items. Otherwise it is refused, with the whole pattern as it was
given and the fault of the first segment that is none of these: the first one met when its items are
read from the left. -/
theorem ofText_iff_grammar (source : String) :
    ((∃ p, ofText source = .ok p) ↔ ∀ text ∈ segmentTexts source, Readable text) ∧
    (∀ e, ofText source = .error e ↔
      e.pattern = source ∧
        ∃ before text after, segmentTexts source = before ++ text :: after ∧
          (∀ t ∈ before, Readable t) ∧ FirstFault text e.fault) ∧
    Fault.backwardRange.reason = "invalid character range" ∧
    Fault.openClass.reason = "unterminated character class" ∧
    Fault.danglingEscape.reason = "trailing escape character" := by
  refine ⟨?_, fun e => ?_, rfl, rfl, rfl⟩
  · rw [← exists_readSegments_iff, ofText]
    cases readSegments (segmentTexts source) with
    | ok segments => exact ⟨fun _ => ⟨_, rfl⟩, fun _ => ⟨_, rfl⟩⟩
    | error fault => exact ⟨nofun, nofun⟩
  · rw [← readSegments_eq_error_iff, ofText]
    cases readSegments (segmentTexts source) with
    | ok segments => exact ⟨nofun, fun h => nomatch h.2⟩
    | error fault =>
      obtain ⟨pattern, fault'⟩ := e
      simp only [Except.error.injEq, PatternError.mk.injEq, eq_comm]

-- a range is refused where it runs backwards, an open class only where the text ends
example : ofText "[z-a" = .error ⟨"[z-a", .backwardRange⟩ ∧
    ofText "[a-\\" = .error ⟨"[a-\\", .openClass⟩ ∧ ofText "[!]" = .error ⟨"[!]", .openClass⟩ :=
  ⟨rfl, rfl, rfl⟩

end Pattern

end PathSieve.Glob

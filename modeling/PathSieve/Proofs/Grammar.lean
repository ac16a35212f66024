import PathSieve.Glob.Item

/-!
# The grammar of segments

What a segment may be, said without the reader: which text an item has, and what the first fault of
a text without items is. A relation with `At` in its name says what a text starts with and what is
left behind it; each takes one step at a time, so that a text that goes wrong can be followed up to
the place where it does.

- `MemberAt`, `MembersAt`, `ItemAt`, `ItemsAt`: the grammar, and `Spells` for a whole text.
- `ClassFaultAt`, `FaultAt`: where it is left, and `FirstFault` for a whole text.
- `spells_or_firstFault`: there is nothing between the two.

Every step takes some of the text, so following a text to its end or to its fault is an induction on
its length.
-/

namespace PathSieve.Glob

/-! ## Members of a class -/

/-- The ways to write a character within a class: as it is, or behind a backslash. -/
inductive Writes (c : Char) : List Char → Prop
  | bare (h : c ≠ '\\') : Writes c [c]
  | escaped : Writes c ['\\', c]

/-- Whether a text starts with a dash that makes a range of the character before it: anything but a
bare closing bracket follows. -/
def DashAhead (text : List Char) : Prop := ∃ c rest, text = '-' :: c :: rest ∧ c ≠ ']'

/-- `MemberAt first text m rest`: the text starts with the member `m` of a class, and `rest` is
left. A bare closing bracket starts a member only if it is the `first`, and never ends a range. -/
inductive MemberAt : Bool → List Char → Member → List Char → Prop
  | single {first : Bool} {c : Char} {word rest : List Char} (hword : Writes c word)
      (hbracket : word = [']'] → first = true) (hdash : ¬ DashAhead rest) :
      MemberAt first (word ++ rest) (.single c) rest
  | range {first : Bool} {low high : Char} {word word' rest : List Char} (hword : Writes low word)
      (hbracket : word = [']'] → first = true) (hword' : Writes high word')
      (hbracket' : word' ≠ [']']) (hle : low.toNat ≤ high.toNat) :
      MemberAt first (word ++ '-' :: (word' ++ rest)) (.range low high) rest

/-- A text starts with members of a class, any number of them. -/
inductive MembersAt : Bool → List Char → List Member → List Char → Prop
  | nil {first : Bool} {text : List Char} : MembersAt first text [] text
  | cons {first : Bool} {text mid rest : List Char} {m : Member} {ms : List Member}
      (hm : MemberAt first text m mid) (hms : MembersAt false mid ms rest) :
      MembersAt first text (m :: ms) rest

/-- What goes wrong where a member should start: the text ends before the class does, or a range
runs backwards. -/
inductive ClassFaultAt : Bool → List Char → Fault → Prop
  | ended {first : Bool} : ClassFaultAt first [] .openClass
  | endedEscape {first : Bool} : ClassFaultAt first ['\\'] .openClass
  | endedRange {first : Bool} {low : Char} {word : List Char} (hword : Writes low word)
      (hbracket : word = [']'] → first = true) :
      ClassFaultAt first (word ++ ['-', '\\']) .openClass
  | backward {first : Bool} {low high : Char} {word word' rest : List Char}
      (hword : Writes low word) (hbracket : word = [']'] → first = true)
      (hword' : Writes high word') (hbracket' : word' ≠ [']']) (hlt : high.toNat < low.toNat) :
      ClassFaultAt first (word ++ '-' :: (word' ++ rest)) .backwardRange

/-! ## Items -/

/-- Behind the opening bracket: whether the class is negated, and what its members are read from. A
`!` or `^` there always negates. -/
inductive HeadAt : List Char → Bool → List Char → Prop
  | bang {text : List Char} : HeadAt ('!' :: text) true text
  | caret {text : List Char} : HeadAt ('^' :: text) true text
  | plain {text : List Char} (h : text.head? ≠ some '!' ∧ text.head? ≠ some '^') :
      HeadAt text false text

/-- `ItemAt text item rest`: the text starts with an item, and `rest` is left. -/
inductive ItemAt : List Char → Item → List Char → Prop
  | star {rest : List Char} : ItemAt ('*' :: rest) .star rest
  | any {rest : List Char} : ItemAt ('?' :: rest) .any rest
  | escaped {c : Char} {rest : List Char} : ItemAt ('\\' :: c :: rest) (.char c) rest
  | oneOf {text body rest : List Char} {negated : Bool} {members : List Member}
      (hhead : HeadAt text negated body) (hmembers : MembersAt true body members (']' :: rest))
      (hne : members ≠ []) : ItemAt ('[' :: text) (.oneOf ⟨negated, members⟩) rest
  | char {c : Char} {rest : List Char} (h : c ≠ '*' ∧ c ≠ '?' ∧ c ≠ '\\' ∧ c ≠ '[') :
      ItemAt (c :: rest) (.char c) rest

/-- A text starts with items, any number of them. -/
inductive ItemsAt : List Char → List Item → List Char → Prop
  | nil {text : List Char} : ItemsAt text [] text
  | cons {text mid rest : List Char} {item : Item} {items : List Item}
      (hitem : ItemAt text item mid) (hitems : ItemsAt mid items rest) :
      ItemsAt text (item :: items) rest

/-- What goes wrong where an item should start: a backslash ends the text, or a class does not come
to its end. -/
inductive FaultAt : List Char → Fault → Prop
  | danglingEscape : FaultAt ['\\'] .danglingEscape
  | inClass {text body rest : List Char} {negated : Bool} {members : List Member} {fault : Fault}
      (hhead : HeadAt text negated body) (hmembers : MembersAt true body members rest)
      (hfault : ClassFaultAt members.isEmpty rest fault) : FaultAt ('[' :: text) fault

/-- A text is a sequence of items. -/
def Spells (text : List Char) (items : List Item) : Prop := ItemsAt text items []

/-- A text is a sequence of items up to a place where none starts. -/
def FirstFault (text : List Char) (fault : Fault) : Prop :=
  ∃ items rest, ItemsAt text items rest ∧ FaultAt rest fault

/-! ## A text is read, or it is faulty -/

/-- A text is empty, or a backslash alone, or starts with a character. -/
theorem writes_cases (text : List Char) :
    text = [] ∨ text = ['\\'] ∨ ∃ c word rest, text = word ++ rest ∧ Writes c word := by
  match text with
  | [] => exact .inl rfl
  | [c] =>
    by_cases hc : c = '\\'
    · exact .inr (.inl (by rw [hc]))
    · exact .inr (.inr ⟨c, [c], [], rfl, .bare hc⟩)
  | c :: d :: rest =>
    by_cases hc : c = '\\'
    · exact .inr (.inr ⟨d, ['\\', d], rest, by rw [hc]; rfl, .escaped⟩)
    · exact .inr (.inr ⟨c, [c], d :: rest, rfl, .bare hc⟩)

theorem Writes.length_pos {c : Char} {word : List Char} (h : Writes c word) : 0 < word.length := by
  cases h <;> exact Nat.succ_pos _

/-- Behind a dash that makes a range, the range ends properly, or runs backwards, or is cut off. -/
theorem range_cases {first : Bool} {low : Char} {word rest : List Char} (hword : Writes low word)
    (hbracket : word = [']'] → first = true) (hdash : DashAhead rest) :
    (∃ m rest', MemberAt first (word ++ rest) m rest' ∧ rest'.length < rest.length) ∨
      ∃ fault, ClassFaultAt first (word ++ rest) fault := by
  obtain ⟨c, behind, rfl, hc⟩ := hdash
  rcases writes_cases (c :: behind) with h | h | ⟨high, word', rest', h, hword'⟩
  · cases h
  · obtain ⟨rfl, rfl⟩ := List.cons.inj h
    exact .inr ⟨_, .endedRange hword hbracket⟩
  · have hbracket' : word' ≠ [']'] := by
      rintro rfl
      exact hc (List.cons.inj h).1
    rw [h]
    by_cases hle : low.toNat ≤ high.toNat
    · refine .inl ⟨_, rest', .range hword hbracket hword' hbracket' hle, ?_⟩
      have := hword'.length_pos
      simp only [List.length_cons, List.length_append]
      omega
    · exact .inr ⟨_, .backward hword hbracket hword' hbracket' (Nat.lt_of_not_le hle)⟩

/-- Within a class there is its end, or a member, or a fault. -/
theorem member_cases (first : Bool) (text : List Char) :
    (first = false ∧ ∃ rest, text = ']' :: rest) ∨
      (∃ m rest, MemberAt first text m rest ∧ rest.length < text.length) ∨
      ∃ fault, ClassFaultAt first text fault := by
  rcases writes_cases text with rfl | rfl | ⟨c, word, rest, rfl, hword⟩
  · exact .inr (.inr ⟨_, .ended⟩)
  · exact .inr (.inr ⟨_, .endedEscape⟩)
  · by_cases hbracket : word = [']'] → first = true
    · refine .inr ?_
      by_cases hdash : DashAhead rest
      · refine (range_cases hword hbracket hdash).imp_left ?_
        rintro ⟨m, rest', hm, hlt⟩
        exact ⟨m, rest', hm, by rw [List.length_append]; omega⟩
      · refine .inl ⟨_, rest, .single hword hbracket hdash, ?_⟩
        have := hword.length_pos
        rw [List.length_append]
        omega
    · obtain ⟨rfl, hfirst⟩ := Classical.not_imp.mp hbracket
      exact .inl ⟨by simpa using hfirst, rest, rfl⟩

/-- A class is read up to its end, or up to a fault. -/
theorem members_cases (first : Bool) (text : List Char) :
    (∃ ms rest, MembersAt first text ms (']' :: rest) ∧ (first && ms.isEmpty) = false ∧
        rest.length < text.length) ∨
      ∃ ms rest fault, MembersAt first text ms rest ∧
        ClassFaultAt (first && ms.isEmpty) rest fault := by
  -- one member after the other, and each of them takes some of the text
  induction hn : text.length using Nat.strongRecOn generalizing first text with
  | _ n ih =>
    subst hn
    rcases member_cases first text with ⟨hfirst, rest, rfl⟩ | ⟨m, mid, hm, hlt⟩ | ⟨fault, hfault⟩
    · exact .inl ⟨[], rest, .nil, by simp [hfirst], by simp⟩
    · rcases ih _ hlt false mid rfl with ⟨ms, rest, hms, -, hrest⟩ | ⟨ms, rest, fault, hms, hfault⟩
      · exact .inl ⟨m :: ms, rest, .cons hm hms, by simp, by omega⟩
      · exact .inr ⟨m :: ms, rest, fault, .cons hm hms, by simpa using hfault⟩
    · exact .inr ⟨[], text, fault, .nil, by simpa using hfault⟩

theorem exists_headAt (text : List Char) :
    ∃ negated body, HeadAt text negated body ∧ body.length ≤ text.length := by
  by_cases hplain : text.head? ≠ some '!' ∧ text.head? ≠ some '^'
  · exact ⟨false, text, .plain hplain, Nat.le_refl _⟩
  · cases text with
    | nil => exact absurd ⟨nofun, nofun⟩ hplain
    | cons c body =>
      by_cases hbang : c = '!'
      · exact ⟨true, body, hbang ▸ .bang, Nat.le_succ _⟩
      · have hcaret : c = '^' := by simpa [hbang] using hplain
        exact ⟨true, body, hcaret ▸ .caret, Nat.le_succ _⟩

/-- A text that is not empty starts with an item or a fault. -/
theorem item_cases {text : List Char} (hne : text ≠ []) :
    (∃ item rest, ItemAt text item rest ∧ rest.length < text.length) ∨
      ∃ fault, FaultAt text fault := by
  obtain ⟨c, rest, rfl⟩ := List.exists_cons_of_ne_nil hne
  by_cases hplain : c ≠ '*' ∧ c ≠ '?' ∧ c ≠ '\\' ∧ c ≠ '['
  · exact .inl ⟨_, rest, .char hplain, Nat.lt_succ_self _⟩
  by_cases hstar : c = '*'
  · subst hstar
    exact .inl ⟨_, rest, .star, Nat.lt_succ_self _⟩
  by_cases hany : c = '?'
  · subst hany
    exact .inl ⟨_, rest, .any, Nat.lt_succ_self _⟩
  by_cases hescape : c = '\\'
  · subst hescape
    cases rest with
    | nil => exact .inr ⟨_, .danglingEscape⟩
    | cons d rest => exact .inl ⟨_, rest, .escaped, by simp only [List.length_cons]; omega⟩
  · obtain rfl : c = '[' := by simpa [hstar, hany, hescape] using hplain
    obtain ⟨negated, body, hhead, hlength⟩ := exists_headAt rest
    rcases members_cases true body with
      ⟨ms, after, hms, hempty, hlt⟩ | ⟨ms, after, fault, hms, hfault⟩
    · have hmembers : ms ≠ [] := by simpa using hempty
      exact .inl ⟨_, after, .oneOf hhead hms hmembers, by rw [List.length_cons]; omega⟩
    · exact .inr ⟨fault, .inClass hhead hms (by simpa using hfault)⟩

/-- Every text is a sequence of items, or has a first fault. -/
theorem spells_or_firstFault (text : List Char) :
    (∃ items, Spells text items) ∨ ∃ fault, FirstFault text fault := by
  induction hn : text.length using Nat.strongRecOn generalizing text with
  | _ n ih =>
    subst hn
    by_cases hne : text = []
    · exact .inl ⟨[], hne ▸ .nil⟩
    · rcases item_cases hne with ⟨item, mid, hitem, hlt⟩ | ⟨fault, hfault⟩
      · rcases ih _ hlt mid rfl with ⟨items, hitems⟩ | ⟨fault, items, rest, hitems, hfault⟩
        · exact .inl ⟨item :: items, .cons hitem hitems⟩
        · exact .inr ⟨fault, item :: items, rest, .cons hitem hitems, hfault⟩
      · exact .inr ⟨fault, [], text, .nil, hfault⟩

end PathSieve.Glob

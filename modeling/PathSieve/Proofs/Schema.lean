import PathSieve.Config.Basic
import PathSieve.Proofs.Rendering

/-!
# What a configuration is

Which values are configurations, and what is wrong with the others, said of the value alone: the
last value that a name is given counts (`LastGiven`), a list may be absent, and fields of other
names do not matter (`Describes`). What is wrong is wrong at a place: the value itself, a list, or
an item of a list (`Offends`).

A text that spells a value is read as the configuration that the value describes. If it describes
none, the issues are those of all places that offend, each once, by list and then by index
(`Precedes`).
-/

namespace PathSieve

open Json

namespace Config

/-! ## What a value describes -/

/-- Whether a value is the last one that a name is given. -/
def LastGiven (name : String) (v : Value) (fields : List (String × Value)) : Prop :=
  ∃ earlier later, fields = earlier ++ (name, v) :: later ∧ ∀ field ∈ later, field.1 ≠ name

/-- Whether a name is given no value. -/
def Absent (name : String) (fields : List (String × Value)) : Prop :=
  ∀ field ∈ fields, field.1 ≠ name

/-- Whether a name lists texts: an array of them, or nothing for no texts. -/
def Lists (name : String) (texts : List String) (fields : List (String × Value)) : Prop :=
  (Absent name fields ∧ texts = []) ∨ LastGiven name (.ofStrings texts) fields

/-- Whether a value is an object that describes a configuration. -/
def Describes (v : Value) (c : Config) : Prop :=
  ∃ fields, v = .object fields ∧
    Lists "include" c.includes fields ∧ Lists "exclude" c.excludes fields

/-- What is wrong with a list: it is no array, or an item is no string. -/
inductive OffendsIn (name : String) (fields : List (String × Value)) : Issue → Prop
  | list {v : Value} (hgiven : LastGiven name v fields) (hkind : v.kind ≠ .array) :
      OffendsIn name fields ⟨.array, v.kind, [.field name]⟩
  | item {items : List Value} {index : Nat} {v : Value}
      (hgiven : LastGiven name (.array items) fields) (hitem : items[index]? = some v)
      (hkind : v.kind ≠ .string) :
      OffendsIn name fields ⟨.string, v.kind, [.field name, .item index]⟩

/-- What is wrong with a value: it is no object, or something is wrong with one of the lists. -/
inductive Offends : Value → Issue → Prop
  | root {v : Value} (hkind : v.kind ≠ .object) : Offends v ⟨.object, v.kind, []⟩
  | included {fields : List (String × Value)} {issue : Issue}
      (h : OffendsIn "include" fields issue) : Offends (.object fields) issue
  | excluded {fields : List (String × Value)} {issue : Issue}
      (h : OffendsIn "exclude" fields issue) : Offends (.object fields) issue

/-- The order of places: by list, and by index within a list. -/
inductive Precedes : List Place → List Place → Prop
  | list {earlier later : List Place} :
      Precedes (.field "include" :: earlier) (.field "exclude" :: later)
  | item {name : String} {i j : Nat} (h : i < j) :
      Precedes [.field name, .item i] [.field name, .item j]

variable {name : String} {fields : List (String × Value)} {v : Value} {texts : List String}
variable {issue : Issue} {issues : List Issue} {c : Config}

/-! ## Fields -/

/-- The value of a name is the last one that it is given. -/
theorem lookup_eq_some_iff : Value.lookup name fields = some v ↔ LastGiven name v fields := by
  rw [Value.lookup, List.lookup_eq_some_iff]
  constructor
  · rintro ⟨later, earlier, hfields, hlater⟩
    refine ⟨earlier.reverse, later.reverse, ?_, ?_⟩
    · rw [← List.reverse_reverse fields, hfields]
      simp
    · intro field hfield hname
      have hne := hlater field (List.mem_reverse.mp hfield)
      simp [hname] at hne
  · rintro ⟨earlier, later, rfl, hlater⟩
    refine ⟨later.reverse, earlier.reverse, by simp, ?_⟩
    intro field hfield
    exact bne_iff_ne.mpr (hlater field (List.mem_reverse.mp hfield)).symm

theorem lookup_eq_none_iff : Value.lookup name fields = none ↔ Absent name fields := by
  rw [Value.lookup, List.lookup_eq_none_iff]
  constructor
  · intro h field hfield hname
    have hne := h field (List.mem_reverse.mpr hfield)
    simp [hname] at hne
  · intro h field hfield
    exact bne_iff_ne.mpr (h field (List.mem_reverse.mp hfield)).symm

/-! ## One list -/

theorem readItems_string (index : Nat) (s : String) (vs : List Value) :
    readItems name index (.string s :: vs) =
      (s :: (readItems name (index + 1) vs).1, (readItems name (index + 1) vs).2) := rfl

theorem readItems_other (h : v.kind ≠ .string) (index : Nat) (vs : List Value) :
    readItems name index (v :: vs) =
      ((readItems name (index + 1) vs).1,
        ⟨.string, v.kind, [.field name, .item index]⟩ :: (readItems name (index + 1) vs).2) := by
  cases v with
  | string s => exact absurd rfl h
  | _ => rfl

theorem exists_eq_string (h : v.kind = .string) : ∃ s, v = .string s := by
  cases v with
  | string s => exact ⟨s, rfl⟩
  | _ => cases h

/-- Texts are read as they are. -/
theorem readItems_strings (index : Nat) (texts : List String) :
    readItems name index (texts.map .string) = (texts, []) := by
  induction texts generalizing index with
  | nil => rfl
  | cons s texts ih => rw [List.map_cons, readItems_string, ih]

/-- Only texts are read without an issue. -/
theorem eq_strings_of_readItems {index : Nat} {vs : List Value}
    (h : (readItems name index vs).2 = []) : vs = (readItems name index vs).1.map .string := by
  induction vs generalizing index with
  | nil => rfl
  | cons v vs ih =>
    by_cases hkind : v.kind = .string
    · obtain ⟨s, rfl⟩ := exists_eq_string hkind
      rw [readItems_string] at h ⊢
      rw [List.map_cons, ← ih h]
    · rw [readItems_other hkind] at h
      cases h

/-- The issues of items are those of the items that are no strings. -/
theorem mem_readItems_iff {index : Nat} {vs : List Value} :
    issue ∈ (readItems name index vs).2 ↔
      ∃ i v, vs[i]? = some v ∧ v.kind ≠ .string ∧
        issue = ⟨.string, v.kind, [.field name, .item (index + i)]⟩ := by
  induction vs generalizing index with
  | nil => simp [readItems]
  | cons v vs ih =>
    have hcases : (∃ i w, (v :: vs)[i]? = some w ∧ w.kind ≠ .string ∧
          issue = ⟨.string, w.kind, [.field name, .item (index + i)]⟩) ↔
        (v.kind ≠ .string ∧ issue = ⟨.string, v.kind, [.field name, .item index]⟩) ∨
          issue ∈ (readItems name (index + 1) vs).2 := by
      rw [ih]
      constructor
      · rintro ⟨i, w, hw, hkind, rfl⟩
        cases i with
        | zero =>
          obtain rfl := Option.some.inj hw
          exact .inl ⟨hkind, rfl⟩
        | succ i => exact .inr ⟨i, w, hw, hkind, by rw [Nat.add_right_comm, Nat.add_assoc]⟩
      · rintro (⟨hkind, rfl⟩ | ⟨i, w, hw, hkind, rfl⟩)
        · exact ⟨0, v, rfl, hkind, rfl⟩
        · exact ⟨i + 1, w, hw, hkind, by rw [Nat.add_right_comm, Nat.add_assoc]⟩
    rw [hcases]
    by_cases hkind : v.kind = .string
    · obtain ⟨s, rfl⟩ := exists_eq_string hkind
      simp [readItems_string, hkind]
    · simp [readItems_other hkind, hkind]

/-- They come by index. -/
theorem pairwise_readItems (index : Nat) (vs : List Value) :
    (readItems name index vs).2.Pairwise (fun a b => Precedes a.path b.path) := by
  induction vs generalizing index with
  | nil => exact .nil
  | cons v vs ih =>
    by_cases hkind : v.kind = .string
    · obtain ⟨s, rfl⟩ := exists_eq_string hkind
      exact ih (index + 1)
    · rw [readItems_other hkind]
      refine .cons ?_ (ih (index + 1))
      intro issue hissue
      obtain ⟨i, w, -, -, rfl⟩ := mem_readItems_iff.mp hissue
      exact .item (by omega)

theorem exists_eq_array (h : v.kind = .array) : ∃ items, v = .array items := by
  cases v with
  | array items => exact ⟨items, rfl⟩
  | _ => cases h

theorem readList_absent (h : Absent name fields) : readList name fields = ([], []) := by
  rw [readList, lookup_eq_none_iff.mpr h]

theorem readList_array {items : List Value} (h : LastGiven name (.array items) fields) :
    readList name fields = readItems name 0 items := by
  rw [readList, lookup_eq_some_iff.mpr h]

theorem readList_other (h : LastGiven name v fields) (hkind : v.kind ≠ .array) :
    readList name fields = ([], [⟨.array, v.kind, [.field name]⟩]) := by
  rw [readList, lookup_eq_some_iff.mpr h]
  cases v with
  | array items => exact absurd rfl hkind
  | _ => rfl

/-- A name is given no value, an array last, or something else last. -/
theorem absent_or_lastGiven (name : String) (fields : List (String × Value)) :
    Absent name fields ∨ (∃ items, LastGiven name (.array items) fields) ∨
      ∃ v, LastGiven name v fields ∧ v.kind ≠ .array := by
  cases hlookup : Value.lookup name fields with
  | none => exact .inl (lookup_eq_none_iff.mp hlookup)
  | some v =>
    have hgiven := lookup_eq_some_iff.mp hlookup
    by_cases hkind : v.kind = .array
    · obtain ⟨items, rfl⟩ := exists_eq_array hkind
      exact .inr (.inl ⟨items, hgiven⟩)
    · exact .inr (.inr ⟨v, hgiven, hkind⟩)

/-- What a name lists is read. -/
theorem Lists.readList (h : Lists name texts fields) : readList name fields = (texts, []) := by
  rcases h with ⟨habsent, rfl⟩ | hgiven
  · exact readList_absent habsent
  · rw [readList_array hgiven]
    exact readItems_strings 0 texts

/-- What is read without an issue is what a name lists. -/
theorem lists_of_readList (h : (readList name fields).2 = []) :
    Lists name (readList name fields).1 fields := by
  rcases absent_or_lastGiven name fields with habsent | ⟨items, hgiven⟩ | ⟨v, hgiven, hkind⟩
  · rw [readList_absent habsent]
    exact .inl ⟨habsent, rfl⟩
  · rw [readList_array hgiven] at h ⊢
    rw [eq_strings_of_readItems h] at hgiven
    exact .inr hgiven
  · rw [readList_other hgiven hkind] at h
    cases h

/-- The issues of a list are what is wrong with it. -/
theorem mem_readList_iff : issue ∈ (readList name fields).2 ↔ OffendsIn name fields issue := by
  constructor
  · intro h
    rcases absent_or_lastGiven name fields with habsent | ⟨items, hgiven⟩ | ⟨v, hgiven, hkind⟩
    · rw [readList_absent habsent] at h
      cases h
    · rw [readList_array hgiven] at h
      obtain ⟨index, v, hitem, hkind, rfl⟩ := mem_readItems_iff.mp h
      rw [Nat.zero_add]
      exact .item hgiven hitem hkind
    · rw [readList_other hgiven hkind] at h
      obtain rfl := List.mem_singleton.mp h
      exact .list hgiven hkind
  · intro h
    cases h with
    | list hgiven hkind =>
      rw [readList_other hgiven hkind]
      exact List.mem_singleton_self _
    | @item items index v hgiven hitem hkind =>
      rw [readList_array hgiven]
      exact mem_readItems_iff.mpr ⟨index, v, hitem, hkind, by rw [Nat.zero_add]⟩

theorem pairwise_readList (name : String) (fields : List (String × Value)) :
    (readList name fields).2.Pairwise (fun a b => Precedes a.path b.path) := by
  rcases absent_or_lastGiven name fields with habsent | ⟨items, hgiven⟩ | ⟨v, hgiven, hkind⟩
  · rw [readList_absent habsent]
    exact .nil
  · rw [readList_array hgiven]
    exact pairwise_readItems 0 items
  · rw [readList_other hgiven hkind]
    exact List.pairwise_singleton _ _

/-- What is wrong with a list is at a place in it. -/
theorem OffendsIn.exists_path (h : OffendsIn name fields issue) :
    ∃ rest, issue.path = .field name :: rest := by
  cases h with
  | list => exact ⟨_, rfl⟩
  | item => exact ⟨_, rfl⟩

/-! ## The value -/

/-- The issues of a value: of an object, those of both lists. -/
def issuesOf : Value → List Issue
  | .object fields => (readList "include" fields).2 ++ (readList "exclude" fields).2
  | v => [⟨.object, v.kind, []⟩]

theorem issuesOf_other (h : v.kind ≠ .object) : issuesOf v = [⟨.object, v.kind, []⟩] := by
  cases v with
  | object fields => exact absurd rfl h
  | _ => rfl

theorem exists_eq_object (h : v.kind = .object) : ∃ fields, v = .object fields := by
  cases v with
  | object fields => exact ⟨fields, rfl⟩
  | _ => cases h

/-- The issues of a value are what is wrong with it. -/
theorem mem_issuesOf_iff : issue ∈ issuesOf v ↔ Offends v issue := by
  by_cases hkind : v.kind = .object
  · obtain ⟨fields, rfl⟩ := exists_eq_object hkind
    rw [issuesOf, List.mem_append, mem_readList_iff, mem_readList_iff]
    constructor
    · rintro (h | h)
      · exact .included h
      · exact .excluded h
    · intro h
      cases h with
      | root hkind => exact absurd rfl hkind
      | included h => exact .inl h
      | excluded h => exact .inr h
  · rw [issuesOf_other hkind, List.mem_singleton]
    constructor
    · rintro rfl
      exact .root hkind
    · intro h
      cases h with
      | root _ => rfl
      | included _ => exact absurd rfl hkind
      | excluded _ => exact absurd rfl hkind

/-- They come by list and then by index. -/
theorem pairwise_issuesOf (v : Value) :
    (issuesOf v).Pairwise (fun a b => Precedes a.path b.path) := by
  by_cases hkind : v.kind = .object
  · obtain ⟨fields, rfl⟩ := exists_eq_object hkind
    refine List.pairwise_append.mpr ⟨pairwise_readList _ _, pairwise_readList _ _, ?_⟩
    intro a ha b hb
    obtain ⟨earlier, hearlier⟩ := (mem_readList_iff.mp ha).exists_path
    obtain ⟨later, hlater⟩ := (mem_readList_iff.mp hb).exists_path
    rw [hearlier, hlater]
    exact .list
  · rw [issuesOf_other hkind]
    exact List.pairwise_singleton _ _

/-- A value without an issue describes a configuration. -/
theorem exists_describes (h : issuesOf v = []) : ∃ c, Describes v c := by
  by_cases hkind : v.kind = .object
  · obtain ⟨fields, rfl⟩ := exists_eq_object hkind
    obtain ⟨hincludes, hexcludes⟩ := List.append_eq_nil_iff.mp h
    exact ⟨⟨_, _⟩, fields, rfl, lists_of_readList hincludes, lists_of_readList hexcludes⟩
  · rw [issuesOf_other hkind] at h
    cases h

/-- What a value describes is read. -/
theorem Describes.ofValue (h : Describes v c) : ofValue v = .ok c := by
  obtain ⟨fields, rfl, hincludes, hexcludes⟩ := h
  simp only [Config.ofValue, hincludes.readList, hexcludes.readList]
  rfl

/-- Where there are issues, they are the answer. -/
theorem ofValue_eq_error (h : issuesOf v ≠ []) : ofValue v = .error (issuesOf v) := by
  by_cases hkind : v.kind = .object
  · obtain ⟨fields, rfl⟩ := exists_eq_object hkind
    exact if_neg h
  · rw [issuesOf_other hkind]
    cases v with
    | object fields => exact absurd rfl hkind
    | _ => rfl

/-- A value is read as the configuration that it describes. -/
theorem ofValue_eq_ok_iff : ofValue v = .ok c ↔ Describes v c := by
  constructor
  · intro h
    by_cases hissues : issuesOf v = []
    · obtain ⟨d, hd⟩ := exists_describes hissues
      have hcd : c = d := Except.ok.inj (h.symm.trans hd.ofValue)
      rwa [hcd]
    · rw [ofValue_eq_error hissues] at h
      cases h
  · exact Describes.ofValue

/-! ## The text -/

/-- A text that spells a value is read as the value is. -/
theorem ofText_of_spells {text : String} (h : v.Spells text) :
    ofText text = (ofValue v).mapError .misshapen := by
  rw [ofText, Value.ofText_eq_ok_iff.mpr h]

theorem describes_toValue (c : Config) : Describes c.toValue c := by
  have hincludes : LastGiven "include" (.ofStrings c.includes)
      [("include", .ofStrings c.includes), ("exclude", .ofStrings c.excludes)] :=
    ⟨[], [("exclude", .ofStrings c.excludes)], rfl, by simp⟩
  have hexcludes : LastGiven "exclude" (.ofStrings c.excludes)
      [("include", .ofStrings c.includes), ("exclude", .ofStrings c.excludes)] :=
    ⟨[("include", .ofStrings c.includes)], [], rfl, nofun⟩
  exact ⟨_, rfl, .inr hincludes, .inr hexcludes⟩

theorem textual_ofStrings (texts : List String) : (Value.ofStrings texts).Textual := by
  refine .array fun item hitem => ?_
  obtain ⟨s, -, rfl⟩ := List.mem_map.mp hitem
  exact .string s

theorem textual_toValue (c : Config) : c.toValue.Textual := by
  refine .object fun field hfield => ?_
  simp only [List.mem_cons, List.not_mem_nil, or_false] at hfield
  rcases hfield with rfl | rfl
  · exact textual_ofStrings c.includes
  · exact textual_ofStrings c.excludes

/-- A text that spells a value is read as the configuration that the value describes. If the value
describes none, the answer is what is wrong with it, all of it and in order. The text of a
configuration, however it is written, is read as that configuration. -/
theorem ofText_decides :
    (∀ (text : String) (v : Value), v.Spells text →
      (∀ c, ofText text = .ok c ↔ Describes v c) ∧
      ((∀ c, ¬ Describes v c) →
        ∃ issues, issues ≠ [] ∧ ofText text = .error (.misshapen issues) ∧
          (∀ issue, issue ∈ issues ↔ Offends v issue) ∧
          issues.Pairwise fun a b => Precedes a.path b.path)) ∧
    ∀ c : Config, (∀ text, c.toValue.Spells text → ofText text = .ok c) ∧
      ofText c.toValue.compact = .ok c ∧ ofText c.toValue.pretty = .ok c := by
  have hdescribed {text : String} {v : Value} {c : Config} (hspells : v.Spells text) :
      ofText text = .ok c ↔ Describes v c := by
    rw [ofText_of_spells hspells, ← ofValue_eq_ok_iff]
    cases ofValue v <;> simp [Except.mapError]
  have hwritten (c : Config) (text : String) (hspells : c.toValue.Spells text) :
      ofText text = .ok c := (hdescribed hspells).mpr (describes_toValue c)
  refine ⟨fun text v hspells => ⟨fun c => hdescribed hspells, fun hnone => ?_⟩, fun c => ?_⟩
  · have hissues : issuesOf v ≠ [] := by
      intro hnil
      obtain ⟨c, hc⟩ := exists_describes hnil
      exact hnone c hc
    refine ⟨issuesOf v, hissues, ?_, fun issue => mem_issuesOf_iff, pairwise_issuesOf v⟩
    rw [ofText_of_spells hspells, ofValue_eq_error hissues]
    rfl
  · exact ⟨hwritten c, hwritten c _ (textual_toValue c).spells_compact,
      hwritten c _ (textual_toValue c).spells_pretty⟩

/-- A value with mistakes in both lists, and a name that is given twice. -/
def mistaken : Value :=
  .object [("include", .number ⟨false, 7, 0⟩), ("x", .object [("exclude", .null)]),
    ("include", .array [.string "a", .null, .string "b\n", .array []]), ("exclude", .bool true)]

/-- A text that spells it, with escapes in a name and in an item. -/
def mistakenText : String :=
  "\x7b\"include\": 7, \"x\":\x7b\"exclude\":null\x7d,\n" ++
    "\"in\\u0063lude\":[\"a\",null, \"b\\n\",[]],\"exclude\":true\x7d"

/-- The last `include` counts, and each of its items that is no string is an issue. -/
theorem ofText_decides_mistaken :
    mistaken.Spells mistakenText ∧ (∀ c, ¬ Describes mistaken c) ∧
      ofText mistakenText = .error (.misshapen [⟨.string, .null, [.field "include", .item 1]⟩,
        ⟨.string, .array, [.field "include", .item 3]⟩, ⟨.array, .boolean, [.field "exclude"]⟩]) ∧
      ∃ issues, ofText mistakenText = .error (.misshapen issues) ∧
        ∀ issue, issue ∈ issues ↔ Offends mistaken issue := by
  have hspells : mistaken.Spells mistakenText := Token.ofText_eq_ok_iff.mp (by decide +kernel)
  have hanswer : ofText mistakenText =
      .error (.misshapen [⟨.string, .null, [.field "include", .item 1]⟩,
        ⟨.string, .array, [.field "include", .item 3]⟩,
        ⟨.array, .boolean, [.field "exclude"]⟩]) := by decide +kernel
  obtain ⟨hok, herror⟩ := ofText_decides.1 mistakenText mistaken hspells
  have hnone : ∀ c, ¬ Describes mistaken c := by
    intro c hc
    have hread := (hok c).mpr hc
    rw [hanswer] at hread
    cases hread
  obtain ⟨issues, -, hissues, hoffends, -⟩ := herror hnone
  exact ⟨hspells, hnone, hanswer, issues, hissues, hoffends⟩

end Config

end PathSieve

import PathSieve.FileSystem.Basic
import PathSieve.Path.Resolve
import PathSieve.Proofs.Pieces

/-!
# Where absolute paths lead

An absolute path leads to a *place*: the parts that are left once the dot segments are taken out
(`placeOf`). All that a walk does to the path of a directory is joining, and joining acts on places
as one expects: another path goes on from the place reached so far (`placeOf_join`), a name one step
further down (`placeOf_join_name`).

What is left after taking the dot segments out are plain parts, and plain parts are left alone
(`clean_append_plain`). All else here follows from these two facts.
-/

namespace PathSieve

/-- The characters of a name. -/
def Name.chars (name : Name) : List Char := name.val.toList

theorem Name.chars_inj {a b : Name} (h : a.chars = b.chars) : a = b :=
  Subtype.ext (String.toList_inj.mp h)

theorem Name.map_chars_inj {as bs : List Name} (h : as.map Name.chars = bs.map Name.chars) :
    as = bs :=
  (List.map_inj_right fun _ _ => Name.chars_inj).mp h

namespace Path

open Text (pieces pieces_append_sep pieces_join pieces_ne_nil pieces_of_not_mem sep_not_mem_pieces)

/-! ## Plain parts -/

/-- A part that is a step down: neither empty nor a dot segment. -/
def IsPlain (part : List Char) : Prop := part ≠ [] ∧ part ≠ dot ∧ part ≠ dotDot

theorem step_plain {part : List Char} (h : IsPlain part) (rooted : Bool)
    (done : List (List Char)) : step rooted done part = part :: done := by
  obtain ⟨hempty, hdot, hdots⟩ := h
  simp [step, hempty, hdot, hdots]

/-- Plain parts behind other parts stay as they are. -/
theorem clean_append_plain (rooted : Bool) (parts : List (List Char)) {plain : List (List Char)}
    (h : ∀ p ∈ plain, IsPlain p) :
    clean rooted (parts ++ plain) = clean rooted parts ++ plain := by
  -- each plain part is pushed, whatever is on the stack
  have hfold : ∀ done, plain.foldl (step rooted) done = plain.reverse ++ done := by
    induction plain with
    | nil => exact fun done => rfl
    | cons p ps ih =>
      intro done
      rw [List.foldl_cons, step_plain (h p List.mem_cons_self),
        ih fun q hq => h q (List.mem_cons_of_mem p hq), List.reverse_cons, List.append_assoc]
      rfl
  rw [clean, clean, List.foldl_append, hfold, List.reverse_append, List.reverse_reverse]

theorem clean_plain (rooted : Bool) {plain : List (List Char)} (h : ∀ p ∈ plain, IsPlain p) :
    clean rooted plain = plain :=
  clean_append_plain rooted [] h

/-- From the root, one more part leaves only plain parts, each of them one of those that came in. -/
theorem mem_step_rooted {done : List (List Char)} {part p : List Char}
    (hdone : ∀ q ∈ done, IsPlain q) (hp : p ∈ step true done part) :
    IsPlain p ∧ (p = part ∨ p ∈ done) := by
  unfold step at hp
  split at hp
  · exact ⟨hdone p hp, .inr hp⟩
  · next hpart =>
    rw [not_or] at hpart
    split at hp
    · cases done with
      | nil => exact absurd hp List.not_mem_nil
      | cons last before =>
        -- the last part is plain, so going up takes it back
        simp only [(hdone last List.mem_cons_self).2.2, if_false] at hp
        exact ⟨hdone p (List.mem_cons_of_mem last hp), .inr (List.mem_cons_of_mem last hp)⟩
    · next hdots =>
      rcases List.mem_cons.mp hp with rfl | hp
      · exact ⟨⟨hpart.1, hpart.2, hdots⟩, .inl rfl⟩
      · exact ⟨hdone p hp, .inr hp⟩

/-- What is left of parts from the root is plain, and was there before. -/
theorem mem_clean_rooted {parts : List (List Char)} {p : List Char} (hp : p ∈ clean true parts) :
    IsPlain p ∧ p ∈ parts := by
  -- the invariant of the fold: what is on the stack is plain
  have hfold : ∀ (parts done : List (List Char)), (∀ q ∈ done, IsPlain q) →
      ∀ q ∈ parts.foldl (step true) done, IsPlain q ∧ (q ∈ parts ∨ q ∈ done) := by
    intro parts
    induction parts with
    | nil => exact fun done hdone q hq => ⟨hdone q hq, .inr hq⟩
    | cons part parts ih =>
      intro done hdone q hq
      have hstep : ∀ r ∈ step true done part, IsPlain r ∧ (r = part ∨ r ∈ done) :=
        fun r hr => mem_step_rooted hdone hr
      obtain ⟨hplain, hmem⟩ := ih _ (fun r hr => (hstep r hr).1) q hq
      refine ⟨hplain, ?_⟩
      rcases hmem with hmem | hmem
      · exact .inl (List.mem_cons_of_mem part hmem)
      · rcases (hstep q hmem).2 with rfl | hmem
        · exact .inl List.mem_cons_self
        · exact .inr hmem
  obtain ⟨hplain, hmem⟩ := hfold parts [] (by simp) p (List.mem_reverse.mp hp)
  exact ⟨hplain, hmem.resolve_right List.not_mem_nil⟩

/-- Empty parts mean nothing. -/
theorem clean_cons_nil (rooted : Bool) (parts : List (List Char)) :
    clean rooted ([] :: parts) = clean rooted parts := rfl

theorem clean_append_nil (rooted : Bool) (parts : List (List Char)) :
    clean rooted (parts ++ [[]]) = clean rooted parts := by
  simp [clean, step]

/-- The part `.` means nothing. -/
theorem clean_append_dot (rooted : Bool) (parts : List (List Char)) :
    clean rooted (parts ++ [dot]) = clean rooted parts := by
  simp [clean, step]

/-! ## Names -/

theorem isPlain_chars (name : Name) : IsPlain name.chars := by
  obtain ⟨s, hempty, hdot, hdots, -⟩ := name
  refine ⟨fun h => hempty (String.toList_eq_nil_iff.mp h), fun h => hdot ?_, fun h => hdots ?_⟩
  · exact String.toList_inj.mp h
  · exact String.toList_inj.mp h

theorem slash_not_mem_chars (name : Name) : '/' ∉ name.chars := name.property.2.2.2

theorem pieces_chars (name : Name) : pieces '/' name.chars = [name.chars] :=
  pieces_of_not_mem (slash_not_mem_chars name)

theorem isPlain_of_mem_map_chars {names : List Name} {p : List Char}
    (hp : p ∈ names.map Name.chars) : IsPlain p := by
  obtain ⟨name, -, rfl⟩ := List.mem_map.mp hp
  exact isPlain_chars name

theorem slash_not_mem_map_chars {names : List Name} {p : List Char}
    (hp : p ∈ names.map Name.chars) : '/' ∉ p := by
  obtain ⟨name, -, rfl⟩ := List.mem_map.mp hp
  exact slash_not_mem_chars name

/-! ## Places -/

/-- The place an absolute path leads to, by the parts that are the way there. -/
def placeOf (path : String) : List (List Char) := clean true (pieces '/' path.toList)

theorem ne_nil_of_isAbsolute {path : List Char} (h : isAbsolute path = true) : path ≠ [] := by
  rintro rfl
  cases h

/-- Normalizing an absolute path keeps it absolute and does not change where it leads. -/
theorem clean_pieces_normalizeChars {path : List Char} (h : isAbsolute path = true) :
    isAbsolute (normalizeChars path) = true ∧
      clean true (pieces '/' (normalizeChars path)) = clean true (pieces '/' path) := by
  simp only [normalizeChars, h, if_true]
  generalize hcleaned : clean true (pieces '/' path) = cleaned
  have hplain : ∀ p ∈ cleaned, IsPlain p := fun p hp => (mem_clean_rooted (hcleaned ▸ hp)).1
  have hslash : ∀ p ∈ cleaned, '/' ∉ p := fun p hp =>
    sep_not_mem_pieces _ _ p (mem_clean_rooted (hcleaned ▸ hp)).2
  by_cases hnil : cleaned = []
  · subst hnil
    exact ⟨rfl, rfl⟩
  · rw [if_neg hnil]
    refine ⟨rfl, ?_⟩
    have hjoin := pieces_join hnil hslash
    show clean true ([] :: pieces '/' (Text.join ['/'] cleaned ++ _)) = cleaned
    rw [clean_cons_nil]
    -- a slash that is kept at the end is one more empty part
    split
    · rw [pieces_append_sep, hjoin]
      exact (clean_append_nil true cleaned).trans (clean_plain true hplain)
    · rw [List.append_nil, hjoin, clean_plain true hplain]

/-- A path joined to an absolute one leads where the parts of both lead. -/
theorem placeOf_join {first second : String} (h : isAbsolute first.toList = true)
    (hsecond : second ≠ "") :
    isAbsolute (join first second).toList = true ∧
      placeOf (join first second) =
        clean true (pieces '/' first.toList ++ pieces '/' second.toList) := by
  have hfirst := ne_nil_of_isAbsolute h
  have hsecond' : second.toList ≠ [] := mt String.toList_eq_nil_iff.mp hsecond
  have hchars : (join first second).toList =
      normalizeChars (first.toList ++ '/' :: second.toList) := by
    simp [join, joinChars, hfirst, hsecond', Text.join]
  have hwhole : isAbsolute (first.toList ++ '/' :: second.toList) = true := by
    obtain ⟨c, cs, hcs⟩ := List.exists_cons_of_ne_nil hfirst
    rw [hcs] at h ⊢
    exact h
  rw [placeOf, hchars, ← pieces_append_sep]
  exact clean_pieces_normalizeChars hwhole

/-- A name joined to a path leads one step further down. -/
theorem placeOf_join_name {dir : String} (h : isAbsolute dir.toList = true) (name : Name) :
    isAbsolute (join dir name.val).toList = true ∧
      placeOf (join dir name.val) = placeOf dir ++ [name.chars] := by
  obtain ⟨habs, hplace⟩ := placeOf_join h name.property.1
  have hname : ∀ p ∈ [name.chars], IsPlain p := by
    simpa using isPlain_chars name
  have hpieces : pieces '/' name.val.toList = [name.chars] := pieces_chars name
  exact ⟨habs, by rw [hplace, hpieces, clean_append_plain true _ hname, placeOf]⟩

end Path

end PathSieve

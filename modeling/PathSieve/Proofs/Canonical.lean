import Mathlib.Data.List.Induction
import PathSieve.FileSystem.Operations
import PathSieve.Environment
import PathSieve.Proofs.Place

/-!
# Canonical paths

The one absolute path of a sequence of names has a slash in front of each, and is `/` for no names
(`ofNames`). The directory that holds what such a path names is the path of the names before the
last, whoever takes it apart (`parent_ofNames`, `above?_ofNames`).

Resolving is documented to give a path without needless parts (`resolved`), and does so but for the
working directory itself, which is not looked at (`resolveChars_eq_resolved_iff`). So what a user's
path means is canonical wherever the working directory is (`canonical_locate`).
-/

namespace PathSieve

namespace Path

open Text (pieces pieces_append_sep sep_not_mem_pieces)

/-- Names with a slash in front of each. -/
def belowRoot (names : List Name) : List Char := names.flatMap fun name => '/' :: name.chars

/-- The absolute path of a sequence of names. -/
def ofNames (names : List Name) : String :=
  String.ofList (if names = [] then ['/'] else belowRoot names)

/-- Whether a path is absolute and has nothing needless. -/
def Canonical (path : String) : Prop := ∃ names, path = ofNames names

variable {names : List Name} {name : Name} {cwd : String}

theorem belowRoot_concat (names : List Name) (name : Name) :
    belowRoot (names ++ [name]) = belowRoot names ++ '/' :: name.chars := by
  simp [belowRoot]

theorem toList_ofNames_concat (names : List Name) (name : Name) :
    (ofNames (names ++ [name])).toList = belowRoot names ++ '/' :: name.chars := by
  have hne : names ++ [name] ≠ [] :=
    List.append_ne_nil_of_right_ne_nil names (List.cons_ne_nil name [])
  rw [ofNames, String.toList_ofList, if_neg hne, belowRoot_concat]

theorem isAbsolute_ofNames (names : List Name) : isAbsolute (ofNames names).toList = true := by
  rw [ofNames, String.toList_ofList]
  cases names <;> rfl

theorem Canonical.isAbsolute {path : String} (h : Canonical path) :
    isAbsolute path.toList = true := by
  obtain ⟨names, rfl⟩ := h
  exact isAbsolute_ofNames names

theorem ofNames_ne_empty (names : List Name) : ofNames names ≠ "" := by
  intro h
  have habsolute := isAbsolute_ofNames names
  rw [h] at habsolute
  cases habsolute

/-- The pieces are the names, behind the empty one in front of the first slash. -/
theorem pieces_belowRoot (names : List Name) :
    pieces '/' (belowRoot names) = [] :: names.map Name.chars := by
  induction names using List.reverseRecOn with
  | nil => rfl
  | append_singleton names name ih =>
    rw [belowRoot_concat, pieces_append_sep, ih, pieces_chars, List.map_append]
    rfl

/-! ## The directory above -/

theorem dropWhile_slashes {cs : List Char} (hne : cs ≠ []) (h : '/' ∉ cs) (rest : List Char) :
    (cs ++ rest).dropWhile (· == '/') = cs ++ rest := by
  obtain ⟨c, cs, rfl⟩ := List.exists_cons_of_ne_nil hne
  have hc : (c == '/') = false := beq_false_of_ne fun heq => h (heq ▸ List.mem_cons_self)
  rw [List.cons_append, List.dropWhile_cons_of_neg]
  rw [hc]
  exact Bool.false_ne_true

theorem dropWhile_name {cs : List Char} (h : '/' ∉ cs) (rest : List Char) :
    (cs ++ '/' :: rest).dropWhile (· != '/') = '/' :: rest := by
  rw [List.dropWhile_append_of_pos]
  · rfl
  · intro c hc
    exact bne_iff_ne.mpr fun heq => h (heq ▸ hc)

theorem reverse_chars (name : Name) : name.chars.reverse ≠ [] ∧ '/' ∉ name.chars.reverse := by
  rw [Ne, List.reverse_eq_nil_iff, List.mem_reverse]
  exact ⟨(isPlain_chars name).1, slash_not_mem_chars name⟩

/-- No slash but the one that was put there is at the end of names. -/
theorem dropWhile_reverse_belowRoot (names : List Name) :
    ('/' :: (belowRoot names).reverse).dropWhile (· == '/') = (belowRoot names).reverse := by
  rw [List.dropWhile_cons_of_pos rfl]
  cases names using List.reverseRecOn with
  | nil => rfl
  | append_singleton front last =>
    obtain ⟨hne, hslash⟩ := reverse_chars last
    rw [belowRoot_concat, List.reverse_append, List.reverse_cons, List.append_assoc]
    exact dropWhile_slashes hne hslash _

theorem parent_ofNames_nil : parent (ofNames []) = ofNames [] := by decide

/-- Above a name is what the names before it lead to. -/
theorem parent_ofNames_concat (names : List Name) (name : Name) :
    parent (ofNames (names ++ [name])) = ofNames names := by
  obtain ⟨hne, hslash⟩ := reverse_chars name
  have habove : ((ofNames (names ++ [name])).toList.reverse.dropWhile (· == '/')).dropWhile
      (· != '/') = '/' :: (belowRoot names).reverse := by
    rw [toList_ofNames_concat, List.reverse_append, List.reverse_cons, List.append_assoc,
      dropWhile_slashes hne hslash]
    exact dropWhile_name hslash _
  rw [parent, parentChars, habove, dropWhile_reverse_belowRoot, List.reverse_reverse,
    isAbsolute_ofNames, ofNames]
  cases names with
  | nil => rfl
  | cons first names =>
    rw [if_neg (List.cons_ne_nil first names)]
    rfl

theorem parent_ofNames (names : List Name) : parent (ofNames names) = ofNames names.dropLast := by
  cases names using List.reverseRecOn with
  | nil => exact parent_ofNames_nil
  | append_singleton names name => rw [parent_ofNames_concat, List.dropLast_concat]

theorem above?_ofNames (names : List Name) (name : Name) :
    FileSystem.above? (ofNames (names ++ [name])) = some (ofNames names) := by
  obtain ⟨-, hslash⟩ := reverse_chars name
  have hstart : (ofNames (names ++ [name])).toList.reverse.dropWhile (· != '/') =
      '/' :: (belowRoot names).reverse := by
    rw [toList_ofNames_concat, List.reverse_append, List.reverse_cons, List.append_assoc]
    exact dropWhile_name hslash _
  rw [FileSystem.above?, hstart, dropWhile_reverse_belowRoot]
  cases names with
  | nil => rfl
  | cons first names =>
    cases hreverse : (belowRoot (first :: names)).reverse with
    | nil => exact absurd (List.reverse_eq_nil_iff.mp hreverse) (List.cons_ne_nil _ _)
    | cons c cs =>
      rw [ofNames, if_neg (List.cons_ne_nil first names)]
      dsimp only
      rw [← hreverse, List.reverse_reverse]

/-! ## What paths mean -/

theorem exists_names {parts : List (List Char)} (h : ∀ p ∈ parts, IsPlain p ∧ '/' ∉ p) :
    ∃ names : List Name, parts = names.map Name.chars := by
  induction parts with
  | nil => exact ⟨[], rfl⟩
  | cons p parts ih =>
    rw [List.forall_mem_cons] at h
    obtain ⟨⟨hne, hdot, hdots⟩, hslash⟩ := h.1
    obtain ⟨names, rfl⟩ := ih h.2
    have hname : IsName (String.ofList p) := by
      refine ⟨fun heq => hne (String.ofList_inj.mp heq), fun heq => hdot (String.ofList_inj.mp heq),
        fun heq => hdots (String.ofList_inj.mp heq), ?_⟩
      rwa [String.toList_ofList]
    refine ⟨⟨_, hname⟩ :: names, ?_⟩
    rw [List.map_cons, Name.chars, String.toList_ofList]

theorem ofParts_map_chars (names : List Name) :
    String.ofList (ofParts true (names.map Name.chars)) = ofNames names := by
  have hjoin (name : Name) (names : List Name) :
      '/' :: Text.join ['/'] ((name :: names).map Name.chars) = belowRoot (name :: names) := by
    induction names generalizing name with
    | nil => simp [Text.join, belowRoot]
    | cons next names ih =>
      have hnext := ih next
      simp only [List.map_cons, Text.join, belowRoot, List.flatMap_cons] at hnext ⊢
      simp [← hnext]
  cases names with
  | nil => rfl
  | cons name names =>
    rw [ofNames, if_neg (List.cons_ne_nil name names), ← hjoin]
    rfl

/-- An absolute path is made canonical by taking its dot segments out. -/
theorem canonical_ofParts (path : List Char) :
    Canonical (String.ofList (ofParts true (clean true (pieces '/' path)))) := by
  have hplain : ∀ p ∈ clean true (pieces '/' path), IsPlain p ∧ '/' ∉ p := fun p hp =>
    ⟨(mem_clean_rooted hp).1, sep_not_mem_pieces _ _ p (mem_clean_rooted hp).2⟩
  obtain ⟨names, hnames⟩ := exists_names hplain
  exact ⟨names, by rw [hnames, ofParts_map_chars]⟩

theorem placeOf_ofNames (names : List Name) : placeOf (ofNames names) = names.map Name.chars := by
  cases names with
  | nil => rfl
  | cons name names =>
    rw [placeOf, ofNames, if_neg (List.cons_ne_nil name names), String.toList_ofList,
      pieces_belowRoot, clean_cons_nil]
    exact clean_plain true fun p hp => isPlain_of_mem_map_chars hp

/-! ## Resolving -/

variable {path : List Char}

/-- What resolving is documented to give in an absolute directory: the path, seen from there unless
it is absolute itself, without needless parts and without a slash at its end. -/
def resolved (cwd path : List Char) : List Char :=
  ofParts true (clean true (pieces '/' (if isAbsolute path then path else cwd ++ '/' :: path)))

theorem canonical_resolved (cwd path : List Char) :
    Canonical (String.ofList (resolved cwd path)) := canonical_ofParts _

/-- The working directory is taken as it is written. -/
theorem resolveChars_here (habsolute : isAbsolute cwd.toList = true)
    (h : path = [] ∨ path = dot) : resolveChars cwd.toList path = cwd.toList := by
  rw [resolveChars, if_pos ⟨h, habsolute⟩]

/-- A path that says more is resolved as documented. -/
theorem resolveChars_eq_resolved (habsolute : isAbsolute cwd.toList = true)
    (h : ¬ (path = [] ∨ path = dot)) :
    resolveChars cwd.toList path = resolved cwd.toList path := by
  have hne : cwd.toList ≠ [] := ne_nil_of_isAbsolute habsolute
  have hwhole :
      isAbsolute (if isAbsolute path then path else cwd.toList ++ '/' :: path) = true := by
    split
    · assumption
    · obtain ⟨cs, hcs⟩ := List.head?_eq_some_iff.mp (eq_of_beq habsolute)
      rw [hcs]
      rfl
  rw [resolveChars, if_neg fun hhere => h hhere.1, resolved]
  simp only [hne, or_false, hwhole, Bool.not_true, Bool.false_eq_true, and_false, if_false]

/-- Documented is that a canonical working directory is left as it is. -/
theorem resolved_here (hcwd : Canonical cwd) (h : path = [] ∨ path = dot) :
    resolved cwd.toList path = cwd.toList := by
  have hplace :
      clean true (pieces '/' (if isAbsolute path then path else cwd.toList ++ '/' :: path)) =
        placeOf cwd := by
    rcases h with rfl | rfl
    · show clean true (pieces '/' (cwd.toList ++ '/' :: [])) = placeOf cwd
      rw [pieces_append_sep]
      exact clean_append_nil true _
    · show clean true (pieces '/' (cwd.toList ++ '/' :: dot)) = placeOf cwd
      rw [pieces_append_sep]
      exact clean_append_dot true _
  obtain ⟨names, rfl⟩ := hcwd
  rw [resolved, hplace, placeOf_ofNames, ← String.toList_ofList (l := ofParts true _),
    ofParts_map_chars]

/-- Resolving gives what it is documented to give, unless that is a working directory that is not
canonical. -/
theorem resolveChars_eq_resolved_iff (habsolute : isAbsolute cwd.toList = true) :
    resolveChars cwd.toList path = resolved cwd.toList path ↔
      (path = [] ∨ path = dot → Canonical cwd) := by
  constructor
  · intro h hhere
    rw [resolveChars_here habsolute hhere] at h
    rw [← String.ofList_toList (s := cwd), h]
    exact canonical_resolved _ _
  · intro h
    by_cases hhere : path = [] ∨ path = dot
    · rw [resolveChars_here habsolute hhere, resolved_here (h hhere) hhere]
    · exact resolveChars_eq_resolved habsolute hhere

/-- What a path means is canonical, unless it means a working directory that is not. -/
theorem canonical_resolveChars (habsolute : isAbsolute cwd.toList = true)
    (h : path = [] ∨ path = dot → Canonical cwd) :
    Canonical (String.ofList (resolveChars cwd.toList path)) := by
  rw [(resolveChars_eq_resolved_iff habsolute).mpr h]
  exact canonical_resolved _ _

end Path

/-- What a user's path means is canonical. -/
theorem Environment.canonical_locate {env : Environment} (h : Path.Canonical env.cwd)
    (path : String) : Path.Canonical (env.locate path) :=
  Path.canonical_resolveChars h.isAbsolute fun _ => h

end PathSieve

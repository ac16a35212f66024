import Mathlib.Data.List.Nodup
import PathSieve.Proofs.Place
import PathSieve.Walk.Basic

/-!
# Directory trees and the listings that serve them

A finite directory tree, whose names are names (`Name`), and what a listing has to do with it. A
listing *serves* a tree if it never gives anything but the entries of the directory that the path
asked for leads to. It may fail wherever it likes, and it must where the tree has no directory.

- `Tree.directoryAt?`, `Tree.HasFile`: what lies at a place.
- `Tree.Distinct`: no directory holds a name twice. Without it the first directory of a name counts.
- `Tree.Serves`, and `Tree.listing`, which serves the whole tree.
-/

namespace PathSieve

/-- A finite directory tree: a file, or a directory with its entries in listing order. -/
inductive Tree where
  | file
  | directory (entries : List (Name × Tree))

namespace Tree

open PathSieve.Path (isAbsolute placeOf)

/-- Whether a tree is more than a file. -/
def isDirectory : Tree → Bool
  | .file => false
  | .directory _ => true

/-- The entries of a directory; a file has none. -/
def entries : Tree → List (Name × Tree)
  | .file => []
  | .directory entries => entries

/-- The entries of a directory as a listing gives them. -/
def listed (t : Tree) : List Entry := t.entries.map fun e => ⟨e.1.val, e.2.isDirectory⟩

/-- The directory of a name in a directory. -/
def below? (t : Tree) (part : List Char) : Option Tree :=
  (t.entries.find? fun e => e.1.chars == part && e.2.isDirectory).map Prod.snd

/-- The directory at a place. -/
def directoryAt? (t : Tree) : List (List Char) → Option Tree
  | [] => if t.isDirectory then some t else none
  | part :: place => (t.below? part).bind (directoryAt? · place)

/-- Whether there is a file at a place. -/
def HasFile (t : Tree) (place : List (List Char)) : Prop :=
  ∃ above name d, place = above ++ [Name.chars name] ∧ t.directoryAt? above = some d ∧
    (name, .file) ∈ d.entries

/-- Whether all names within each directory are different. -/
inductive Distinct : Tree → Prop
  | file : Distinct .file
  | directory {entries : List (Name × Tree)} (names : (entries.map Prod.fst).Nodup)
      (below : ∀ e ∈ entries, Distinct e.2) : Distinct (.directory entries)

/-- Whether a listing gives nothing but entries of the directories of a tree. -/
def Serves (t : Tree) (listing : Listing) : Prop :=
  ∀ dir entries, isAbsolute dir.toList = true → listing dir = .ok entries →
    ∃ d, t.directoryAt? (placeOf dir) = some d ∧ entries = d.listed

/-- The listing of a whole tree. -/
def listing (t : Tree) : Listing := fun dir =>
  match t.directoryAt? (placeOf dir) with
  | some d => .ok d.listed
  | none => .error (.caused (.system { errno := .noEntry, call := "scandir", paths := [dir] }))

theorem serves_listing (t : Tree) : t.Serves t.listing := by
  intro dir entries _ h
  unfold listing at h
  split at h
  · next d hd => exact ⟨d, hd, (Except.ok.inj h).symm⟩
  · cases h

/-! ## Directories at places -/

theorem isDirectory_of_below? {t d : Tree} {part : List Char} (h : t.below? part = some d) :
    d.isDirectory = true := by
  obtain ⟨e, he, rfl⟩ := Option.map_eq_some_iff.mp h
  have hfound := List.find?_some he
  rw [Bool.and_eq_true] at hfound
  exact hfound.2

theorem mem_entries_of_below? {t d : Tree} {part : List Char} (h : t.below? part = some d) :
    ∃ name, Name.chars name = part ∧ (name, d) ∈ t.entries := by
  obtain ⟨e, he, rfl⟩ := Option.map_eq_some_iff.mp h
  have hfound := List.find?_some he
  rw [Bool.and_eq_true, beq_iff_eq] at hfound
  exact ⟨e.1, hfound.1, List.mem_of_find?_eq_some he⟩

theorem directoryAt?_nil {t : Tree} (h : t.isDirectory = true) : t.directoryAt? [] = some t :=
  if_pos h

/-- One step further down from a place. -/
theorem directoryAt?_append (t : Tree) (place : List (List Char)) (part : List Char) :
    t.directoryAt? (place ++ [part]) = (t.directoryAt? place).bind (·.below? part) := by
  induction place generalizing t with
  | nil =>
    cases t with
    | file => rfl
    | directory entries =>
      show ((Tree.directory entries).below? part).bind (directoryAt? · []) =
        (Tree.directory entries).below? part
      cases h : (Tree.directory entries).below? part with
      | none => rfl
      | some d => exact directoryAt?_nil (isDirectory_of_below? h)
  | cons p place ih =>
    show (t.below? p).bind (directoryAt? · (place ++ [part])) =
      ((t.below? p).bind (directoryAt? · place)).bind (·.below? part)
    cases t.below? p with
    | none => rfl
    | some d => exact ih d

/-- On the way to a directory there are directories. -/
theorem exists_directoryAt? {t d : Tree} {place rest : List (List Char)}
    (h : t.directoryAt? (place ++ rest) = some d) : ∃ up, t.directoryAt? place = some up := by
  induction place generalizing t with
  | nil =>
    cases t with
    | file =>
      cases rest with
      | nil => cases h
      | cons p rest => cases h
    | directory entries => exact ⟨_, directoryAt?_nil rfl⟩
  | cons p place ih =>
    obtain ⟨next, hnext, hd⟩ := Option.bind_eq_some_iff.mp h
    obtain ⟨up, hup⟩ := ih hd
    exact ⟨up, Option.bind_eq_some_iff.mpr ⟨next, hnext, hup⟩⟩

/-! ## Files below a directory -/

variable {t d : Tree} {place : List (List Char)}

/-- A file right in a directory is one of its entries. -/
theorem hasFile_name_iff (h : t.directoryAt? place = some d) (name : Name) :
    t.HasFile (place ++ [name.chars]) ↔ (name, .file) ∈ d.entries := by
  constructor
  · rintro ⟨above, name', d', heq, hd', hmem⟩
    obtain ⟨rfl, hname⟩ := List.append_inj' heq rfl
    obtain rfl := Name.chars_inj (List.singleton_inj.mp hname)
    rw [h] at hd'
    exact Option.some.inj hd' ▸ hmem
  · intro hmem
    exact ⟨place, name, d, rfl, h, hmem⟩

/-- The directory right above a file is there. -/
theorem exists_directoryAt?_of_hasFile {part : List Char} (h : t.HasFile (place ++ [part])) :
    ∃ d, t.directoryAt? place = some d ∧ d.isDirectory = true := by
  obtain ⟨above, name, d, habove, hd, hmem⟩ := h
  obtain ⟨rfl, -⟩ := List.append_inj' habove rfl
  cases d with
  | file => cases hmem
  | directory entries => exact ⟨_, hd, rfl⟩

/-- The way to a file further down starts with a directory among the entries. -/
theorem exists_entry_of_hasFile (h : t.directoryAt? place = some d) {name : Name}
    {names : List Name} (hne : names ≠ [])
    (hfile : t.HasFile (place ++ (name :: names).map Name.chars)) :
    ∃ sub, (name, sub) ∈ d.entries ∧ sub.isDirectory = true := by
  obtain ⟨above, last, up, heq, hup, -⟩ := hfile
  -- all names but the last lead to the directory that holds the file, and the first is on the way
  have habove : above = place ++ [name.chars] ++ (names.map Name.chars).dropLast := by
    have hdrop := congrArg List.dropLast heq
    rw [List.dropLast_concat, List.dropLast_append_of_ne_nil (by simp), List.map_cons,
      List.dropLast_cons_of_ne_nil (by simpa using hne)] at hdrop
    rw [← hdrop, List.append_assoc, List.singleton_append]
  rw [habove] at hup
  obtain ⟨sub, hsub⟩ := exists_directoryAt? hup
  rw [directoryAt?_append, h] at hsub
  obtain ⟨name', hname, hmem⟩ := mem_entries_of_below? hsub
  obtain rfl := Name.chars_inj hname
  exact ⟨sub, hmem, isDirectory_of_below? hsub⟩

/-! ## Distinct names -/

theorem Distinct.directoryAt? (h : t.Distinct) (hd : t.directoryAt? place = some d) :
    d.Distinct := by
  induction place generalizing t with
  | nil =>
    unfold Tree.directoryAt? at hd
    split at hd
    · exact Option.some.inj hd ▸ h
    · cases hd
  | cons p place ih =>
    obtain ⟨up, hup, hrest⟩ := Option.bind_eq_some_iff.mp hd
    obtain ⟨name, -, hmem⟩ := mem_entries_of_below? hup
    cases h with
    | file => cases hmem
    | directory names below => exact ih (below _ hmem) hrest

/-- Where names are distinct, no place holds both a file and a directory. -/
theorem Distinct.directoryAt?_eq_none (h : t.Distinct) (hfile : t.HasFile place) :
    t.directoryAt? place = none := by
  obtain ⟨above, name, d, rfl, hd, hmem⟩ := hfile
  rw [directoryAt?_append, hd]
  show d.below? name.chars = none
  cases hsub : d.below? name.chars with
  | none => rfl
  | some sub =>
    obtain ⟨name', hname, hmem'⟩ := mem_entries_of_below? hsub
    obtain rfl := Name.chars_inj hname
    have hdistinct := h.directoryAt? hd
    cases hdistinct with
    | file => cases hmem
    | directory names below =>
      -- file and directory would be two entries of one name
      have heq := List.inj_on_of_nodup_map names hmem hmem' rfl
      rw [← (Prod.mk.inj heq).2] at hsub
      cases isDirectory_of_below? hsub

/-! ## One file -/

/-- Those of some texts that are names. -/
def namesOf (texts : List String) : List Name :=
  texts.filterMap fun s => if h : IsName s then some ⟨s, h⟩ else none

/-- The tree that holds nothing but one file, at the end of the given names. -/
def single : List Name → Tree
  | [] => .file
  | name :: names => .directory [(name, single names)]

theorem distinct_single (names : List Name) : (single names).Distinct := by
  induction names with
  | nil => exact .file
  | cons name names ih =>
    refine .directory (List.nodup_singleton name) fun e he => ?_
    rw [List.mem_singleton.mp he]
    exact ih

theorem directoryAt?_single (names : List Name) (last : Name) :
    (single (names ++ [last])).directoryAt? (names.map Name.chars) = some (single [last]) := by
  induction names with
  | nil => rfl
  | cons name names ih =>
    have hdirectory : (single (names ++ [last])).isDirectory = true := by
      cases names <;> rfl
    have hbelow : (single (name :: names ++ [last])).below? name.chars =
        some (single (names ++ [last])) := by
      simp [single, below?, entries, hdirectory]
    exact Option.bind_eq_some_iff.mpr ⟨_, hbelow, ih⟩

theorem hasFile_single {names : List Name} (hne : names ≠ []) :
    (single names).HasFile (names.map Name.chars) := by
  obtain ⟨ns, last, rfl⟩ := (List.eq_nil_or_concat' names).resolve_left hne
  exact ⟨ns.map Name.chars, last, single [last], List.map_append, directoryAt?_single ns last,
    List.mem_singleton.mpr rfl⟩

end Tree

end PathSieve

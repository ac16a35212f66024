import Mathlib.Data.List.Basic
import PathSieve.Proofs.Pieces
import PathSieve.Proofs.Utf8
import PathSieve.Report
import PathSieve.Text.Lines

/-!
# Printed paths as input

What is printed of a selection can be the input of another run. The paths come back, in their order
and with nothing between them, exactly if each of them can stand on a line of its own: it is not
empty, holds no line feed, and does not end in the carriage return that would be taken for a part of
its line end (`lines_paths_iff`).

A path that cannot spoils the whole, whatever the others are. No line that is read is empty or holds
a line feed, so a list that comes back holds no such path; and then there is a line for each path,
and none of the lines has lost anything.
-/

namespace PathSieve

namespace Text

/-! ## Lines that are closed -/

/-- Only the last piece of a text keeps its carriage return. -/
theorem dropReturns_concat (lines : List (List Char)) (last : List Char) :
    dropReturns (lines ++ [last]) = lines.map dropReturn ++ [last] := by
  induction lines with
  | nil => rfl
  | cons line lines ih =>
    obtain ⟨next, more, hmore⟩ : ∃ next more, lines ++ [last] = next :: more :=
      List.exists_cons_of_ne_nil (List.append_ne_nil_of_right_ne_nil lines (List.cons_ne_nil _ _))
    rw [List.cons_append, hmore]
    show dropReturn line :: dropReturns (next :: more) = _
    rw [← hmore, ih]
    rfl

/-- Behind the last separator there is an empty piece. -/
theorem pieces_flatMap_closed (sep : Char) (ls : List (List Char)) :
    pieces sep (ls.flatMap (· ++ [sep])) = ls.flatMap (pieces sep) ++ [[]] := by
  induction ls with
  | nil => rfl
  | cons l ls ih =>
    rw [List.flatMap_cons, List.flatMap_cons, List.append_assoc, List.singleton_append,
      pieces_append_sep, ih, List.append_assoc]

theorem linesOf_flatMap_closed (ls : List (List Char)) :
    linesOf (ls.flatMap (· ++ ['\n'])) =
      ((ls.flatMap (pieces '\n')).map dropReturn).filter (· ≠ []) := by
  rw [linesOf, pieces_flatMap_closed, dropReturns_concat, List.filter_append]
  exact List.append_nil _

theorem dropReturn_eq_self_iff {l : List Char} : dropReturn l = l ↔ l.getLast? ≠ some '\r' := by
  unfold dropReturn
  split
  · next h =>
    refine iff_of_false (fun heq => ?_) (not_not_intro h)
    have hlength := congrArg List.length heq
    rw [List.length_dropLast] at hlength
    obtain rfl : l = [] := List.length_eq_zero_iff.mp (by omega)
    cases h
  · next h => exact iff_of_true rfl h

theorem dropReturn_subset (l : List Char) : dropReturn l ⊆ l := by
  unfold dropReturn
  split
  · exact (List.dropLast_sublist l).subset
  · exact List.Subset.refl l

/-- Lines come back from their closed forms exactly if none of them is empty, holds a line feed or
ends in a carriage return. -/
theorem linesOf_flatMap_closed_eq_iff {ls : List (List Char)} :
    linesOf (ls.flatMap (· ++ ['\n'])) = ls ↔
      ∀ l ∈ ls, l ≠ [] ∧ '\n' ∉ l ∧ l.getLast? ≠ some '\r' := by
  rw [linesOf_flatMap_closed]
  have hpieces (h : ∀ l ∈ ls, '\n' ∉ l) : ls.flatMap (pieces '\n') = ls := by
    rw [List.flatMap_congr fun l hl => pieces_of_not_mem (h l hl)]
    exact List.flatMap_singleton' ls
  constructor
  · intro h
    have hline : ∀ l ∈ ls, l ≠ [] ∧ '\n' ∉ l := by
      intro l hl
      rw [← h, List.mem_filter, List.mem_map] at hl
      obtain ⟨⟨piece, hpiece, rfl⟩, hne⟩ := hl
      obtain ⟨whole, -, hpiece⟩ := List.mem_flatMap.mp hpiece
      exact ⟨of_decide_eq_true hne, fun hmem =>
        sep_not_mem_pieces '\n' whole piece hpiece (dropReturn_subset piece hmem)⟩
    -- now there is one piece for each line, so none of them can have been dropped
    rw [hpieces fun l hl => (hline l hl).2] at h
    have hmap : ls.map dropReturn = ls := by
      have hlength : ((ls.map dropReturn).filter (· ≠ [])).length = (ls.map dropReturn).length := by
        rw [h, List.length_map]
      exact (List.filter_sublist.eq_of_length hlength).symm.trans h
    intro l hl
    refine ⟨(hline l hl).1, (hline l hl).2, dropReturn_eq_self_iff.mp ?_⟩
    exact List.map_inj_left.mp (hmap.trans (List.map_id ls).symm) l hl
  · intro h
    have hmap : ls.map dropReturn = ls := by
      rw [List.map_congr_left fun l hl => dropReturn_eq_self_iff.mpr (h l hl).2.2]
      exact List.map_id ls
    rw [hpieces fun l hl => (h l hl).2.1, hmap, List.filter_eq_self]
    exact fun l hl => decide_eq_true (h l hl).1

end Text

namespace Report

/-- With no option, each path is printed as it is, closed by a line feed. -/
theorem toList_paths (separator : String) (ps : List String) :
    (paths ⟨false, false⟩ separator ps).toList =
      (ps.map String.toList).flatMap (· ++ ['\n']) := by
  rw [paths, String.toList_join, List.flatMap_map, List.flatMap_map]
  refine List.flatMap_congr fun p _ => ?_
  exact String.toList_append

theorem map_ofList_eq_iff {ls : List (List Char)} {ps : List String} :
    ls.map String.ofList = ps ↔ ls = ps.map String.toList := by
  constructor
  · rintro rfl
    simp [Function.comp_def]
  · rintro rfl
    simp [Function.comp_def]

/-- **Reading back.** What is printed of some paths gives these paths back, however it is cut into
chunks on the way, exactly if each of them can stand on a line of its own. -/
theorem lines_paths_iff {ps : List String} {separator : String} {chunks : List (List UInt8)}
    (h : chunks.flatten = Text.Utf8.encode (paths ⟨false, false⟩ separator ps).toList) :
    Text.lines chunks = ps ↔
      ∀ p ∈ ps, p ≠ "" ∧ '\n' ∉ p.toList ∧ p.toList.getLast? ≠ some '\r' := by
  rw [Text.lines, h, Text.Utf8.decode_encode, toList_paths, map_ofList_eq_iff,
    Text.linesOf_flatMap_closed_eq_iff, List.forall_mem_map]
  simp only [ne_eq, String.toList_eq_nil_iff]

/-- Two characters of two bytes each, both cut in the middle, and a carriage return inside a
path. -/
theorem lines_paths_iff_cut :
    let chunks : List (List UInt8) :=
      [[0xC3], [0xA9, 0x2F, 0x0D, 0x78, 0x0A, 0xC3], [], [0xBC, 0x0A]]
    chunks.flatten = Text.Utf8.encode (paths ⟨false, false⟩ "/" ["é/\rx", "ü"]).toList ∧
      Text.lines chunks = ["é/\rx", "ü"] := by
  intro chunks
  have hprinted : chunks.flatten =
      Text.Utf8.encode (paths ⟨false, false⟩ "/" ["é/\rx", "ü"]).toList := by decide
  exact ⟨hprinted, (lines_paths_iff hprinted).mpr (by decide)⟩

end Report

end PathSieve

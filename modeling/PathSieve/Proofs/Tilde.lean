import Mathlib.Data.List.Infix
import PathSieve.Path.Home

/-!
# Tildes

A tilde that is the whole first part of a path means the home directory, and the user expects the
home directory as it is (`Path.meant`). It comes as it is exactly if its text holds no reference of
a replacement template (`Text.Verbatim`): a path that continues behind the tilde continues with a
slash, and then nothing that a reference stands for can make up for the dollar sign it costs
(`Text.expand_eq_self_iff`).

A tilde that begins a longer name is taken for the home directory too, with the rest of the name put
behind the last part of it. `Path.locate_meant` says of every path when it leads where it is meant
to lead.
-/

namespace PathSieve

namespace Text

/-! ## Templates that stand for themselves -/

/-- The characters that make a reference of a dollar sign in front of them. -/
def referring : List Char := ['$', '&', '\x60', '\'']

/-- Whether a template holds no reference. -/
def Verbatim (template : List Char) : Prop := ∀ c ∈ referring, ¬ ['$', c] <:+: template

instance (template : List Char) : Decidable (Verbatim template) := List.decidableBAll _ _

variable {before matched after template : List Char}

theorem verbatim_nil : Verbatim [] := by
  decide

theorem Verbatim.tail {c : Char} (h : Verbatim (c :: template)) : Verbatim template :=
  fun d hd hpart => h d hd (hpart.trans (List.suffix_cons c template).isInfix)

/-- A character in front makes no reference unless it is a dollar sign in front of the right one. -/
theorem Verbatim.cons {c : Char} (h : Verbatim template)
    (hc : ∀ d ∈ referring, ¬ ['$', d] <+: c :: template) : Verbatim (c :: template) := by
  intro d hd hpart
  rcases List.infix_cons_iff.mp hpart with hfront | hbehind
  · exact hc d hd hfront
  · exact h d hd hbehind

theorem not_verbatim_dollar {d : Char} (hd : d ∈ referring) : ¬ Verbatim ('$' :: d :: template) :=
  fun h => h d hd (List.prefix_append ['$', d] template).isInfix

/-- A template without references stands for itself. -/
theorem expand_of_verbatim (h : Verbatim template) :
    expand before matched after template = template := by
  fun_induction expand before matched after template with
  | case1 rest | case2 rest | case3 rest | case4 rest =>
    exact absurd h (not_verbatim_dollar (by decide))
  | case5 c rest _ _ _ _ ih => rw [ih h.tail]
  | case6 => rfl

/-- What stands for a template never lags behind it by some text without a slash. A reference makes
the lag longer, and a plain character only moves it on; the text behind the match could make it
shorter, but would have to begin like the lag, and begins with a slash. -/
theorem expand_ne_append (hafter : after = [] ∨ after.head? = some '/') {lag : List Char}
    (hne : lag ≠ []) (hslash : '/' ∉ lag) : expand [] ['~'] after template ≠ lag ++ template := by
  -- the characters that go by join the end of the lag
  have hlonger (lag : List Char) (c : Char) (more : List Char) : lag ++ c :: more ≠ [] :=
    List.append_ne_nil_of_right_ne_nil lag (List.cons_ne_nil c more)
  fun_induction expand [] ['~'] after template generalizing lag with
  | case1 rest ih =>
    obtain ⟨first, lag, rfl⟩ := List.exists_cons_of_ne_nil hne
    intro h
    have hrest := (List.cons.inj h).2
    exact ih (hlonger lag '$' ['$']) (by simp_all) (by simpa using hrest)
  | case2 rest ih =>
    obtain ⟨first, lag, rfl⟩ := List.exists_cons_of_ne_nil hne
    intro h
    have hrest := (List.cons.inj h).2
    exact ih (hlonger lag '$' ['&']) (by simp_all) (by simpa using hrest)
  | case3 rest ih =>
    intro h
    exact ih (hlonger lag '$' ['\x60']) (by simp_all) (by simpa using h)
  | case4 rest ih =>
    intro h
    rcases hafter with rfl | hafter
    · exact ih (hlonger lag '$' ['\'']) (by simp_all) (by simpa using h)
    · obtain ⟨first, lag, rfl⟩ := List.exists_cons_of_ne_nil hne
      obtain ⟨below, rfl⟩ := List.head?_eq_some_iff.mp hafter
      obtain ⟨rfl, -⟩ := List.cons.inj h
      exact hslash List.mem_cons_self
  | case5 c rest _ _ _ _ ih =>
    obtain ⟨first, lag, rfl⟩ := List.exists_cons_of_ne_nil hne
    intro h
    obtain ⟨rfl, hrest⟩ := List.cons.inj h
    exact ih (hlonger lag c []) (by simp_all) (by simpa using hrest)
  | case6 =>
    rw [List.append_nil]
    exact hne.symm

/-- Where the text behind the match is empty or begins with a slash, a template stands for itself
exactly if it holds no reference. -/
theorem expand_eq_self_iff (hafter : after = [] ∨ after.head? = some '/') :
    expand [] ['~'] after template = template ↔ Verbatim template := by
  refine ⟨fun h => ?_, expand_of_verbatim⟩
  fun_induction expand [] ['~'] after template with
  | case1 rest ih =>
    exact absurd (List.cons.inj h).2
      (expand_ne_append hafter (List.cons_ne_nil '$' []) (by decide))
  | case2 rest ih => exact absurd (List.cons.inj h).1 (by decide)
  | case3 rest ih =>
    exact absurd h (expand_ne_append hafter (List.cons_ne_nil '$' ['\x60']) (by decide))
  | case4 rest ih =>
    rcases hafter with rfl | hafter
    · exact absurd h (expand_ne_append (.inl rfl) (List.cons_ne_nil '$' ['\'']) (by decide))
    · obtain ⟨below, rfl⟩ := List.head?_eq_some_iff.mp hafter
      exact absurd (List.cons.inj h).1 (by decide)
  | case5 c rest h1 h2 h3 h4 ih =>
    refine (ih (List.cons.inj h).2).cons fun d hd hfront => ?_
    obtain ⟨rfl, below, rfl⟩ := List.cons_prefix_cons.mp hfront
    simp only [referring, List.mem_cons, List.not_mem_nil, or_false] at hd
    rcases hd with rfl | rfl | rfl | rfl
    · exact h1 below rfl rfl
    · exact h2 below rfl rfl
    · exact h3 below rfl rfl
    · exact h4 below rfl rfl
  | case6 => exact verbatim_nil

end Text

namespace Path

open Text (Verbatim expand_eq_self_iff)

/-! ## What a tilde means -/

/-- The text that a user means by a path: the home directory where a tilde is the whole first part,
and the path itself where it is not. -/
def meant (home : String) : (path : List Char) → List Char
  | ['~'] => home.toList
  | '~' :: '/' :: rest => home.toList ++ '/' :: rest
  | path => path

/-- Whether a path comes to the text that is meant by it. Without a tilde in front it does. With a
tilde as its first part it does if the home directory holds no reference; with a longer name that
begins with a tilde, if what stands for the home directory is the tilde again. -/
def KeepsMeaning (home : String) : (path : List Char) → Prop
  | '~' :: rest =>
    if rest = [] ∨ rest.head? = some '/' then Verbatim home.toList
    else Text.expand [] ['~'] rest home.toList = ['~']
  | _ => True

instance (home : String) (path : List Char) : Decidable (KeepsMeaning home path) := by
  unfold KeepsMeaning
  split <;> infer_instance

variable {home : String}

theorem meant_of_home {rest : List Char} (h : rest = [] ∨ rest.head? = some '/') :
    meant home ('~' :: rest) = home.toList ++ rest := by
  rcases h with rfl | h
  · exact (List.append_nil _).symm
  · obtain ⟨below, rfl⟩ := List.head?_eq_some_iff.mp h
    rfl

theorem meant_of_name {rest : List Char} (h : ¬ (rest = [] ∨ rest.head? = some '/')) :
    meant home ('~' :: rest) = '~' :: rest := by
  rw [not_or] at h
  unfold meant
  split
  · next heq => exact absurd (List.cons.inj heq).2 h.1
  · next heq =>
    obtain ⟨-, rfl⟩ := List.cons.inj heq
    exact absurd rfl h.2
  · rfl

/-- A path without a tilde in front means itself. -/
theorem meant_of_plain {path : List Char} (h : path.head? ≠ some '~') : meant home path = path := by
  unfold meant
  split
  · exact absurd rfl h
  · exact absurd rfl h
  · rfl

theorem expandHome_tilde (home : String) (rest : List Char) :
    expandHome home ('~' :: rest) = Text.expand [] ['~'] rest home.toList ++ rest := rfl

theorem expandHome_of_plain {path : List Char} (h : path.head? ≠ some '~') :
    expandHome home path = path := by
  unfold expandHome
  split
  · exact absurd rfl h
  · rfl

theorem keepsMeaning_of_plain {path : List Char} (h : path.head? ≠ some '~') :
    KeepsMeaning home path := by
  unfold KeepsMeaning
  split
  · exact absurd rfl h
  · trivial

theorem expandHome_eq_meant_iff (home : String) (path : List Char) :
    expandHome home path = meant home path ↔ KeepsMeaning home path := by
  by_cases htilde : path.head? = some '~'
  · obtain ⟨rest, rfl⟩ := List.head?_eq_some_iff.mp htilde
    rw [expandHome_tilde]
    by_cases h : rest = [] ∨ rest.head? = some '/'
    · rw [meant_of_home h, KeepsMeaning, if_pos h, List.append_left_inj, expand_eq_self_iff h]
    · have htilde : '~' :: rest = ['~'] ++ rest := rfl
      rw [meant_of_name h, KeepsMeaning, if_neg h, htilde, List.append_left_inj]
  · rw [expandHome_of_plain htilde, meant_of_plain htilde]
    exact iff_of_true rfl (keepsMeaning_of_plain htilde)

/-- **Tildes.** A path leads where it is meant to lead if it keeps its meaning: if no tilde is in
front of it, or if the tilde is its first part and the text of the home directory holds no
reference. Any other path is taken for a text that is not the one that is meant. -/
theorem locate_meant (home cwd path : String) :
    (KeepsMeaning home path.toList →
      locate home cwd path = resolve cwd (String.ofList (meant home path.toList))) ∧
    (¬ KeepsMeaning home path.toList →
      locate home cwd path = resolve cwd (String.ofList (expandHome home path.toList)) ∧
        expandHome home path.toList ≠ meant home path.toList) := by
  have hlocate : locate home cwd path =
      resolve cwd (String.ofList (expandHome home path.toList)) := by
    rw [resolve, String.toList_ofList]
    rfl
  rw [← expandHome_eq_meant_iff]
  refine ⟨fun h => ?_, fun h => ⟨hlocate, h⟩⟩
  rw [hlocate, h]

/-- A dollar sign that refers to nothing, one that refers to the tilde, and a name with a tilde in
front of it. -/
theorem locate_meant_dollar :
    (KeepsMeaning "/home/a$b" "~/../c".toList ∧
      locate "/home/a$b" "/w" "~/../c" = resolve "/w" "/home/a$b/../c") ∧
    (¬ KeepsMeaning "/home/$&" "~".toList ∧ locate "/home/$&" "/w" "~" = resolve "/w" "/home/~") ∧
    (¬ KeepsMeaning "/home/a" "~b".toList ∧
      locate "/home/a" "/w" "~b" = resolve "/w" "/home/ab") := by
  have hkept : KeepsMeaning "/home/a$b" "~/../c".toList := by decide
  have hreference : ¬ KeepsMeaning "/home/$&" "~".toList := by decide
  have hname : ¬ KeepsMeaning "/home/a" "~b".toList := by decide
  exact ⟨⟨hkept, (locate_meant _ "/w" _).1 hkept⟩,
    ⟨hreference, ((locate_meant _ "/w" _).2 hreference).1⟩,
    ⟨hname, ((locate_meant _ "/w" _).2 hname).1⟩⟩

/-- A home directory with a double dollar sign is not found by its tilde. -/
theorem not_locate_meant :
    ¬ ∀ home cwd path : String, isAbsolute cwd.toList = true →
      locate home cwd path = resolve cwd (String.ofList (meant home path.toList)) := by
  intro h
  have hhome := h "/home/$$" "/w" "~/x" rfl
  revert hhome
  decide

end Path

end PathSieve

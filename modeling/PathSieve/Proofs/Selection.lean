import PathSieve.Proofs.Found

/-!
# Selecting is a matter of sets

What a sieve keeps of a list of paths depends on its patterns only as two sets of readable ones: in
which order they come, how often each comes and what unreadable ones stand among them makes no
difference (`SamePatterns`). So a second selection with more exclude patterns is the same as one
selection with all of them. The errors do depend on order and repetition: there is one for each
occurrence of an unreadable pattern, in the order of the lists (`forall₂_errors_ofList`).
-/

namespace PathSieve

open Glob

/-! ## Patterns as a set -/

/-- Whether two lists hold the same readable patterns. -/
def SamePatterns (patterns others : List String) : Prop :=
  ∀ p, (Pattern.ofText p).isOk = true → (p ∈ patterns ↔ p ∈ others)

/-- Unreadable patterns can be left out. -/
theorem samePatterns_filter (patterns : List String) :
    SamePatterns (patterns.filter fun p => (Pattern.ofText p).isOk) patterns := by
  intro p hp
  rw [List.mem_filter]
  exact and_iff_left hp

/-- A pattern that matches something is readable. -/
theorem isOk_of_accepts {pattern path : String} (h : accepts? pattern path = .ok true) :
    (Pattern.ofText pattern).isOk = true := by
  cases hread : Pattern.ofText pattern with
  | ok p => rfl
  | error e => simp [accepts?, hread, Except.map] at h

theorem SamePatterns.matched_iff {patterns others : List String} (h : SamePatterns patterns others)
    (path : String) : Matched patterns path ↔ Matched others path := by
  constructor
  · rintro ⟨p, hp, haccepts⟩
    exact ⟨p, (h p (isOk_of_accepts haccepts)).mp hp, haccepts⟩
  · rintro ⟨p, hp, haccepts⟩
    exact ⟨p, (h p (isOk_of_accepts haccepts)).mpr hp, haccepts⟩

/-! ## Errors -/

theorem pattern_of_error {source : String} {e : PatternError}
    (h : Pattern.ofText source = .error e) : e.pattern = source := by
  unfold Pattern.ofText at h
  split at h
  · cases h
  · exact (congrArg PatternError.pattern (Except.error.inj h)).symm

/-- The errors of a pattern set belong to the unreadable patterns of its list, one to each. -/
theorem forall₂_errors_ofList (patterns : List String) :
    List.Forall₂ (fun p e => Pattern.ofText p = .error e ∧ e.pattern = p)
      (patterns.filter fun p => !(Pattern.ofText p).isOk) (PatternSet.ofList patterns).errors := by
  induction patterns with
  | nil => exact .nil
  | cons source sources ih =>
    rw [PatternSet.ofList]
    cases h : Pattern.ofText source with
    | ok p => rwa [List.filter_cons_of_neg (by rw [h]; exact Bool.false_ne_true)]
    | error e =>
      rw [List.filter_cons_of_pos (by rw [h]; rfl)]
      exact .cons ⟨h, pattern_of_error h⟩ ih

/-! ## Selections -/

/-- What is selected is what is included and not excluded. -/
theorem paths_select (includes excludes paths : List String) :
    ((Sieve.ofLists includes excludes).select paths).paths =
      paths.filter fun path => Matched includes path ∧ ¬ Matched excludes path := by
  refine List.filter_congr fun path _ => ?_
  rw [Bool.eq_iff_iff, decide_eq_true_iff, Walk.keeps_ofLists_iff]

/-- Lists with the same readable patterns select the same. -/
theorem SamePatterns.paths_select {includes includes' excludes excludes' : List String}
    (hincludes : SamePatterns includes' includes) (hexcludes : SamePatterns excludes' excludes)
    (paths : List String) :
    ((Sieve.ofLists includes' excludes').select paths).paths =
      ((Sieve.ofLists includes excludes).select paths).paths := by
  rw [PathSieve.paths_select, PathSieve.paths_select]
  refine List.filter_congr fun path _ => ?_
  rw [decide_eq_decide, hincludes.matched_iff, hexcludes.matched_iff]

/-- **Selections.** A selection keeps, in their order and as often as they come, the paths that some
readable include pattern matches and no readable exclude pattern does. Unreadable patterns can be
left out, and any lists with the same readable patterns select the same, whatever their order and
repetitions. Selecting again with the same include patterns is selecting once with the exclude
patterns of both. Each occurrence of an unreadable pattern gives one error for itself, includes
first. -/
theorem select_by_sets (includes excludes paths : List String) :
    ((Sieve.ofLists includes excludes).select paths).paths =
        paths.filter (fun path => Matched includes path ∧ ¬ Matched excludes path) ∧
      ((Sieve.ofLists (includes.filter fun p => (Pattern.ofText p).isOk)
          (excludes.filter fun p => (Pattern.ofText p).isOk)).select paths).paths =
        ((Sieve.ofLists includes excludes).select paths).paths ∧
      (∀ includes' excludes', SamePatterns includes' includes → SamePatterns excludes' excludes →
        ((Sieve.ofLists includes' excludes').select paths).paths =
          ((Sieve.ofLists includes excludes).select paths).paths) ∧
      (∀ more, ((Sieve.ofLists includes more).select
          ((Sieve.ofLists includes excludes).select paths).paths).paths =
        ((Sieve.ofLists includes (excludes ++ more)).select paths).paths) ∧
      List.Forall₂ (fun p e => Pattern.ofText p = .error e ∧ e.pattern = p)
        ((includes ++ excludes).filter fun p => !(Pattern.ofText p).isOk)
        ((Sieve.ofLists includes excludes).select paths).errors := by
  refine ⟨paths_select includes excludes paths, ?_, ?_, ?_, ?_⟩
  · exact (samePatterns_filter includes).paths_select (samePatterns_filter excludes) paths
  · intro includes' excludes' hincludes hexcludes
    exact hincludes.paths_select hexcludes paths
  · intro more
    rw [paths_select, paths_select, paths_select, List.filter_filter]
    refine List.filter_congr fun path _ => ?_
    rw [← Bool.decide_and, decide_eq_decide, matched_append_iff]
    tauto
  · rw [List.filter_append]
    exact List.rel_append (forall₂_errors_ofList includes) (forall₂_errors_ofList excludes)

/-- Patterns in another order, one of them twice, and unreadable ones left out. -/
theorem select_by_sets_repeated :
    SamePatterns ["b?", "*a", "*a"] ["*a", "[", "b?"] ∧ SamePatterns [] ["\\"] ∧
      ((Sieve.ofLists ["b?", "*a", "*a"] []).select ["bx", "a", "c", "a"]).paths =
        ((Sieve.ofLists ["*a", "[", "b?"] ["\\"]).select ["bx", "a", "c", "a"]).paths ∧
      ((Sieve.ofLists ["*a", "[", "b?"] ["\\"]).select ["bx", "a", "c", "a"]).paths =
        ["bx", "a", "a"] := by
  have hincludes : SamePatterns ["b?", "*a", "*a"] ["*a", "[", "b?"] := by
    intro p hp
    have hopen : p ≠ "[" := by
      rintro rfl
      revert hp
      decide
    simp [hopen, or_comm]
  have hexcludes : SamePatterns [] ["\\"] := by
    intro p hp
    have hescape : p ≠ "\\" := by
      rintro rfl
      revert hp
      decide
    simp [hescape]
  exact ⟨hincludes, hexcludes,
    (select_by_sets ["*a", "[", "b?"] ["\\"] ["bx", "a", "c", "a"]).2.2.1 _ _ hincludes hexcludes,
    by decide⟩

end PathSieve

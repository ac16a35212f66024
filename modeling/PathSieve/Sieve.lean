import PathSieve.Glob.Pattern

/-!
# Sieves: selecting paths by include and exclude patterns

A path is selected when some include pattern matches it and no exclude pattern does; without
include patterns nothing is selected. Unreadable patterns match nothing and are set aside with their
errors, so that the readable ones still select.
-/

namespace PathSieve

open Glob

/-- Patterns of one kind: the readable ones, and the errors of the others, each in order. -/
structure PatternSet where
  patterns : List Pattern
  errors : List PatternError

namespace PatternSet

/-- Reads every pattern of a list. -/
def ofList : List String → PatternSet
  | [] => ⟨[], []⟩
  | source :: sources =>
    let rest := ofList sources
    match Pattern.ofText source with
    | .ok p => { rest with patterns := p :: rest.patterns }
    | .error e => { rest with errors := e :: rest.errors }

/-- Whether some pattern of the set matches a path. -/
def accepts (set : PatternSet) (path : String) : Bool := set.patterns.any (·.accepts path)

/-- The readable patterns as they were given. -/
def sources (set : PatternSet) : List String := set.patterns.map (·.source)

end PatternSet

/-- What a selection gives: the selected paths, and every pattern that could not be read. -/
structure Selection where
  paths : List String
  errors : List PatternError
deriving DecidableEq, Repr

/-- An include set and an exclude set. -/
structure Sieve where
  includes : PatternSet
  excludes : PatternSet

namespace Sieve

/-- Reads both sets. -/
def ofLists (includes excludes : List String) : Sieve :=
  ⟨.ofList includes, .ofList excludes⟩

/-- Whether a path is selected. -/
def keeps (s : Sieve) (path : String) : Bool :=
  s.includes.accepts path && !s.excludes.accepts path

/-- The errors of both sets, includes first. -/
def errors (s : Sieve) : List PatternError := s.includes.errors ++ s.excludes.errors

/-- The selected paths of a list, in its order. -/
def select (s : Sieve) (paths : List String) : Selection :=
  ⟨paths.filter s.keeps, s.errors⟩

end Sieve

end PathSieve

import PathSieve.Glob.Pattern
import PathSieve.Path.Resolve

/-!
# Base paths: where a walk has to start

Every match of a pattern lies under the pattern's *base*: its leading segments up to the first one
with a wildcard. A pattern without wildcards names one file, so its base is the parent. The base of
a relative pattern is at least `.`, that of an absolute one at least `/`.

A walk for several patterns needs only the bases that lie in no other. `insert` keeps such a list:
a base inside one of the list changes nothing, and a base around some of the list takes the place
of the first of those and drops the others.

- `ofPattern`: the base of a pattern, readable or not.
- `contains`: whether all paths under one base are under another.
- `collect`: the bases that patterns add to a list.
-/

namespace PathSieve.Base

open Glob

/-- The leading segments of a pattern that hold no wildcard, without the file name of a pattern that
has no wildcard at all. -/
def literalSegments (pattern : String) : List (List Char) :=
  let texts := segmentTexts pattern
  if texts.all (!Segment.isWild ·) then texts.dropLast else texts.takeWhile (!Segment.isWild ·)

/-- The directory that every match of a pattern lies under. -/
def ofPattern (pattern : String) : String :=
  match literalSegments pattern with
  | [] => "."
  | [[]] => "/"
  | texts => String.ofList (Text.join ['/'] texts)

/-- Whether a base leaves the directory it is relative to. -/
def climbs (base : String) : Bool :=
  base == ".." || "../".toList.isPrefixOf base.toList

/-- Whether every path under `inner` is also under `outer`. The bases `.` and `/` contain the
relative bases that stay below and the absolute ones. -/
def contains (outer inner : String) : Bool :=
  if outer = inner then true
  else if outer = "." then !Path.isAbsolute inner.toList && !climbs inner
  else if outer = "/" then Path.isAbsolute inner.toList
  else (outer.toList ++ ['/']).isPrefixOf inner.toList

/-- Puts a base that none of the list contains into the list. -/
def put (base : String) : List String → List String
  | [] => [base]
  | b :: bs => if contains base b then base :: bs.filter (!contains base ·) else b :: put base bs

/-- Adds a base to a list of bases. -/
def insert (bases : List String) (base : String) : List String :=
  if bases.any (contains · base) then bases else put base bases

/-- Adds the base of every pattern to a list of bases. -/
def collect (bases patterns : List String) : List String :=
  patterns.foldl (fun bases pattern => insert bases (ofPattern pattern)) bases

end PathSieve.Base

/-!
# Dot segments

Parts of a path are read from left to right: an empty part and `.` mean nothing, and `..` takes back
the part before it. At the root there is nothing to take back, so a leading `..` vanishes there; in
a relative path it stays.
-/

namespace PathSieve.Path

/-- The part that stays where it is. -/
def dot : List Char := ['.']

/-- The part that goes up. -/
def dotDot : List Char := ['.', '.']

/-- Takes one more part into a path whose parts so far are given, the last of them first. -/
def step (rooted : Bool) (done : List (List Char)) (part : List Char) : List (List Char) :=
  if part = [] ∨ part = dot then done
  else if part = dotDot then
    match done with
    | [] => if rooted then [] else [dotDot]
    | last :: before => if last = dotDot then dotDot :: done else before
  else part :: done

/-- The parts of a path without empty parts, without `.`, and with `..` only at the front of a
relative path. -/
def clean (rooted : Bool) (parts : List (List Char)) : List (List Char) :=
  (parts.foldl (step rooted) []).reverse

end PathSieve.Path

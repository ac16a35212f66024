import PathSieve.FileSystem.Basic
import PathSieve.Path.Resolve

/-!
# From paths to places

A path is followed part by part, and every part needs a directory to be looked up in. `..` goes up,
a name goes down, and a symbolic link is replaced by its target, whose parts are followed before the
rest. The last name of a path may name nothing: it is then a vacant place, where something can be
made.

What happens at the last name depends on the `Aim` with which the path is followed.

| aim | a link there | a slash behind it |
|---|---|---|
| `target` | is followed | asks for a directory |
| `entry` | is followed only if a slash stands behind it | asks for a directory |
| `file` | is followed | is refused, for a file is wanted |
| `newFile` | is in the way | is refused, for a file is wanted |
| `newDirectory` | is in the way | means nothing |
| `newLink` | is in the way | is refused where nothing is |

At most `maxLinks` links are followed on one path, so a cycle of links ends in `Errno.linkLoop`.
-/

namespace PathSieve.FileSystem

/-- The most links that are followed on one path. -/
def maxLinks : Nat := 40

/-- The most bytes a path may have. -/
def maxPathBytes : Nat := 4095

/-- The most bytes a name may have. -/
def maxNameBytes : Nat := 255

/-- One part of a path; `slash` is the empty part on a side of a slash that has no text there. -/
inductive Part where
  | slash
  | stay
  | up
  | down (name : Name)
deriving DecidableEq, Repr

/-- The part that a text between slashes is. -/
def Part.ofText (s : String) : Part :=
  if h : IsName s then .down ⟨s, h⟩
  else if s = ".." then .up
  else if s = "." then .stay
  else .slash

/-- The parts of a path. -/
def partsOf (path : String) : List Part :=
  (Text.pieces '/' path.toList).map fun cs => Part.ofText (String.ofList cs)

/-- What a path is followed for: to see what it leads to, or the entry it names itself; to write a
file, or to make a file, a directory or a link where nothing is. -/
inductive Aim where
  | target
  | entry
  | file
  | newFile
  | newDirectory
  | newLink
deriving DecidableEq, Repr

namespace Aim

/-- Whether a link at the last name is followed, where `closed` says that a slash stands behind. -/
def throughLink (closed : Bool) : Aim → Bool
  | target => true
  | file => true
  | entry => closed
  | _ => false

/-- Whether a file is wanted. -/
def wantsFile : Aim → Bool
  | file => true
  | newFile => true
  | _ => false

/-- Whether what is at the last name need not be looked into, whatever it is. -/
def stopsThere : Aim → Bool
  | newDirectory => true
  | newLink => true
  | _ => false

end Aim

/-- Where a path leads: to something that is there, or to a place in a directory where nothing is. -/
inductive Target where
  | existing (here : Location)
  | vacant (slot : Slot)
deriving DecidableEq, Repr

/-- Follows parts from a place, with `jump` to go on from a link: it is given the directory that
holds the link, and the parts of the link's target with the rest behind them. -/
def follow (fs : FileSystem) (aim : Aim) (jump : Location → List Part → Except Errno Target) :
    Location → List Part → Except Errno Target
  | here, [] => .ok (.existing here)
  | here, part :: rest =>
    if fs.node? here ≠ some .directory then .error .notDirectory
    else match part with
    | .slash => follow fs aim jump here rest
    | .stay => follow fs aim jump here rest
    | .up => follow fs aim jump here.tail rest
    | .down name =>
      let last := rest.all (· = .slash)
      let closed := rest ≠ []
      if last ∧ closed ∧ aim.wantsFile then .error .isDirectory
      else if name.val.utf8ByteSize > maxNameBytes then .error .nameTooLong
      else match fs.node? (name :: here) with
      | none =>
        if last ∧ (closed → aim = .newDirectory) then .ok (.vacant ⟨here, name⟩)
        else .error .noEntry
      | some (.link target) =>
        if last ∧ !aim.throughLink closed then .ok (.existing (name :: here))
        else jump (if Path.isAbsolute target.toList then [] else here) (partsOf target ++ rest)
      | some _ =>
        if last ∧ aim.stopsThere then .ok (.existing (name :: here))
        else follow fs aim jump (name :: here) rest

/-- Follows parts from a place through at most so many links. -/
def chase (fs : FileSystem) (aim : Aim) :
    (links : Nat) → Location → List Part → Except Errno Target
  | 0 => follow fs aim fun _ _ => .error .linkLoop
  | links + 1 => follow fs aim (chase fs aim links)

/-- Refuses a text that cannot be handed to the system as the argument of the given name. -/
def checkArgument (argument text : String) : Except Errno Unit :=
  if '\x00' ∈ text.toList then .error (.nulByte argument text) else .ok ()

/-- Refuses a path that is empty or too long. -/
def checkLength (path : String) : Except Errno Unit :=
  if path = "" then .error .noEntry
  else if path.utf8ByteSize > maxPathBytes then .error .nameTooLong
  else .ok ()

/-- Where a path leads. -/
def resolve (fs : FileSystem) (aim : Aim) (path : String) : Except Errno Target := do
  checkArgument "path" path
  checkLength path
  chase fs aim maxLinks (if Path.isAbsolute path.toList then [] else fs.cwd) (partsOf path)

/-- What a path leads to, links followed. -/
def stat (fs : FileSystem) (path : String) : Except Errno Node := do
  match ← fs.resolve .target path with
  | .vacant _ => .error .noEntry
  | .existing here =>
    match fs.node? here with
    | some node => .ok node
    | none => .error .noEntry

end PathSieve.FileSystem

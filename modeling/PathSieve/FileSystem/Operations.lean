import PathSieve.FileSystem.Resolve
import PathSieve.Text.Units
import PathSieve.Walk.Basic

/-!
# Operations on file systems

Each operation takes a path as given and fails with the call that failed and the path it was about.
An operation that changes something gives the changed file system; one that fails leaves it as it
was, except that making several directories may have made some of them.

- `list`: the entries of a directory, by name in UTF-16 order. Links are entries of their own and
  never directories.
- `contentOf`: the bytes of a file.
- `store`: makes a file. Unless it may replace one, anything at the path refuses it, even a link
  that leads nowhere.
- `makeDirectories`: makes a directory and those above it that are missing.
- `makeLink`, `removeTree`: links, and removing.
-/

namespace PathSieve.FileSystem

/-- A failed call about one path. -/
def failed (errno : Errno) (call path : String) : SystemError := ⟨errno, call, [path]⟩

/-- The entries of the directory at a place, unsorted. -/
def entriesAt (fs : FileSystem) (here : Location) : List Entry :=
  (fs.nodes.filter fun held => held.1.parent = here).map fun held =>
    ⟨held.1.name.val, held.2 = .directory⟩

/-- The entries of a directory, by name. -/
def list (fs : FileSystem) (path : String) : Except SystemError (List Entry) :=
  match fs.resolve .target path with
  | .error errno => .error (failed errno "scandir" path)
  | .ok (.vacant _) => .error (failed .noEntry "scandir" path)
  | .ok (.existing here) =>
    if fs.node? here = some .directory then
      .ok ((fs.entriesAt here).mergeSort fun a b => Text.unitsLE a.name b.name)
    else .error (failed .notDirectory "scandir" path)

/-- The listing of a file system. -/
def listing (fs : FileSystem) : Listing := fun dir => (fs.list dir).mapError fun e => .caused (.system e)

/-- The bytes of a file. A directory can be opened, but not read. -/
def contentOf (fs : FileSystem) (path : String) : Except SystemError (List UInt8) :=
  match fs.stat path with
  | .error errno => .error (failed errno "open" path)
  | .ok (.file content) => .ok content
  | .ok _ => .error ⟨.isDirectory, "read", []⟩

/-- Makes a file with the given bytes. -/
def store (fs : FileSystem) (replace : Bool) (path : String) (content : List UInt8) :
    Except SystemError FileSystem :=
  match fs.resolve (if replace then .file else .newFile) path with
  | .error errno => .error (failed errno "open" path)
  | .ok (.vacant slot) => .ok (fs.put slot (.file content))
  | .ok (.existing here) =>
    if replace = false then .error (failed .alreadyExists "open" path)
    else match here, fs.node? here with
      | name :: parent, some (.file _) => .ok (fs.put ⟨parent, name⟩ (.file content))
      | _, _ => .error (failed .isDirectory "open" path)

/-- Makes one directory. -/
def makeDirectory (fs : FileSystem) (path : String) : Except Errno FileSystem :=
  match fs.resolve .newDirectory path with
  | .error errno => .error errno
  | .ok (.existing _) => .error .alreadyExists
  | .ok (.vacant slot) => .ok (fs.put slot .directory)

/-- A path up to its last slashes, if there is a text in front of them; `/` is above what lies at the
top. -/
def above? (path : String) : Option String :=
  let start := path.toList.reverse.dropWhile (· != '/')
  match start, start.dropWhile (· == '/') with
  | [], _ => none
  | _, [] => some "/"
  | _, kept => some (String.ofList kept.reverse)

/-- Makes a directory and the missing ones above it, of which there are at most `depth`. `inner`
says that the directory is wanted for another one inside it; what is there and is no directory then
counts as not being a directory rather than as being in the way. -/
def makeWithParents (depth : Nat) (inner : Bool) (path : String) (fs : FileSystem) :
    Except SystemError Unit × FileSystem :=
  match fs.makeDirectory path with
  | .ok made => (.ok (), made)
  | .error .noEntry =>
    match depth, above? path with
    | depth + 1, some parent =>
      match makeWithParents depth true parent fs with
      | (.error e, fs) => (.error e, fs)
      | (.ok (), fs) => makeWithParents depth inner path fs
    | _, _ => (.error (failed .noEntry "mkdir" path), fs)
  | .error .notDirectory => (.error (failed .notDirectory "mkdir" path), fs)
  | .error errno =>
    let wrongKind : Errno :=
      if errno = .alreadyExists ∧ inner then .notDirectory else .alreadyExists
    match fs.stat path with
    | .ok .directory => (.ok (), fs)
    | .ok _ => (.error (failed wrongKind "mkdir" path), fs)
    | .error other =>
      let cause := if errno = .alreadyExists ∧ inner then .notDirectory else other
      (.error (failed cause "mkdir" path), fs)

/-- Makes a directory and those above it that are missing. -/
def makeDirectories (fs : FileSystem) (path : String) : Except SystemError Unit × FileSystem :=
  makeWithParents (partsOf path).length false path fs

/-- The place for a new link, if its target and its path can be used. -/
def placeForLink (fs : FileSystem) (target path : String) : Except Errno Target := do
  checkArgument "target" target
  checkArgument "path" path
  checkLength target
  fs.resolve .newLink path

/-- Makes a symbolic link. -/
def makeLink (fs : FileSystem) (target path : String) : Except SystemError FileSystem :=
  match fs.placeForLink target path with
  | .error errno => .error ⟨errno, "symlink", [target, path]⟩
  | .ok (.existing _) => .error ⟨.alreadyExists, "symlink", [target, path]⟩
  | .ok (.vacant slot) => .ok (fs.put slot (.link target))

/-- Whether the last part of a path, slashes aside, is `.`. -/
def endsInDot (path : String) : Bool :=
  ((partsOf path).filter (· ≠ .slash)).getLast? = some .stay

/-- Removes what is at a path, with everything under it. A directory that is reached through a link
in last position stays. -/
def removeTree (fs : FileSystem) (path : String) : Except SystemError FileSystem :=
  match fs.resolve .entry path with
  | .error .noEntry => .ok fs
  | .error errno => .error (failed errno "lstat" path)
  | .ok (.vacant _) => .ok fs
  | .ok (.existing here) =>
    if endsInDot path then .error (failed .invalidArgument "rmdir" path)
    else match fs.resolve .newDirectory path with
    | .ok (.existing named) => .ok (if named = here then fs.remove here else fs)
    | _ => .ok fs

end PathSieve.FileSystem

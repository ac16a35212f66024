import PathSieve.FileSystem.Operations

/-!
# Hosts: where commands read and write

A command asks its host for the content of a file, the entries of a directory, directories to be
made and files to be written, and for standard input. A host may do so with any effect;
`FileSystem.host` does it on a file system that is a plain value, with standard input given.
-/

namespace PathSieve

/-- What a command may ask for. -/
structure Host (m : Type → Type) where
  contentOf : String → m (Except SystemError (List UInt8))
  list : String → m (Except SystemError (List Entry))
  makeDirectories : String → m (Except SystemError Unit)
  store : (replace : Bool) → String → List UInt8 → m (Except SystemError Unit)
  input : m (List UInt8)

/-- A file system as a host. -/
def FileSystem.host (input : List UInt8) : Host (StateM FileSystem) where
  contentOf path fs := (fs.contentOf path, fs)
  list dir fs := (fs.list dir, fs)
  makeDirectories path fs := fs.makeDirectories path
  store replace path content fs :=
    match fs.store replace path content with
    | .ok written => (.ok (), written)
    | .error e => (.error e, fs)
  input fs := (input, fs)

end PathSieve

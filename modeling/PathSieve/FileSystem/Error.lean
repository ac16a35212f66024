import PathSieve.Text.Quoted

/-!
# Errors of the system

A failed call to the file system says what kind of failure it was, which call it was, and which
paths it was about. A text with a NUL cannot be handed to the system, so no call is made for it.
-/

namespace PathSieve

/-- A kind of failure. -/
inductive Errno where
  | noEntry
  | notDirectory
  | alreadyExists
  | isDirectory
  | linkLoop
  | nameTooLong
  | accessDenied
  | invalidArgument
  | nulByte (argument text : String)
  | other (code text : String)
deriving DecidableEq, Repr

namespace Errno

/-- The short name of a kind of failure. -/
def code : Errno → String
  | noEntry => "ENOENT"
  | notDirectory => "ENOTDIR"
  | alreadyExists => "EEXIST"
  | isDirectory => "EISDIR"
  | linkLoop => "ELOOP"
  | nameTooLong => "ENAMETOOLONG"
  | accessDenied => "EACCES"
  | invalidArgument => "EINVAL"
  | nulByte _ _ => "ERR_INVALID_ARG_VALUE"
  | other code _ => code

/-- The wording of a kind of failure. -/
def text : Errno → String
  | noEntry => "no such file or directory"
  | notDirectory => "not a directory"
  | alreadyExists => "file already exists"
  | isDirectory => "illegal operation on a directory"
  | linkLoop => "too many symbolic links encountered"
  | nameTooLong => "name too long"
  | accessDenied => "permission denied"
  | invalidArgument => "invalid argument"
  | nulByte argument text =>
    "The argument '" ++ argument ++
      "' must be a string, Uint8Array, or URL without null bytes. Received " ++
      String.ofList (Text.shortened 128 (Text.quoted text.toList))
  | other _ text => text

end Errno

/-- A failed call, with the paths it named. -/
structure SystemError where
  errno : Errno
  call : String
  paths : List String
deriving DecidableEq, Repr

/-- The message of a failed call. -/
def SystemError.message (e : SystemError) : String :=
  match e.errno with
  | .nulByte _ _ => e.errno.text
  | errno =>
    let named := " -> ".intercalate (e.paths.map fun path => "'" ++ path ++ "'")
    errno.code ++ ": " ++ errno.text ++ ", " ++ e.call ++
      (if e.paths.isEmpty then "" else " " ++ named)

end PathSieve

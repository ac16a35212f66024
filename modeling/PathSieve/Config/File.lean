import PathSieve.Config.Basic
import PathSieve.Environment
import PathSieve.Host
import PathSieve.Text.Utf8

/-!
# Configuration files

- `Config.load`: the configuration in a file. A missing file is an error, except at the standard
  place, where it means a configuration without patterns.
- `Config.create`: a sample file, with the directories above it. What is there already is kept unless
  it is to be replaced.
-/

namespace PathSieve

/-- Why the content of a file gave no configuration. -/
inductive LoadCause where
  | system (e : SystemError)
  | content (fault : ConfigFault)
deriving DecidableEq, Repr

/-- Why no configuration could be loaded. -/
inductive LoadError where
  | notFound (path : String)
  | unusable (path : String) (cause : LoadCause)
deriving DecidableEq, Repr

/-- The message of a cause. -/
def LoadCause.message : LoadCause → String
  | system e => e.message
  | content fault => fault.message

namespace LoadError

/-- The message for a missing file. -/
def describeMissing (path : String) : String :=
  "Config file not found at " ++ path ++
    ".\nCheck the path, or create one with 'glob-select init --config <path>'."

/-- A text that ends a sentence. -/
def asSentence (text : String) : String :=
  match text.toList.getLast? with
  | some '.' => text
  | some '!' => text
  | some '?' => text
  | _ => text ++ "."

/-- The message for a file that is no configuration, with the message of the cause if there is
one. -/
def describeUnusable (path : String) (cause : Option String) : String :=
  asSentence (match cause with
    | some message => "Failed to load config from " ++ path ++ ": " ++ message
    | none => "Failed to parse config from " ++ path) ++
  "\nFix the JSON and glob patterns, then retry.\nTry 'glob-select --help' for details."

/-- The message of a load error. -/
def message : LoadError → String
  | notFound path => describeMissing path
  | unusable path cause => describeUnusable path (some cause.message)

end LoadError

/-- Why no sample file was written. -/
inductive CreateError where
  | alreadyExists (path : String) (cause : SystemError)
  | failed (path : String) (cause : SystemError)
deriving DecidableEq, Repr

namespace CreateError

/-- The message of a create error. -/
def message : CreateError → String
  | alreadyExists path _ => "Config file already exists at " ++ path ++ ". Use --force to overwrite"
  | failed path cause => "Failed to create config file at " ++ path ++ ": " ++ cause.message

/-- The failed call behind a create error. -/
def cause : CreateError → SystemError
  | alreadyExists _ cause => cause
  | failed _ cause => cause

end CreateError

namespace Config

/-- A configuration that was loaded; `missing` is the standard place if there was no file. -/
structure Loaded where
  config : Config
  missing : Option String
deriving DecidableEq, Repr

/-- What the result of reading a file means for the configuration. -/
def ofContent (standard path : String) :
    Except SystemError (List UInt8) → Except LoadError Loaded
  | .ok content =>
    match ofText (String.ofList (Text.Utf8.decode content)) with
    | .ok config => .ok ⟨config, none⟩
    | .error fault => .error (.unusable path (.content fault))
  | .error e =>
    if e.errno ≠ .noEntry then .error (.unusable path (.system e))
    else if path = standard then .ok ⟨empty, some path⟩
    else .error (.notFound path)

variable {m : Type → Type} [Monad m]

/-- Loads the configuration from a path, or from the standard place. -/
def load (host : Host m) (env : Environment) (path : Option String) :
    m (Except LoadError Loaded) := do
  let place := env.locate (path.getD env.defaultConfig)
  return ofContent (env.locate env.defaultConfig) place (← host.contentOf place)

/-- The sample configuration, which selects everything but what is rarely wanted. -/
def sample : Config := ⟨["**"], [".git", "node_modules", "**/*.log"]⟩

/-- The text of the sample file. -/
def sampleText : String :=
  "\x7b\n  \"include\": [\"**\"],\n  \"exclude\": [\".git\", \"node_modules\", \"**/*.log\"]\n\x7d\n"

/-- The error that a failed call is when a file is created. -/
def createError (path : String) (force : Bool) (e : SystemError) : CreateError :=
  if e.errno = .alreadyExists ∧ force = false then .alreadyExists path e else .failed path e

/-- Writes the sample file at a path; `force` replaces a file that is there. -/
def create (host : Host m) (env : Environment) (path : String) (force : Bool) :
    m (Except CreateError Unit) := do
  let place := env.locate path
  match ← host.makeDirectories (Path.parent place) with
  | .error e => return .error (createError place force e)
  | .ok () =>
    let written ← host.store force place (Text.Utf8.encode sampleText.toList)
    return written.mapError (createError place force)

end Config

end PathSieve

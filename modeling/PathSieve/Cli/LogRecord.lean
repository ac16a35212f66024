import PathSieve.Config.Basic
import PathSieve.Json.Printer
import PathSieve.Log
import PathSieve.Walk.Basic

/-!
# Log records

What a run writes to its log. Each record is one line of JSON.

- `LogRecord.ofEvent?`, `LogRecord.searching`, `LogRecord.unconfigured`: what is logged.
- `LogRecord.line`: how it is written.
-/

namespace PathSieve.Cli

/-- The value of a field of a log record. -/
inductive FieldValue where
  | text (s : String)
  | texts (xs : List String)
deriving DecidableEq, Repr

/-- A log record: which part of the program it is from, how important it is, and what it says. -/
structure LogRecord where
  level : LogLevel
  part : String
  fields : List (String × FieldValue)
  message : String
deriving DecidableEq, Repr

/-- The log record of an event of a walk. Listing a directory is not logged. -/
def LogRecord.ofEvent? : Event → Option LogRecord
  | .listed _ => none
  | .walkingBase base dir =>
    some ⟨.debug, "find", [("base", .text base), ("dir", .text dir)], "walking base path"⟩
  | .baseExcluded base => some ⟨.debug, "find", [("base", .text base)], "base path is excluded"⟩
  | .directorySkipped path =>
    some ⟨.trace, "find", [("path", .text path)], "skipping excluded directory"⟩

/-- The log record of a search. -/
def LogRecord.searching (root : String) (patterns : Config) : LogRecord :=
  ⟨.debug, "find", [("root", .text root), ("include", .texts patterns.includes),
    ("exclude", .texts patterns.excludes)], "finding files"⟩

/-- The log record of a configuration that is missing at its standard place. -/
def LogRecord.unconfigured (path : String) : LogRecord :=
  ⟨.debug, "config", [("path", .text path)], "no config file, using empty pattern sets"⟩

/-- A field's value in JSON. -/
def FieldValue.render : FieldValue → String
  | text s => Json.quote s
  | texts xs => "[" ++ ",".intercalate (xs.map Json.quote) ++ "]"

/-- The line of a record: its level as a number, where it is from, its fields, and what it says. -/
def LogRecord.line (r : LogRecord) : String :=
  let members : List (String × String) :=
    ("level", (Json.Number.ofNat r.level.rank).render) :: ("module", Json.quote r.part) ::
      r.fields.map (fun field => (field.1, field.2.render)) ++ [("msg", Json.quote r.message)]
  "\x7b" ++ ",".intercalate (members.map fun member => Json.quote member.1 ++ ":" ++ member.2) ++
    "\x7d\n"

end PathSieve.Cli

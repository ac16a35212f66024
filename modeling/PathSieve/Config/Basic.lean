import PathSieve.Json.Parser
import PathSieve.Json.Printer

/-!
# Configurations

A configuration is a JSON object with two lists of patterns, `include` and `exclude`. Either may be
missing, which means the empty list, and other fields mean nothing. What is wrong with a value is
reported as a list of issues: one for a value that is no object, else one for every list that is no
array and for every item that is no string, in order.

- `Config.ofValue`, `Config.ofText`: reading.
- `Config.override`: lists given for one run in place of the configured ones.
-/

namespace PathSieve

open Json

/-- The two lists of patterns. -/
structure Config where
  includes : List String
  excludes : List String
deriving DecidableEq, Repr

/-- One step into a value: a field of an object or an item of an array. -/
inductive Place where
  | field (name : String)
  | item (index : Nat)
deriving DecidableEq, Repr

/-- A value of the wrong kind, and where it stands. -/
structure Issue where
  expected : Kind
  received : Kind
  path : List Place
deriving DecidableEq, Repr

/-- Why a text is no configuration. -/
inductive ConfigFault where
  | malformed (fault : SyntaxFault)
  | misshapen (issues : List Issue)
deriving DecidableEq, Repr

/-- The name or the index of a step, as JSON. -/
def Place.toValue : Place → Value
  | .field name => .string name
  | .item index => .number (.ofNat index)

namespace Issue

/-- The message of an issue. -/
def message (i : Issue) : String := "Expected " ++ i.expected.name ++ ", received " ++ i.received.name

/-- An issue as JSON. -/
def toValue (i : Issue) : Value :=
  .object [("code", .string "invalid_type"), ("expected", .string i.expected.name),
    ("received", .string i.received.name), ("path", .array (i.path.map Place.toValue)),
    ("message", .string i.message)]

end Issue

/-- The message of a fault. -/
def ConfigFault.message : ConfigFault → String
  | malformed fault => fault.message
  | misshapen issues => (Value.array (issues.map Issue.toValue)).pretty

namespace Config

/-- No patterns at all. -/
def empty : Config := ⟨[], []⟩

/-- The strings among the items of an array, and the issues of the others, from an index on. -/
def readItems (name : String) : (index : Nat) → List Value → List String × List Issue
  | _, [] => ([], [])
  | index, .string s :: vs =>
    let (texts, issues) := readItems name (index + 1) vs
    (s :: texts, issues)
  | index, v :: vs =>
    let (texts, issues) := readItems name (index + 1) vs
    (texts, ⟨.string, v.kind, [.field name, .item index]⟩ :: issues)

/-- The patterns that a field of a configuration lists, and its issues. -/
def readList (name : String) (fields : List (String × Value)) : List String × List Issue :=
  match Value.lookup name fields with
  | none => ([], [])
  | some (.array items) => readItems name 0 items
  | some v => ([], [⟨.array, v.kind, [.field name]⟩])

/-- The configuration that a value is, or its issues. -/
def ofValue : Value → Except (List Issue) Config
  | .object fields =>
    let (includes, issues) := readList "include" fields
    let (excludes, others) := readList "exclude" fields
    if issues ++ others = [] then .ok ⟨includes, excludes⟩ else .error (issues ++ others)
  | v => .error [⟨.object, v.kind, []⟩]

/-- The configuration that a text is. -/
def ofText (text : String) : Except ConfigFault Config :=
  match Value.ofText text with
  | .error fault => .error (.malformed fault)
  | .ok v => (ofValue v).mapError .misshapen

/-- A configuration as JSON. -/
def toValue (c : Config) : Value :=
  .object [("include", .ofStrings c.includes), ("exclude", .ofStrings c.excludes)]

/-- The lists for one run: a list that is given takes the place of the configured one. -/
def override (c : Config) (includes excludes : Option (List String)) : Config :=
  ⟨includes.getD c.includes, excludes.getD c.excludes⟩

end Config

end PathSieve

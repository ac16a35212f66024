import PathSieve.Usage.Scan
import PathSieve.Usage.Suggest

/-!
# What a command line asks for

The words in front of the command are read with the program's own options, the rest with those of
the command. A command line that names no command means the standard one, except that a request for
help among its words is one for the program's help. Asking for help comes before what may be wrong
with the words, unless a value is missing, which already keeps them from being read.
-/

namespace PathSieve.Usage

/-- A command with its options and operands, and the program's options. -/
structure Invocation where
  command : CommandSpec
  globals : List Given
  given : List Given
  operands : List String
deriving DecidableEq, Repr

/-- What is wrong with a command line. -/
inductive Misuse where
  | missingValue (option : OptionSpec)
  | unknownOption (word : String) (suggestions : List String)
  | missingArgument (name : String)
deriving DecidableEq, Repr

/-- The suggestions as they follow a message. -/
def suggestionText : List String → String
  | [] => ""
  | [flag] => "\n(Did you mean " ++ flag ++ "?)"
  | flags => "\n(Did you mean one of " ++ ", ".intercalate flags ++ "?)"

/-- The message for a misuse. -/
def Misuse.message : Misuse → String
  | missingValue option => "error: option '" ++ option.flags ++ "' argument missing"
  | unknownOption word suggestions =>
    "error: unknown option '" ++ word ++ "'" ++ suggestionText suggestions
  | missingArgument name => "error: missing required argument '" ++ name ++ "'"

/-- How a command line ends that runs no command. -/
inductive Ending where
  | version
  | help (command : Option CommandSpec)
  | misuse (m : Misuse)
deriving DecidableEq, Repr

/-- The ending that an interruption is. -/
def Interruption.ending : Interruption → Ending
  | version => .version
  | missingValue option => .misuse (.missingValue option)

namespace CommandSpec

/-- The options of a command that an unknown word may have been meant for. Only long options are
taken for mistyped. -/
def suggestions (c : CommandSpec) (word : String) : List String :=
  match word.toList with
  | '-' :: '-' :: rest =>
    (similar (String.ofList rest) (c.shownOptions.map (·.long))).map ("--" ++ ·)
  | _ => []

/-- The first required argument that operands leave out. -/
def missingArgument? (c : CommandSpec) (operands : List String) : Option ArgumentSpec :=
  (c.arguments.drop operands.length).find? (·.required)

/-- Reads the words that are left to a command. -/
def read (c : CommandSpec) (globals : List Given) (operands words : List String) :
    Except Ending Invocation := do
  let s ← (Grammar.scan ⟨c.options, none, []⟩ words).mapError Interruption.ending
  let operands := operands ++ s.operands
  if asksForHelp s.unknown then .error (.help (some c))
  else match s.unknown, c.missingArgument? operands with
    | word :: _, _ => .error (.misuse (.unknownOption word (c.suggestions word)))
    | [], some argument => .error (.misuse (.missingArgument argument.name))
    | [], none => .ok ⟨c, globals, s.given, operands⟩

end CommandSpec

/-- Reads a command line. -/
def ProgramSpec.read (p : ProgramSpec) (words : List String) : Except Ending Invocation := do
  let grammar : Grammar :=
    ⟨p.root.options, p.root.options.find? (·.long == "version"), p.commands.map (·.name)⟩
  let s ← (grammar.scan words).mapError Interruption.ending
  match p.commands.find? (fun c => s.operands.head? == some c.name) with
  | some c => c.read s.given s.operands.tail s.unknown
  | none =>
    if asksForHelp s.unknown then .error (.help none)
    else p.standard.read s.given s.operands s.unknown

/-! ## Looking options up -/

/-- Whether an option is given. -/
def isGiven (given : List Given) (long : String) : Bool := given.any (·.option.long == long)

/-- The values that an option is given, in order, or none if it is not given. -/
def valuesOf? (given : List Given) (long : String) : Option (List String) :=
  let named := given.filter (·.option.long == long)
  if named.isEmpty then none else some (named.filterMap (·.value))

/-- The value that an option is given last. -/
def valueOf? (given : List Given) (long : String) : Option String :=
  (valuesOf? given long).bind List.getLast?

end PathSieve.Usage

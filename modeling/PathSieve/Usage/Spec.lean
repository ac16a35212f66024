/-!
# What a command line may hold

A program has options of its own and several commands, one of which is meant when none is named.
Each command has options and arguments. From this description command lines are read
(`Usage.Scan`, `Usage.Invocation`) and help is written (`Usage.Help`).
-/

namespace PathSieve.Usage

/-- A positional argument. The value it has when it is left out, if any, is shown in help. -/
structure ArgumentSpec where
  name : String
  description : String
  required : Bool
  variadic : Bool
  fallback : Option String
deriving DecidableEq, Repr

/-- The value of an option. A variadic one may go on over several words. -/
structure ValueSpec where
  name : String
  variadic : Bool
deriving DecidableEq, Repr

/-- An option, with or without a value. The value it has when it is left out, if any, is shown in
help. -/
structure OptionSpec where
  short : Option Char
  long : String
  value : Option ValueSpec
  description : String
  fallback : Option String
deriving DecidableEq, Repr

/-- A command, or the program itself. The epilogue closes its help. -/
structure CommandSpec where
  name : String
  description : String
  arguments : List ArgumentSpec
  options : List OptionSpec
  epilogue : String
deriving DecidableEq, Repr

/-- A program with commands; `standard` is the one meant when none is named. -/
structure ProgramSpec where
  root : CommandSpec
  commands : List CommandSpec
  standard : CommandSpec
  version : String
deriving DecidableEq, Repr

/-- A name between the brackets that say whether it may be left out. -/
def bracketed (required variadic : Bool) (name : String) : String :=
  let inner := name ++ if variadic then "..." else ""
  if required then "<" ++ inner ++ ">" else "[" ++ inner ++ "]"

/-- An argument as it is written in usage. -/
def ArgumentSpec.term (a : ArgumentSpec) : String := bracketed a.required a.variadic a.name

namespace OptionSpec

/-- The long form of an option. -/
def longFlag (o : OptionSpec) : String := "--" ++ o.long

/-- The short form of an option. -/
def shortFlag? (o : OptionSpec) : Option String := o.short.map fun c => "-" ++ c.toString

/-- An option as it is written in usage. -/
def flags (o : OptionSpec) : String :=
  (match o.shortFlag? with
    | some flag => flag ++ ", "
    | none => "") ++ o.longFlag ++
  (match o.value with
    | some value => " " ++ bracketed true value.variadic value.name
    | none => "")

/-- Whether a word is one of the forms of an option. -/
def isWrittenAs (o : OptionSpec) (word : String) : Bool :=
  word == o.longFlag || some word == o.shortFlag?

end OptionSpec

/-- The option for help, which every command has. -/
def helpOption : OptionSpec :=
  { short := some 'h', long := "help", value := none, description := "display help for command",
    fallback := none }

/-- The option that an option list writes as a word. -/
def findOption (options : List OptionSpec) (word : String) : Option OptionSpec :=
  options.find? (·.isWrittenAs word)

/-- Whether some word asks for help. -/
def asksForHelp (words : List String) : Bool := words.any helpOption.isWrittenAs

/-- The options of a command that help shows. -/
def CommandSpec.shownOptions (c : CommandSpec) : List OptionSpec := c.options ++ [helpOption]

end PathSieve.Usage

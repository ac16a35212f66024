import PathSieve.Environment
import PathSieve.Report
import PathSieve.Usage.Invocation

/-!
# The program's commands and options

- `program`: what can be written on the command line.
- `Command.ofInvocation`: the command that a command line asks for, with its options by meaning.
-/

namespace PathSieve.Cli

open Usage

/-- The option for include or exclude patterns, in the words of a command about files or paths. -/
def patternOption (short : Char) (long verb things : String) : OptionSpec :=
  { short := some short, long := long, value := some ⟨"pattern", true⟩,
    description := verb ++ " " ++ things ++
      " matching any of these patterns (replaces the configured set)",
    fallback := none }

/-- An option without a value. -/
def switch (short : Option Char) (long description : String) : OptionSpec :=
  { short := short, long := long, value := none, description := description, fallback := none }

/-- The options of the commands that select. -/
def selectOptions (things : String) : List OptionSpec :=
  [patternOption 'i' "include" "select" things, patternOption 'e' "exclude" "drop" things,
    switch none "native" "print paths with the platform's separator",
    switch (some 'z') "null" "terminate each printed path with NUL"]

/-- The command that walks a directory. -/
def findCommand : CommandSpec where
  name := "find"
  description := "Walk a directory and print the files selected by the patterns (default)"
  arguments := [
    { name := "root", description := "directory to walk", required := false, variadic := false,
      fallback := some "\".\"" }]
  options := selectOptions "files"
  epilogue := "\nOnly the literal directories the include patterns start with are walked.\n" ++
    "This is the default command when no subcommand is specified.\n"

/-- The command that selects from given paths. -/
def filterCommand : CommandSpec where
  name := "filter"
  description := "Print the given paths that are selected by the patterns"
  arguments := [
    { name := "paths",
      description := "candidate paths; read from stdin, one per line, when omitted",
      required := false, variadic := true, fallback := none }]
  options := selectOptions "paths"
  epilogue := ""

/-- The command that shows where a walk starts. -/
def basePathsCommand : CommandSpec where
  name := "base-paths"
  description := "Print the directories a walk for these patterns starts from"
  arguments := [
    { name := "patterns", description := "glob patterns", required := true, variadic := true,
      fallback := none }]
  options := []
  epilogue := ""

/-- The command that writes a sample configuration. -/
def initCommand : CommandSpec where
  name := "init"
  description := "Initialize a new configuration file"
  arguments := []
  options := [
    { short := some 'f', long := "force", value := none,
      description := "Overwrite existing config file", fallback := some "false" }]
  epilogue := "\nThis command creates a sample configuration file with default include and " ++
    "exclude patterns.\n"

/-- The program's own options and its help. -/
def rootCommand : CommandSpec where
  name := Environment.programName
  description :=
    "Select files from a list or a directory walk with include and exclude glob patterns"
  arguments := []
  options := [
    switch (some 'V') "version" "output the version number",
    { short := some 'c', long := "config", value := some ⟨"path", false⟩,
      description := "path to configuration file", fallback := none },
    switch (some 'v') "verbose" "enable verbose output"]
  epilogue := "\nExamples:\n" ++
    "  glob-select -i '**/*.ts' -e '**/*.test.ts'   # Find TypeScript sources (default)\n" ++
    "  glob-select find src -i '**' -e node_modules   # Walk another root\n" ++
    "  git ls-files | glob-select filter -i 'docs/**' # Filter paths from stdin\n" ++
    "  glob-select base-paths 'src/**' '/opt/app/*'   # Show where a walk would start\n"

/-- What can be written on the command line. -/
def program : ProgramSpec where
  root := rootCommand
  commands := [initCommand, findCommand, filterCommand, basePathsCommand]
  standard := findCommand
  version := "0.1.0"

/-- The options of a command that selects. -/
structure SelectOptions where
  includes : Option (List String)
  excludes : Option (List String)
  format : Report.Format
deriving DecidableEq, Repr

/-- A command with its operands and options. -/
inductive Command where
  | find (root : String) (options : SelectOptions)
  | filter (paths : List String) (options : SelectOptions)
  | basePaths (patterns : List String)
  | init (force : Bool)
deriving DecidableEq, Repr

/-- A command, and the options that hold for all commands. -/
structure Request where
  command : Command
  config : Option String
  verbose : Bool
deriving DecidableEq, Repr

/-- The options of a command that selects, as they are given. -/
def SelectOptions.ofGiven (given : List Given) : SelectOptions where
  includes := valuesOf? given "include"
  excludes := valuesOf? given "exclude"
  format := ⟨isGiven given "native", isGiven given "null"⟩

/-- The command that an invocation means. -/
def Command.ofInvocation (i : Invocation) : Command :=
  if i.command = filterCommand then .filter i.operands (.ofGiven i.given)
  else if i.command = basePathsCommand then .basePaths i.operands
  else if i.command = initCommand then .init (isGiven i.given "force")
  else .find (i.operands.head?.getD ".") (.ofGiven i.given)

/-- Reads the command line. -/
def Request.ofWords (words : List String) : Except Ending Request := do
  let i ← program.read words
  return ⟨.ofInvocation i, valueOf? i.globals "config", isGiven i.globals "verbose"⟩

end PathSieve.Cli
